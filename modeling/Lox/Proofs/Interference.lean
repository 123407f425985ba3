import Lox.Proofs.Bindings
import Lox.Proofs.Leads
import Lox.Proofs.Run
/-!
# Unrelated globals

Statements do not see variables that they do not name. Two runs of the same statements, from globals that agree
on the names in the statements and may differ in all others, in number and in order, do the same: they print
the same, report the same and leave globals that agree on these names again. And no run touches a global that
the statements do not name.

Both are about environments that agree on some names, scope by scope: the environments of the two runs agree on
the names of the statements, and the environments before and after a run agree on all others.
-/

namespace Lox

/-! ### The names in statements -/

def Expr.names : Expr → List String
  | literal _ _ => []
  | group inner _ => inner.names
  | unary _ right _ => right.names
  | binary left _ right _ => left.names ++ right.names
  | logical left _ right _ => left.names ++ right.names
  | var name => [name.lexeme]
  | assign name value => name.lexeme :: value.names

namespace Stmt

def Part.names : Part → List String
  | expression e => e.names
  | declaration name => [name.lexeme]

/-- The names that occur in statements: as a variable, as the target of an assignment or in a declaration. -/
def namesIn (slots : List Slot) : List String :=
  (slotParts slots).flatMap Part.names

def Part.Within (on : String → Prop) (part : Part) : Prop :=
  ∀ name ∈ part.names, on name

theorem within_namesIn (slots : List Slot) : ∀ part ∈ slotParts slots, part.Within (· ∈ namesIn slots) := by
  intro part hpart name hname
  exact List.mem_flatMap.2 ⟨part, hpart, hname⟩

end Stmt

/-! ### Environments that agree on names -/

namespace Environment

/-- The names at issue have the same values in the two environments, scope by scope. -/
def Agrees (on : String → Prop) (env other : Environment) : Prop :=
  ∀ name, on name → env.values name = other.values name

variable {on : String → Prop} {env env' : Environment} {name : String}

namespace Agrees

theorem refl (env : Environment) : env.Agrees on env :=
  fun _ _ => rfl

theorem trans {first second third : Environment} (h : first.Agrees on second) (h' : second.Agrees on third) :
    first.Agrees on third :=
  fun name hname => (h name hname).trans (h' name hname)

theorem push (h : env.Agrees on env') : env.push.Agrees on env'.push := by
  intro name hname
  rw [values_push, values_push, h name hname]

theorem pop (h : env.Agrees on env') : env.pop.Agrees on env'.pop := by
  intro name hname
  rw [values_pop, values_pop, h name hname]

theorem toGlobals (h : env.Agrees on env') : env.toGlobals.Agrees on env'.toGlobals := by
  intro name hname
  rw [values_toGlobals, values_toGlobals, h name hname]

theorem get (h : env.Agrees on env') (hname : on name) : env.get name = env'.get name := by
  rw [get_eq, get_eq, h name hname]

theorem globals (h : env.Agrees on env') (hname : on name) : env.globals.get? name = env'.globals.get? name := by
  rw [get?_globals, get?_globals, h name hname]

/-- At the global scope it is enough to look at the globals. -/
theorem of_globals (hdepth : env.depth = 1) (hdepth' : env'.depth = 1)
    (h : ∀ name, on name → env.globals.get? name = env'.globals.get? name) : env.Agrees on env' := by
  intro name hname
  have hvalues := h name hname
  rw [← toGlobals_of_depth hdepth, ← toGlobals_of_depth hdepth', values_toGlobals, values_toGlobals,
    ← get?_globals, ← get?_globals, hvalues]

/-- A name that is declared or assigned is not seen by who asks for other names. -/
theorem of_define {after : Environment} {value : Value} (hname : ¬ on name)
    (h : env.define name value = .ok after) : env.Agrees on after := by
  intro other hother
  have hne : name ≠ other := fun heq => hname (heq ▸ hother)
  exact (values_define_of_ne h hne).symm

theorem of_assign {after : Environment} {value : Value} (hname : ¬ on name)
    (h : env.assign name value = .ok after) : env.Agrees on after := by
  intro other hother
  have hne : name ≠ other := fun heq => hname (heq ▸ hother)
  exact (values_assign_of_ne h hne).symm

end Agrees

theorem evalFrame_agrees : EvalFrame (¬ on ·) (Agrees on) where
  refl := .refl
  trans := .trans
  assign := .of_assign

end Environment

/-! ### Computations that run alike -/

/-- The outcomes are the same value or the same error, in states that are related. -/
inductive Alike {ε σ α : Type} (R : σ → σ → Prop) : EStateM.Result ε σ α → EStateM.Result ε σ α → Prop where
  | ok {a : α} {s t : σ} : R s t → Alike R (.ok a s) (.ok a t)
  | error {e : ε} {s t : σ} : R s t → Alike R (.error e s) (.error e t)

/-- From related states the computations come to outcomes that are alike. -/
def RunAlike {ε σ α : Type} (R : σ → σ → Prop) (x y : EStateM ε σ α) : Prop :=
  ∀ s t, R s t → Alike R (x s) (y t)

namespace RunAlike

variable {ε σ α β : Type} {R : σ → σ → Prop}

theorem pure (a : α) : RunAlike R (pure a : EStateM ε σ α) (pure a) :=
  fun _ _ h => .ok h

theorem bind {x y : EStateM ε σ α} {f g : α → EStateM ε σ β} (hx : RunAlike R x y)
    (hf : ∀ a, RunAlike R (f a) (g a)) : RunAlike R (x >>= f) (y >>= g) := by
  intro s t h
  have hfirst := hx s t h
  rw [bind_apply, bind_apply]
  generalize x s = left at hfirst ⊢
  generalize y t = right at hfirst ⊢
  cases hfirst with
  | ok hafter => exact hf _ _ _ hafter
  | error hafter => exact .error hafter

theorem repeatWhile {R : Machine → Machine → Prop} {test test' : Execution Bool} {body body' : Execution Unit}
    (htest : RunAlike R test test') (hbody : RunAlike R body body') (rounds : Nat) :
    RunAlike R (Execution.repeatWhile test body rounds) (Execution.repeatWhile test' body' rounds) := by
  induction rounds with
  | zero => exact fun _ _ h => .error h
  | succ rounds ih =>
    rw [Execution.repeatWhile, Execution.repeatWhile]
    refine htest.bind fun holds => ?_
    cases holds with
    | true => exact hbody.bind fun _ => ih
    | false => exact .pure _

end RunAlike

/-! ### Evaluation -/

namespace Evaluation

variable {on : String → Prop} {name : Token}

theorem runAlike_ofExcept {α : Type} (result : Except RuntimeError α) :
    RunAlike (Environment.Agrees on) (ofExcept result) (ofExcept result) := by
  intro env env' h
  cases result with
  | ok a => exact .ok h
  | error e => exact .error h

theorem runAlike_get (hname : on name.lexeme) : RunAlike (Environment.Agrees on) (get name) (get name) := by
  intro env env' h
  rw [get, get, h.get hname]
  cases env'.get name.lexeme with
  | ok value => exact .ok h
  | error fault => exact .error h

theorem runAlike_assign (hname : on name.lexeme) (value : Value) :
    RunAlike (Environment.Agrees on) (assign name value) (assign name value) := by
  intro env env' h
  have hvalues := h _ hname
  rw [assign, assign]
  rcases env.assign_cases name.lexeme value with ⟨hleft, hmisses⟩ | ⟨after, hleft, hsome, hafter⟩
  · rcases env'.assign_cases name.lexeme value with ⟨hright, -⟩ | ⟨_, -, hsome, -⟩
    · rw [hleft, hright]
      exact .error h
    · rw [← hvalues, hmisses] at hsome
      simp at hsome
  · rcases env'.assign_cases name.lexeme value with ⟨-, hmisses⟩ | ⟨after', hright, -, hafter'⟩
    · rw [hvalues, hmisses] at hsome
      simp at hsome
    · rw [hleft, hright]
      refine .ok fun other hother => ?_
      rw [hafter, hafter', hvalues, h other hother]

theorem runAlike_define (hname : on name.lexeme) (value : Value) :
    RunAlike (Environment.Agrees on) (define name value) (define name value) := by
  intro env env' h
  have hvalues := h _ hname
  rw [define, define]
  rcases env.define_cases name.lexeme value with ⟨hleft, hsome⟩ | ⟨after, hleft, hnone, hafter⟩
  · rcases env'.define_cases name.lexeme value with ⟨hright, -⟩ | ⟨_, -, hnone, -⟩
    · rw [hleft, hright]
      exact .error h
    · rw [hvalues, hnone] at hsome
      simp at hsome
  · rcases env'.define_cases name.lexeme value with ⟨-, hsome⟩ | ⟨after', hright, -, hafter'⟩
    · rw [← hvalues, hnone] at hsome
      simp at hsome
    · rw [hleft, hright]
      refine .ok fun other hother => ?_
      rw [hafter, hafter', hvalues, h other hother]

end Evaluation

namespace Expr

variable {on : String → Prop}

theorem runAlike_eval {e : Expr} (h : ∀ name ∈ e.names, on name) :
    RunAlike (Environment.Agrees on) e.eval e.eval := by
  induction e with
  | literal value line => exact .pure value
  | group inner line ih => exact ih h
  | unary op right line ih => exact (ih h).bind fun _ => Evaluation.runAlike_ofExcept _
  | binary left op right line ihleft ihright =>
    obtain ⟨hleft, hright⟩ := List.forall_mem_append.1 h
    exact (ihleft hleft).bind fun _ => (ihright hright).bind fun _ => Evaluation.runAlike_ofExcept _
  | logical left op right line ihleft ihright =>
    obtain ⟨hleft, hright⟩ := List.forall_mem_append.1 h
    refine (ihleft hleft).bind fun value => ?_
    split
    · exact .pure value
    · exact ihright hright
  | var name => exact Evaluation.runAlike_get (h _ List.mem_cons_self)
  | assign name value ih =>
    obtain ⟨hname, hvalue⟩ := List.forall_mem_cons.1 h
    refine (ih hvalue).bind fun value => ?_
    exact (Evaluation.runAlike_assign hname value).bind fun _ => .pure value

theorem assigned_subset_names (e : Expr) : e.assigned ⊆ e.names := by
  induction e with
  | literal value line => exact List.nil_subset _
  | group inner line ih => exact ih
  | unary op right line ih => exact ih
  | binary left op right line ihleft ihright | logical left op right line ihleft ihright =>
    exact List.append_subset.2
      ⟨List.subset_append_of_subset_left _ ihleft, List.subset_append_of_subset_right _ ihright⟩
  | var name => exact List.nil_subset _
  | assign name value ih => exact List.cons_subset_cons name.lexeme ih

end Expr

/-! ### Execution -/

/-- What is written to the sinks is the same, if they have the same room. -/
theorem Sink.write_alike {sink sink' : Sink} (h : sink.room = sink'.room) (bytes : ByteArray) :
    ∃ added room failure, sink.write bytes = (⟨sink.written ++ added, room⟩, failure)
      ∧ sink'.write bytes = (⟨sink'.written ++ added, room⟩, failure) := by
  rw [write, write, ← h]
  cases sink.room with
  | none => exact ⟨bytes, none, none, rfl, rfl⟩
  | some room =>
    dsimp only
    split
    · exact ⟨bytes, _, none, rfl, rfl⟩
    · exact ⟨bytes.extract 0 room.bytes, _, some room.failure, rfl, rfl⟩

/-- The machines of two runs that started with sinks in which these bytes were written: the environments agree on
the names at issue, the sinks have the same room, and the same bytes have been added to them. -/
structure Machine.Agrees (on : String → Prop) (start start' : ByteArray) (machine machine' : Machine) : Prop where
  environment : machine.environment.Agrees on machine'.environment
  room : machine.sink.room = machine'.sink.room
  written : ∃ added, machine.sink.written = start ++ added ∧ machine'.sink.written = start' ++ added

namespace Execution

variable {on : String → Prop} {start start' : ByteArray} {α : Type}

theorem runAlike_onEnvironment {x y : Evaluation α} (h : RunAlike (Environment.Agrees on) x y) :
    RunAlike (Machine.Agrees on start start') (onEnvironment x) (onEnvironment y) := by
  intro machine machine' hmachine
  have hresult := h _ _ hmachine.environment
  rw [onEnvironment, onEnvironment]
  generalize x machine.environment = left at hresult ⊢
  generalize y machine'.environment = right at hresult ⊢
  cases hresult with
  | ok hafter => exact .ok ⟨hafter, hmachine.room, hmachine.written⟩
  | error hafter => exact .error ⟨hafter, hmachine.room, hmachine.written⟩

theorem runAlike_inScope {x y : Execution α} (h : RunAlike (Machine.Agrees on start start') x y) :
    RunAlike (Machine.Agrees on start start') (inScope x) (inScope y) := by
  intro machine machine' hmachine
  have hresult := h { machine with environment := machine.environment.push }
    { machine' with environment := machine'.environment.push }
    ⟨hmachine.environment.push, hmachine.room, hmachine.written⟩
  rw [inScope, inScope]
  generalize x _ = left at hresult ⊢
  generalize y _ = right at hresult ⊢
  cases hresult with
  | ok hafter => exact .ok ⟨hafter.environment.pop, hafter.room, hafter.written⟩
  | error hafter => exact .error ⟨hafter.environment.pop, hafter.room, hafter.written⟩

theorem runAlike_printLine (text : String) :
    RunAlike (Machine.Agrees on start start') (printLine text) (printLine text) := by
  intro machine machine' hmachine
  obtain ⟨added, hwritten, hwritten'⟩ := hmachine.written
  obtain ⟨more, room, failure, hwrite, hwrite'⟩ := Sink.write_alike hmachine.room (text ++ "\n").toUTF8
  have hafter : Machine.Agrees on start start'
      { machine with sink := ⟨machine.sink.written ++ more, room⟩ }
      { machine' with sink := ⟨machine'.sink.written ++ more, room⟩ } := by
    refine ⟨hmachine.environment, rfl, added ++ more, ?_, ?_⟩
    · rw [hwritten, ByteArray.append_assoc]
    · rw [hwritten', ByteArray.append_assoc]
  rw [printLine, printLine, hwrite, hwrite']
  cases failure with
  | none => exact .ok hafter
  | some failure => exact .error hafter

theorem congruenceOn_runAlike (limit : Nat) :
    CongruenceOn (Stmt.Part.Within on) limit limit (RunAlike (Machine.Agrees on start start')) where
  pure := .pure
  bind := .bind
  run he := runAlike_onEnvironment (Expr.runAlike_eval he)
  define value hname := runAlike_onEnvironment (Evaluation.runAlike_define (hname _ List.mem_cons_self) value)
  printLine := runAlike_printLine
  inScope := runAlike_inScope
  repeatWhile htest hbody := htest.repeatWhile hbody limit

def Untouched (on : String → Prop) (before after : Machine) : Prop :=
  before.environment.Agrees on after.environment

theorem congruenceOn_untouched (limit : Nat) :
    CongruenceOn (Stmt.Part.Within (¬ on ·)) limit limit fun x _ => Leads (Untouched on) x := by
  refine Environment.evalFrame_agrees.congruenceOn (fun he name hname => ?_) (fun hname h => ?_) .pop limit
  · exact he name (Expr.assigned_subset_names _ hname)
  · exact Environment.Agrees.of_define (hname _ List.mem_cons_self) h

end Execution

/-! ### Effects -/

namespace Stmt

variable {on : String → Prop} {limit : Nat} {slots : List Slot}

/-- From machines that agree, either both executions are cut short or both end, with the same report and on machines
that agree. -/
theorem effect_agrees (hslots : ∀ part ∈ slotParts slots, part.Within on) {start start' : ByteArray}
    {machine machine' : Machine} (h : machine.Agrees on start start' machine') :
    (effect limit slots machine = none ∧ effect limit slots machine' = none)
      ∨ ∃ after after' ds, effect limit slots machine = some (after, ds)
        ∧ effect limit slots machine' = some (after', ds) ∧ after.Agrees on start start' after' := by
  have hresult := (Execution.congruenceOn_runAlike limit).execSlots hslots _ _ h
  rw [effect, effect]
  generalize execSlots limit slots machine = left at hresult ⊢
  generalize execSlots limit slots machine' = right at hresult ⊢
  cases hresult with
  | ok hafter => exact .inr ⟨_, _, [], rfl, rfl, hafter⟩
  | @error halt _ _ hafter =>
    cases halt with
    | error e =>
      have hglobals := hafter.environment.toGlobals
      exact .inr ⟨_, _, [e.diagnostic], rfl, rfl, hglobals, hafter.room, hafter.written⟩
    | exhausted => exact .inl ⟨rfl, rfl⟩

/-- Globals that are not named by the statements keep their values. -/
theorem globals_of_effect (hslots : ∀ part ∈ slotParts slots, part.Within (¬ on ·)) {machine after : Machine}
    {ds : List Diagnostic} (h : effect limit slots machine = some (after, ds)) {name : String} (hname : on name) :
    after.environment.globals.get? name = machine.environment.globals.get? name := by
  have hleads := (Execution.congruenceOn_untouched limit).execSlots hslots machine
  rw [effect] at h
  split at h
  next hrun =>
    obtain ⟨rfl, -⟩ := Prod.mk.inj (Option.some.inj h)
    rw [hrun] at hleads
    exact (hleads.globals hname).symm
  next e stopped hrun =>
    obtain ⟨rfl, -⟩ := Prod.mk.inj (Option.some.inj h)
    rw [hrun] at hleads
    exact (hleads.globals hname).symm
  next => simp at h

end Stmt

/-! ### Sessions -/

namespace Session

/-- Two sessions in which statements find the same: at the global scope, with the same room to print, and with
globals that agree on the names in the statements. -/
structure LooksAlike (slots : List Slot) (session other : Session) : Prop where
  depth : session.machine.environment.depth = 1
  depth' : other.machine.environment.depth = 1
  room : session.machine.sink.room = other.machine.sink.room
  globals : ∀ name ∈ Stmt.namesIn slots,
    session.machine.environment.globals.get? name = other.machine.environment.globals.get? name

theorem LooksAlike.symm {slots : List Slot} {session other : Session} (h : session.LooksAlike slots other) :
    other.LooksAlike slots session :=
  ⟨h.depth', h.depth, h.room.symm, fun name hname => (h.globals name hname).symm⟩

theorem LooksAlike.agrees {slots : List Slot} {session other : Session} (h : LooksAlike slots session other) :
    session.machine.Agrees (· ∈ Stmt.namesIn slots) session.machine.sink.written other.machine.sink.written
      other.machine where
  environment := .of_globals h.depth h.depth' h.globals
  room := h.room
  written := ⟨.empty, ByteArray.append_empty.symm, ByteArray.append_empty.symm⟩

/-- What becomes of two sessions is the same: the same bytes are written and the same diagnostics are reported, and the
globals agree on the names in the statements. -/
structure EndsAlike (slots : List Slot) (session other result result' : Session) : Prop where
  written : ∃ bytes, result.machine.sink.written = session.machine.sink.written ++ bytes
    ∧ result'.machine.sink.written = other.machine.sink.written ++ bytes
  reported : ∃ ds, result.journal = session.journal.reportAll ds ∧ result'.journal = other.journal.reportAll ds
  globals : ∀ name ∈ Stmt.namesIn slots,
    result.machine.environment.globals.get? name = result'.machine.environment.globals.get? name

theorem LooksAlike.exists_interprets {slots : List Slot} {session other result : Session}
    (h : session.LooksAlike slots other) (hruns : session.Interprets slots result) :
    ∃ result', other.Interprets slots result' ∧ EndsAlike slots session other result result' := by
  obtain ⟨limit, machine, ds, heffect, rfl⟩ := interprets_iff.1 hruns
  have hcases := @Stmt.effect_agrees _ limit slots (Stmt.within_namesIn slots) _ _ _ _ h.agrees
  rcases hcases with ⟨hcut, -⟩ | ⟨after, after', ds', hleft, hright, hafter⟩
  · rw [heffect] at hcut
    simp at hcut
  · obtain ⟨rfl, rfl⟩ := Prod.mk.inj (Option.some.inj (heffect.symm.trans hleft))
    refine ⟨_, interprets_iff.2 ⟨limit, after', ds, hright, rfl⟩, hafter.written, ⟨ds, rfl, rfl⟩, ?_⟩
    intro name hname
    exact hafter.environment.globals hname

theorem Interprets.globals_of_not_mem {slots : List Slot} {session result : Session}
    (h : session.Interprets slots result) {name : String} (hname : name ∉ Stmt.namesIn slots) :
    result.machine.environment.globals.get? name = session.machine.environment.globals.get? name := by
  obtain ⟨limit, machine, ds, heffect, rfl⟩ := interprets_iff.1 h
  have hslots : ∀ part ∈ Stmt.slotParts slots, part.Within fun name => ¬ name ∉ Stmt.namesIn slots := by
    intro part hpart other hother
    exact not_not_intro (Stmt.within_namesIn slots part hpart other hother)
  exact Stmt.globals_of_effect hslots heffect hname

end Session

/-- Unrelated globals do not interfere. From sessions that look alike to the statements, executing them ends or not
together, and then ends alike; and globals with names that do not occur in the statements keep their values. -/
theorem interpret_unrelated (slots : List Slot) (session other : Session) (h : session.LooksAlike slots other) :
    ((∃ result, session.Interprets slots result) ↔ ∃ result, other.Interprets slots result)
      ∧ ∀ result result', session.Interprets slots result → other.Interprets slots result' →
        Session.EndsAlike slots session other result result'
          ∧ ∀ name ∉ Stmt.namesIn slots,
            result.machine.environment.globals.get? name = session.machine.environment.globals.get? name
              ∧ result'.machine.environment.globals.get? name = other.machine.environment.globals.get? name := by
  refine ⟨⟨?_, ?_⟩, ?_⟩
  · rintro ⟨result, hruns⟩
    obtain ⟨result', hruns', -⟩ := h.exists_interprets hruns
    exact ⟨result', hruns'⟩
  · rintro ⟨result, hruns⟩
    obtain ⟨result', hruns', -⟩ := h.symm.exists_interprets hruns
    exact ⟨result', hruns'⟩
  · intro result result' hruns hruns'
    obtain ⟨_, hother, halike⟩ := h.exists_interprets hruns
    obtain rfl := hruns'.unique hother
    exact ⟨halike, fun name hname => ⟨hruns.globals_of_not_mem hname, hruns'.globals_of_not_mem hname⟩⟩

/-- A block that shadows a global, assigns another and fails, with globals in another order and beside others. -/
theorem interpret_unrelated_shadowing :
    let slots := (parse (scan "\x7b var a = b; b = a + a; print b; -a; \x7d").tokens).slots
    let session : Session := ⟨⟨⟨[("b", .string "x"), ("a", .nil)], []⟩, {}⟩, {}⟩
    let other : Session := ⟨⟨⟨[("c", .nil), ("a", .nil), ("b", .string "x")], []⟩, ⟨"y".toUTF8, none⟩⟩, .withReporter⟩
    session.LooksAlike slots other
      ∧ ∃ result result', session.Interprets slots result ∧ other.Interprets slots result'
        ∧ result.machine = ⟨⟨[("b", .string "xx"), ("a", .nil)], []⟩, ⟨"xx\n".toUTF8, none⟩⟩
        ∧ Session.EndsAlike slots session other result result'
        ∧ result'.machine.environment.globals.get? "c" = some .nil := by
  intro slots session other
  have halike : session.LooksAlike slots other := {
    depth := rfl
    depth' := rfl
    room := rfl
    globals := by decide +kernel }
  have hruns : session.Interprets slots ⟨⟨⟨[("b", .string "xx"), ("a", .nil)], []⟩, ⟨"xx\n".toUTF8, none⟩⟩,
      { records := [⟨.running, some 1, .unspecified, "Operand of '-' must be a number."⟩] }⟩ :=
    ⟨0, by decide +kernel⟩
  obtain ⟨hends, halways⟩ := interpret_unrelated slots session other halike
  obtain ⟨result', hruns'⟩ := hends.1 ⟨_, hruns⟩
  obtain ⟨hsame, hothers⟩ := halways _ _ hruns hruns'
  exact ⟨halike, _, result', hruns, hruns', rfl, hsame, (hothers "c" (by decide +kernel)).2⟩

end Lox
