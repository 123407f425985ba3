import Lox.Proofs.Leads
import Lox.Proofs.Run
import Mathlib.Logic.Relation
/-!
# Scope discipline

Executing a statement leaves as many scopes as it found, however it ends. The scopes around the innermost
one keep their names, and the innermost one keeps its own and may get new ones behind them; a block leaves
it as it was, too. So an interpreter is at the global scope between calls, and its globals only ever grow.
-/

namespace Lox

/-! ### Names of scopes -/

namespace Scope

@[simp] theorem names_set (scope : Scope) (name : String) (value : Value) :
    (scope.set name value).names = scope.names := by
  rw [set, names, names, List.map_map]
  refine List.map_congr_left ?_
  intro entry _
  rw [Function.comp_apply]
  split
  next h => exact (beq_iff_eq.1 h).symm
  next => rfl

@[simp] theorem names_declare (scope : Scope) (name : String) (value : Value) :
    (scope.declare name value).names = scope.names ++ [name] := by
  rw [declare, names, List.map_append]
  rfl

theorem holds_iff {scope : Scope} {name : String} : scope.holds name ↔ name ∈ scope.names := by
  simp [holds, names]

/-- The later scope has the names of the earlier one in the same order, and behind them new ones, all
different. -/
def Grows (before after : Scope) : Prop :=
  ∃ added, after.names = before.names ++ added ∧ added.Nodup ∧ ∀ name ∈ added, name ∉ before.names

theorem Grows.of_names {before after : Scope} (h : after.names = before.names) : before.Grows after :=
  ⟨[], by simpa using h, List.nodup_nil, by simp⟩

theorem Grows.trans {first second third : Scope} (h : first.Grows second) (h' : second.Grows third) :
    first.Grows third := by
  obtain ⟨added, hsecond, hnodup, hnew⟩ := h
  obtain ⟨added', hthird, hnodup', hnew'⟩ := h'
  rw [hsecond] at hthird hnew'
  refine ⟨added ++ added', by rw [hthird, List.append_assoc], ?_, ?_⟩
  · refine List.nodup_append.2 ⟨hnodup, hnodup', ?_⟩
    intro name hname other hother heq
    exact hnew' other hother (List.mem_append_right _ (heq ▸ hname))
  · intro name hname
    rcases List.mem_append.1 hname with hname | hname
    · exact hnew name hname
    · intro hfirst
      exact hnew' name hname (List.mem_append_left _ hfirst)

theorem Grows.nodup {before after : Scope} (h : before.Grows after) (hbefore : before.names.Nodup) :
    after.names.Nodup := by
  obtain ⟨added, hafter, hnodup, hnew⟩ := h
  rw [hafter]
  refine List.nodup_append.2 ⟨hbefore, hnodup, ?_⟩
  intro name hname other hother heq
  exact hnew other hother (heq ▸ hname)

end Scope

namespace Environment

def names (env : Environment) : List (List String) :=
  env.scopes.map Scope.names

theorem names_eq (env : Environment) : env.names = env.innermost.names :: env.outer.map Scope.names :=
  rfl

theorem map_names_setFirst {name : String} {value : Value} {scopes after : List Scope}
    (h : setFirst name value scopes = some after) : after.map Scope.names = scopes.map Scope.names := by
  induction scopes generalizing after with
  | nil => simp [setFirst] at h
  | cons scope scopes ih =>
    rw [setFirst] at h
    split at h
    · obtain rfl := Option.some.inj h
      simp
    · obtain ⟨rest, hrest, rfl⟩ := Option.map_eq_some_iff.1 h
      rw [List.map_cons, List.map_cons, ih hrest]

theorem names_assign {env after : Environment} {name : String} {value : Value}
    (h : env.assign name value = .ok after) : after.names = env.names := by
  rw [assign] at h
  split at h
  · obtain rfl := Except.ok.inj h
    simp [names_eq]
  · split at h
    next outer houter =>
      obtain rfl := Except.ok.inj h
      rw [names_eq, names_eq, map_names_setFirst houter]
    next => simp at h

/-- What execution does to the scopes: it enters and leaves none, and declares nothing but new names in the
innermost one. -/
structure Extends (before after : Environment) : Prop where
  depth : after.depth = before.depth
  outer : after.outer.map Scope.names = before.outer.map Scope.names
  innermost : before.innermost.Grows after.innermost

theorem Extends.of_names {before after : Environment} (h : after.names = before.names) :
    before.Extends after := by
  rw [names_eq, names_eq, List.cons.injEq] at h
  have hlength := congrArg List.length h.2
  rw [List.length_map, List.length_map] at hlength
  exact ⟨by simp [Environment.depth, scopes, hlength], h.2, .of_names h.1⟩

theorem Extends.trans {first second third : Environment} (h : first.Extends second)
    (h' : second.Extends third) : first.Extends third :=
  ⟨h'.depth.trans h.depth, h'.outer.trans h.outer, h.innermost.trans h'.innermost⟩

theorem extends_define {env after : Environment} {name : String} {value : Value}
    (h : env.define name value = .ok after) : env.Extends after := by
  rw [define] at h
  split at h
  · simp at h
  next hnew =>
    obtain rfl := Except.ok.inj h
    refine ⟨rfl, rfl, [name], Scope.names_declare _ _ _, by simp, ?_⟩
    intro other hother hold
    obtain rfl := List.mem_singleton.1 hother
    exact hnew (Scope.holds_iff.2 hold)

/-- Leaving a scope that was entered gives the same names as before, whatever was declared in it. -/
theorem names_pop {env after : Environment} (h : env.push.Extends after) : after.pop.names = env.names := by
  have houter := h.outer
  rw [push] at houter
  rcases after with ⟨innermost, _ | ⟨scope, outer⟩⟩
  · simp [scopes] at houter
  · exact houter

/-- No evaluation changes a list of names. -/
theorem evalFrame_names : EvalFrame (fun _ => True) fun before after => after.names = before.names where
  refl _ := rfl
  trans h h' := h'.trans h
  assign _ h := names_assign h

theorem frame_extends : Frame (fun _ => True) Extends where
  refl _ := .of_names rfl
  trans := .trans
  assign _ h := .of_names (names_assign h)
  define := extends_define
  leave h := .of_names (names_pop h)

theorem globals_of_depth {env : Environment} (h : env.depth = 1) : env.globals = env.innermost := by
  rcases env with ⟨_, _ | _⟩
  · rfl
  · simp [depth, scopes] at h

end Environment

/-! ### Expressions -/

namespace Evaluation

/-- The computation changes no list of names. -/
def KeepsNames {α : Type} (x : Evaluation α) : Prop :=
  Leads (fun before after => after.names = before.names) x

theorem keepsNames_ofExcept {α : Type} (result : Except RuntimeError α) : KeepsNames (ofExcept result) :=
  Environment.evalFrame_names.leads_ofExcept result

theorem keepsNames_get (name : Token) : KeepsNames (get name) :=
  Environment.evalFrame_names.leads_get name

theorem keepsNames_assign (name : Token) (value : Value) : KeepsNames (assign name value) :=
  Environment.evalFrame_names.leads_assign trivial value

end Evaluation

theorem Expr.keepsNames_eval (e : Expr) : Evaluation.KeepsNames e.eval :=
  Environment.evalFrame_names.leads_eval fun _ _ => trivial

/-! ### Statements -/

namespace Machine

def Extends (before after : Machine) : Prop :=
  before.environment.Extends after.environment

theorem Extends.refl (machine : Machine) : machine.Extends machine :=
  .of_names rfl

theorem Extends.trans {first second third : Machine} (h : first.Extends second) (h' : second.Extends third) :
    first.Extends third :=
  Environment.Extends.trans h h'

end Machine

namespace Execution

variable {α : Type}

theorem names_inScope {x : Execution α} (hx : Leads Machine.Extends x) (machine : Machine) :
    (endState (inScope x machine)).environment.names = machine.environment.names := by
  rw [endState_inScope]
  exact Environment.names_pop (hx { machine with environment := machine.environment.push })

/-- The computation comes to an end of its own, with a value or with an error of the program. -/
def Returns (x : Execution α) (before after : Machine) : Prop :=
  (∃ a, x before = .ok a after) ∨ ∃ e, x before = .error (.error e) after

theorem Returns.endState_eq {x : Execution α} {before after : Machine} (h : Returns x before after) :
    endState (x before) = after := by
  rcases h with ⟨_, h⟩ | ⟨_, h⟩ <;> rw [h] <;> rfl

end Execution

namespace Stmt

theorem leads_exec (limit : Nat) (s : Stmt) : Leads Machine.Extends (exec limit s) :=
  Environment.frame_extends.exec limit fun _ _ => trivial

theorem leads_execSlots (limit : Nat) (slots : List Slot) : Leads Machine.Extends (execSlots limit slots) :=
  Environment.frame_extends.execSlots limit slots

theorem names_exec_block (limit : Nat) (slots : List Slot) (machine : Machine) :
    (endState (exec limit (.block slots) machine)).environment.names = machine.environment.names := by
  rw [exec_block]
  exact Execution.names_inScope (leads_execSlots limit slots) machine

end Stmt

/-! ### Calls on one interpreter -/

namespace Machine

/-- A call on the interpreter, whatever it runs, in whatever journal, leads from one state to the other. -/
def Calls (before after : Machine) : Prop :=
  ∃ limit journal step session, Session.step limit ⟨before, journal⟩ step = some session
    ∧ session.machine = after

/-- An interpreter that has run nothing yet. -/
def fresh (sink : Sink) : Machine :=
  { sink }

end Machine

namespace Session

/-- Whether execution ends in an error or not, the session's machine is the one it ends in. -/
theorem machine_interpret {limit : Nat} {session result : Session} {slots : List Slot}
    (hdepth : session.machine.environment.depth = 1) (h : session.interpret limit slots = some result) :
    result.machine = endState (Stmt.execSlots limit slots session.machine) := by
  have hextends := Stmt.leads_execSlots limit slots session.machine
  rw [interpret] at h
  split at h
  next hrun =>
    obtain rfl := Option.some.inj h
    rw [hrun]
    rfl
  next e machine hrun =>
    obtain rfl := Option.some.inj h
    rw [hrun] at hextends ⊢
    have hglobals := Environment.toGlobals_of_depth (hextends.depth.trans hdepth)
    exact congrArg (fun environment => { machine with environment }) hglobals
  next => simp at h

theorem extends_interpret {limit : Nat} {session result : Session} {slots : List Slot}
    (hdepth : session.machine.environment.depth = 1) (h : session.interpret limit slots = some result) :
    session.machine.Extends result.machine := by
  rw [machine_interpret hdepth h]
  exact Stmt.leads_execSlots limit slots session.machine

theorem extends_step {limit : Nat} {session result : Session} {step : Step}
    (hdepth : session.machine.environment.depth = 1) (h : session.step limit step = some result) :
    session.machine.Extends result.machine := by
  -- Loading a source reports its faults and leaves the machine alone.
  have hload (source : String)
      (h : (session.load source).1.interpret limit (session.load source).2 = some result) :
      session.machine.Extends result.machine :=
    @extends_interpret limit (session.load source).1 result _ hdepth h
  cases step with
  | run source =>
    rw [Session.step, run_eq] at h
    split at h
    · obtain rfl := Option.some.inj h
      exact .refl _
    · exact hload source h
  | force source => exact hload source h
  | interpret slots => exact extends_interpret hdepth h
  | report d =>
    obtain rfl := Option.some.inj h
    exact .refl _
  | reset =>
    obtain rfl := Option.some.inj h
    exact .refl _

end Session

namespace Machine

open Relation

theorem Calls.extends {before after : Machine} (h : before.Calls after)
    (hdepth : before.environment.depth = 1) : before.Extends after := by
  obtain ⟨limit, journal, step, session, hstep, rfl⟩ := h
  exact Session.extends_step hdepth hstep

theorem extends_of_calls {before after : Machine} (h : ReflTransGen Calls before after)
    (hdepth : before.environment.depth = 1) : before.Extends after := by
  induction h with
  | refl => exact .refl _
  | tail _ hcall ih => exact ih.trans (hcall.extends (ih.depth.trans hdepth))

theorem depth_of_fresh {sink : Sink} {machine : Machine} (h : ReflTransGen Calls (fresh sink) machine) :
    machine.environment.depth = 1 :=
  (extends_of_calls h rfl).depth

theorem globals_grow {before after : Machine} (h : ReflTransGen Calls before after)
    (hdepth : before.environment.depth = 1) : before.environment.globals.Grows after.environment.globals := by
  have hextends := extends_of_calls h hdepth
  rw [Environment.globals_of_depth hdepth, Environment.globals_of_depth (hextends.depth.trans hdepth)]
  exact hextends.innermost

end Machine

/-- Every way out of a statement leaves the scopes in order: as many as before, with the same names in the
same order, but for new names in the innermost one, which a block does not leave either; an expression
changes no names at all. So after any calls on an interpreter it is at the global scope, also when a call
ended in an error and nothing was reset, and the names of its globals have only grown by new ones. -/
theorem scope_discipline :
    (∀ limit s before after, Execution.Returns (Stmt.exec limit s) before after →
      before.environment.Extends after.environment
        ∧ ∀ slots, s = .block slots → after.environment.names = before.environment.names)
    ∧ (∀ (e : Expr) env, (endState (e.eval env)).names = env.names)
    ∧ ∀ sink machine, Relation.ReflTransGen Machine.Calls (Machine.fresh sink) machine →
      machine.environment.depth = 1 ∧ machine.environment.globals.names.Nodup
        ∧ (∀ limit slots e after, Stmt.execSlots limit slots machine = .error (.error e) after →
          after.environment.toGlobals = after.environment)
        ∧ ∀ later, Relation.ReflTransGen Machine.Calls machine later →
          later.environment.depth = 1 ∧ machine.environment.globals.Grows later.environment.globals := by
  refine ⟨?_, Expr.keepsNames_eval, ?_⟩
  · intro limit s before after hreturns
    rw [← hreturns.endState_eq]
    refine ⟨Stmt.leads_exec limit s before, ?_⟩
    rintro slots rfl
    exact Stmt.names_exec_block limit slots before
  · intro sink machine hcalls
    have hdepth := Machine.depth_of_fresh hcalls
    refine ⟨hdepth, (Machine.globals_grow hcalls rfl).nodup List.nodup_nil, ?_, ?_⟩
    · intro limit slots e after hrun
      have hextends := Stmt.leads_execSlots limit slots machine
      rw [hrun] at hextends
      exact Environment.toGlobals_of_depth (hextends.depth.trans hdepth)
    · intro later hlater
      exact ⟨Machine.depth_of_fresh (hcalls.trans hlater), Machine.globals_grow hlater hdepth⟩

/-- A block that is left by an error, in a statement and then in a call between two others. -/
theorem scope_discipline_failing_block :
    let a : Token := ⟨.identifier, "a", none, 1⟩
    let failing : Stmt := .block [some (.declare a none), none, some (.expression (.unary .negate (.var a) 1))]
    let before : Machine := { environment := { innermost := [("b", .nil)], outer := [[("a", .nil)]] } }
    let first : Machine := { environment := { innermost := [("a", .nil)] } }
    let last : Machine := { environment := { innermost := [("a", .nil), ("b", .nil)] } }
    (∃ after, Execution.Returns (Stmt.exec 0 failing) before after
        ∧ before.environment.Extends after.environment ∧ after.environment.names = before.environment.names)
      ∧ first.environment.depth = 1
      ∧ (∃ e after, Stmt.execSlots 0 [some failing] first = .error (.error e) after
        ∧ after.environment.toGlobals = after.environment)
      ∧ last.environment.depth = 1 ∧ first.environment.globals.Grows last.environment.globals := by
  intro a failing before first last
  obtain ⟨hstatement, -, hcalls⟩ := scope_discipline
  have hreturns : Execution.Returns (Stmt.exec 0 failing) before before :=
    .inr ⟨.operand .negate 1, rfl⟩
  have hfirst : Machine.Calls (.fresh {}) first :=
    ⟨0, {}, .run "var a;", ⟨first, {}⟩, by decide +kernel, rfl⟩
  have hfails : Stmt.execSlots 0 [some failing] first = .error (.error (.operand .negate 1)) first :=
    rfl
  have hsecond : Machine.Calls first first :=
    ⟨0, {}, .interpret [some failing], ⟨first, ({} : Journal).report (RuntimeError.operand .negate 1).diagnostic⟩,
      rfl, rfl⟩
  have hlast : Machine.Calls first last :=
    ⟨0, {}, .run "var b;", ⟨last, {}⟩, by decide +kernel, rfl⟩
  obtain ⟨hdepth, -, hreset, hlater⟩ := hcalls {} first (.single hfirst)
  obtain ⟨hdepth', hgrows⟩ := hlater last (.head hsecond (.single hlast))
  have hexec := hstatement 0 failing before before hreturns
  exact ⟨⟨before, hreturns, hexec.1, hexec.2 _ rfl⟩, hdepth, ⟨_, first, hfails, hreset _ _ _ _ hfails⟩, hdepth',
    hgrows⟩

end Lox
