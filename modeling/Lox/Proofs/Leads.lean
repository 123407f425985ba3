import Lox.Proofs.Execution
/-!
# Where runs lead

A run leads from the state that it finds to the state that it ends in, whether it fails or not. An evaluation only
ever assigns to names, and a statement also declares names and leaves the scopes that it enters. So a relation between
the environments before and after is kept by all runs if these few steps keep it. What such a relation has to be kept by
is said once, and one induction over expressions and one over the executor give whole runs.
-/

namespace Lox

/-! ### Where computations end -/

/-- The state that a computation ends in, whether it fails or not. -/
def endState {ε σ α : Type} : EStateM.Result ε σ α → σ
  | .ok _ state => state
  | .error _ state => state

/-- Every run of the computation leads from a state to one that it is related to. -/
def Leads {ε σ α : Type} (R : σ → σ → Prop) (x : EStateM ε σ α) : Prop :=
  ∀ state, R state (endState (x state))

namespace Leads

variable {ε σ α β : Type} {R : σ → σ → Prop}

theorem bind {x : EStateM ε σ α} {f : α → EStateM ε σ β} (htrans : ∀ {a b c}, R a b → R b c → R a c)
    (hx : Leads R x) (hf : ∀ a, Leads R (f a)) : Leads R (x >>= f) := by
  intro state
  have hfirst := hx state
  rw [bind_apply]
  cases h : x state with
  | ok a after =>
    rw [h] at hfirst
    exact htrans hfirst (hf a after)
  | error e after =>
    rw [h] at hfirst
    exact hfirst

theorem repeatWhile {R : Machine → Machine → Prop} (hrefl : ∀ m, R m m)
    (htrans : ∀ {a b c}, R a b → R b c → R a c) {test : Execution Bool} {body : Execution Unit}
    (htest : Leads R test) (hbody : Leads R body) (rounds : Nat) :
    Leads R (Execution.repeatWhile test body rounds) := by
  induction rounds with
  | zero => exact hrefl
  | succ rounds ih =>
    rw [Execution.repeatWhile]
    refine htest.bind htrans fun holds => ?_
    cases holds with
    | false => exact hrefl
    | true => exact hbody.bind htrans fun _ => ih

end Leads

namespace Execution

variable {α : Type}

theorem endState_onEnvironment (x : Evaluation α) (machine : Machine) :
    (endState (onEnvironment x machine)).environment = endState (x machine.environment) := by
  rw [onEnvironment]
  split
  next h => rw [h]; rfl
  next h => rw [h]; rfl

theorem endState_inScope (x : Execution α) (machine : Machine) : (endState (inScope x machine)).environment
    = (endState (x { machine with environment := machine.environment.push })).environment.pop := by
  rw [inScope]
  split
  next h => rw [h]; rfl
  next h => rw [h]; rfl

theorem endState_printLine (text : String) (machine : Machine) :
    (endState (printLine text machine)).environment = machine.environment := by
  rw [printLine]
  split <;> rfl

end Execution

/-! ### Names that are assigned to -/

def Expr.assigned : Expr → List String
  | literal _ _ => []
  | group inner _ => inner.assigned
  | unary _ right _ => right.assigned
  | binary left _ right _ => left.assigned ++ right.assigned
  | logical left _ right _ => left.assigned ++ right.assigned
  | var _ => []
  | assign name value => name.lexeme :: value.assigned

namespace Stmt

def Part.assigned : Part → List String
  | expression e => e.assigned
  | declaration _ => []

def assigned (s : Stmt) : List String :=
  s.parts.flatMap Part.assigned

end Stmt

/-! ### Frames -/

def Machine.Framed (R : Environment → Environment → Prop) (before after : Machine) : Prop :=
  R before.environment after.environment

/-- A relation between the environments before and after an evaluation that is kept by all that an evaluation consists
of, when it assigns only to names of the given sort. -/
structure Environment.EvalFrame (assigns : String → Prop) (R : Environment → Environment → Prop) : Prop where
  refl (env : Environment) : R env env
  trans {first second third : Environment} : R first second → R second third → R first third
  assign {env after : Environment} {name : String} {value : Value} : assigns name →
    env.assign name value = .ok after → R env after

/-- The same for runs of statements, which also declare names and leave the scopes that they enter. -/
structure Environment.Frame (assigns : String → Prop) (R : Environment → Environment → Prop) : Prop
    extends Environment.EvalFrame assigns R where
  define {env after : Environment} {name : String} {value : Value} : env.define name value = .ok after → R env after
  leave {env after : Environment} : R env.push after → R env after.pop

namespace Environment.EvalFrame

variable {assigns : String → Prop} {R : Environment → Environment → Prop}

theorem leads_ofExcept {α : Type} (h : EvalFrame assigns R) (result : Except RuntimeError α) :
    Leads R (Evaluation.ofExcept result) := by
  intro env
  cases result <;> exact h.refl env

theorem leads_get (h : EvalFrame assigns R) (name : Token) : Leads R (Evaluation.get name) := by
  intro env
  rw [Evaluation.get]
  split <;> exact h.refl env

theorem leads_assign (h : EvalFrame assigns R) {name : Token} (hname : assigns name.lexeme) (value : Value) :
    Leads R (Evaluation.assign name value) := by
  intro env
  rw [Evaluation.assign]
  split
  next hassign => exact h.assign hname hassign
  next => exact h.refl env

theorem leads_eval (h : EvalFrame assigns R) {e : Expr} (he : ∀ name ∈ e.assigned, assigns name) :
    Leads R e.eval := by
  induction e with
  | literal value line => exact h.refl
  | group inner line ih => exact ih he
  | unary op right line ih => exact (ih he).bind h.trans fun _ => h.leads_ofExcept _
  | binary left op right line ihleft ihright =>
    obtain ⟨hleft, hright⟩ := List.forall_mem_append.1 he
    exact (ihleft hleft).bind h.trans fun _ => (ihright hright).bind h.trans fun _ => h.leads_ofExcept _
  | logical left op right line ihleft ihright =>
    obtain ⟨hleft, hright⟩ := List.forall_mem_append.1 he
    refine (ihleft hleft).bind h.trans fun value => ?_
    split
    · exact h.refl
    · exact ihright hright
  | var name => exact h.leads_get name
  | assign name value ih =>
    obtain ⟨hname, hvalue⟩ := List.forall_mem_cons.1 he
    exact (ih hvalue).bind h.trans fun value => (h.leads_assign hname value).bind h.trans fun _ => h.refl

theorem leads_onEnvironment {α : Type} {x : Evaluation α} (hx : Leads R x) :
    Leads (Machine.Framed R) (Execution.onEnvironment x) := by
  intro machine
  rw [Machine.Framed, Execution.endState_onEnvironment]
  exact hx machine.environment

/-- Statements with good parts keep the relation, if the declarations among them and the end of a scope do. -/
theorem congruenceOn (h : EvalFrame assigns R) {good : Stmt.Part → Prop}
    (hassigns : ∀ {e : Expr}, good (.expression e) → ∀ name ∈ e.assigned, assigns name)
    (hdefine : ∀ {name : Token} {env after : Environment} {value : Value}, good (.declaration name) →
      env.define name.lexeme value = .ok after → R env after)
    (hleave : ∀ {env after : Environment}, R env.push after → R env after.pop) (limit : Nat) :
    Execution.CongruenceOn good limit limit fun x _ => Leads (Machine.Framed R) x where
  pure _ machine := h.refl machine.environment
  bind := .bind h.trans
  run he := leads_onEnvironment (h.leads_eval (hassigns he))
  define {name} value hname := by
    refine leads_onEnvironment fun env => ?_
    rw [Evaluation.define]
    split
    next henv => exact hdefine hname henv
    next => exact h.refl env
  printLine text machine := by
    rw [Machine.Framed, Execution.endState_printLine]
    exact h.refl machine.environment
  inScope {x _} hx machine := by
    -- The scope that is left is the one that was entered.
    rw [Machine.Framed, Execution.endState_inScope]
    exact hleave (hx { machine with environment := machine.environment.push })
  repeatWhile htest hbody :=
    Leads.repeatWhile (R := Machine.Framed R) (fun machine => h.refl machine.environment) h.trans htest hbody limit

end Environment.EvalFrame

namespace Environment.Frame

variable {assigns : String → Prop} {R : Environment → Environment → Prop}

theorem congruenceOn (h : Frame assigns R) (limit : Nat) :
    Execution.CongruenceOn (fun part => ∀ name ∈ part.assigned, assigns name) limit limit
      fun x _ => Leads (Machine.Framed R) x :=
  h.toEvalFrame.congruenceOn (fun he => he) (fun _ => h.define) h.leave limit

/-- However a statement ends, the environment that it leaves is related to the one that it found. -/
theorem exec (h : Frame assigns R) (limit : Nat) {s : Stmt} (hs : ∀ name ∈ s.assigned, assigns name)
    (machine : Machine) : R machine.environment (endState (Stmt.exec limit s machine)).environment := by
  refine (h.congruenceOn limit).exec ?_ machine
  intro part hpart name hname
  exact hs name (List.mem_flatMap.2 ⟨part, hpart, hname⟩)

/-- A relation that is kept whatever is assigned to is kept by every list of statements. -/
theorem execSlots (h : Frame (fun _ => True) R) (limit : Nat) (slots : List Slot) (machine : Machine) :
    R machine.environment (endState (Stmt.execSlots limit slots machine)).environment :=
  (h.congruenceOn limit).execSlots (fun _ _ _ _ => trivial) machine

end Environment.Frame

end Lox
