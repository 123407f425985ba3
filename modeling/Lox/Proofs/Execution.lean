import Lox.Eval.Statement
/-!
# Executions, statement by statement

What the proofs about runs share: induction over statements, each kind of statement as a sequence of
computations, and one induction over the executor. A relation between computations that is kept by
everything a statement is executed with relates whole executions; what a single execution always does is
the case of a relation that looks at one side only.
-/

namespace Lox

/-! ### Induction over statements -/

/-- A fact about statements holds of all of them if it holds of each whose parts it holds of. -/
@[elab_as_elim] theorem Stmt.induction {motive : Stmt → Prop}
    (expression : ∀ e, motive (.expression e)) (print : ∀ e, motive (.print e))
    (declare : ∀ name init, motive (.declare name init))
    (block : ∀ slots, (∀ s, some s ∈ slots → motive s) → motive (.block slots))
    (branch : ∀ condition yes no, motive yes → (∀ s ∈ no, motive s) → motive (.branch condition yes no))
    (loop : ∀ condition body, motive body → motive (.loop condition body)) (s : Stmt) : motive s :=
  @Stmt.rec motive (fun slots => ∀ s, some s ∈ slots → motive s) (fun slot => ∀ s ∈ slot, motive s)
    expression print declare block branch loop
    (by simp)
    (by
      intro slot slots hslot hslots s hs
      rcases List.mem_cons.1 hs with hs | hs
      · exact hslot s hs.symm
      · exact hslots s hs)
    (by simp)
    (by
      intro s hs t ht
      obtain rfl := Option.some.inj ht
      exact hs)
    s

/-! ### Statements as sequences of computations -/

theorem bind_apply {ε σ α β : Type} (x : EStateM ε σ α) (f : α → EStateM ε σ β) (state : σ) :
    (x >>= f) state = match x state with
      | .ok a after => f a after
      | .error e after => .error e after :=
  rfl

theorem bind_eq_ok_iff {ε σ α β : Type} {x : EStateM ε σ α} {f : α → EStateM ε σ β} {state last : σ} {b : β} :
    (x >>= f) state = .ok b last ↔ ∃ a next, x state = .ok a next ∧ f a next = .ok b last := by
  rw [bind_apply]
  cases x state <;> simp [and_assoc]

namespace Stmt

variable {limit : Nat}

theorem exec_expression (e : Expr) : exec limit (.expression e) = e.run >>= fun _ => pure () := by
  rw [exec, discard, map_const, Function.comp_apply, map_eq_pure_bind]

theorem exec_print (e : Expr) : exec limit (.print e) = e.run >>= fun value => .printLine value.text :=
  rfl

theorem exec_declare (name : Token) (init : Option Expr) : exec limit (.declare name init)
    = initialValue init >>= fun value => .onEnvironment (.define name value) :=
  rfl

theorem exec_block (slots : List Slot) : exec limit (.block slots) = .inScope (execSlots limit slots) :=
  rfl

/-- A branch that is not there does nothing. -/
theorem exec_branch (condition : Expr) (yes : Stmt) (no : Option Stmt) : exec limit (.branch condition yes no)
    = condition.test >>= fun holds => if holds then exec limit yes else no.elim (pure ()) (exec limit) := by
  cases no <;> rw [exec] <;> rfl

theorem exec_loop (condition : Expr) (body : Stmt) : exec limit (.loop condition body)
    = .repeatWhile condition.test (exec limit body) limit :=
  rfl

theorem execSlots_nil : execSlots limit [] = pure () :=
  rfl

theorem execSlots_none (slots : List Slot) : execSlots limit (none :: slots) = execSlots limit slots :=
  rfl

theorem execSlots_some (s : Stmt) (slots : List Slot) :
    execSlots limit (some s :: slots) = exec limit s >>= fun _ => execSlots limit slots :=
  rfl

theorem execSlots_append (slots more : List Slot) :
    execSlots limit (slots ++ more) = execSlots limit slots >>= fun _ => execSlots limit more := by
  induction slots with
  | nil => rw [List.nil_append, execSlots_nil, pure_bind]
  | cons slot slots ih =>
    cases slot with
    | none => rw [List.cons_append, execSlots_none, execSlots_none, ih]
    | some s => rw [List.cons_append, execSlots_some, execSlots_some, ih, bind_assoc]

end Stmt

/-! ### What statements consist of -/

/-- What a statement is made of: expressions that it evaluates and names that it declares. -/
inductive Stmt.Part where
  | expression (e : Expr)
  | declaration (name : Token)

mutual

def Stmt.parts : Stmt → List Stmt.Part
  | .expression e => [.expression e]
  | .print e => [.expression e]
  | .declare name none => [.declaration name]
  | .declare name (some e) => [.expression e, .declaration name]
  | .block slots => Stmt.slotParts slots
  | .branch condition yes none => .expression condition :: yes.parts
  | .branch condition yes (some no) => .expression condition :: (yes.parts ++ no.parts)
  | .loop condition body => .expression condition :: body.parts
termination_by structural s => s

def Stmt.slotParts : List (Option Stmt) → List Stmt.Part
  | [] => []
  | none :: rest => Stmt.slotParts rest
  | some s :: rest => s.parts ++ Stmt.slotParts rest
termination_by structural slots => slots

end

theorem Stmt.mem_slotParts_of_mem {slots : List Slot} {s : Stmt} (hs : some s ∈ slots) :
    ∀ part ∈ s.parts, part ∈ slotParts slots := by
  intro part hpart
  induction slots with
  | nil => simp at hs
  | cons slot slots ih =>
    rcases List.mem_cons.1 hs with rfl | hrest
    · rw [slotParts]
      exact List.mem_append_left _ hpart
    · cases slot with
      | none => exact ih hrest
      | some other =>
        rw [slotParts]
        exact List.mem_append_right _ (ih hrest)

/-! ### Relations that executions keep -/

/-- The relation holds between the computations that statements consist of, when the loops on the two sides
have limits of their own, and is kept by the ways in which they are put together. -/
structure Execution.Congruence (limit limit' : Nat)
    (Rel : {α : Type} → Execution α → Execution α → Prop) : Prop where
  pure {α : Type} (a : α) : Rel (pure a) (pure a)
  bind {α β : Type} {x y : Execution α} {f g : α → Execution β} :
    Rel x y → (∀ a, Rel (f a) (g a)) → Rel (x >>= f) (y >>= g)
  run (e : Expr) : Rel e.run e.run
  define (name : Token) (value : Value) :
    Rel (.onEnvironment (.define name value)) (.onEnvironment (.define name value))
  printLine (text : String) : Rel (.printLine text) (.printLine text)
  inScope {x y : Execution Unit} : Rel x y → Rel (.inScope x) (.inScope y)
  repeatWhile {test test' : Execution Bool} {body body' : Execution Unit} : Rel test test' → Rel body body' →
    Rel (.repeatWhile test body limit) (.repeatWhile test' body' limit')

/-- The same of a relation that may hold only for the statements with good parts. -/
structure Execution.CongruenceOn (good : Stmt.Part → Prop) (limit limit' : Nat)
    (Rel : {α : Type} → Execution α → Execution α → Prop) : Prop where
  pure {α : Type} (a : α) : Rel (pure a) (pure a)
  bind {α β : Type} {x y : Execution α} {f g : α → Execution β} :
    Rel x y → (∀ a, Rel (f a) (g a)) → Rel (x >>= f) (y >>= g)
  run {e : Expr} : good (.expression e) → Rel e.run e.run
  define {name : Token} (value : Value) : good (.declaration name) →
    Rel (.onEnvironment (.define name value)) (.onEnvironment (.define name value))
  printLine (text : String) : Rel (.printLine text) (.printLine text)
  inScope {x y : Execution Unit} : Rel x y → Rel (.inScope x) (.inScope y)
  repeatWhile {test test' : Execution Bool} {body body' : Execution Unit} : Rel test test' → Rel body body' →
    Rel (.repeatWhile test body limit) (.repeatWhile test' body' limit')

namespace Execution.CongruenceOn

variable {good : Stmt.Part → Prop} {limit limit' : Nat} {Rel : {α : Type} → Execution α → Execution α → Prop}

theorem test (h : CongruenceOn good limit limit' Rel) {e : Expr} (he : good (.expression e)) : Rel e.test e.test :=
  h.bind (h.run he) fun value => h.pure value.truthy

theorem slots_of_mem (h : CongruenceOn good limit limit' Rel) {slots : List Slot}
    (hslots : ∀ s, some s ∈ slots → Rel (Stmt.exec limit s) (Stmt.exec limit' s)) :
    Rel (Stmt.execSlots limit slots) (Stmt.execSlots limit' slots) := by
  induction slots with
  | nil =>
    rw [Stmt.execSlots_nil, Stmt.execSlots_nil]
    exact h.pure _
  | cons slot slots ih =>
    have hrest := ih fun s hs => hslots s (List.mem_cons_of_mem _ hs)
    cases slot with
    | none => rwa [Stmt.execSlots_none, Stmt.execSlots_none]
    | some s =>
      rw [Stmt.execSlots_some, Stmt.execSlots_some]
      exact h.bind (hslots s List.mem_cons_self) fun _ => hrest

/-- The two executions of a statement with good parts are related. -/
theorem exec (h : CongruenceOn good limit limit' Rel) {s : Stmt} (hs : ∀ part ∈ s.parts, good part) :
    Rel (Stmt.exec limit s) (Stmt.exec limit' s) := by
  induction s using Stmt.induction with
  | expression e =>
    rw [Stmt.exec_expression, Stmt.exec_expression]
    exact h.bind (h.run (hs _ List.mem_cons_self)) fun _ => h.pure _
  | print e =>
    rw [Stmt.exec_print, Stmt.exec_print]
    exact h.bind (h.run (hs _ List.mem_cons_self)) fun value => h.printLine value.text
  | declare name init =>
    rw [Stmt.exec_declare, Stmt.exec_declare]
    cases init with
    | none => exact h.bind (h.pure _) fun value => h.define value (hs _ List.mem_cons_self)
    | some e =>
      obtain ⟨he, hname⟩ := List.forall_mem_cons.1 hs
      exact h.bind (h.run he) fun value => h.define value (hname _ List.mem_cons_self)
  | block slots ih =>
    rw [Stmt.exec_block, Stmt.exec_block]
    refine h.inScope (h.slots_of_mem fun s hmem => ih s hmem ?_)
    intro part hpart
    exact hs part (Stmt.mem_slotParts_of_mem hmem part hpart)
  | branch condition yes no ihyes ihno =>
    rw [Stmt.exec_branch, Stmt.exec_branch]
    cases no with
    | none =>
      obtain ⟨hcondition, hyes⟩ := List.forall_mem_cons.1 hs
      refine h.bind (h.test hcondition) fun holds => ?_
      cases holds with
      | true => exact ihyes hyes
      | false => exact h.pure _
    | some no =>
      obtain ⟨hcondition, hbranches⟩ := List.forall_mem_cons.1 hs
      obtain ⟨hyes, hno⟩ := List.forall_mem_append.1 hbranches
      refine h.bind (h.test hcondition) fun holds => ?_
      cases holds with
      | true => exact ihyes hyes
      | false => exact ihno no rfl hno
  | loop condition body ih =>
    obtain ⟨hcondition, hbody⟩ := List.forall_mem_cons.1 hs
    rw [Stmt.exec_loop, Stmt.exec_loop]
    exact h.repeatWhile (h.test hcondition) (ih hbody)

theorem execSlots (h : CongruenceOn good limit limit' Rel) {slots : List Slot}
    (hslots : ∀ part ∈ Stmt.slotParts slots, good part) :
    Rel (Stmt.execSlots limit slots) (Stmt.execSlots limit' slots) := by
  refine h.slots_of_mem fun s hs => h.exec ?_
  intro part hpart
  exact hslots part (Stmt.mem_slotParts_of_mem hs part hpart)

end Execution.CongruenceOn

namespace Execution.Congruence

variable {limit limit' : Nat} {Rel : {α : Type} → Execution α → Execution α → Prop}

theorem on_all (h : Congruence limit limit' Rel) : CongruenceOn (fun _ => True) limit limit' Rel where
  pure := h.pure
  bind := h.bind
  run _ := h.run _
  define value _ := h.define _ value
  printLine := h.printLine
  inScope := h.inScope
  repeatWhile := h.repeatWhile

/-- The two executions of a list of statements are related. -/
theorem execSlots (h : Congruence limit limit' Rel) (slots : List Slot) :
    Rel (Stmt.execSlots limit slots) (Stmt.execSlots limit' slots) :=
  h.on_all.execSlots fun _ _ => trivial

end Execution.Congruence

end Lox
