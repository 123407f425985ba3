import Lox.Grammar.Fault
import Lox.Proofs.Run
/-!
# Relocation

Lines are copied from tokens into trees, from trees into errors and from errors into diagnostics. To
relocate any of these is to put everything that stood on some line on another. Here: executing a relocated
tree does what executing the tree does, and only its error is relocated. So no line that a tree carries
ever decides anything.
-/

namespace Lox

/-! ### Things with lines -/

variable (move : Nat → Nat)

def Token.relocate (t : Token) : Token :=
  { t with line := move t.line }

def Diagnostic.relocate (d : Diagnostic) : Diagnostic :=
  { d with line := d.line.map move }

def ParseError.relocate (e : ParseError) : ParseError :=
  { e with token := e.token.relocate move }

def Expr.relocate : Expr → Expr
  | literal value line => literal value (move line)
  | group inner line => group inner.relocate (move line)
  | unary op right line => unary op right.relocate (move line)
  | binary left op right line => binary left.relocate op right.relocate (move line)
  | logical left op right line => logical left.relocate op right.relocate (move line)
  | var name => var (name.relocate move)
  | assign name value => assign (name.relocate move) value.relocate

mutual

def Stmt.relocate : Stmt → Stmt
  | .expression e => .expression (e.relocate move)
  | .print e => .print (e.relocate move)
  | .declare name init => .declare (name.relocate move) (init.map (Expr.relocate move))
  | .block slots => .block (Stmt.relocateSlots slots)
  | .branch condition yes none => .branch (condition.relocate move) yes.relocate none
  | .branch condition yes (some no) => .branch (condition.relocate move) yes.relocate (some no.relocate)
  | .loop condition body => .loop (condition.relocate move) body.relocate
termination_by structural s => s

def Stmt.relocateSlots : List (Option Stmt) → List (Option Stmt)
  | [] => []
  | none :: rest => none :: Stmt.relocateSlots rest
  | some s :: rest => some s.relocate :: Stmt.relocateSlots rest
termination_by structural slots => slots

end

def RuntimeError.relocate : RuntimeError → RuntimeError
  | undefined name line => undefined name (move line)
  | alreadyDefined name line => alreadyDefined name (move line)
  | operand op line => operand op (move line)
  | operands op line => operands op (move line)
  | output reason => output reason

def Halt.relocate : Halt → Halt
  | error e => error (e.relocate move)
  | exhausted => exhausted

variable {move : Nat → Nat}

@[simp] theorem Token.kind_relocate (t : Token) : (t.relocate move).kind = t.kind :=
  rfl

@[simp] theorem Token.lexeme_relocate (t : Token) : (t.relocate move).lexeme = t.lexeme :=
  rfl

@[simp] theorem Token.literal_relocate (t : Token) : (t.relocate move).literal = t.literal :=
  rfl

theorem Stmt.relocateSlots_eq (slots : List Slot) :
    relocateSlots move slots = slots.map (Option.map (relocate move)) := by
  induction slots with
  | nil => rfl
  | cons slot slots ih => cases slot <;> rw [relocateSlots, ih] <;> rfl

theorem Stmt.relocate_branch (condition : Expr) (yes : Stmt) (no : Option Stmt) :
    (branch condition yes no).relocate move
      = .branch (condition.relocate move) (yes.relocate move) (no.map (relocate move)) := by
  cases no <;> rw [relocate] <;> rfl

theorem RuntimeError.diagnostic_relocate (e : RuntimeError) :
    (e.relocate move).diagnostic = e.diagnostic.relocate move := by
  cases e with
  | operands op line => cases op <;> rfl
  | _ => rfl

theorem ParseError.diagnostic_relocate (e : ParseError) :
    (e.relocate move).diagnostic = e.diagnostic.relocate move :=
  rfl

/-! ### Evaluation -/

private theorem adaptExcept_bind {ε ε' σ α β : Type} (adapt : ε → ε') (x : EStateM ε σ α) (f : α → EStateM ε σ β) :
    (x >>= f).adaptExcept adapt = x.adaptExcept adapt >>= fun a => (f a).adaptExcept adapt := by
  funext state
  rw [bind_apply, EStateM.adaptExcept, bind_apply, EStateM.adaptExcept]
  cases x state <;> rfl

namespace Evaluation

def relocate (move : Nat → Nat) {α : Type} (x : Evaluation α) : Evaluation α :=
  x.adaptExcept (RuntimeError.relocate move)

theorem relocate_bind {α β : Type} (x : Evaluation α) (f : α → Evaluation β) :
    relocate move (x >>= f) = relocate move x >>= fun a => relocate move (f a) :=
  adaptExcept_bind _ x f

theorem relocate_unary (op : UnaryOp) (line : Nat) (right : Value) :
    relocate move (.ofExcept (op.apply line right)) = .ofExcept (op.apply (move line) right) := by
  cases op <;> cases right <;> rfl

theorem relocate_binary (op : BinaryOp) (line : Nat) (left right : Value) :
    relocate move (.ofExcept (op.apply line left right)) = .ofExcept (op.apply (move line) left right) := by
  cases op <;> cases left <;> cases right <;> rfl

theorem relocate_ofName (fault : NameFault) (name : Token) :
    (RuntimeError.ofName fault name).relocate move = .ofName fault (name.relocate move) := by
  cases fault <;> rfl

theorem relocate_get (name : Token) : relocate move (get name) = get (name.relocate move) := by
  funext env
  rw [relocate, EStateM.adaptExcept, get, get, Token.lexeme_relocate]
  cases env.get name.lexeme with
  | ok value => rfl
  | error fault => exact congrArg (EStateM.Result.error · env) (relocate_ofName fault name)

theorem relocate_assign (name : Token) (value : Value) :
    relocate move (assign name value) = assign (name.relocate move) value := by
  funext env
  rw [relocate, EStateM.adaptExcept, assign, assign, Token.lexeme_relocate]
  cases env.assign name.lexeme value with
  | ok after => rfl
  | error fault => exact congrArg (EStateM.Result.error · env) (relocate_ofName fault name)

theorem relocate_define (name : Token) (value : Value) :
    relocate move (define name value) = define (name.relocate move) value := by
  funext env
  rw [relocate, EStateM.adaptExcept, define, define, Token.lexeme_relocate]
  cases env.define name.lexeme value with
  | ok after => rfl
  | error fault => exact congrArg (EStateM.Result.error · env) (relocate_ofName fault name)

end Evaluation

theorem Expr.eval_relocate (e : Expr) : (e.relocate move).eval = Evaluation.relocate move e.eval := by
  induction e with
  | literal value line => rfl
  | group inner line ih => exact ih
  | unary op right line ih =>
    rw [relocate, eval, eval, ih, Evaluation.relocate_bind]
    simp only [Evaluation.relocate_unary]
  | binary left op right line ihleft ihright =>
    rw [relocate, eval, eval, ihleft, ihright, Evaluation.relocate_bind]
    simp only [Evaluation.relocate_bind, Evaluation.relocate_binary]
  | logical left op right line ihleft ihright =>
    rw [relocate, eval, eval, ihleft, ihright, Evaluation.relocate_bind]
    congr 1
    funext value
    split <;> rfl
  | var name => exact (Evaluation.relocate_get name).symm
  | assign name value ih =>
    rw [relocate, eval, eval, ih, Evaluation.relocate_bind]
    simp only [Evaluation.relocate_bind, Evaluation.relocate_assign]
    rfl

/-! ### Execution -/

namespace Execution

variable {α β : Type}

def relocate (move : Nat → Nat) (x : Execution α) : Execution α :=
  x.adaptExcept (Halt.relocate move)

theorem relocate_bind (x : Execution α) (f : α → Execution β) :
    relocate move (x >>= f) = relocate move x >>= fun a => relocate move (f a) :=
  adaptExcept_bind _ x f

theorem relocate_onEnvironment (x : Evaluation α) :
    relocate move (onEnvironment x) = onEnvironment (x.relocate move) := by
  funext machine
  rw [relocate, EStateM.adaptExcept, onEnvironment, onEnvironment, Evaluation.relocate, EStateM.adaptExcept]
  cases x machine.environment <;> rfl

theorem relocate_printLine (text : String) : relocate move (printLine text) = printLine text := by
  funext machine
  rw [relocate, EStateM.adaptExcept, printLine]
  rcases machine.sink.write (text ++ "\n").toUTF8 with ⟨sink, _ | _⟩ <;> rfl

theorem relocate_inScope (x : Execution α) : relocate move (inScope x) = inScope (relocate move x) := by
  funext machine
  rw [relocate, EStateM.adaptExcept, inScope, inScope, relocate, EStateM.adaptExcept]
  cases x { machine with environment := machine.environment.push } <;> rfl

theorem relocate_repeatWhile (test : Execution Bool) (body : Execution Unit) (rounds : Nat) :
    relocate move (repeatWhile test body rounds)
      = repeatWhile (relocate move test) (relocate move body) rounds := by
  induction rounds with
  | zero => rfl
  | succ rounds ih =>
    rw [repeatWhile, repeatWhile, relocate_bind]
    congr 1
    funext holds
    cases holds with
    | false => rfl
    | true => rw [if_pos rfl, if_pos rfl, relocate_bind, ih]

end Execution

theorem Expr.run_relocate (e : Expr) : (e.relocate move).run = e.run.relocate move := by
  rw [run, run, eval_relocate, Execution.relocate_onEnvironment]

theorem Expr.test_relocate (e : Expr) : (e.relocate move).test = e.test.relocate move := by
  rw [test, test, run_relocate, Execution.relocate_bind]
  rfl

namespace Stmt

variable {limit : Nat}

theorem execSlots_relocate_of_mem {slots : List Slot}
    (h : ∀ s, some s ∈ slots → exec limit (s.relocate move) = (exec limit s).relocate move) :
    execSlots limit (relocateSlots move slots) = (execSlots limit slots).relocate move := by
  induction slots with
  | nil =>
    rw [relocateSlots, execSlots_nil]
    rfl
  | cons slot slots ih =>
    have hrest := ih fun s hs => h s (List.mem_cons_of_mem _ hs)
    cases slot with
    | none => rw [relocateSlots, execSlots_none, execSlots_none, hrest]
    | some s =>
      rw [relocateSlots, execSlots_some, execSlots_some, hrest, h s List.mem_cons_self,
        Execution.relocate_bind]

/-- A relocated statement does the same, and only its error is relocated. -/
theorem exec_relocate (s : Stmt) : exec limit (s.relocate move) = (exec limit s).relocate move := by
  induction s using Stmt.induction with
  | expression e =>
    rw [relocate, exec_expression, exec_expression, Expr.run_relocate, Execution.relocate_bind]
    rfl
  | print e =>
    rw [relocate, exec_print, exec_print, Expr.run_relocate, Execution.relocate_bind]
    simp only [Execution.relocate_printLine]
  | declare name init =>
    rw [relocate, exec_declare, exec_declare, Execution.relocate_bind]
    simp only [Execution.relocate_onEnvironment, Evaluation.relocate_define]
    cases init with
    | none => rfl
    | some e => rw [Option.map_some, initialValue, initialValue, Expr.run_relocate]
  | block slots ih =>
    rw [relocate, exec_block, exec_block, Execution.relocate_inScope, execSlots_relocate_of_mem ih]
  | branch condition yes no ihyes ihno =>
    rw [relocate_branch, exec_branch, exec_branch, Expr.test_relocate, Execution.relocate_bind]
    congr 1
    funext holds
    cases holds with
    | true => exact ihyes
    | false =>
      cases no with
      | none => rfl
      | some s => exact ihno s rfl
  | loop condition body ih =>
    rw [relocate, exec_loop, exec_loop, Expr.test_relocate, ih, Execution.relocate_repeatWhile]

theorem execSlots_relocate (slots : List Slot) :
    execSlots limit (relocateSlots move slots) = (execSlots limit slots).relocate move :=
  execSlots_relocate_of_mem fun s _ => exec_relocate s

/-- Relocated statements leave the same machine, and what they report is relocated. -/
theorem effect_relocate (slots : List Slot) (machine : Machine) :
    effect limit (relocateSlots move slots) machine
      = (effect limit slots machine).map fun (after, ds) => (after, ds.map (Diagnostic.relocate move)) := by
  rw [effect, effect, execSlots_relocate, Execution.relocate, EStateM.adaptExcept]
  rcases execSlots limit slots machine with ⟨_, after⟩ | ⟨e | _, after⟩
  · rfl
  · simp only [Halt.relocate, RuntimeError.diagnostic_relocate]
    rfl
  · rfl

end Stmt

end Lox
