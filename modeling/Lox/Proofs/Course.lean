import Lox.Proofs.Progress
import Lox.Proofs.Written
import Mathlib.Algebra.GroupWithZero.Nat
/-!
# The course of a reading

What a rule of the grammar can do to the tokens, to the findings and to the number of holes, whatever the tokens are
like. There are few such things: it can pass a token, fail at the next one, find at an equals sign that it passed that
the target was no variable, and leave a hole for what failed. A `Course` is put together from these, and every rule
takes one (`Rule.leaves_statement`). What is to be said about faults and holes can be said of courses, with no regard to
the grammar.
-/

namespace Lox

/-! ### Faults -/

namespace ParseFault

/-- Whether a declaration is given up for the fault. -/
def fatal (fault : ParseFault) : Bool :=
  fault ≠ .invalidTarget

theorem message_eq_iff {fault : ParseFault} :
    fault.message = "Invalid assignment target." ↔ fault = .invalidTarget := by
  cases fault with
  | missing symbol after =>
    have hne : (missing symbol after).message ≠ "Invalid assignment target." := by
      intro h
      have hhead := congrArg (·.toList.head?) h
      simp [message, String.toList_append] at hhead
    simp [hne]
  | _ => simp [message]

theorem fatal_eq (fault : ParseFault) : fault.fatal = decide (fault.message ≠ "Invalid assignment target.") := by
  simp [fatal, message_eq_iff]

end ParseFault

/-! ### Courses -/

/-- The course of a reading. It is told by how many failures, one inside the other, may be mended in it, how many holes
there were before it and which tokens there were, and then by the fault that it fails with or the number of holes after
it, by the findings and by the tokens that are left. -/
inductive Course : Nat → Nat → List Token → Except ParseFault Nat → List Finding → List Token → Prop where
  | stay {n holes : Nat} {tokens : List Token} : Course n holes tokens (.ok holes) [] tokens
  | fail {n holes : Nat} {tokens : List Token} {fault : ParseFault} : fault ≠ .invalidTarget →
      Course n holes tokens (.error fault) [] tokens
  | pass {n holes : Nat} {token : Token} {tokens rest : List Token} {outcome : Except ParseFault Nat}
      {findings : List Finding} : Course n holes tokens outcome findings rest →
      Course n holes (token :: tokens) outcome findings rest
  | target {n holes after : Nat} {equals : Token} {tokens rest : List Token} {findings : List Finding} :
      Course n holes tokens (.ok after) findings rest →
      Course n holes (equals :: tokens) (.ok after) (findings ++ [⟨.invalidTarget, some equals⟩]) rest
  | seq {n holes between : Nat} {tokens mid rest : List Token} {outcome : Except ParseFault Nat}
      {findings more : List Finding} : Course n holes tokens (.ok between) findings mid →
      Course n between mid outcome more rest → Course n holes tokens outcome (findings ++ more) rest
  | hole {n holes : Nat} {tokens rest : List Token} {fault : ParseFault} {findings : List Finding} : tokens ≠ [] →
      Course n holes tokens (.error fault) findings rest →
      Course (n + 1) holes tokens (.ok (holes + 1)) (findings ++ [⟨fault, rest.head?⟩]) (Rule.resume rest)

namespace Course

variable {m n holes : Nat} {tokens rest : List Token} {outcome : Except ParseFault Nat} {findings : List Finding}

theorem mono (h : Course m holes tokens outcome findings rest) (hle : m ≤ n) :
    Course n holes tokens outcome findings rest := by
  induction h generalizing n with
  | stay => exact .stay
  | fail hfault => exact .fail hfault
  | pass _ ih => exact .pass (ih hle)
  | target _ ih => exact .target (ih hle)
  | seq _ _ ih ih' => exact .seq (ih hle) (ih' hle)
  | hole hne _ ih =>
    cases n with
    | zero => exact absurd hle (Nat.not_succ_le_zero _)
    | succ n => exact .hole hne (ih (Nat.le_of_succ_le_succ hle))

/-- At the end of input there is nothing to find any more. -/
theorem of_nil (h : Course n holes tokens outcome findings rest) (hnil : tokens = []) : findings = [] ∧ rest = [] := by
  induction h with
  | stay => exact ⟨rfl, hnil⟩
  | fail => exact ⟨rfl, hnil⟩
  | pass => simp at hnil
  | target => simp at hnil
  | seq _ _ ih ih' =>
    obtain ⟨rfl, hmid⟩ := ih hnil
    exact ih' hmid
  | hole hne => exact absurd hnil hne

/-- No reading is given up for a target that is no variable. -/
theorem fault_ne {fault : ParseFault} (h : Course n holes tokens (.error fault) findings rest) :
    fault ≠ .invalidTarget := by
  generalize houtcome : Except.error fault = outcome at h
  induction h with
  | fail hfault =>
    obtain rfl := Except.error.inj houtcome
    exact hfault
  | pass _ ih => exact ih houtcome
  | seq _ _ _ ih => exact ih houtcome
  | _ => simp at houtcome

end Course

theorem Stmt.slotHoles_eq_sum (slots : List Slot) :
    Stmt.slotHoles slots = (slots.map fun slot => slot.elim 1 Stmt.holes).sum := by
  induction slots with
  | nil => rfl
  | cons slot slots ih =>
    rw [List.map_cons, List.sum_cons, ← ih]
    cases slot with
    | none => exact Nat.add_comm _ _
    | some s => rfl

namespace Rule

variable {α β : Type} {m n before : Nat}

/-- Whatever tokens it is given, the rule takes a course in which at most `n` failures are mended one inside the other.
After an answer there are as many holes as `holes` says, those before it included. -/
def Proceeds (n before : Nat) (holes : α → Nat) (rule : Rule α) : Prop :=
  ∀ tokens, Course n before tokens ((rule tokens).result.map holes) (rule tokens).findings (rule tokens).rest

/-! ### Ways of building rules -/

variable {holes : α → Nat}

theorem Proceeds.mono {rule : Rule α} (h : Proceeds m before holes rule) (hle : m ≤ n) : Proceeds n before holes rule :=
  fun tokens => (h tokens).mono hle

theorem proceeds_pure {a : α} (h : holes a = before) : Proceeds n before holes (pure a) := by
  subst h
  exact fun _ => .stay

theorem proceeds_fail {fault : ParseFault} (h : fault ≠ .invalidTarget) : Proceeds n before holes (fail fault) :=
  fun _ => .fail h

theorem proceeds_bind {rule : Rule α} {next : α → Rule β} {holes' : β → Nat} (hrule : Proceeds n before holes rule)
    (hnext : ∀ a, Proceeds n (holes a) holes' (next a)) : Proceeds n before holes' (rule >>= next) := by
  intro tokens
  have hfirst := hrule tokens
  rcases h : rule tokens with ⟨fault | a, findings, rest⟩
  · rw [h] at hfirst
    rw [bind_of_error h]
    exact hfirst
  · rw [h] at hfirst
    rw [bind_of_ok h]
    exact .seq hfirst (hnext a rest)

theorem proceeds_map {rule : Rule α} {f : α → β} {holes' : β → Nat} (hrule : Proceeds n before (holes' ∘ f) rule) :
    Proceeds n before holes' (f <$> rule) := by
  rw [map_eq_pure_bind]
  exact proceeds_bind hrule fun a => proceeds_pure rfl

theorem proceeds_choose {chosen : Token → Option (Rule α)} {otherwise : Rule α}
    (hchosen : ∀ token rule, chosen token = some rule → Proceeds n before holes rule)
    (hotherwise : Proceeds n before holes otherwise) : Proceeds n before holes (choose chosen otherwise) := by
  intro tokens
  cases tokens with
  | nil => exact hotherwise []
  | cons token rest =>
    rw [choose]
    split
    next rule hrule => exact .pass (hchosen token rule hrule rest)
    next => exact hotherwise (token :: rest)

theorem proceeds_choose_kind {kind : TokenKind} {rule : Token → Rule α} {otherwise : Rule α}
    (hrule : ∀ token, Proceeds n before holes (rule token)) (hotherwise : Proceeds n before holes otherwise) :
    Proceeds n before holes
      (choose (fun token => if token.kind = kind then some (rule token) else none) otherwise) := by
  refine proceeds_choose (fun token chosen hchosen => ?_) hotherwise
  obtain ⟨-, hsome⟩ := Option.ite_none_right_eq_some.1 hchosen
  obtain rfl := Option.some.inj hsome
  exact hrule token

theorem proceeds_expect {kind : TokenKind} {fault : ParseFault} (h : fault ≠ .invalidTarget) :
    Proceeds n before (fun _ => before) (expect kind fault) :=
  proceeds_choose_kind (fun _ => proceeds_pure rfl) (proceeds_fail h)

theorem proceeds_close {symbol : TokenKind} {after : Clause} :
    Proceeds n before (fun _ => before) (close symbol after) :=
  proceeds_map (proceeds_expect (by simp))

/-! ### Items that may be left out or repeated

An item may leave holes, and `weight` says how many there are in its answer. -/

section Items

variable {weight : α → Nat}

/-- The rule takes a course, whatever came before it, and its answer has as many holes as `weight` says. -/
def Leaves (n : Nat) (weight : α → Nat) (rule : Rule α) : Prop :=
  ∀ before, Proceeds n before (fun a => before + weight a) rule

theorem leaves_fail {fault : ParseFault} (h : fault ≠ .invalidTarget) : Leaves n weight (fail fault) :=
  fun _ => proceeds_fail h

theorem Leaves.mono {rule : Rule α} (h : Leaves m weight rule) (hle : m ≤ n) : Leaves n weight rule :=
  fun before => (h before).mono hle

theorem leaves_optionalAfter {kind : TokenKind} {item : Rule α} (hitem : Leaves n weight item) :
    Leaves n (fun answer => answer.elim 0 weight) (optionalAfter kind item) :=
  fun before => proceeds_choose_kind (fun _ => proceeds_map (hitem before)) (proceeds_pure rfl)

theorem leaves_optionalUntil {kind : TokenKind} {item : Rule α} (hitem : Leaves n weight item) :
    Leaves n (fun answer => answer.elim 0 weight) (optionalUntil kind item) := by
  intro before tokens
  have hsome := @proceeds_map _ _ n before item some (fun answer => before + answer.elim 0 weight) (hitem before)
  cases tokens with
  | nil => exact hsome []
  | cons token rest =>
    rw [optionalUntil]
    split
    · exact .stay
    · exact hsome (token :: rest)

theorem leaves_many {item : Rule (Option α)} (hitem : Leaves n (fun answer => answer.elim 0 weight) item) :
    Leaves n (fun as => (as.map weight).sum) (many item) := by
  intro before tokens
  -- The holes of an item come before those of the items behind it, so `before` grows along the induction.
  induction hlength : tokens.length using Nat.strongRecOn generalizing tokens before with
  | ind length ih =>
    have hfirst := hitem before tokens
    rw [many]
    rcases h : item tokens with ⟨fault | _ | a, findings, rest⟩
    · rw [h] at hfirst
      exact hfirst
    · rw [h] at hfirst
      exact hfirst
    · rw [h] at hfirst
      dsimp only
      split
      next hlt =>
        have hmore := ih rest.length (hlength ▸ hlt) (before + weight a) rest rfl
        have hsum : ((many item rest).result.map (a :: ·)).map (fun as => before + (as.map weight).sum)
            = (many item rest).result.map fun as => before + weight a + (as.map weight).sum := by
          cases (many item rest).result <;> simp [Except.map, Nat.add_assoc]
        rw [hsum]
        exact .seq hfirst hmore
      next => simpa [Except.map] using hfirst

/-- Failures are mended one level further out than they occur. -/
theorem leaves_mended {stops : Token → Bool} {rule : Rule α} (hrule : Leaves n weight rule) :
    Leaves (n + 1) (fun answer => answer.elim 0 fun slot => slot.elim 1 weight) (unlessAt stops (recovering rule)) := by
  intro before tokens
  cases tokens with
  | nil => exact .stay
  | cons token rest =>
    rw [unlessAt]
    split
    · exact .stay
    · have hcourse := hrule before (token :: rest)
      rcases h : rule (token :: rest) with ⟨fault | a, findings, left⟩
      · rw [h] at hcourse
        rw [map_of_ok (recovering_of_fails h)]
        exact .hole (List.cons_ne_nil token rest) hcourse
      · rw [h] at hcourse
        have hmended : recovering rule (token :: rest) = ⟨.ok (some a), findings, left⟩ := by rw [recovering, h]
        rw [map_of_ok hmended]
        exact hcourse.mono (Nat.le_succ n)

end Items

/-! ### Expressions

In expressions there are no holes. -/

section Expressions

variable {deeper inner operand value : Rule Expr}

theorem leaves_operation (level : Level) (hoperand : Leaves n (fun _ => 0) operand) :
    Leaves n (fun answer => answer.elim 0 fun _ => 0) (operation level operand) := by
  intro before
  refine proceeds_choose (fun token rule hrule => ?_) (proceeds_pure rfl)
  obtain ⟨op, -, rfl⟩ := Option.map_eq_some_iff.1 hrule
  exact proceeds_bind (hoperand before) fun right => proceeds_pure rfl

theorem leaves_chain (level : Level) (hoperand : Leaves n (fun _ => 0) operand) :
    Leaves n (fun _ => 0) (chain level operand) := by
  intro before
  refine proceeds_bind (hoperand before) fun first => ?_
  refine proceeds_bind (leaves_many (leaves_operation level hoperand) before) fun operations => ?_
  exact proceeds_pure (by simp)

theorem leaves_cascade (hoperand : Leaves n (fun _ => 0) operand) : Leaves n (fun _ => 0) (cascade operand) := by
  rw [cascade]
  induction Level.all with
  | nil => exact hoperand
  | cons level levels ih => exact leaves_chain level ih

/-- The equals sign is passed before the value is read, and blamed after it. -/
theorem course_noted (e : Expr) (equals : Token) (rest : List Token) (hvalue : Leaves n (fun _ => 0) value) :
    let reply := (value >>= fun _ => note .invalidTarget equals >>= fun _ => pure e) rest
    Course n before (equals :: rest) (reply.result.map fun _ => before) reply.findings reply.rest := by
  intro reply
  have hcourse := hvalue before rest
  rcases h : value rest with ⟨fault | assigned, findings, left⟩
  · have hreply : reply = ⟨.error fault, findings, left⟩ := bind_of_error h
    rw [h] at hcourse
    rw [hreply]
    exact .pass hcourse
  · have hreply : reply = ⟨.ok e, findings ++ [⟨.invalidTarget, some equals⟩], left⟩ := bind_of_ok h
    rw [h] at hcourse
    rw [hreply]
    exact .target hcourse

theorem leaves_assignment (hoperand : Leaves n (fun _ => 0) operand) (hvalue : Leaves n (fun _ => 0) value) :
    Leaves n (fun _ => 0) (assignment operand value) := by
  intro before
  refine proceeds_bind (leaves_cascade hoperand before) fun target => ?_
  rw [accept?_bind]
  -- The equals sign and the value are taken together here, because the sign may be blamed behind the value.
  intro tokens
  by_cases hnext : nextKind tokens = some .equal
  · obtain ⟨equals, rest, rfl, hkind⟩ := exists_cons_of_nextKind hnext
    rw [choose_of_eq hkind]
    cases target with
    | var name =>
      have hassigned : Proceeds n before (fun _ => before)
          (value >>= fun assigned => pure (Expr.assign name assigned)) :=
        proceeds_bind (hvalue before) fun assigned => proceeds_pure rfl
      exact .pass (hassigned rest)
    | _ => exact course_noted _ equals rest hvalue
  · rw [choose_of_ne hnext]
    exact .stay

theorem leaves_primary (hinner : Leaves n (fun _ => 0) inner) : Leaves n (fun _ => 0) (primary inner) := by
  intro before
  refine proceeds_choose (fun token rule hrule => ?_) (proceeds_fail (by simp))
  split at hrule
  case h_1 | h_2 | h_3 | h_6 => exact Option.some.inj hrule ▸ proceeds_pure rfl
  case h_4 | h_5 =>
    obtain ⟨literal, -, rfl⟩ := Option.map_eq_some_iff.1 hrule
    exact proceeds_pure rfl
  case h_7 =>
    obtain rfl := Option.some.inj hrule
    exact proceeds_bind (hinner before) fun e => proceeds_bind proceeds_close fun _ => proceeds_pure rfl
  case h_8 => simp at hrule

theorem leaves_operandOver (hdeeper : Leaves n (fun _ => 0) deeper) (hinner : Leaves n (fun _ => 0) inner) :
    Leaves n (fun _ => 0) (operandOver deeper inner) := by
  intro before
  refine proceeds_choose (fun token rule hrule => ?_) (leaves_primary hinner before)
  obtain ⟨op, -, rfl⟩ := Option.map_eq_some_iff.1 hrule
  exact proceeds_bind (hdeeper before) fun right => proceeds_pure rfl

theorem leaves_expression_operand (room : Nat) :
    Leaves n (fun _ => 0) (expression room) ∧ Leaves n (fun _ => 0) (Rule.operand room) := by
  have hfail : Leaves n (fun _ => 0) (fail .tooDeep : Rule Expr) := leaves_fail (by simp)
  induction room with
  | zero =>
    rw [expression, Rule.operand]
    exact ⟨hfail, leaves_operandOver hfail hfail⟩
  | succ room ih =>
    obtain ⟨hexpression, hoperand⟩ := ih
    rw [expression, Rule.operand]
    have hassignment := leaves_assignment hoperand hexpression
    exact ⟨hassignment, leaves_operandOver hoperand hassignment⟩

theorem leaves_expression (room : Nat) : Leaves n (fun _ => 0) (expression room) :=
  (leaves_expression_operand room).1

end Expressions

/-! ### Statements -/

section Statements

variable {expression : Rule Expr} {statement : Rule Stmt}

theorem leaves_variableDeclaration (hexpression : Leaves n (fun _ => 0) expression) :
    Leaves n Stmt.holes (variableDeclaration expression) := by
  intro before
  refine proceeds_bind (proceeds_expect (by simp)) fun name => ?_
  refine proceeds_bind (leaves_optionalAfter hexpression before) fun init => ?_
  refine proceeds_bind proceeds_close fun _ => proceeds_pure ?_
  cases init <;> rfl

theorem leaves_expressionStatement (hexpression : Leaves n (fun _ => 0) expression) :
    Leaves n Stmt.holes (expressionStatement expression) := by
  intro before
  refine proceeds_bind (hexpression before) fun e => ?_
  exact proceeds_bind proceeds_close fun _ => proceeds_pure rfl

theorem leaves_printStatement (hexpression : Leaves n (fun _ => 0) expression) :
    Leaves n Stmt.holes (printStatement expression) := by
  intro before
  refine proceeds_bind (hexpression before) fun e => ?_
  exact proceeds_bind proceeds_close fun _ => proceeds_pure rfl

theorem leaves_declarations (stops : Token → Bool) (hexpression : Leaves n (fun _ => 0) expression)
    (hstatement : Leaves n Stmt.holes statement) :
    Leaves (n + 1) Stmt.slotHoles (declarations stops expression statement) := by
  rw [funext Stmt.slotHoles_eq_sum]
  refine leaves_many (leaves_mended fun before => ?_)
  exact proceeds_choose_kind (fun _ => leaves_variableDeclaration hexpression before) (hstatement before)

/-- A block that fails comes after the failures that were mended in it. -/
theorem leaves_blockStatement (hexpression : Leaves n (fun _ => 0) expression)
    (hstatement : Leaves n Stmt.holes statement) :
    Leaves (n + 1) Stmt.holes (blockStatement expression statement) := by
  intro before
  refine proceeds_bind (leaves_declarations _ hexpression hstatement before) fun slots => ?_
  exact proceeds_bind proceeds_close fun _ => proceeds_pure rfl

theorem leaves_ifStatement (hexpression : Leaves n (fun _ => 0) expression)
    (hstatement : Leaves n Stmt.holes statement) : Leaves n Stmt.holes (ifStatement expression statement) := by
  intro before
  refine proceeds_bind proceeds_close fun _ => ?_
  refine proceeds_bind (hexpression before) fun condition => ?_
  refine proceeds_bind proceeds_close fun _ => ?_
  refine proceeds_bind (hstatement before) fun yes => ?_
  refine proceeds_bind (leaves_optionalAfter hstatement _) fun no => proceeds_pure ?_
  cases no with
  | none => rfl
  | some no => exact (Nat.add_assoc before yes.holes no.holes).symm

theorem leaves_whileStatement (hexpression : Leaves n (fun _ => 0) expression)
    (hstatement : Leaves n Stmt.holes statement) : Leaves n Stmt.holes (whileStatement expression statement) := by
  intro before
  refine proceeds_bind proceeds_close fun _ => ?_
  refine proceeds_bind (hexpression before) fun condition => ?_
  refine proceeds_bind proceeds_close fun _ => ?_
  exact proceeds_bind (hstatement before) fun body => proceeds_pure rfl

theorem leaves_forInitializer (hexpression : Leaves n (fun _ => 0) expression) :
    Leaves n (fun init => init.elim 0 Stmt.holes) (forInitializer expression) := by
  intro before
  refine proceeds_choose (fun token rule hrule => ?_) (proceeds_map (leaves_expressionStatement hexpression before))
  split at hrule
  next => exact Option.some.inj hrule ▸ proceeds_pure rfl
  next => exact Option.some.inj hrule ▸ proceeds_map (leaves_variableDeclaration hexpression before)
  next => simp at hrule

theorem holes_forLoop (line : Nat) (init : Option Stmt) (condition increment : Option Expr) (body : Stmt) :
    (forLoop line init condition increment body).holes = init.elim 0 Stmt.holes + body.holes := by
  cases init <;> cases increment <;> simp [forLoop, Stmt.holes, Stmt.slotHoles]

theorem leaves_forStatement (line : Nat) (hexpression : Leaves n (fun _ => 0) expression)
    (hstatement : Leaves n Stmt.holes statement) : Leaves n Stmt.holes (forStatement line expression statement) := by
  intro before
  refine proceeds_bind proceeds_close fun _ => ?_
  refine proceeds_bind (leaves_forInitializer hexpression before) fun init => ?_
  refine proceeds_bind (leaves_optionalUntil hexpression _) fun condition => ?_
  refine proceeds_bind proceeds_close fun _ => ?_
  refine proceeds_bind (leaves_optionalUntil hexpression _) fun increment => ?_
  refine proceeds_bind proceeds_close fun _ => ?_
  refine proceeds_bind (hstatement _) fun body => proceeds_pure ?_
  rw [holes_forLoop]
  cases condition <;> cases increment <;> exact (Nat.add_assoc _ _ _).symm

theorem leaves_statementOver (hexpression : Leaves n (fun _ => 0) expression)
    (hstatement : Leaves n Stmt.holes statement) :
    Leaves (n + 1) Stmt.holes (statementOver expression statement) := by
  intro before
  have hle := Nat.le_succ n
  refine proceeds_choose (fun token rule hrule => ?_) ((leaves_expressionStatement hexpression).mono hle before)
  split at hrule
  next => exact Option.some.inj hrule ▸ (leaves_forStatement token.line hexpression hstatement).mono hle before
  next => exact Option.some.inj hrule ▸ (leaves_ifStatement hexpression hstatement).mono hle before
  next => exact Option.some.inj hrule ▸ (leaves_printStatement hexpression).mono hle before
  next => exact Option.some.inj hrule ▸ (leaves_whileStatement hexpression hstatement).mono hle before
  next => exact Option.some.inj hrule ▸ leaves_blockStatement hexpression hstatement before
  next => simp at hrule

end Statements

/-- Inside of a statement at most as many failures are mended one inside the other as there are levels to open. -/
theorem leaves_statement (room : Nat) : Leaves room Stmt.holes (statement room) := by
  induction room with
  | zero => exact leaves_fail (by simp)
  | succ room ih => exact leaves_statementOver (leaves_expression room) ih

theorem leaves_program : Leaves (maxNesting + 1) Stmt.slotHoles program :=
  leaves_declarations _ (leaves_expression maxNesting) (leaves_statement maxNesting)

end Rule

/-- The slots and errors of a token list come from a course over the tokens before its end. -/
theorem course_of_parse (tokens : List Token) :
    ∃ findings rest, (parse tokens).errors = findings.map (Finding.error (endToken tokens))
      ∧ Course (Rule.maxNesting + 1) 0 (beforeEnd tokens) (.ok (Stmt.slotHoles (parse tokens).slots)) findings
        rest := by
  obtain ⟨slots, findings, rest, h⟩ := Rule.total_program (beforeEnd tokens)
  have hcourse := Rule.leaves_program 0 (beforeEnd tokens)
  rw [h] at hcourse
  simp only [Except.map, Nat.zero_add] at hcourse
  rw [parse_eq_of_program h]
  exact ⟨findings, rest, rfl, hcourse⟩

end Lox
