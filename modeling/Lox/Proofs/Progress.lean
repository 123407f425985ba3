import Lox.Proofs.Recovery
/-!
# Progress

Every rule leaves a suffix of the tokens it is given, whether it answers or fails, and the rules for expressions
and statements answer only after they have read at least one token. A declaration reads a token in any case:
when it fails, the token at which it failed is dropped (`length_declaration_lt`). So no repetition ever stands
still, and the guard of `many` against that is never needed (`many_eq`).
-/

namespace Lox

/-! ### Choices by the kind of the next token -/

theorem exists_cons_of_nextKind {rest : List Token} {kind : TokenKind} (h : nextKind rest = some kind) :
    ∃ token after, rest = token :: after ∧ token.kind = kind := by
  cases rest with
  | nil => simp at h
  | cons token after => exact ⟨token, after, rfl, by simpa using h⟩

namespace Rule

variable {α : Type} {kind : TokenKind} {chosen : Token → Rule α} {otherwise : Rule α}

theorem choose_of_eq {token : Token} {after : List Token} (h : token.kind = kind) :
    choose (fun token => if token.kind = kind then some (chosen token) else none) otherwise (token :: after)
      = chosen token after := by
  simp only [choose, h, if_true]

theorem choose_of_ne {rest : List Token} (h : nextKind rest ≠ some kind) :
    choose (fun token => if token.kind = kind then some (chosen token) else none) otherwise rest
      = otherwise rest := by
  cases rest with
  | nil => rfl
  | cons token after =>
    have hkind : token.kind ≠ kind := by simpa using h
    simp only [choose, hkind, if_false]

theorem choose_of_some {chosen : Token → Option (Rule α)} {rule : Rule α} {token : Token} {after : List Token}
    (h : chosen token = some rule) : choose chosen otherwise (token :: after) = rule after := by
  rw [choose, h]

theorem choose_of_none {chosen : Token → Option (Rule α)} {token : Token} {after : List Token}
    (h : chosen token = none) : choose chosen otherwise (token :: after) = otherwise (token :: after) := by
  rw [choose, h]

theorem bind_congr {β : Type} {rule rule' : Rule α} {next : α → Rule β} {tokens tokens' : List Token}
    (h : rule tokens = rule' tokens') : (rule >>= next) tokens = (rule' >>= next) tokens' := by
  change Rule.bind rule next tokens = Rule.bind rule' next tokens'
  rw [Rule.bind, Rule.bind, h]

theorem accept?_bind (kind : TokenKind) (next : Option Token → Rule α) :
    accept? kind >>= next
      = choose (fun token => if token.kind = kind then some (next (some token)) else none) (next none) := by
  rw [accept?]
  funext tokens
  by_cases h : nextKind tokens = some kind
  · obtain ⟨token, after, rfl, hkind⟩ := exists_cons_of_nextKind h
    rw [choose_of_eq hkind, bind_congr (choose_of_eq hkind), pure_bind]
  · rw [choose_of_ne h, bind_congr (choose_of_ne h), pure_bind]

end Rule

/-! ### How much is read -/

namespace Rule

variable {α β : Type} {m n : Nat}

/-- The rule leaves a suffix of its tokens, and reads at least the given number of them before it answers. -/
def Takes (least : Nat) (rule : Rule α) : Prop :=
  ∀ tokens, (rule tokens).rest <:+ tokens
    ∧ ∀ a, (rule tokens).result = .ok a → (rule tokens).rest.length + least ≤ tokens.length

/-! ### Ways of building rules -/

theorem Takes.weaken {rule : Rule α} (h : Takes n rule) (hle : m ≤ n) : Takes m rule := by
  intro tokens
  obtain ⟨hsuffix, hlength⟩ := h tokens
  refine ⟨hsuffix, fun a ha => ?_⟩
  have := hlength a ha
  omega

theorem takes_pure (a : α) : Takes 0 (pure a : Rule α) :=
  fun _ => ⟨List.suffix_rfl, fun _ _ => Nat.le_refl _⟩

theorem takes_fail (fault : ParseFault) : Takes n (fail fault : Rule α) :=
  fun _ => ⟨List.suffix_rfl, by simp [fail]⟩

theorem takes_note (fault : ParseFault) (token : Token) : Takes 0 (note fault token) :=
  fun _ => ⟨List.suffix_rfl, fun _ _ => Nat.le_refl _⟩

theorem takes_bind {rule : Rule α} {next : α → Rule β} (hrule : Takes m rule)
    (hnext : ∀ a, Takes (n - m) (next a)) : Takes n (rule >>= next) := by
  intro tokens
  obtain ⟨hsuffix, hlength⟩ := hrule tokens
  rcases h : rule tokens with ⟨fault | a, findings, rest⟩
  · rw [h] at hsuffix
    rw [bind_of_error h]
    exact ⟨hsuffix, by simp⟩
  · rw [h] at hsuffix hlength
    obtain ⟨hsuffix', hlength'⟩ := hnext a rest
    rw [bind_of_ok h]
    refine ⟨hsuffix'.trans hsuffix, fun b hb => ?_⟩
    have hfirst := hlength a rfl
    have hsecond := hlength' b hb
    dsimp only at hfirst ⊢
    omega

theorem takes_map {f : α → β} {rule : Rule α} (hrule : Takes n rule) : Takes n (f <$> rule) := by
  rw [map_eq_pure_bind]
  exact takes_bind hrule fun a => (takes_pure (f a)).weaken (Nat.le_of_eq (Nat.sub_self n))

theorem takes_choose {chosen : Token → Option (Rule α)} {otherwise : Rule α}
    (hchosen : ∀ token, ∀ rule ∈ chosen token, Takes (n - 1) rule) (hotherwise : Takes n otherwise) :
    Takes n (choose chosen otherwise) := by
  intro tokens
  cases tokens with
  | nil => exact hotherwise []
  | cons token rest =>
    rw [choose]
    split
    next rule hrule =>
      obtain ⟨hsuffix, hlength⟩ := hchosen token rule hrule rest
      refine ⟨hsuffix.trans (List.suffix_cons token rest), fun a ha => ?_⟩
      have := hlength a ha
      rw [List.length_cons]
      omega
    next => exact hotherwise (token :: rest)

theorem takes_choose_kind {kind : TokenKind} {rule : Token → Rule α} {otherwise : Rule α}
    (hrule : ∀ token, Takes (n - 1) (rule token)) (hotherwise : Takes n otherwise) :
    Takes n (choose (fun token => if token.kind = kind then some (rule token) else none) otherwise) := by
  refine takes_choose (fun token chosen hchosen => ?_) hotherwise
  obtain ⟨-, hsome⟩ := Option.ite_none_right_eq_some.1 hchosen
  obtain rfl := Option.some.inj hsome
  exact hrule token

theorem takes_accept? (kind : TokenKind) : Takes 0 (accept? kind) :=
  takes_choose_kind (fun token => takes_pure (some token)) (takes_pure none)

theorem takes_expect (kind : TokenKind) (fault : ParseFault) : Takes 1 (expect kind fault) :=
  takes_choose_kind takes_pure (takes_fail fault)

theorem takes_close (symbol : TokenKind) (after : Clause) : Takes 1 (close symbol after) :=
  takes_map (takes_expect symbol _)

theorem takes_optionalAfter {item : Rule α} (kind : TokenKind) (hitem : Takes 0 item) :
    Takes 0 (optionalAfter kind item) :=
  takes_choose_kind (fun _ => takes_map hitem) (takes_pure none)

theorem takes_optionalUntil {item : Rule α} (kind : TokenKind) (hitem : Takes 0 item) :
    Takes 0 (optionalUntil kind item) := by
  intro tokens
  cases tokens with
  | nil => exact takes_map hitem []
  | cons token rest =>
    rw [optionalUntil]
    split
    · exact ⟨List.suffix_rfl, fun _ _ => Nat.le_refl _⟩
    · exact takes_map hitem (token :: rest)

/-- Whenever the item answers with a value, it has read a token. -/
def Moves (item : Rule (Option α)) : Prop :=
  ∀ tokens, (item tokens).rest <:+ tokens
    ∧ ∀ a, (item tokens).result = .ok (some a) → (item tokens).rest.length < tokens.length

/-- A repetition of an item that moves goes on as long as the item answers, without a guard. -/
theorem many_eq {item : Rule (Option α)} (hitem : Moves item) (tokens : List Token) :
    many item tokens =
      match item tokens with
      | ⟨.error fault, findings, rest⟩ => ⟨.error fault, findings, rest⟩
      | ⟨.ok none, findings, rest⟩ => ⟨.ok [], findings, rest⟩
      | ⟨.ok (some a), findings, rest⟩ =>
        ⟨(many item rest).result.map (a :: ·), findings ++ (many item rest).findings, (many item rest).rest⟩ := by
  have hmoves := (hitem tokens).2
  rw [many]
  rcases h : item tokens with ⟨fault | _ | a, findings, rest⟩
  · rfl
  · rfl
  · rw [h] at hmoves
    exact if_pos (hmoves a rfl)

/-- What comes after a repetition comes after its first item and the rest of the repetition. -/
theorem many_bind {item : Rule (Option α)} (hitem : Moves item) (next : List α → Rule β) :
    many item >>= next = item >>= fun answer =>
      match answer with
      | none => next []
      | some a => many item >>= fun as => next (a :: as) := by
  funext tokens
  rcases h : item tokens with ⟨fault | _ | a, findings, rest⟩
  · have hmany : many item tokens = ⟨.error fault, findings, rest⟩ := by rw [many_eq hitem, h]
    rw [bind_of_error hmany, bind_of_error h]
  · have hmany : many item tokens = ⟨.ok [], findings, rest⟩ := by rw [many_eq hitem, h]
    rw [bind_of_ok hmany, bind_of_ok h]
  · rw [bind_of_ok h]
    dsimp only
    rcases h' : many item rest with ⟨fault | as, more, left⟩
    · have hmany : many item tokens = ⟨.error fault, findings ++ more, left⟩ := by
        rw [many_eq hitem, h]
        dsimp only
        rw [h']
        rfl
      rw [bind_of_error hmany, bind_of_error h']
    · have hmany : many item tokens = ⟨.ok (a :: as), findings ++ more, left⟩ := by
        rw [many_eq hitem, h]
        dsimp only
        rw [h']
        rfl
      rw [bind_of_ok hmany, bind_of_ok h', List.append_assoc]

theorem takes_many {item : Rule (Option α)} (hitem : Moves item) : Takes 0 (many item) := by
  intro tokens
  induction hlength : tokens.length using Nat.strongRecOn generalizing tokens with
  | ind length ih =>
    obtain ⟨hsuffix, hmoves⟩ := hitem tokens
    rw [many_eq hitem]
    rcases h : item tokens with ⟨fault | _ | a, findings, rest⟩
    · rw [h] at hsuffix
      exact ⟨hsuffix, fun _ _ => hlength ▸ hsuffix.length_le⟩
    · rw [h] at hsuffix
      exact ⟨hsuffix, fun _ _ => hlength ▸ hsuffix.length_le⟩
    · rw [h] at hsuffix hmoves
      obtain ⟨hmore, -⟩ := ih rest.length (hlength ▸ hmoves a rfl) rest rfl
      exact ⟨hmore.trans hsuffix, fun _ _ => hlength ▸ (hmore.trans hsuffix).length_le⟩

/-! ### Expressions -/

theorem moves_operation {operand : Rule Expr} (level : Level) (hoperand : Takes 0 operand) :
    Moves (operation level operand) := by
  intro tokens
  rw [operation]
  cases tokens with
  | nil => exact ⟨List.suffix_rfl, fun a ha => by simp [choose, pure, Rule.pure] at ha⟩
  | cons token rest =>
    rw [choose]
    cases InfixOp.ofKind? level token.kind with
    | none => exact ⟨List.suffix_rfl, fun a ha => by simp [pure, Rule.pure] at ha⟩
    | some op =>
      have htakes : Takes 0 (operand >>= fun right => pure (some (op, token.line, right))) :=
        takes_bind hoperand fun _ => takes_pure _
      obtain ⟨hsuffix, -⟩ := htakes rest
      refine ⟨hsuffix.trans (List.suffix_cons token rest), fun _ _ => ?_⟩
      exact Nat.lt_succ_of_le hsuffix.length_le

theorem takes_chain {operand : Rule Expr} (level : Level) (hoperand : Takes 1 operand) :
    Takes 1 (chain level operand) := by
  refine takes_bind hoperand fun first => ?_
  have hmany := takes_many (moves_operation level (hoperand.weaken (Nat.zero_le 1)))
  exact takes_bind hmany fun operations => takes_pure _

theorem takes_levels {operand : Rule Expr} (hoperand : Takes 1 operand) (levels : List Level) :
    Takes 1 (levels.foldr chain operand) := by
  induction levels with
  | nil => exact hoperand
  | cons level levels ih => exact takes_chain level ih

theorem takes_assignment {operand value : Rule Expr} (hoperand : Takes 1 operand) (hvalue : Takes 1 value) :
    Takes 1 (assignment operand value) := by
  refine takes_bind (takes_levels hoperand Level.all) fun target => ?_
  refine takes_bind (takes_accept? .equal) fun equals => ?_
  cases equals with
  | none => exact takes_pure target
  | some equals =>
    refine takes_bind hvalue fun assigned => ?_
    cases target with
    | var name => exact takes_pure _
    | _ => exact takes_bind (takes_note _ equals) fun _ => takes_pure _

theorem takes_primary {inner : Rule Expr} (hinner : Takes 1 inner) : Takes 1 (primary inner) := by
  refine takes_choose (fun token => ?_) (takes_fail _)
  cases token.kind
  case kwFalse | kwTrue | kwNil | identifier => simpa using takes_pure _
  case number | string =>
    cases token.literal with
    | none => simp
    | some literal => simpa using takes_pure _
  case leftParen =>
    intro rule hrule
    obtain rfl := Option.some.inj hrule
    exact takes_bind hinner fun e => takes_bind (takes_close _ _) fun _ => takes_pure _
  all_goals simp

theorem takes_operandOver {deeper inner : Rule Expr} (hdeeper : Takes 1 deeper) (hinner : Takes 1 inner) :
    Takes 1 (operandOver deeper inner) := by
  refine takes_choose (fun token => ?_) (takes_primary hinner)
  cases UnaryOp.ofKind? token.kind with
  | none => simp
  | some op =>
    intro rule hrule
    obtain rfl := Option.some.inj hrule
    exact takes_bind hdeeper fun right => takes_pure _

theorem takes_expression_operand (depth : Nat) : Takes 1 (expression depth) ∧ Takes 1 (operand depth) := by
  induction depth with
  | zero =>
    rw [expression, operand]
    exact ⟨takes_fail _, takes_operandOver (takes_fail _) (takes_fail _)⟩
  | succ depth ih =>
    obtain ⟨hexpression, hoperand⟩ := ih
    rw [expression, operand]
    have hassignment := takes_assignment hoperand hexpression
    exact ⟨hassignment, takes_operandOver hoperand hassignment⟩

theorem takes_expression (depth : Nat) : Takes 1 (expression depth) :=
  (takes_expression_operand depth).1

/-! ### Statements -/

section Statements

variable {expression : Rule Expr} {statement : Rule Stmt}

theorem takes_variableDeclaration (hexpression : Takes 1 expression) :
    Takes 1 (variableDeclaration expression) := by
  refine takes_bind (takes_expect _ _) fun name => ?_
  refine takes_bind (takes_optionalAfter .equal (hexpression.weaken (Nat.zero_le 1))) fun init => ?_
  exact takes_bind (takes_close _ _) fun _ => takes_pure _

theorem takes_expressionStatement (hexpression : Takes 1 expression) :
    Takes 1 (expressionStatement expression) := by
  refine takes_bind hexpression fun e => ?_
  exact takes_bind (takes_close _ _) fun _ => takes_pure _

theorem takes_printStatement (hexpression : Takes 1 expression) : Takes 1 (printStatement expression) := by
  refine takes_bind hexpression fun e => ?_
  exact takes_bind (takes_close _ _) fun _ => takes_pure _

/-- A declaration before a failure of it is mended. -/
theorem takes_undeclared (hexpression : Takes 1 expression) (hstatement : Takes 1 statement) :
    Takes 1 (choose (fun token => if token.kind = .kwVar then some (variableDeclaration expression) else none)
      statement) :=
  takes_choose_kind (fun _ => (takes_variableDeclaration hexpression).weaken (Nat.zero_le 1)) hstatement

/-- A declaration reads at least one token, whether it succeeds or fails. -/
theorem length_declaration_lt (hexpression : Takes 1 expression) (hstatement : Takes 1 statement)
    {tokens : List Token} (hne : tokens ≠ []) :
    (declaration expression statement tokens).rest <:+ tokens
      ∧ (declaration expression statement tokens).rest.length < tokens.length := by
  obtain ⟨hsuffix, hlength⟩ := takes_undeclared hexpression hstatement tokens
  rw [declaration, recovering]
  split
  next a findings rest h =>
    rw [h] at hsuffix hlength
    exact ⟨hsuffix, hlength a rfl⟩
  next fault findings rest h =>
    rw [h] at hsuffix
    exact ⟨(resume_suffix rest).trans hsuffix, length_resume_lt hsuffix hne⟩

theorem moves_declaration (stops : Token → Bool) (hexpression : Takes 1 expression) (hstatement : Takes 1 statement) :
    Moves (unlessAt stops (declaration expression statement)) := by
  intro tokens
  cases tokens with
  | nil => exact ⟨List.suffix_rfl, by simp [unlessAt]⟩
  | cons token rest =>
    rw [unlessAt]
    split
    · exact ⟨List.suffix_rfl, by simp⟩
    · obtain ⟨slot, findings, left, h⟩ := total_declaration expression statement (token :: rest)
      obtain ⟨hsuffix, hlt⟩ := length_declaration_lt hexpression hstatement (List.cons_ne_nil token rest)
      rw [h] at hsuffix hlt
      rw [map_of_ok h]
      exact ⟨hsuffix, fun _ _ => hlt⟩

theorem takes_blockStatement (hexpression : Takes 1 expression) (hstatement : Takes 1 statement) :
    Takes 1 (blockStatement expression statement) := by
  refine takes_bind (takes_many (moves_declaration _ hexpression hstatement)) fun slots => ?_
  exact takes_bind (takes_close _ _) fun _ => takes_pure _

theorem takes_ifStatement (hexpression : Takes 1 expression) (hstatement : Takes 1 statement) :
    Takes 1 (ifStatement expression statement) := by
  refine takes_bind (takes_close _ _) fun _ => ?_
  refine takes_bind hexpression fun condition => ?_
  refine takes_bind (takes_close _ _) fun _ => ?_
  refine takes_bind hstatement fun yes => ?_
  exact takes_bind (takes_optionalAfter .kwElse (hstatement.weaken (Nat.zero_le 1))) fun no => takes_pure _

theorem takes_whileStatement (hexpression : Takes 1 expression) (hstatement : Takes 1 statement) :
    Takes 1 (whileStatement expression statement) := by
  refine takes_bind (takes_close _ _) fun _ => ?_
  refine takes_bind hexpression fun condition => ?_
  refine takes_bind (takes_close _ _) fun _ => ?_
  exact takes_bind hstatement fun body => takes_pure _

theorem takes_forInitializer (hexpression : Takes 1 expression) : Takes 1 (forInitializer expression) := by
  refine takes_choose (fun token => ?_) (takes_map (takes_expressionStatement hexpression))
  cases token.kind
  case semicolon => simpa using takes_pure _
  case kwVar => simpa using takes_map ((takes_variableDeclaration hexpression).weaken (Nat.zero_le 1))
  all_goals simp

theorem takes_forStatement (line : Nat) (hexpression : Takes 1 expression) (hstatement : Takes 1 statement) :
    Takes 1 (forStatement line expression statement) := by
  have hclause := hexpression.weaken (Nat.zero_le 1)
  refine takes_bind (takes_close _ _) fun _ => ?_
  refine takes_bind (takes_forInitializer hexpression) fun init => ?_
  refine takes_bind (takes_optionalUntil .semicolon hclause) fun condition => ?_
  refine takes_bind (takes_close _ _) fun _ => ?_
  refine takes_bind (takes_optionalUntil .rightParen hclause) fun increment => ?_
  refine takes_bind (takes_close _ _) fun _ => ?_
  exact takes_bind hstatement fun body => takes_pure _

theorem takes_statementOver (hexpression : Takes 1 expression) (hstatement : Takes 1 statement) :
    Takes 1 (statementOver expression statement) := by
  refine takes_choose (fun token => ?_) (takes_expressionStatement hexpression)
  cases token.kind
  case kwFor => simpa using (takes_forStatement token.line hexpression hstatement).weaken (Nat.zero_le 1)
  case kwIf => simpa using (takes_ifStatement hexpression hstatement).weaken (Nat.zero_le 1)
  case kwPrint => simpa using (takes_printStatement hexpression).weaken (Nat.zero_le 1)
  case kwWhile => simpa using (takes_whileStatement hexpression hstatement).weaken (Nat.zero_le 1)
  case leftBrace => simpa using (takes_blockStatement hexpression hstatement).weaken (Nat.zero_le 1)
  all_goals simp

end Statements

theorem takes_statement (depth : Nat) : Takes 1 (statement depth) := by
  induction depth with
  | zero => exact takes_fail _
  | succ depth ih => exact takes_statementOver (takes_expression depth) ih

end Rule

end Lox
