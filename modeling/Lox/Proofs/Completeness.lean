import Lox.Proofs.Form
/-!
# Right forms are read

Whatever is written in the form of a tree is read cleanly, by the rule for the place it stands at, as
that tree, provided that the token behind it does not go on with it. `Rank.Ends` says which tokens do
not go on with an expression; only an `else` can go on with a statement, and only with one that is not
closed.
-/

namespace Lox

namespace InfixOp

/-- No two infix operators are spelled the same. -/
theorem kind_injective {op op' : InfixOp} (h : op.kind = op'.kind) : op = op' := by
  have hfind (o : InfixOp) : all.find? (·.kind == o.kind) = some o := by
    cases o with
    | binary o => cases o <;> rfl
    | logical o => cases o <;> rfl
  have hop := hfind op
  rw [h, hfind op'] at hop
  exact (Option.some.inj hop).symm

theorem ofKind?_eq_none_of_ne {level other : Level} {kind : TokenKind} {op : InfixOp}
    (h : ofKind? level kind = some op) (hne : other ≠ level) : ofKind? other kind = none := by
  rw [Option.eq_none_iff_forall_ne_some]
  intro op' h'
  obtain ⟨hlevel, hkind⟩ := ofKind?_eq_some.1 h
  obtain ⟨hlevel', hkind'⟩ := ofKind?_eq_some.1 h'
  have hop := kind_injective (hkind'.trans hkind.symm)
  rw [hop, hlevel] at hlevel'
  exact hne hlevel'.symm

end InfixOp

namespace Rank

/-- The rule that reads an expression at a place of the given rank. -/
def rule (n : Nat) : Rank → Rule Expr
  | whole => Rule.expression n
  | within levels => levels.foldr Rule.chain (Rule.operand n)

/-- The tokens that follow do not go on with an expression at a place of the given rank. -/
def Ends (rest : List Token) : Rank → Prop
  | whole => nextKind rest ≠ some .equal
      ∧ ∀ level kind, nextKind rest = some kind → InfixOp.ofKind? level kind = none
  | within levels => ∀ level ∈ levels, ∀ kind, nextKind rest = some kind → InfixOp.ofKind? level kind = none

/-- An operand does not list a level twice. -/
def Proper : Rank → Prop
  | whole => True
  | within levels => levels.Nodup

theorem ends_whole_cons {token : Token} {rest : List Token} :
    whole.Ends (token :: rest)
      ↔ token.kind ≠ .equal ∧ ∀ level, InfixOp.ofKind? level token.kind = none := by
  simp [Ends]

theorem ends_within_cons {levels : List Level} {token : Token} {rest : List Token} :
    (within levels).Ends (token :: rest) ↔ ∀ level ∈ levels, InfixOp.ofKind? level token.kind = none := by
  simp [Ends]

theorem ends_of_stop {stop : Token} {rest : List Token}
    (h : stop.kind = .semicolon ∨ stop.kind = .rightParen) : whole.Ends (stop :: rest) := by
  rw [ends_whole_cons]
  obtain h | h := h
  all_goals
    rw [h]
    exact ⟨by decide, fun level => by cases level <;> rfl⟩

end Rank

namespace Rule

/-! ### Expressions -/

theorem operand_eq (n : Nat) : ∃ deeper, operand n = operandOver deeper (expression n) := by
  cases n with
  | zero => exact ⟨fail .tooDeep, by rw [operand, expression]⟩
  | succ n => exact ⟨operand n, by rw [operand, expression]⟩

theorem reads_operand_of_primary {n : Nat} {token : Token} {tokens rest : List Token} {e : Expr}
    (htoken : UnaryOp.ofKind? token.kind = none)
    (h : (primary (expression n)).Reads (token :: tokens) e rest) :
    (operand n).Reads (token :: tokens) e rest := by
  obtain ⟨deeper, hoperand⟩ := operand_eq n
  rw [hoperand, reads_operandOver]
  exact .inr ⟨by simpa using htoken, h⟩

theorem ofKind?_of_constant? {t : Token} {v : Value} (h : t.constant? = some v) :
    UnaryOp.ofKind? t.kind = none := by
  rw [Token.constant?] at h
  split at h
  case h_6 => simp at h
  all_goals
    next hkind =>
      rw [hkind]
      rfl

/-- Operations of one level are read up to a token that is no operator of it. -/
theorem reads_operations {level : Level} {levels : List Level} {operand : Rule Expr}
    {operations : List Operation} {rest : List Token} (hlevel : level ∉ levels)
    (hsigns : ∀ o ∈ operations, InfixOp.ofKind? level o.sign.kind = some o.op)
    (hreads : ∀ o ∈ operations, ∀ rest, (Rank.within levels).Ends rest →
      operand.Reads (o.tokens ++ rest) o.right rest)
    (hrest : (Rank.within (level :: levels)).Ends rest) :
    (many (operation level operand)).Reads (operations.flatMap Operation.text ++ rest)
        (operations.map answer) rest
      ∧ (Rank.within levels).Ends (operations.flatMap Operation.text ++ rest) := by
  induction operations with
  | nil =>
    refine ⟨reads_many_nil (reads_operation.2 (.inl ⟨rfl, rfl, ?_⟩)), ?_⟩
    · intro kind hkind
      exact hrest level List.mem_cons_self kind hkind
    · intro other hother
      exact hrest other (List.mem_cons_of_mem _ hother)
  | cons o operations ih =>
    obtain ⟨hsign, hsigns⟩ := List.forall_mem_cons.1 hsigns
    obtain ⟨hread, hreads⟩ := List.forall_mem_cons.1 hreads
    obtain ⟨hmany, hends⟩ := ih hsigns hreads
    simp only [List.flatMap_cons, Operation.text, List.cons_append, List.append_assoc, List.map_cons]
    constructor
    · refine reads_many_cons (reads_operation.2 (.inr ?_)) ?_ hmany
      · exact ⟨o.sign, o.op, _, o.right, rfl, hsign, hread _ hends, rfl⟩
      · simp only [List.length_cons, List.length_append]
        omega
    · rw [Rank.ends_within_cons]
      intro other hother
      refine InfixOp.ofKind?_eq_none_of_ne hsign ?_
      intro heq
      exact hlevel (heq ▸ hother)

/-- An operand that nothing goes on with is read the same at every looser level. -/
theorem reads_levels {operand : Rule Expr} {tokens rest : List Token} {e : Expr} {levels : List Level}
    (h : operand.Reads tokens e rest) (hrest : (Rank.within levels).Ends rest) :
    (levels.foldr chain operand).Reads tokens e rest := by
  induction levels with
  | nil => exact h
  | cons level levels ih =>
    have hends : (Rank.within levels).Ends rest := by
      intro other hother
      exact hrest other (List.mem_cons_of_mem _ hother)
    refine reads_chain.2 ⟨e, rest, [], ih hends, ?_, rfl⟩
    refine reads_many_nil (reads_operation.2 (.inl ⟨rfl, rfl, ?_⟩))
    intro kind hkind
    exact hrest level List.mem_cons_self kind hkind

/-- A name before an equals sign is read as an assignment's target. -/
theorem reads_target {n : Nat} {name equals : Token} {tokens : List Token}
    (hname : name.kind = .identifier) (hequals : equals.kind = .equal) :
    (cascade (operand n)).Reads (name :: equals :: tokens) (.var name) (equals :: tokens) := by
  have hvar : (operand n).Reads (name :: equals :: tokens) (.var name) (equals :: tokens) := by
    refine reads_operand_of_primary (by rw [hname]; rfl) (reads_primary.2 (.inr (.inl ?_)))
    exact ⟨name, rfl, hname, rfl⟩
  refine reads_levels hvar ?_
  rw [Rank.ends_within_cons, hequals]
  intro level _
  cases level <;> rfl

theorem reads_of_exprForm {n : Nat} {rank : Rank} {ts rest : List Token} {e : Expr}
    (h : ExprForm n rank ts e) (hproper : rank.Proper) (hrest : rank.Ends rest) :
    (rank.rule n).Reads (ts ++ rest) e rest := by
  induction h generalizing rest with
  | @literal n t v hv =>
    refine reads_operand_of_primary (ofKind?_of_constant? hv) (reads_primary.2 (.inl ?_))
    exact ⟨t, v, rfl, hv, rfl⟩
  | @var n t ht =>
    refine reads_operand_of_primary (by rw [ht]; rfl) (reads_primary.2 (.inr (.inl ?_)))
    exact ⟨t, rfl, ht, rfl⟩
  | @group n left right ts e hleft hright _ ih =>
    have hinside := ih trivial (Rank.ends_of_stop (.inr hright) : Rank.whole.Ends (right :: rest))
    simp only [List.cons_append, List.append_assoc, List.nil_append]
    refine reads_operand_of_primary (by rw [hleft]; rfl) (reads_primary.2 (.inr (.inr ?_)))
    exact ⟨left, _, e, right, rfl, hleft, hinside, hright, rfl⟩
  | @unary n sign op ts e hop _ ih =>
    have hoperand := ih hproper hrest
    change (operand (n + 1)).Reads _ _ _
    rw [operand, reads_operandOver]
    exact .inl ⟨sign, op, _, e, rfl, hop, hoperand, rfl⟩
  | @chain n level levels ts first operations _ hsigns _ ihfirst ihright =>
    obtain ⟨hlevel, hlevels⟩ := List.nodup_cons.1 hproper
    obtain ⟨hmany, hends⟩ := reads_operations hlevel hsigns
      (fun o ho rest hrest => ihright o ho hlevels hrest) hrest
    rw [List.append_assoc]
    exact reads_chain.2 ⟨first, _, _, ihfirst hlevels hends, hmany, (foldl_answers operations first).symm⟩
  | @plain n ts e _ ih =>
    obtain ⟨hequal, hinfix⟩ := hrest
    have hcascade := ih (by decide : Level.all.Nodup) (fun level _ => hinfix level)
    change (expression (n + 1)).Reads _ _ _
    rw [expression, reads_assignment]
    exact .inl ⟨hcascade, hequal⟩
  | @assign n name equals ts e hname hequals _ ih =>
    have hvalue := ih trivial hrest
    change (expression (n + 1)).Reads _ _ _
    rw [expression, reads_assignment]
    exact .inr ⟨name, equals, _, e, reads_target hname hequals, hequals, hvalue, rfl⟩

theorem reads_expression_stop {n : Nat} {ts : List Token} {e : Expr} {stop : Token}
    (h : ExprForm n .whole ts e) (hstop : stop.kind = .semicolon ∨ stop.kind = .rightParen)
    (rest : List Token) : (expression n).Reads (ts ++ stop :: rest) e (stop :: rest) :=
  reads_of_exprForm h trivial (Rank.ends_of_stop hstop)

/-! ### Clauses -/

theorem reads_of_varForm {n : Nat} {ts : List Token} {s : Stmt} (h : VarForm n ts s) (rest : List Token) :
    (variableDeclaration (expression n)).Reads (ts ++ rest) s rest := by
  rw [reads_variableDeclaration]
  cases h with
  | @bare name semicolon hname hsemicolon =>
    exact ⟨name, hname, .inl ⟨semicolon, hsemicolon, rfl, rfl⟩⟩
  | @init name equals semicolon ts e hname hequals hform hsemicolon =>
    have hread := reads_expression_stop hform (.inl hsemicolon) rest
    exact ⟨name, hname, .inr ⟨equals, _, e, semicolon, hequals, by simp, hread, hsemicolon, rfl⟩⟩

theorem reads_of_initForm {n : Nat} {ts : List Token} {init : Option Stmt} (h : InitForm n ts init)
    (rest : List Token) : (forInitializer (expression n)).Reads (ts ++ rest) init rest := by
  rw [reads_forInitializer]
  cases h with
  | @absent semicolon hsemicolon => exact .inl ⟨semicolon, hsemicolon, rfl, rfl⟩
  | @declared keyword ts s hkeyword hform =>
    exact .inr (.inl ⟨keyword, _, s, hkeyword, rfl, reads_of_varForm hform rest, rfl⟩)
  | @plain ts e semicolon hform hsemicolon =>
    have hread := reads_expression_stop hform (.inl hsemicolon) rest
    obtain ⟨token, ts, rfl, hstarts⟩ := hform.exists_head
    have hkind : token.kind ≠ .semicolon ∧ token.kind ≠ .kwVar := by
      constructor <;> intro heq <;> simp [ExprForm.starts, heq] at hstarts
    refine .inr (.inr ⟨by simpa using hkind.1, by simpa using hkind.2, .expression e, ?_, rfl⟩)
    rw [List.append_assoc]
    exact reads_expressionStatement.2 ⟨e, semicolon, hread, hsemicolon, rfl⟩

/-- An optional clause ends at a token that neither starts an expression nor goes on with one. -/
theorem reads_of_optionForm {n : Nat} {ts : List Token} {answer : Option Expr} {stop : Token}
    {kind : TokenKind} (h : OptionForm n ts answer) (hstop : stop.kind = kind)
    (hstarts : ¬ ExprForm.starts kind) (rest : List Token) (hends : Rank.whole.Ends (stop :: rest)) :
    (optionalUntil kind (expression n)).Reads (ts ++ stop :: rest) answer (stop :: rest) := by
  rw [reads_optionalUntil]
  cases h with
  | absent => exact .inl ⟨rfl, rfl, by simp [hstop]⟩
  | @present _ e hform =>
    have hread := reads_of_exprForm hform trivial hends
    obtain ⟨token, ts, rfl, hkind⟩ := hform.exists_head
    refine .inr ⟨e, ?_, hread, rfl⟩
    rw [List.cons_append, nextKind_cons]
    intro heq
    exact hstarts (Option.some.inj heq ▸ hkind)

/-! ### Statements -/

theorem reads_declarations {stops : Token → Bool} {expression : Rule Expr} {statement : Rule Stmt}
    {parts : List (List Token × Stmt)} {rest : List Token}
    (hreads : ∀ p ∈ parts, ∀ rest, nextKind rest ≠ some .kwElse →
      (declaration expression statement).Reads (p.1 ++ rest) (some p.2) rest)
    (hstarts : ∀ p ∈ parts, ∃ token ts, p.1 = token :: ts ∧ token.kind ≠ .kwElse ∧ stops token = false)
    (helse : nextKind rest ≠ some .kwElse) (hstop : ∀ token ∈ rest.head?, stops token = true) :
    (declarations stops expression statement).Reads (parts.flatMap (·.1) ++ rest)
        (parts.map fun p => some p.2) rest
      ∧ nextKind (parts.flatMap (·.1) ++ rest) ≠ some .kwElse := by
  induction parts with
  | nil =>
    refine ⟨reads_many_nil ?_, helse⟩
    cases rest with
    | nil => exact reads_unlessAt_nil.2 ⟨rfl, rfl⟩
    | cons token rest => exact reads_unlessAt_cons.2 (.inl ⟨hstop token rfl, rfl, rfl⟩)
  | cons p parts ih =>
    obtain ⟨hread, hreads⟩ := List.forall_mem_cons.1 hreads
    obtain ⟨⟨token, ts, hp, hkind, hgoes⟩, hstarts⟩ := List.forall_mem_cons.1 hstarts
    obtain ⟨hmany, hnext⟩ := ih hreads hstarts
    have hfirst := hread _ hnext
    simp only [List.flatMap_cons, List.append_assoc, List.map_cons]
    rw [hp, List.cons_append] at hfirst ⊢
    constructor
    · refine reads_many_cons (reads_unlessAt_cons.2 (.inr ⟨hgoes, some p.2, hfirst, rfl⟩)) ?_ hmany
      simp only [List.length_cons, List.length_append]
      omega
    · simpa using hkind

/-- What stands at a position is read by the rule for it, whatever follows that does not go on with
it. -/
def ReadsAt (n : Nat) (ts : List Token) (s : Stmt) : Position → Prop
  | .declaration => ∀ rest, nextKind rest ≠ some .kwElse →
      (declaration (expression n) (statement n)).Reads (ts ++ rest) (some s) rest
  | .statement closed => ∀ rest, (closed = false → nextKind rest ≠ some .kwElse) →
      (statement n).Reads (ts ++ rest) s rest

/-- The parts of a block are read up to its closing brace. -/
theorem reads_block_parts {n : Nat} {parts : List (List Token × Stmt)} {right : Token}
    (hforms : ∀ p ∈ parts, StmtForm n .declaration p.1 p.2)
    (hreads : ∀ p ∈ parts, ReadsAt n p.1 p.2 .declaration) (hright : right.kind = .rightBrace)
    (rest : List Token) :
    (declarations (·.kind == .rightBrace) (expression n) (statement n)).Reads
      (parts.flatMap (·.1) ++ right :: rest) (parts.map fun p => some p.2) (right :: rest) := by
  refine (reads_declarations hreads ?_ (by simp [hright]) (by simp [hright])).1
  intro p hp
  obtain ⟨token, ts, htokens, hstarts⟩ := (hforms p hp).exists_head
  refine ⟨token, ts, htokens, ?_, ?_⟩
  · intro helse
    simp [StmtForm.starts, ExprForm.starts, helse] at hstarts
  · rw [beq_eq_false_iff_ne]
    intro hbrace
    simp [StmtForm.starts, ExprForm.starts, hbrace] at hstarts

theorem reads_statement_of_keyword {n : Nat} {keyword : Token} {tokens rest : List Token} {s : Stmt}
    {rule : Rule Stmt} (hrule : afterKeyword (expression n) (statement n) keyword = some rule)
    (h : rule.Reads tokens s rest) : (statement (n + 1)).Reads (keyword :: tokens) s rest := by
  rw [statement, reads_statementOver]
  exact .inl ⟨keyword, tokens, rule, rfl, hrule, h⟩

theorem afterKeyword_of_starts {expression : Rule Expr} {statement : Rule Stmt} {token : Token}
    (h : ExprForm.starts token.kind) : afterKeyword expression statement token = none := by
  rw [afterKeyword]
  split
  case h_6 => rfl
  all_goals
    next hkind => simp [ExprForm.starts, hkind] at h

theorem readsAt_of_stmtForm {n : Nat} {position : Position} {ts : List Token} {s : Stmt}
    (h : StmtForm n position ts s) : ReadsAt n ts s position := by
  induction h with
  | @var n keyword ts s hkeyword hform =>
    intro rest _
    have hread := reads_of_varForm hform rest
    exact reads_declaration.2 ⟨s, rfl, .inl ⟨keyword, _, hkeyword, rfl, hread⟩⟩
  | @statement n ts s hform ih =>
    intro rest hrest
    have hread := ih rest fun _ => hrest
    refine reads_declaration.2 ⟨s, rfl, .inr ⟨?_, hread⟩⟩
    obtain ⟨token, ts, rfl, hstarts⟩ := hform.exists_head
    rw [List.cons_append, nextKind_cons]
    intro hvar
    simp [StmtForm.starts, ExprForm.starts, Option.some.inj hvar] at hstarts
  | @expression n closed ts e semicolon hform hsemicolon =>
    intro rest _
    have hread := reads_expression_stop hform (.inl hsemicolon) rest
    obtain ⟨token, ts, rfl, hstarts⟩ := hform.exists_head
    rw [List.append_assoc, statement, reads_statementOver]
    refine .inr ⟨?_, reads_expressionStatement.2 ⟨e, semicolon, hread, hsemicolon, rfl⟩⟩
    intro keyword mid htokens
    obtain ⟨rfl, -⟩ := List.cons.inj htokens
    exact afterKeyword_of_starts hstarts
  | @print n closed keyword semicolon ts e hkeyword hform hsemicolon =>
    intro rest _
    have hread := reads_expression_stop hform (.inl hsemicolon) rest
    simp only [List.cons_append, List.append_assoc, List.nil_append]
    refine reads_statement_of_keyword (by rw [afterKeyword, hkeyword]) ?_
    exact reads_printStatement.2 ⟨e, semicolon, hread, hsemicolon, rfl⟩
  | @block n closed left right parts hleft hforms hright ih =>
    intro rest _
    have hread := reads_block_parts hforms ih hright rest
    simp only [List.cons_append, List.append_assoc, List.nil_append]
    refine reads_statement_of_keyword (by rw [afterKeyword, hleft]) ?_
    exact reads_blockStatement.2 ⟨_, right, hread, hright, rfl⟩
  | @ifThen n keyword left right cs ts condition yes hkeyword hleft hcs hright _ ih =>
    intro rest hrest
    have hcondition := reads_expression_stop hcs (.inr hright) (ts ++ rest)
    have hyes := ih rest hrest
    simp only [List.cons_append, List.append_assoc]
    refine reads_statement_of_keyword (by rw [afterKeyword, hkeyword]) (reads_ifStatement.2 ?_)
    exact ⟨left, _, condition, right, _, yes, rest, rfl, hleft, hcondition, hright, hyes,
      .inl ⟨hrest rfl, rfl, rfl⟩⟩
  | @ifElse n closed keyword left right other cs ts us condition yes no hkeyword hleft hcs hright _ hother
      _ ihyes ihno =>
    intro rest hrest
    have hcondition := reads_expression_stop hcs (.inr hright) (ts ++ other :: (us ++ rest))
    have hyes := ihyes (other :: (us ++ rest)) (by simp)
    have hno := ihno rest hrest
    simp only [List.cons_append, List.append_assoc]
    refine reads_statement_of_keyword (by rw [afterKeyword, hkeyword]) (reads_ifStatement.2 ?_)
    exact ⟨left, _, condition, right, _, yes, _, rfl, hleft, hcondition, hright, hyes,
      .inr ⟨other, _, no, rfl, hother, hno, rfl⟩⟩
  | @«while» n closed keyword left right cs ts condition body hkeyword hleft hcs hright _ ih =>
    intro rest hrest
    have hcondition := reads_expression_stop hcs (.inr hright) (ts ++ rest)
    have hbody := ih rest hrest
    simp only [List.cons_append, List.append_assoc]
    refine reads_statement_of_keyword (by rw [afterKeyword, hkeyword]) (reads_whileStatement.2 ?_)
    exact ⟨left, _, condition, right, _, body, rfl, hleft, hcondition, hright, hbody, rfl⟩
  | @«for» n closed keyword left semicolon right is cs us ts init condition increment body hkeyword hleft
      his hcs hsemicolon hus hright _ ih =>
    intro rest hrest
    have hinit := reads_of_initForm his (cs ++ semicolon :: (us ++ right :: (ts ++ rest)))
    have hcondition := reads_of_optionForm hcs hsemicolon (by simp [ExprForm.starts])
      (us ++ right :: (ts ++ rest)) (Rank.ends_of_stop (.inl hsemicolon))
    have hincrement := reads_of_optionForm hus hright (by simp [ExprForm.starts]) (ts ++ rest)
      (Rank.ends_of_stop (.inr hright))
    have hbody := ih rest hrest
    simp only [List.cons_append, List.append_assoc]
    refine reads_statement_of_keyword (by rw [afterKeyword, hkeyword]) (reads_forStatement.2 ?_)
    exact ⟨left, _, init, _, condition, semicolon, _, increment, right, _, body, rfl, hleft, hinit,
      hcondition, hsemicolon, hincrement, hright, hbody, rfl⟩

end Rule

end Lox
