import Lox.Proofs.Program
/-!
# The grammar in EBNF

The grammar of the language as a table of productions, what its phrases derive, and how deeply the
rules of a derivation are nested. A token list parses without errors exactly when the table derives it
from `program` with at most `Rule.maxNesting` statements, expressions and operands of unary operators
open at once.

An `else` belongs to the nearest conditional that is still open. The table says so by keeping apart the
closed statements, which do not end in a conditional without `else`: only these stand before an `else`.
-/

namespace Lox

namespace Ebnf

inductive Symbol where
  | program | declaration | varDecl
  | statement (closed : Bool) | exprStmt | printStmt | block
  | ifStmt (closed : Bool) | whileStmt (closed : Bool) | forStmt (closed : Bool)
  | expression | assignment
  | logicOr | logicAnd | equality | comparison | term | factor
  | unary | operand | primary

inductive Phrase where
  | token (kind : TokenKind)
  | rule (symbol : Symbol)
  | sequence (phrases : List Phrase)
  | choice (phrases : List Phrase)
  | optional (phrase : Phrase)
  | many (phrase : Phrase)

def joined (part : Symbol) (operators : List TokenKind) : Phrase :=
  .sequence [.rule part, .many (.sequence [.choice (operators.map .token), .rule part])]

def production : Symbol → Phrase
  | .program => .many (.rule .declaration)
  | .declaration => .choice [.rule .varDecl, .rule (.statement false)]
  | .varDecl => .sequence [.token .kwVar, .token .identifier,
      .optional (.sequence [.token .equal, .rule .expression]), .token .semicolon]
  | .statement closed => .choice [.rule .exprStmt, .rule .printStmt, .rule .block,
      .rule (.ifStmt closed), .rule (.whileStmt closed), .rule (.forStmt closed)]
  | .exprStmt => .sequence [.rule .expression, .token .semicolon]
  | .printStmt => .sequence [.token .kwPrint, .rule .expression, .token .semicolon]
  | .block => .sequence [.token .leftBrace, .many (.rule .declaration), .token .rightBrace]
  | .ifStmt true => .sequence [.token .kwIf, .token .leftParen, .rule .expression, .token .rightParen,
      .sequence [.rule (.statement true), .token .kwElse, .rule (.statement true)]]
  | .ifStmt false => .sequence [.token .kwIf, .token .leftParen, .rule .expression, .token .rightParen,
      .choice [.rule (.statement false),
        .sequence [.rule (.statement true), .token .kwElse, .rule (.statement false)]]]
  | .whileStmt closed => .sequence [.token .kwWhile, .token .leftParen, .rule .expression,
      .token .rightParen, .rule (.statement closed)]
  | .forStmt closed => .sequence [.token .kwFor, .token .leftParen,
      .choice [.rule .varDecl, .rule .exprStmt, .token .semicolon],
      .optional (.rule .expression), .token .semicolon,
      .optional (.rule .expression), .token .rightParen, .rule (.statement closed)]
  | .expression => .rule .assignment
  | .assignment => .choice [.sequence [.token .identifier, .token .equal, .rule .expression], .rule .logicOr]
  | .logicOr => joined .logicAnd [.kwOr]
  | .logicAnd => joined .equality [.kwAnd]
  | .equality => joined .comparison [.equalEqual, .bangEqual]
  | .comparison => joined .term [.less, .lessEqual, .greater, .greaterEqual]
  | .term => joined .factor [.plus, .minus]
  | .factor => joined .unary [.star, .slash]
  | .unary => .choice [.sequence [.choice [.token .bang, .token .minus], .rule .operand], .rule .primary]
  | .operand => .rule .unary
  | .primary => .choice [.token .number, .token .string, .token .kwTrue, .token .kwFalse, .token .kwNil,
      .token .identifier, .sequence [.token .leftParen, .rule .expression, .token .rightParen]]

/-- The levels of nesting that a rule opens. -/
def opens : Symbol → Nat
  | .statement _ | .expression | .operand => 1
  | _ => 0

/-- The tokens can be derived from a phrase with at most `n` levels of nesting open at once. -/
inductive Derives : Nat → Phrase → List Token → Prop where
  | token {n : Nat} {t : Token} : Derives n (.token t.kind) [t]
  | rule {n : Nat} {symbol : Symbol} {ts : List Token} : Derives n (production symbol) ts →
      Derives (n + opens symbol) (.rule symbol) ts
  | nil {n : Nat} : Derives n (.sequence []) []
  | cons {n : Nat} {phrase : Phrase} {phrases : List Phrase} {ts us : List Token} :
      Derives n phrase ts → Derives n (.sequence phrases) us →
      Derives n (.sequence (phrase :: phrases)) (ts ++ us)
  | choice {n : Nat} {phrase : Phrase} {phrases : List Phrase} {ts : List Token} : phrase ∈ phrases →
      Derives n phrase ts → Derives n (.choice phrases) ts
  | absent {n : Nat} {phrase : Phrase} : Derives n (.optional phrase) []
  | present {n : Nat} {phrase : Phrase} {ts : List Token} : Derives n phrase ts →
      Derives n (.optional phrase) ts
  | stop {n : Nat} {phrase : Phrase} : Derives n (.many phrase) []
  | step {n : Nat} {phrase : Phrase} {ts us : List Token} : Derives n phrase ts →
      Derives n (.many phrase) us → Derives n (.many phrase) (ts ++ us)

/-! ### What phrases derive -/

section Phrases

variable {n : Nat} {ts : List Token} {phrase : Phrase} {phrases : List Phrase}

@[simp] theorem derives_token {kind : TokenKind} :
    Derives n (.token kind) ts ↔ ∃ t, t.kind = kind ∧ ts = [t] := by
  constructor
  · intro h
    cases h with
    | @token _ t => exact ⟨t, rfl, rfl⟩
  · intro h
    obtain ⟨t, rfl, rfl⟩ := h
    exact .token

@[simp] theorem derives_nil : Derives n (.sequence []) ts ↔ ts = [] := by
  constructor
  · intro h
    cases h
    rfl
  · intro h
    subst h
    exact .nil

@[simp] theorem derives_cons : Derives n (.sequence (phrase :: phrases)) ts
    ↔ ∃ us vs, ts = us ++ vs ∧ Derives n phrase us ∧ Derives n (.sequence phrases) vs := by
  constructor
  · intro h
    cases h with
    | @cons _ _ _ us vs hfirst hrest => exact ⟨us, vs, rfl, hfirst, hrest⟩
  · intro h
    obtain ⟨us, vs, rfl, hfirst, hrest⟩ := h
    exact .cons hfirst hrest

theorem derives_token_cons {kind : TokenKind} : Derives n (.sequence (.token kind :: phrases)) ts
    ↔ ∃ t us, t.kind = kind ∧ ts = t :: us ∧ Derives n (.sequence phrases) us := by
  rw [derives_cons]
  constructor
  · intro h
    obtain ⟨_, us, rfl, htoken, hrest⟩ := h
    obtain ⟨t, hkind, rfl⟩ := derives_token.1 htoken
    exact ⟨t, us, hkind, rfl, hrest⟩
  · intro h
    obtain ⟨t, us, hkind, rfl, hrest⟩ := h
    exact ⟨[t], us, rfl, derives_token.2 ⟨t, hkind, rfl⟩, hrest⟩

theorem derives_rule_cons {symbol : Symbol} : Derives n (.sequence (.rule symbol :: phrases)) ts
    ↔ ∃ us vs, ts = us ++ vs ∧ Derives n (.rule symbol) us ∧ Derives n (.sequence phrases) vs :=
  derives_cons

theorem derives_singleton : Derives n (.sequence [phrase]) ts ↔ Derives n phrase ts := by
  simp

@[simp] theorem derives_choice :
    Derives n (.choice phrases) ts ↔ ∃ phrase ∈ phrases, Derives n phrase ts := by
  constructor
  · intro h
    cases h with
    | choice hmem h => exact ⟨_, hmem, h⟩
  · intro h
    obtain ⟨phrase, hmem, h⟩ := h
    exact .choice hmem h

@[simp] theorem derives_optional : Derives n (.optional phrase) ts ↔ ts = [] ∨ Derives n phrase ts := by
  constructor
  · intro h
    cases h with
    | absent => exact .inl rfl
    | present h => exact .inr h
  · intro h
    obtain rfl | h := h
    · exact .absent
    · exact .present h

theorem derives_many :
    Derives n (.many phrase) ts ↔ ∃ parts : List (List Token), ts = parts.flatten
      ∧ ∀ part ∈ parts, Derives n phrase part := by
  constructor
  · intro h
    generalize hmany : Phrase.many phrase = p at h
    induction h with
    | stop => exact ⟨[], rfl, by simp⟩
    | @step _ _ ts us hfirst _ _ ih =>
      obtain rfl := Phrase.many.inj hmany
      obtain ⟨parts, rfl, hparts⟩ := ih rfl
      exact ⟨ts :: parts, rfl, List.forall_mem_cons.2 ⟨hfirst, hparts⟩⟩
    | _ => simp at hmany
  · intro h
    obtain ⟨parts, rfl, hparts⟩ := h
    induction parts with
    | nil => exact .stop
    | cons part parts ih =>
      obtain ⟨hfirst, hparts⟩ := List.forall_mem_cons.1 hparts
      exact .step hfirst (ih hparts)

theorem derives_rule {symbol : Symbol} :
    Derives n (.rule symbol) ts ↔ ∃ m, n = m + opens symbol ∧ Derives m (production symbol) ts := by
  constructor
  · intro h
    cases h with
    | rule h => exact ⟨_, rfl, h⟩
  · intro h
    obtain ⟨m, rfl, h⟩ := h
    exact .rule h

/-- A rule that opens no level derives what its production derives. -/
theorem derives_flat {symbol : Symbol} (h : opens symbol = 0) :
    Derives n (.rule symbol) ts ↔ Derives n (production symbol) ts := by
  rw [derives_rule, h]
  simp

/-- A rule that opens a level needs one, and leaves one less to its production. -/
theorem derives_nested {symbol : Symbol} (h : opens symbol = 1) :
    Derives n (.rule symbol) ts ↔ ∃ m, n = m + 1 ∧ Derives m (production symbol) ts := by
  rw [derives_rule, h]

end Phrases

end Ebnf

def Token.CarriesLiteral (t : Token) : Prop :=
  t.kind = .number ∨ t.kind = .string → t.literal.isSome

instance (t : Token) : Decidable t.CarriesLiteral :=
  inferInstanceAs (Decidable (_ → _))

namespace Ebnf

/-! ### Expressions -/

/-- A symbol derives exactly what has the given form. -/
def Agrees {α : Type} (n : Nat) (symbol : Symbol) (form : List Token → α → Prop) : Prop :=
  ∀ ts, (∀ t ∈ ts, t.CarriesLiteral) → (Derives n (.rule symbol) ts ↔ ∃ a, form ts a)

private theorem exists_map_eq {α β : Type} {f : β → α} {p : β → Prop} {as : List α}
    (h : ∀ a ∈ as, ∃ b, f b = a ∧ p b) : ∃ bs : List β, as = bs.map f ∧ ∀ b ∈ bs, p b := by
  induction as with
  | nil => exact ⟨[], rfl, by simp⟩
  | cons a as ih =>
    obtain ⟨⟨b, rfl, hb⟩, has⟩ := List.forall_mem_cons.1 h
    obtain ⟨bs, rfl, hbs⟩ := ih has
    exact ⟨b :: bs, rfl, List.forall_mem_cons.2 ⟨hb, hbs⟩⟩

section Expressions

variable {n : Nat}

theorem derives_operation {part : Symbol} {operators : List TokenKind} {ts : List Token} :
    Derives n (.sequence [.choice (operators.map .token), .rule part]) ts
      ↔ ∃ sign us, ts = sign :: us ∧ sign.kind ∈ operators ∧ Derives n (.rule part) us := by
  simp only [derives_cons, derives_choice, derives_nil, List.mem_map]
  constructor
  · intro h
    obtain ⟨_, _, rfl, ⟨_, ⟨kind, hkind, rfl⟩, hsign⟩, us, _, rfl, hus, rfl⟩ := h
    obtain ⟨sign, rfl, rfl⟩ := derives_token.1 hsign
    exact ⟨sign, us, by simp, hkind, hus⟩
  · intro h
    obtain ⟨sign, us, rfl, hkind, hus⟩ := h
    exact ⟨[sign], us, rfl, ⟨_, ⟨_, hkind, rfl⟩, .token⟩, us, [], by simp, hus, rfl⟩

theorem derives_joined {part : Symbol} {operators : List TokenKind} {ts : List Token} :
    Derives n (joined part operators) ts
      ↔ ∃ us parts, ts = us ++ List.flatten parts ∧ Derives n (.rule part) us
        ∧ ∀ p ∈ parts, ∃ sign vs, p = sign :: vs ∧ sign.kind ∈ operators ∧ Derives n (.rule part) vs := by
  constructor
  · intro h
    obtain ⟨us, _, rfl, hus, h⟩ := derives_cons.1 h
    obtain ⟨vs, _, rfl, hvs, hnil⟩ := derives_cons.1 h
    obtain rfl := derives_nil.1 hnil
    obtain ⟨parts, rfl, hparts⟩ := derives_many.1 hvs
    exact ⟨us, parts, by simp, hus, fun p hp => derives_operation.1 (hparts p hp)⟩
  · intro h
    obtain ⟨us, parts, rfl, hus, hparts⟩ := h
    have hmany := derives_many.2 ⟨parts, rfl, fun p hp => derives_operation.2 (hparts p hp)⟩
    refine .cons hus ?_
    simpa using Derives.cons hmany .nil

theorem agrees_joined {symbol part : Symbol} {operators : List TokenKind} {level : Level}
    {levels : List Level} (hopens : opens symbol = 0) (hproduction : production symbol = joined part operators)
    (hoperators : ∀ kind, kind ∈ operators ↔ (InfixOp.ofKind? level kind).isSome)
    (hpart : Agrees n part (ExprForm n (.within levels))) :
    Agrees n symbol (ExprForm n (.within (level :: levels))) := by
  intro ts hts
  rw [derives_flat hopens, hproduction, derives_joined]
  constructor
  · intro h
    obtain ⟨us, parts, rfl, hus, hparts⟩ := h
    simp only [List.mem_append, List.mem_flatten] at hts
    obtain ⟨first, hfirst⟩ := (hpart us fun t ht => hts t (.inl ht)).1 hus
    have hoperations : ∀ ts ∈ parts, ∃ o : Operation, o.text = ts
        ∧ InfixOp.ofKind? level o.sign.kind = some o.op ∧ ExprForm n (.within levels) o.tokens o.right := by
      intro ts hmem
      obtain ⟨sign, vs, rfl, hsign, hvs⟩ := hparts ts hmem
      obtain ⟨op, hop⟩ := Option.isSome_iff_exists.1 ((hoperators sign.kind).1 hsign)
      obtain ⟨right, hright⟩ := (hpart vs fun t ht =>
        hts t (.inr ⟨_, hmem, List.mem_cons_of_mem _ ht⟩)).1 hvs
      exact ⟨⟨sign, op, vs, right⟩, rfl, hop, hright⟩
    obtain ⟨operations, rfl, hall⟩ := exists_map_eq hoperations
    refine ⟨operations.foldl Operation.apply first, ?_⟩
    rw [← List.flatMap_def]
    exact .chain hfirst (fun o ho => (hall o ho).1) fun o ho => (hall o ho).2
  · intro h
    obtain ⟨e, h⟩ := h
    cases h with
    | @chain _ _ _ us first operations hfirst hsigns hrights =>
      simp only [List.mem_append, List.mem_flatMap] at hts
      refine ⟨us, operations.map Operation.text, by rw [List.flatMap_def], ?_, ?_⟩
      · exact (hpart us fun t ht => hts t (.inl ht)).2 ⟨first, hfirst⟩
      · intro ts hmem
        obtain ⟨o, ho, rfl⟩ := List.mem_map.1 hmem
        have hsign := (hoperators o.sign.kind).2 (Option.isSome_iff_exists.2 ⟨o.op, hsigns o ho⟩)
        refine ⟨o.sign, o.tokens, rfl, hsign, ?_⟩
        refine (hpart o.tokens fun t ht => hts t (.inr ⟨o, ho, ?_⟩)).2 ⟨o.right, hrights o ho⟩
        exact List.mem_cons_of_mem _ ht

/-- The six levels of infix operators, from the tightest to the loosest. -/
theorem agrees_logicOr (hunary : Agrees n .unary (ExprForm n (.within []))) :
    Agrees n .logicOr (ExprForm n (.within Level.all)) := by
  have hfactor : Agrees n .factor (ExprForm n (.within [.factor])) :=
    agrees_joined rfl rfl (by intro kind; cases kind <;> decide) hunary
  have hterm : Agrees n .term (ExprForm n (.within [.term, .factor])) :=
    agrees_joined rfl rfl (by intro kind; cases kind <;> decide) hfactor
  have hcomparison : Agrees n .comparison (ExprForm n (.within [.comparison, .term, .factor])) :=
    agrees_joined rfl rfl (by intro kind; cases kind <;> decide) hterm
  have hequality : Agrees n .equality (ExprForm n (.within [.equality, .comparison, .term, .factor])) :=
    agrees_joined rfl rfl (by intro kind; cases kind <;> decide) hcomparison
  have hand : Agrees n .logicAnd (ExprForm n (.within [.and, .equality, .comparison, .term, .factor])) :=
    agrees_joined rfl rfl (by intro kind; cases kind <;> decide) hequality
  exact agrees_joined rfl rfl (by intro kind; cases kind <;> decide) hand

theorem derives_assignment {ts : List Token} :
    Derives n (.rule .assignment) ts
      ↔ (∃ name equals us, name.kind = .identifier ∧ equals.kind = .equal ∧ ts = name :: equals :: us
          ∧ Derives n (.rule .expression) us)
        ∨ Derives n (.rule .logicOr) ts := by
  rw [derives_flat rfl, production, derives_choice]
  simp only [List.mem_cons, List.not_mem_nil, or_false, exists_eq_or_imp, exists_eq_left,
    derives_token_cons, derives_singleton]
  refine or_congr ?_ Iff.rfl
  constructor
  · intro h
    obtain ⟨name, _, hname, rfl, equals, us, hequals, rfl, hus⟩ := h
    exact ⟨name, equals, us, hname, hequals, rfl, hus⟩
  · intro h
    obtain ⟨name, equals, us, hname, hequals, rfl, hus⟩ := h
    exact ⟨name, _, hname, rfl, equals, us, hequals, rfl, hus⟩

theorem agrees_expression (hunary : ∀ m, n = m + 1 → Agrees m .unary (ExprForm m (.within [])))
    (hexpression : ∀ m, n = m + 1 → Agrees m .expression (ExprForm m .whole)) :
    Agrees n .expression (ExprForm n .whole) := by
  intro ts hts
  rw [derives_nested rfl]
  constructor
  · intro h
    obtain ⟨m, rfl, h⟩ := h
    obtain ⟨name, equals, us, hname, hequals, rfl, hus⟩ | h := derives_assignment.1 h
    · obtain ⟨e, he⟩ := (hexpression m rfl us fun t ht => hts t (by simp [ht])).1 hus
      exact ⟨.assign name e, .assign hname hequals he⟩
    · obtain ⟨e, he⟩ := (agrees_logicOr (hunary m rfl) ts hts).1 h
      exact ⟨e, .plain he⟩
  · intro h
    obtain ⟨e, h⟩ := h
    cases h with
    | @plain m _ e he =>
      refine ⟨m, rfl, derives_assignment.2 (.inr ?_)⟩
      exact (agrees_logicOr (hunary m rfl) ts hts).2 ⟨e, he⟩
    | @assign m name equals us e hname hequals he =>
      refine ⟨m, rfl, derives_assignment.2 (.inl ⟨name, equals, us, hname, hequals, rfl, ?_⟩)⟩
      exact (hexpression m rfl us fun t ht => hts t (by simp [ht])).2 ⟨e, he⟩

theorem derives_unary {ts : List Token} :
    Derives n (.rule .unary) ts
      ↔ (∃ sign us m op, UnaryOp.ofKind? sign.kind = some op ∧ ts = sign :: us ∧ n = m + 1
          ∧ Derives m (.rule .unary) us)
        ∨ Derives n (.rule .primary) ts := by
  rw [derives_flat rfl, production, derives_choice]
  simp only [List.mem_cons, List.not_mem_nil, or_false, exists_eq_or_imp, exists_eq_left]
  refine or_congr ?_ Iff.rfl
  have hsigns : Phrase.choice [.token .bang, .token .minus]
      = .choice (List.map .token [TokenKind.bang, .minus]) := rfl
  rw [hsigns, derives_operation]
  constructor
  · intro h
    obtain ⟨sign, us, rfl, hsign, h⟩ := h
    obtain ⟨m, rfl, hus⟩ := (derives_nested rfl).1 h
    have hop : ∃ op : UnaryOp, op.kind = sign.kind := by
      simp only [List.mem_cons, List.not_mem_nil, or_false] at hsign
      obtain hbang | hminus := hsign
      · exact ⟨.not, hbang.symm⟩
      · exact ⟨.negate, hminus.symm⟩
    obtain ⟨op, hop⟩ := hop
    exact ⟨sign, us, m, op, UnaryOp.ofKind?_eq_some.2 hop, rfl, rfl, hus⟩
  · intro h
    obtain ⟨sign, us, m, op, hop, rfl, rfl, hus⟩ := h
    refine ⟨sign, us, rfl, ?_, (derives_nested rfl).2 ⟨m, rfl, hus⟩⟩
    rw [← UnaryOp.ofKind?_eq_some.1 hop]
    cases op <;> decide

theorem derives_primary {ts : List Token} :
    Derives n (.rule .primary) ts
      ↔ (∃ t, t.kind ∈ [.number, .string, .kwTrue, .kwFalse, .kwNil] ∧ ts = [t])
        ∨ (∃ t, t.kind = .identifier ∧ ts = [t])
        ∨ ∃ left us right, left.kind = .leftParen ∧ right.kind = .rightParen ∧ ts = left :: us ++ [right]
          ∧ Derives n (.rule .expression) us := by
  rw [derives_flat rfl, production, derives_choice]
  simp only [List.mem_cons, List.not_mem_nil, or_false, exists_eq_or_imp, exists_eq_left, derives_token,
    derives_token_cons, derives_rule_cons, derives_nil]
  constructor
  · intro h
    obtain h | h | h | h | h | h | ⟨left, _, hleft, rfl, us, _, rfl, hus, right, _, hright, rfl, rfl⟩ := h
    case inr.inr.inr.inr.inr.inr => exact .inr (.inr ⟨left, us, right, hleft, hright, rfl, hus⟩)
    case inr.inr.inr.inr.inr.inl => exact .inr (.inl h)
    all_goals
      obtain ⟨t, hkind, rfl⟩ := h
      exact .inl ⟨t, by simp [hkind], rfl⟩
  · intro h
    obtain ⟨t, hkind, rfl⟩ | h | ⟨left, us, right, hleft, hright, rfl, hus⟩ := h
    · obtain hkind | hkind | hkind | hkind | hkind := hkind <;> simp [hkind]
    · simp [h]
    · exact .inr (.inr (.inr (.inr (.inr (.inr
        ⟨left, _, hleft, rfl, us, [right], rfl, hus, right, [], hright, rfl, rfl⟩)))))

theorem exists_constant?_iff {t : Token} (ht : t.CarriesLiteral) :
    (∃ v, t.constant? = some v) ↔ t.kind ∈ [.number, .string, .kwTrue, .kwFalse, .kwNil] := by
  rw [Token.CarriesLiteral] at ht
  rw [Token.constant?]
  cases hkind : t.kind
  case number | string =>
    obtain ⟨literal, hliteral⟩ := Option.isSome_iff_exists.1 (ht (by simp [hkind]))
    simp [hliteral]
  all_goals simp

theorem agrees_unary (hunary : ∀ m, n = m + 1 → Agrees m .unary (ExprForm m (.within [])))
    (hexpression : Agrees n .expression (ExprForm n .whole)) :
    Agrees n .unary (ExprForm n (.within [])) := by
  intro ts hts
  rw [derives_unary, derives_primary]
  constructor
  · intro h
    obtain ⟨sign, us, m, op, hop, rfl, rfl, hus⟩ | ⟨t, hkind, rfl⟩ | ⟨t, hkind, rfl⟩
      | ⟨left, us, right, hleft, hright, rfl, hus⟩ := h
    · obtain ⟨e, he⟩ := (hunary m rfl us fun t ht => hts t (by simp [ht])).1 hus
      exact ⟨.unary op e sign.line, .unary hop he⟩
    · obtain ⟨v, hv⟩ := (exists_constant?_iff (hts t (by simp))).2 hkind
      exact ⟨.literal v t.line, .literal hv⟩
    · exact ⟨.var t, .var hkind⟩
    · obtain ⟨e, he⟩ := (hexpression us fun t ht => hts t (by simp [ht])).1 hus
      exact ⟨.group e left.line, .group hleft hright he⟩
  · intro h
    obtain ⟨e, h⟩ := h
    cases h with
    | @literal _ t v hv =>
      exact .inr (.inl ⟨t, (exists_constant?_iff (hts t (by simp))).1 ⟨v, hv⟩, rfl⟩)
    | @var _ t ht => exact .inr (.inr (.inl ⟨t, ht, rfl⟩))
    | @group _ left right us e hleft hright he =>
      have hus := (hexpression us fun t ht => hts t (by simp [ht])).2 ⟨e, he⟩
      exact .inr (.inr (.inr ⟨left, us, right, hleft, hright, rfl, hus⟩))
    | @unary m sign op us e hop he =>
      have hus := (hunary m rfl us fun t ht => hts t (by simp [ht])).2 ⟨e, he⟩
      exact .inl ⟨sign, us, m, op, hop, rfl, rfl, hus⟩

theorem agrees_expression_unary (n : Nat) :
    Agrees n .expression (ExprForm n .whole) ∧ Agrees n .unary (ExprForm n (.within [])) := by
  induction n with
  | zero =>
    have hexpression : Agrees 0 .expression (ExprForm 0 .whole) := agrees_expression nofun nofun
    exact ⟨hexpression, agrees_unary nofun hexpression⟩
  | succ n ih =>
    obtain ⟨hexpression, hunary⟩ := ih
    have hdeeper : ∀ m, n + 1 = m + 1 → Agrees m .unary (ExprForm m (.within [])) := by
      intro m hm
      obtain rfl := Nat.succ.inj hm
      exact hunary
    have hwhole : Agrees (n + 1) .expression (ExprForm (n + 1) .whole) := by
      refine agrees_expression hdeeper fun m hm => ?_
      obtain rfl := Nat.succ.inj hm
      exact hexpression
    exact ⟨hwhole, agrees_unary hdeeper hwhole⟩

end Expressions

theorem agrees_whole (n : Nat) : Agrees n .expression (ExprForm n .whole) :=
  (agrees_expression_unary n).1

/-! ### Statements -/

section Statements

variable {n : Nat} {ts : List Token}

theorem derives_varDecl : Derives n (.rule .varDecl) ts
    ↔ ∃ keyword name us semicolon, keyword.kind = .kwVar ∧ name.kind = .identifier
      ∧ semicolon.kind = .semicolon ∧ ts = keyword :: name :: us ++ [semicolon]
      ∧ (us = [] ∨ ∃ equals vs, equals.kind = .equal ∧ us = equals :: vs
        ∧ Derives n (.rule .expression) vs) := by
  rw [derives_flat rfl, production]
  simp only [derives_token_cons]
  constructor
  · intro h
    obtain ⟨keyword, _, hkeyword, rfl, name, _, hname, rfl, h⟩ := h
    obtain ⟨us, _, rfl, hinit, hend⟩ := derives_cons.1 h
    obtain ⟨semicolon, hsemicolon, rfl⟩ := derives_token.1 (derives_singleton.1 hend)
    refine ⟨keyword, name, us, semicolon, hkeyword, hname, hsemicolon, rfl, ?_⟩
    simpa only [derives_optional, derives_token_cons, derives_singleton] using hinit
  · intro h
    obtain ⟨keyword, name, us, semicolon, hkeyword, hname, hsemicolon, rfl, hinit⟩ := h
    refine ⟨keyword, _, hkeyword, rfl, name, _, hname, rfl, .cons ?_ ?_⟩
    · simpa only [derives_optional, derives_token_cons, derives_singleton] using hinit
    · exact derives_singleton.2 (derives_token.2 ⟨semicolon, hsemicolon, rfl⟩)

theorem derives_exprStmt : Derives n (.rule .exprStmt) ts
    ↔ ∃ us semicolon, semicolon.kind = .semicolon ∧ ts = us ++ [semicolon]
      ∧ Derives n (.rule .expression) us := by
  rw [derives_flat rfl, production, derives_rule_cons]
  simp only [derives_token_cons, derives_nil]
  constructor
  · intro h
    obtain ⟨us, _, rfl, hus, semicolon, _, hsemicolon, rfl, rfl⟩ := h
    exact ⟨us, semicolon, hsemicolon, rfl, hus⟩
  · intro h
    obtain ⟨us, semicolon, hsemicolon, rfl, hus⟩ := h
    exact ⟨us, _, rfl, hus, semicolon, [], hsemicolon, rfl, rfl⟩

theorem derives_printStmt : Derives n (.rule .printStmt) ts
    ↔ ∃ keyword us semicolon, keyword.kind = .kwPrint ∧ semicolon.kind = .semicolon
      ∧ ts = keyword :: us ++ [semicolon] ∧ Derives n (.rule .expression) us := by
  rw [derives_flat rfl, production, derives_token_cons]
  simp only [derives_rule_cons, derives_token_cons, derives_nil]
  constructor
  · intro h
    obtain ⟨keyword, _, hkeyword, rfl, us, _, rfl, hus, semicolon, _, hsemicolon, rfl, rfl⟩ := h
    exact ⟨keyword, us, semicolon, hkeyword, hsemicolon, rfl, hus⟩
  · intro h
    obtain ⟨keyword, us, semicolon, hkeyword, hsemicolon, rfl, hus⟩ := h
    exact ⟨keyword, _, hkeyword, rfl, us, _, rfl, hus, semicolon, [], hsemicolon, rfl, rfl⟩

theorem derives_block : Derives n (.rule .block) ts
    ↔ ∃ left parts right, left.kind = .leftBrace ∧ right.kind = .rightBrace
      ∧ ts = left :: List.flatten parts ++ [right] ∧ ∀ part ∈ parts, Derives n (.rule .declaration) part := by
  rw [derives_flat rfl, production, derives_token_cons]
  constructor
  · intro h
    obtain ⟨left, _, hleft, rfl, h⟩ := h
    obtain ⟨_, _, rfl, hmany, hclose⟩ := derives_cons.1 h
    obtain ⟨parts, rfl, hparts⟩ := derives_many.1 hmany
    obtain ⟨right, hright, rfl⟩ := derives_token.1 (derives_singleton.1 hclose)
    exact ⟨left, parts, right, hleft, hright, rfl, hparts⟩
  · intro h
    obtain ⟨left, parts, right, hleft, hright, rfl, hparts⟩ := h
    refine ⟨left, _, hleft, rfl, .cons (derives_many.2 ⟨parts, rfl, hparts⟩) ?_⟩
    exact derives_singleton.2 (derives_token.2 ⟨right, hright, rfl⟩)

/-- What `if` and `while` have in common: a keyword, a condition in parentheses, and what follows. -/
theorem derives_head {kind : TokenKind} {phrase : Phrase} :
    Derives n (.sequence [.token kind, .token .leftParen, .rule .expression, .token .rightParen, phrase]) ts
      ↔ ∃ keyword left cs right us, keyword.kind = kind ∧ left.kind = .leftParen ∧ right.kind = .rightParen
        ∧ ts = keyword :: left :: cs ++ right :: us ∧ Derives n (.rule .expression) cs
        ∧ Derives n phrase us := by
  simp only [derives_token_cons, derives_rule_cons, derives_singleton]
  constructor
  · intro h
    obtain ⟨keyword, _, hkeyword, rfl, left, _, hleft, rfl, cs, _, rfl, hcs, right, us, hright, rfl, hus⟩ := h
    exact ⟨keyword, left, cs, right, us, hkeyword, hleft, hright, rfl, hcs, hus⟩
  · intro h
    obtain ⟨keyword, left, cs, right, us, hkeyword, hleft, hright, rfl, hcs, hus⟩ := h
    exact ⟨keyword, _, hkeyword, rfl, left, _, hleft, rfl, cs, _, rfl, hcs, right, us, hright, rfl, hus⟩

theorem derives_else {closed : Bool} :
    Derives n (.sequence [.rule (.statement true), .token .kwElse, .rule (.statement closed)]) ts
      ↔ ∃ ys other ns, other.kind = .kwElse ∧ ts = ys ++ other :: ns
        ∧ Derives n (.rule (.statement true)) ys ∧ Derives n (.rule (.statement closed)) ns := by
  rw [derives_rule_cons]
  simp only [derives_token_cons, derives_singleton]
  constructor
  · intro h
    obtain ⟨ys, _, rfl, hys, other, ns, hother, rfl, hns⟩ := h
    exact ⟨ys, other, ns, hother, rfl, hys, hns⟩
  · intro h
    obtain ⟨ys, other, ns, hother, rfl, hys, hns⟩ := h
    exact ⟨ys, _, rfl, hys, other, ns, hother, rfl, hns⟩

theorem derives_ifStmt {closed : Bool} : Derives n (.rule (.ifStmt closed)) ts
    ↔ ∃ keyword left cs right us, keyword.kind = .kwIf ∧ left.kind = .leftParen ∧ right.kind = .rightParen
      ∧ ts = keyword :: left :: cs ++ right :: us ∧ Derives n (.rule .expression) cs
      ∧ (closed = false ∧ Derives n (.rule (.statement false)) us
        ∨ ∃ ys other ns, other.kind = .kwElse ∧ us = ys ++ other :: ns
          ∧ Derives n (.rule (.statement true)) ys ∧ Derives n (.rule (.statement closed)) ns) := by
  rw [derives_flat rfl]
  cases closed with
  | false =>
    rw [production, derives_head]
    simp only [derives_choice, List.mem_cons, List.not_mem_nil, or_false, exists_eq_or_imp, exists_eq_left,
      derives_else, true_and]
  | true =>
    rw [production, derives_head]
    simp only [derives_else, Bool.true_eq_false, false_and, false_or]

theorem derives_whileStmt {closed : Bool} : Derives n (.rule (.whileStmt closed)) ts
    ↔ ∃ keyword left cs right us, keyword.kind = .kwWhile ∧ left.kind = .leftParen
      ∧ right.kind = .rightParen ∧ ts = keyword :: left :: cs ++ right :: us
      ∧ Derives n (.rule .expression) cs ∧ Derives n (.rule (.statement closed)) us := by
  rw [derives_flat rfl, production, derives_head]

theorem derives_forStmt {closed : Bool} : Derives n (.rule (.forStmt closed)) ts
    ↔ ∃ keyword left is cs semicolon us right bs, keyword.kind = .kwFor ∧ left.kind = .leftParen
      ∧ semicolon.kind = .semicolon ∧ right.kind = .rightParen
      ∧ ts = keyword :: left :: is ++ cs ++ semicolon :: us ++ right :: bs
      ∧ (Derives n (.rule .varDecl) is ∨ Derives n (.rule .exprStmt) is
        ∨ ∃ t, t.kind = .semicolon ∧ is = [t])
      ∧ (cs = [] ∨ Derives n (.rule .expression) cs) ∧ (us = [] ∨ Derives n (.rule .expression) us)
      ∧ Derives n (.rule (.statement closed)) bs := by
  rw [derives_flat rfl, production]
  simp only [derives_token_cons]
  constructor
  · intro h
    obtain ⟨keyword, _, hkeyword, rfl, left, _, hleft, rfl, hclauses⟩ := h
    obtain ⟨is, _, rfl, hinit, hlater⟩ := derives_cons.1 hclauses
    obtain ⟨cs, _, rfl, hcondition, hmiddle⟩ := derives_cons.1 hlater
    obtain ⟨semicolon, _, hsemicolon, rfl, hlast⟩ := derives_token_cons.1 hmiddle
    obtain ⟨us, _, rfl, hincrement, hend⟩ := derives_cons.1 hlast
    obtain ⟨right, bs, hright, rfl, hbody⟩ := derives_token_cons.1 hend
    refine ⟨keyword, left, is, cs, semicolon, us, right, bs, hkeyword, hleft, hsemicolon, hright, ?_, ?_,
      derives_optional.1 hcondition, derives_optional.1 hincrement, derives_singleton.1 hbody⟩
    · simp
    · simpa only [derives_choice, List.mem_cons, List.not_mem_nil, or_false, exists_eq_or_imp,
        exists_eq_left, derives_token] using hinit
  · intro h
    obtain ⟨keyword, left, is, cs, semicolon, us, right, bs, hkeyword, hleft, hsemicolon, hright, rfl,
      hinit, hcondition, hincrement, hbody⟩ := h
    have hend := derives_token_cons.2 ⟨right, bs, hright, rfl, derives_singleton.2 hbody⟩
    have hmiddle := derives_token_cons.2
      ⟨semicolon, _, hsemicolon, rfl, .cons (derives_optional.2 hincrement) hend⟩
    refine ⟨keyword, left :: (is ++ (cs ++ semicolon :: (us ++ right :: bs))), hkeyword, by simp,
      left, _, hleft, rfl, ?_⟩
    refine .cons ?_ (.cons (derives_optional.2 hcondition) hmiddle)
    simpa only [derives_choice, List.mem_cons, List.not_mem_nil, or_false, exists_eq_or_imp,
      exists_eq_left, derives_token] using hinit

theorem agrees_varDecl :
    Agrees n .varDecl fun ts s => ∃ keyword us, keyword.kind = .kwVar ∧ ts = keyword :: us ∧ VarForm n us s := by
  intro ts hts
  rw [derives_varDecl]
  constructor
  · intro h
    obtain ⟨keyword, name, us, semicolon, hkeyword, hname, hsemicolon, rfl, hinit⟩ := h
    obtain rfl | ⟨equals, vs, hequals, rfl, hvs⟩ := hinit
    · exact ⟨.declare name none, keyword, _, hkeyword, rfl, .bare hname hsemicolon⟩
    · obtain ⟨e, he⟩ := (agrees_whole n vs fun t ht => hts t (by simp [ht])).1 hvs
      exact ⟨.declare name (some e), keyword, _, hkeyword, rfl, .init hname hequals he hsemicolon⟩
  · intro h
    obtain ⟨s, keyword, us, hkeyword, rfl, h⟩ := h
    cases h with
    | @bare name semicolon hname hsemicolon =>
      exact ⟨keyword, name, [], semicolon, hkeyword, hname, hsemicolon, rfl, .inl rfl⟩
    | @init name equals semicolon vs e hname hequals he hsemicolon =>
      have hvs := (agrees_whole n vs fun t ht => hts t (by simp [ht])).2 ⟨e, he⟩
      exact ⟨keyword, name, equals :: vs, semicolon, hkeyword, hname, hsemicolon, rfl,
        .inr ⟨equals, vs, hequals, rfl, hvs⟩⟩

theorem derives_init_iff (hts : ∀ t ∈ ts, t.CarriesLiteral) :
    (Derives n (.rule .varDecl) ts ∨ Derives n (.rule .exprStmt) ts ∨ ∃ t, t.kind = .semicolon ∧ ts = [t])
      ↔ ∃ init, InitForm n ts init := by
  rw [agrees_varDecl ts hts, derives_exprStmt]
  constructor
  · intro h
    obtain ⟨s, keyword, us, hkeyword, rfl, h⟩ | ⟨us, semicolon, hsemicolon, rfl, hus⟩ | ⟨t, ht, rfl⟩ := h
    · exact ⟨some s, .declared hkeyword h⟩
    · obtain ⟨e, he⟩ := (agrees_whole n us fun t ht => hts t (by simp [ht])).1 hus
      exact ⟨some (.expression e), .plain he hsemicolon⟩
    · exact ⟨none, .absent ht⟩
  · intro h
    obtain ⟨init, h⟩ := h
    cases h with
    | @absent semicolon hsemicolon => exact .inr (.inr ⟨semicolon, hsemicolon, rfl⟩)
    | @declared keyword us s hkeyword h => exact .inl ⟨s, keyword, us, hkeyword, rfl, h⟩
    | @plain us e semicolon he hsemicolon =>
      have hus := (agrees_whole n us fun t ht => hts t (by simp [ht])).2 ⟨e, he⟩
      exact .inr (.inl ⟨us, semicolon, hsemicolon, rfl, hus⟩)

theorem derives_option_iff (hts : ∀ t ∈ ts, t.CarriesLiteral) :
    (ts = [] ∨ Derives n (.rule .expression) ts) ↔ ∃ e, OptionForm n ts e := by
  rw [agrees_whole n ts hts]
  constructor
  · intro h
    obtain rfl | ⟨e, he⟩ := h
    · exact ⟨none, .absent⟩
    · exact ⟨some e, .present he⟩
  · intro h
    obtain ⟨_, h⟩ := h
    cases h with
    | absent => exact .inl rfl
    | present he => exact .inr ⟨_, he⟩

theorem agrees_declaration (hstatement : Agrees n (.statement false) (StmtForm n (.statement false))) :
    Agrees n .declaration (StmtForm n .declaration) := by
  intro ts hts
  rw [derives_flat rfl, production, derives_choice]
  simp only [List.mem_cons, List.not_mem_nil, or_false, exists_eq_or_imp, exists_eq_left]
  rw [agrees_varDecl ts hts, hstatement ts hts]
  constructor
  · intro h
    obtain ⟨s, keyword, us, hkeyword, rfl, h⟩ | ⟨s, h⟩ := h
    · exact ⟨s, .var hkeyword h⟩
    · exact ⟨s, .statement h⟩
  · intro h
    obtain ⟨s, h⟩ := h
    cases h with
    | @var _ keyword us s hkeyword h => exact .inl ⟨s, keyword, us, hkeyword, rfl, h⟩
    | statement h => exact .inr ⟨s, h⟩

theorem derives_slots_iff (hdeclaration : Agrees n .declaration (StmtForm n .declaration))
    (hts : ∀ t ∈ ts, t.CarriesLiteral) :
    (∃ parts : List (List Token), ts = parts.flatten ∧ ∀ part ∈ parts, Derives n (.rule .declaration) part)
      ↔ ∃ slots, SlotsForm n ts slots := by
  constructor
  · intro h
    obtain ⟨parts, rfl, hparts⟩ := h
    have hforms : ∀ us ∈ parts, ∃ p : List Token × Stmt, p.1 = us ∧ StmtForm n .declaration p.1 p.2 := by
      intro us hmem
      have hus : ∀ t ∈ us, t.CarriesLiteral := fun t ht => hts t (List.mem_flatten.2 ⟨us, hmem, ht⟩)
      obtain ⟨s, hs⟩ := (hdeclaration us hus).1 (hparts us hmem)
      exact ⟨(us, s), rfl, hs⟩
    obtain ⟨forms, rfl, hall⟩ := exists_map_eq hforms
    exact ⟨_, forms, List.flatMap_def.symm, rfl, hall⟩
  · intro h
    obtain ⟨_, forms, rfl, -, hforms⟩ := h
    refine ⟨forms.map (·.1), List.flatMap_def, ?_⟩
    intro us hmem
    obtain ⟨p, hp, rfl⟩ := List.mem_map.1 hmem
    have hus : ∀ t ∈ p.1, t.CarriesLiteral := fun t ht => hts t (List.mem_flatMap.2 ⟨p, hp, ht⟩)
    exact (hdeclaration p.1 hus).2 ⟨p.2, hforms p hp⟩

theorem derives_statement {closed : Bool} : Derives (n + 1) (.rule (.statement closed)) ts
    ↔ Derives n (.rule .exprStmt) ts ∨ Derives n (.rule .printStmt) ts ∨ Derives n (.rule .block) ts
      ∨ Derives n (.rule (.ifStmt closed)) ts ∨ Derives n (.rule (.whileStmt closed)) ts
      ∨ Derives n (.rule (.forStmt closed)) ts := by
  rw [derives_nested rfl]
  simp only [Nat.add_right_cancel_iff, exists_eq_left', production, derives_choice, List.mem_cons,
    List.not_mem_nil, or_false, exists_eq_or_imp, exists_eq_left]

theorem exists_form_of_derives (hstatement : ∀ closed, Agrees n (.statement closed) (StmtForm n (.statement closed)))
    {closed : Bool} (hts : ∀ t ∈ ts, t.CarriesLiteral) (h : Derives (n + 1) (.rule (.statement closed)) ts) :
    ∃ s, StmtForm (n + 1) (.statement closed) ts s := by
  rw [derives_statement, derives_exprStmt, derives_printStmt, derives_block, derives_ifStmt,
    derives_whileStmt, derives_forStmt] at h
  obtain ⟨us, semicolon, hsemicolon, rfl, hus⟩ | ⟨keyword, us, semicolon, hkeyword, hsemicolon, rfl, hus⟩
    | ⟨left, parts, right, hleft, hright, rfl, hparts⟩
    | ⟨keyword, left, cs, right, us, hkeyword, hleft, hright, rfl, hcs, hbranches⟩
    | ⟨keyword, left, cs, right, us, hkeyword, hleft, hright, rfl, hcs, hus⟩
    | ⟨keyword, left, is, cs, semicolon, us, right, bs, hkeyword, hleft, hsemicolon, hright, rfl,
      hinit, hcondition, hincrement, hbody⟩ := h
  · obtain ⟨e, he⟩ := (agrees_whole n us fun t ht => hts t (by simp [ht])).1 hus
    exact ⟨_, .expression he hsemicolon⟩
  · obtain ⟨e, he⟩ := (agrees_whole n us fun t ht => hts t (by simp [ht])).1 hus
    exact ⟨_, .print hkeyword he hsemicolon⟩
  · obtain ⟨slots, hslots⟩ := (derives_slots_iff (agrees_declaration (hstatement false))
      fun t ht => hts t (by simp [ht])).1 ⟨parts, rfl, hparts⟩
    exact ⟨_, hslots.block hleft hright⟩
  · obtain ⟨e, he⟩ := (agrees_whole n cs fun t ht => hts t (by simp [ht])).1 hcs
    obtain ⟨rfl, hus⟩ | ⟨ys, other, ns, hother, rfl, hys, hns⟩ := hbranches
    · obtain ⟨yes, hyes⟩ := (hstatement false us fun t ht => hts t (by simp [ht])).1 hus
      exact ⟨_, .ifThen hkeyword hleft he hright hyes⟩
    · obtain ⟨yes, hyes⟩ := (hstatement true ys fun t ht => hts t (by simp [ht])).1 hys
      obtain ⟨no, hno⟩ := (hstatement closed ns fun t ht => hts t (by simp [ht])).1 hns
      have hform := StmtForm.ifElse hkeyword hleft he hright hyes hother hno
      exact ⟨_, by simpa using hform⟩
  · obtain ⟨e, he⟩ := (agrees_whole n cs fun t ht => hts t (by simp [ht])).1 hcs
    obtain ⟨body, hbody⟩ := (hstatement closed us fun t ht => hts t (by simp [ht])).1 hus
    exact ⟨_, .while hkeyword hleft he hright hbody⟩
  · obtain ⟨init, hinit⟩ := (derives_init_iff fun t ht => hts t (by simp [ht])).1 hinit
    obtain ⟨condition, hcondition⟩ := (derives_option_iff fun t ht => hts t (by simp [ht])).1 hcondition
    obtain ⟨increment, hincrement⟩ := (derives_option_iff fun t ht => hts t (by simp [ht])).1 hincrement
    obtain ⟨body, hbody⟩ := (hstatement closed bs fun t ht => hts t (by simp [ht])).1 hbody
    exact ⟨_, .for hkeyword hleft hinit hcondition hsemicolon hincrement hright hbody⟩

theorem derives_of_form (hstatement : ∀ closed, Agrees n (.statement closed) (StmtForm n (.statement closed)))
    {closed : Bool} {s : Stmt} (hts : ∀ t ∈ ts, t.CarriesLiteral)
    (h : StmtForm (n + 1) (.statement closed) ts s) : Derives (n + 1) (.rule (.statement closed)) ts := by
  rw [derives_statement, derives_exprStmt, derives_printStmt, derives_block, derives_ifStmt,
    derives_whileStmt, derives_forStmt]
  cases h with
  | @expression _ _ us e semicolon he hsemicolon =>
    have hus := (agrees_whole n us fun t ht => hts t (by simp [ht])).2 ⟨e, he⟩
    exact .inl ⟨us, semicolon, hsemicolon, rfl, hus⟩
  | @print _ _ keyword semicolon us e hkeyword he hsemicolon =>
    have hus := (agrees_whole n us fun t ht => hts t (by simp [ht])).2 ⟨e, he⟩
    exact .inr (.inl ⟨keyword, us, semicolon, hkeyword, hsemicolon, rfl, hus⟩)
  | @block _ _ left right forms hleft hall hright =>
    obtain ⟨parts, hflat, hparts⟩ := (derives_slots_iff (agrees_declaration (hstatement false))
      fun t ht => hts t (by simp only [List.mem_append, List.mem_cons, ht]; simp)).2 ⟨_, forms, rfl, rfl, hall⟩
    exact .inr (.inr (.inl ⟨left, parts, right, hleft, hright, by rw [hflat], hparts⟩))
  | @ifThen _ keyword left right cs us condition yes hkeyword hleft hcondition hright hyes =>
    have hcs := (agrees_whole n cs fun t ht => hts t (by simp [ht])).2 ⟨condition, hcondition⟩
    have hus := (hstatement false us fun t ht => hts t (by simp [ht])).2 ⟨yes, hyes⟩
    exact .inr (.inr (.inr (.inl
      ⟨keyword, left, cs, right, us, hkeyword, hleft, hright, rfl, hcs, .inl ⟨rfl, hus⟩⟩)))
  | @ifElse _ _ keyword left right other cs ys ns condition yes no hkeyword hleft hcondition hright hyes
      hother hno =>
    have hcs := (agrees_whole n cs fun t ht => hts t (by simp [ht])).2 ⟨condition, hcondition⟩
    have hys := (hstatement true ys fun t ht => hts t (by simp [ht])).2 ⟨yes, hyes⟩
    have hns := (hstatement closed ns fun t ht => hts t (by simp [ht])).2 ⟨no, hno⟩
    exact .inr (.inr (.inr (.inl ⟨keyword, left, cs, right, ys ++ other :: ns, hkeyword, hleft, hright,
      by simp, hcs, .inr ⟨ys, other, ns, hother, rfl, hys, hns⟩⟩)))
  | @«while» _ _ keyword left right cs us condition body hkeyword hleft hcondition hright hbody =>
    have hcs := (agrees_whole n cs fun t ht => hts t (by simp [ht])).2 ⟨condition, hcondition⟩
    have hus := (hstatement closed us fun t ht => hts t (by simp [ht])).2 ⟨body, hbody⟩
    exact .inr (.inr (.inr (.inr (.inl
      ⟨keyword, left, cs, right, us, hkeyword, hleft, hright, rfl, hcs, hus⟩))))
  | @«for» _ _ keyword left semicolon right is cs us bs init condition increment body hkeyword hleft hinit
      hcondition hsemicolon hincrement hright hbody =>
    have his := (derives_init_iff fun t ht => hts t (by simp [ht])).2 ⟨init, hinit⟩
    have hcs := (derives_option_iff fun t ht => hts t (by simp [ht])).2 ⟨condition, hcondition⟩
    have hus := (derives_option_iff fun t ht => hts t (by simp [ht])).2 ⟨increment, hincrement⟩
    have hbs := (hstatement closed bs fun t ht => hts t (by simp [ht])).2 ⟨body, hbody⟩
    exact .inr (.inr (.inr (.inr (.inr ⟨keyword, left, is, cs, semicolon, us, right, bs, hkeyword, hleft,
      hsemicolon, hright, rfl, his, hcs, hus, hbs⟩))))

end Statements

theorem agrees_statement (n : Nat) (closed : Bool) :
    Agrees n (.statement closed) (StmtForm n (.statement closed)) := by
  induction n generalizing closed with
  | zero =>
    intro ts hts
    rw [derives_nested rfl]
    constructor
    · nofun
    · nofun
  | succ n ih =>
    intro ts hts
    constructor
    · intro h
      exact exists_form_of_derives ih hts h
    · intro h
      obtain ⟨s, h⟩ := h
      exact derives_of_form ih hts h

/-- The table derives from `program` exactly what is the form of some program. -/
theorem derives_program_iff {ts : List Token} (hts : ∀ t ∈ ts, t.CarriesLiteral) :
    Derives Rule.maxNesting (.rule .program) ts ↔ ∃ slots, ProgramForm ts slots := by
  rw [derives_flat rfl, production, derives_many,
    derives_slots_iff (agrees_declaration (agrees_statement _ false)) hts]
  rfl

end Ebnf

/-- The parser accepts exactly the language of the grammar: it reports no error if and only if the tokens
before the end of input are derived from `program` within the nesting limit. -/
theorem parse_errors_eq_nil_iff_derives (tokens : List Token) (hliteral : ∀ t ∈ tokens, t.CarriesLiteral) :
    (parse tokens).errors = [] ↔ Ebnf.Derives Rule.maxNesting (.rule .program) (beforeEnd tokens) := by
  rw [Ebnf.derives_program_iff fun t ht => hliteral t (mem_of_mem_beforeEnd ht)]
  constructor
  · intro h
    exact ⟨_, errors_eq_nil_iff.1 h⟩
  · intro h
    obtain ⟨slots, hslots⟩ := h
    rw [parse_eq_iff.2 hslots]

/-- The tokens of a conditional without `else` around one that has an `else`. -/
def nestedConditional : List Token :=
  [⟨.kwIf, "if", none, 1⟩, ⟨.leftParen, "(", none, 1⟩, ⟨.identifier, "a", none, 1⟩,
    ⟨.rightParen, ")", none, 1⟩, ⟨.kwIf, "if", none, 1⟩, ⟨.leftParen, "(", none, 1⟩,
    ⟨.kwTrue, "true", none, 1⟩, ⟨.rightParen, ")", none, 1⟩, ⟨.identifier, "b", none, 1⟩,
    ⟨.equal, "=", none, 1⟩, ⟨.string, "\"c\"", some (.string "c"), 1⟩, ⟨.semicolon, ";", none, 1⟩,
    ⟨.kwElse, "else", none, 1⟩, ⟨.leftBrace, "\x7b", none, 1⟩, ⟨.rightBrace, "\x7d", none, 1⟩, .eof 1]

theorem derives_nestedConditional :
    (∀ t ∈ nestedConditional, t.CarriesLiteral) ∧ (parse nestedConditional).errors = []
      ∧ Ebnf.Derives Rule.maxNesting (.rule .program) (beforeEnd nestedConditional) := by
  have hliteral : ∀ t ∈ nestedConditional, t.CarriesLiteral := by decide
  have hparse : (parse nestedConditional).errors = [] := by decide +kernel
  exact ⟨hliteral, hparse, (parse_errors_eq_nil_iff_derives _ hliteral).1 hparse⟩

end Lox
