import Lox.Proofs.GrammarReading
/-!
# Forms

Which token lists stand for which trees. `ExprForm n rank ts e` says that the tokens `ts`, standing
at a place of the given rank, are a way of writing `e` in which at most `n` levels of nesting are open
at once; `StmtForm` says the same of statements and declarations. The forms are given by rules of
composition alone. Nothing in them reads from left to right or looks ahead, which is what the rules of
the grammar are compared with.
-/

namespace Lox

/-! ### Expressions -/

/-- An infix operator with the tokens and the tree of its right operand. -/
structure Operation where
  sign : Token
  op : InfixOp
  tokens : List Token
  right : Expr

namespace Operation

def text (o : Operation) : List Token :=
  o.sign :: o.tokens

def apply (left : Expr) (o : Operation) : Expr :=
  o.op.join o.sign.line left o.right

end Operation

namespace Rule

def answer (o : Operation) : InfixOp × Nat × Expr :=
  (o.op, o.sign.line, o.right)

theorem foldl_answers (operations : List Operation) (first : Expr) :
    (operations.map answer).foldl (fun left (op, line, right) => op.join line left right) first
      = operations.foldl Operation.apply first := by
  rw [List.foldl_map]
  rfl

end Rule

/-- The places an expression can stand at: anywhere that a whole expression fits, or as an operand
in which only operators of the listed levels may be used. -/
inductive Rank where
  | whole
  | within (levels : List Level)

/-- The ways of writing an expression. Opening a whole expression or the operand of a unary operator
takes up a level of nesting. -/
inductive ExprForm : Nat → Rank → List Token → Expr → Prop where
  | literal {n : Nat} {t : Token} {v : Value} : t.constant? = some v →
      ExprForm n (.within []) [t] (.literal v t.line)
  | var {n : Nat} {t : Token} : t.kind = .identifier → ExprForm n (.within []) [t] (.var t)
  | group {n : Nat} {left right : Token} {ts : List Token} {e : Expr} : left.kind = .leftParen →
      right.kind = .rightParen → ExprForm n .whole ts e →
      ExprForm n (.within []) (left :: ts ++ [right]) (.group e left.line)
  | unary {n : Nat} {sign : Token} {op : UnaryOp} {ts : List Token} {e : Expr} :
      UnaryOp.ofKind? sign.kind = some op → ExprForm n (.within []) ts e →
      ExprForm (n + 1) (.within []) (sign :: ts) (.unary op e sign.line)
  | chain {n : Nat} {level : Level} {levels : List Level} {ts : List Token} {first : Expr}
      {operations : List Operation} : ExprForm n (.within levels) ts first →
      (∀ o ∈ operations, InfixOp.ofKind? level o.sign.kind = some o.op) →
      (∀ o ∈ operations, ExprForm n (.within levels) o.tokens o.right) →
      ExprForm n (.within (level :: levels)) (ts ++ operations.flatMap Operation.text)
        (operations.foldl Operation.apply first)
  | plain {n : Nat} {ts : List Token} {e : Expr} : ExprForm n (.within Level.all) ts e →
      ExprForm (n + 1) .whole ts e
  | assign {n : Nat} {name equals : Token} {ts : List Token} {e : Expr} : name.kind = .identifier →
      equals.kind = .equal → ExprForm n .whole ts e →
      ExprForm (n + 1) .whole (name :: equals :: ts) (.assign name e)

namespace ExprForm

variable {n : Nat} {rank : Rank} {ts : List Token} {e : Expr}

/-- An operand is an operand of the next looser level too. -/
theorem weaken {level : Level} {levels : List Level} (h : ExprForm n (.within levels) ts e) :
    ExprForm n (.within (level :: levels)) ts e := by
  simpa using @chain n level levels ts e [] h (by simp) (by simp)

/-- The kinds of tokens that an expression can start with. -/
def starts (kind : TokenKind) : Prop :=
  kind ∈ [.kwFalse, .kwTrue, .kwNil, .number, .string, .identifier, .leftParen, .bang, .minus]

theorem starts_of_constant? {t : Token} {v : Value} (h : t.constant? = some v) : starts t.kind := by
  rw [Token.constant?] at h
  split at h <;> simp_all [starts]

theorem starts_of_unary {kind : TokenKind} {op : UnaryOp} (h : UnaryOp.ofKind? kind = some op) :
    starts kind := by
  obtain rfl := UnaryOp.ofKind?_eq_some.1 h
  cases op <;> simp [starts, UnaryOp.kind]

/-- An expression starts with a token that can start one. -/
theorem exists_head (h : ExprForm n rank ts e) : ∃ token rest, ts = token :: rest ∧ starts token.kind := by
  induction h with
  | literal h => exact ⟨_, _, rfl, starts_of_constant? h⟩
  | var h => exact ⟨_, _, rfl, by simp [starts, h]⟩
  | group h => exact ⟨_, _, rfl, by simp [starts, h]⟩
  | unary h => exact ⟨_, _, rfl, starts_of_unary h⟩
  | chain _ _ _ ih =>
    obtain ⟨token, rest, rfl, hstarts⟩ := ih
    exact ⟨token, _, rfl, hstarts⟩
  | plain _ ih => exact ih
  | assign h => exact ⟨_, _, rfl, by simp [starts, h]⟩

/-- Joining operands never gives a variable. -/
theorem foldl_apply_eq_var {operations : List Operation} {first : Expr} {name : Token}
    (h : operations.foldl Operation.apply first = .var name) : operations = [] ∧ first = .var name := by
  induction operations generalizing first with
  | nil => exact ⟨rfl, h⟩
  | cons o operations ih =>
    obtain ⟨-, happly⟩ := ih h
    rw [Operation.apply, InfixOp.join.eq_def] at happly
    split at happly <;> simp at happly

/-- The only way of writing a variable as an operand is its name. -/
theorem var_inv {levels : List Level} {name : Token} (h : ExprForm n (.within levels) ts (.var name)) :
    ts = [name] ∧ name.kind = .identifier := by
  generalize hrank : Rank.within levels = rank at h
  generalize htree : Expr.var name = e at h
  induction h generalizing levels with
  | var hkind =>
    obtain rfl := Expr.var.inj htree
    exact ⟨rfl, hkind⟩
  | chain _ _ _ ih =>
    obtain ⟨rfl, rfl⟩ := foldl_apply_eq_var htree.symm
    simpa using ih rfl rfl
  | plain => simp at hrank
  | _ => simp at htree

end ExprForm

/-! ### Statements -/

inductive VarForm (n : Nat) : List Token → Stmt → Prop where
  | bare {name semicolon : Token} : name.kind = .identifier → semicolon.kind = .semicolon →
      VarForm n [name, semicolon] (.declare name none)
  | init {name equals semicolon : Token} {ts : List Token} {e : Expr} : name.kind = .identifier →
      equals.kind = .equal → ExprForm n .whole ts e → semicolon.kind = .semicolon →
      VarForm n (name :: equals :: ts ++ [semicolon]) (.declare name (some e))

inductive InitForm (n : Nat) : List Token → Option Stmt → Prop where
  | absent {semicolon : Token} : semicolon.kind = .semicolon → InitForm n [semicolon] none
  | declared {keyword : Token} {ts : List Token} {s : Stmt} : keyword.kind = .kwVar → VarForm n ts s →
      InitForm n (keyword :: ts) (some s)
  | plain {ts : List Token} {e : Expr} {semicolon : Token} : ExprForm n .whole ts e →
      semicolon.kind = .semicolon → InitForm n (ts ++ [semicolon]) (some (.expression e))

inductive OptionForm (n : Nat) : List Token → Option Expr → Prop where
  | absent : OptionForm n [] none
  | present {ts : List Token} {e : Expr} : ExprForm n .whole ts e → OptionForm n ts (some e)

/-- The places a statement can stand at: where any declaration fits, or where a statement does. Before
an `else` that belongs to a conditional around it, a statement is closed: it does not end in a
conditional to which the `else` would belong. -/
inductive Position where
  | declaration
  | statement (closed : Bool)

/-- The ways of writing a declaration or statement. Opening a statement takes up a level of nesting. -/
inductive StmtForm : Nat → Position → List Token → Stmt → Prop where
  | var {n : Nat} {keyword : Token} {ts : List Token} {s : Stmt} : keyword.kind = .kwVar →
      VarForm n ts s → StmtForm n .declaration (keyword :: ts) s
  | statement {n : Nat} {ts : List Token} {s : Stmt} : StmtForm n (.statement false) ts s →
      StmtForm n .declaration ts s
  | expression {n : Nat} {closed : Bool} {ts : List Token} {e : Expr} {semicolon : Token} :
      ExprForm n .whole ts e → semicolon.kind = .semicolon →
      StmtForm (n + 1) (.statement closed) (ts ++ [semicolon]) (.expression e)
  | print {n : Nat} {closed : Bool} {keyword semicolon : Token} {ts : List Token} {e : Expr} :
      keyword.kind = .kwPrint → ExprForm n .whole ts e → semicolon.kind = .semicolon →
      StmtForm (n + 1) (.statement closed) (keyword :: ts ++ [semicolon]) (.print e)
  | block {n : Nat} {closed : Bool} {left right : Token} {parts : List (List Token × Stmt)} :
      left.kind = .leftBrace → (∀ p ∈ parts, StmtForm n .declaration p.1 p.2) →
      right.kind = .rightBrace →
      StmtForm (n + 1) (.statement closed) (left :: parts.flatMap (·.1) ++ [right])
        (.block (parts.map fun p => some p.2))
  | ifThen {n : Nat} {keyword left right : Token} {cs ts : List Token} {condition : Expr} {yes : Stmt} :
      keyword.kind = .kwIf → left.kind = .leftParen → ExprForm n .whole cs condition →
      right.kind = .rightParen → StmtForm n (.statement false) ts yes →
      StmtForm (n + 1) (.statement false) (keyword :: left :: cs ++ right :: ts)
        (.branch condition yes none)
  | ifElse {n : Nat} {closed : Bool} {keyword left right other : Token} {cs ts us : List Token}
      {condition : Expr} {yes no : Stmt} : keyword.kind = .kwIf → left.kind = .leftParen →
      ExprForm n .whole cs condition → right.kind = .rightParen → StmtForm n (.statement true) ts yes →
      other.kind = .kwElse → StmtForm n (.statement closed) us no →
      StmtForm (n + 1) (.statement closed) (keyword :: left :: cs ++ right :: ts ++ other :: us)
        (.branch condition yes (some no))
  | while {n : Nat} {closed : Bool} {keyword left right : Token} {cs ts : List Token}
      {condition : Expr} {body : Stmt} : keyword.kind = .kwWhile → left.kind = .leftParen →
      ExprForm n .whole cs condition → right.kind = .rightParen →
      StmtForm n (.statement closed) ts body →
      StmtForm (n + 1) (.statement closed) (keyword :: left :: cs ++ right :: ts) (.loop condition body)
  | for {n : Nat} {closed : Bool} {keyword left semicolon right : Token} {is cs us ts : List Token}
      {init : Option Stmt} {condition increment : Option Expr} {body : Stmt} :
      keyword.kind = .kwFor → left.kind = .leftParen → InitForm n is init →
      OptionForm n cs condition → semicolon.kind = .semicolon → OptionForm n us increment →
      right.kind = .rightParen → StmtForm n (.statement closed) ts body →
      StmtForm (n + 1) (.statement closed)
        (keyword :: left :: is ++ cs ++ semicolon :: us ++ right :: ts)
        (Rule.forLoop keyword.line init condition increment body)

namespace StmtForm

variable {n : Nat} {position : Position} {ts : List Token} {s : Stmt}

/-- The kinds of tokens that a statement can start with, and `var` for a declaration. -/
def starts (kind : TokenKind) (position : Position) : Prop :=
  kind = .kwVar ∧ position = .declaration ∨ ExprForm.starts kind
    ∨ kind ∈ [.kwPrint, .leftBrace, .kwIf, .kwWhile, .kwFor]

/-- A declaration starts with a token that can start one. -/
theorem exists_head (h : StmtForm n position ts s) :
    ∃ token rest, ts = token :: rest ∧ starts token.kind position := by
  induction h with
  | var h => exact ⟨_, _, rfl, .inl ⟨h, rfl⟩⟩
  | statement _ ih =>
    obtain ⟨token, rest, rfl, ⟨-, hdeclaration⟩ | hstarts⟩ := ih
    · simp at hdeclaration
    · exact ⟨token, rest, rfl, .inr hstarts⟩
  | expression h =>
    obtain ⟨token, rest, rfl, hstarts⟩ := h.exists_head
    exact ⟨token, _, rfl, .inr (.inl hstarts)⟩
  | print h => exact ⟨_, _, rfl, by simp [starts, h]⟩
  | block h => exact ⟨_, _, rfl, by simp [starts, h]⟩
  | ifThen h => exact ⟨_, _, rfl, by simp [starts, h]⟩
  | ifElse h => exact ⟨_, _, rfl, by simp [starts, h]⟩
  | «while» h => exact ⟨_, _, rfl, by simp [starts, h]⟩
  | «for» h => exact ⟨_, _, rfl, by simp [starts, h]⟩

theorem ne_nil (h : StmtForm n position ts s) : ts ≠ [] := by
  obtain ⟨token, rest, rfl, -⟩ := h.exists_head
  simp

/-- A closed statement fits wherever a statement does. -/
theorem of_closed (h : StmtForm n (.statement true) ts s) : StmtForm n (.statement false) ts s := by
  generalize hposition : Position.statement true = position at h
  induction h with
  | var => simp at hposition
  | statement => simp at hposition
  | expression h hsemicolon => exact .expression h hsemicolon
  | print hkeyword h hsemicolon => exact .print hkeyword h hsemicolon
  | block hleft hparts hright => exact .block hleft hparts hright
  | ifThen => simp at hposition
  | ifElse hif hleft hcondition hright hyes helse _ _ ih =>
    exact .ifElse hif hleft hcondition hright hyes helse (ih hposition)
  | «while» hwhile hleft hcondition hright _ ih => exact .while hwhile hleft hcondition hright (ih hposition)
  | «for» hfor hleft hinit hcondition hsemicolon hincrement hright _ ih =>
    exact .for hfor hleft hinit hcondition hsemicolon hincrement hright (ih hposition)

end StmtForm

def SlotsForm (n : Nat) (ts : List Token) (slots : List Slot) : Prop :=
  ∃ parts : List (List Token × Stmt), ts = parts.flatMap (·.1) ∧ slots = parts.map (fun p => some p.2)
    ∧ ∀ p ∈ parts, StmtForm n .declaration p.1 p.2

namespace SlotsForm

variable {n : Nat} {ts us : List Token} {s : Stmt} {slots : List Slot}

theorem nil : SlotsForm n [] [] :=
  ⟨[], rfl, rfl, by simp⟩

theorem cons (hslots : SlotsForm n us slots) (hs : StmtForm n .declaration ts s) :
    SlotsForm n (ts ++ us) (some s :: slots) := by
  obtain ⟨parts, rfl, rfl, hparts⟩ := hslots
  exact ⟨(ts, s) :: parts, rfl, rfl, List.forall_mem_cons.2 ⟨hs, hparts⟩⟩

theorem block {closed : Bool} {left right : Token} (hslots : SlotsForm n ts slots)
    (hleft : left.kind = .leftBrace) (hright : right.kind = .rightBrace) :
    StmtForm (n + 1) (.statement closed) (left :: ts ++ [right]) (.block slots) := by
  obtain ⟨parts, rfl, rfl, hparts⟩ := hslots
  exact .block hleft hparts hright

end SlotsForm

end Lox
