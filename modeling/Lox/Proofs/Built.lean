import Lox.Proofs.Recovery
/-!
# The trees that are built

Which trees the rules of the grammar answer with, whatever the tokens are like. `ExprBuilt` and `StmtBuilt`
say how such trees are put together, from which tokens their parts come and how much nesting they use up.
They hold of all that is read, also of what is read between faults, where nothing can be said about the tokens
as a whole. With them goes the other half of where tokens end up: what a fault is blamed on is one of the
tokens that were read.
-/

namespace Lox

/-! ### Expressions -/

/-- The expressions that are built from given tokens at a place of some rank, when a number of levels of nesting
may be opened. -/
inductive ExprBuilt (given : Token → Prop) : Nat → Rank → Expr → Prop where
  | literal {n : Nat} {t : Token} {v : Value} : given t → t.constant? = some v →
      ExprBuilt given n (.within []) (.literal v t.line)
  | var {n : Nat} {t : Token} : given t → t.kind = .identifier → ExprBuilt given n (.within []) (.var t)
  | group {n : Nat} {left : Token} {e : Expr} : given left → left.kind = .leftParen → ExprBuilt given n .whole e →
      ExprBuilt given n (.within []) (.group e left.line)
  | unary {n : Nat} {sign : Token} {op : UnaryOp} {e : Expr} : given sign → op.kind = sign.kind →
      ExprBuilt given n (.within []) e → ExprBuilt given (n + 1) (.within []) (.unary op e sign.line)
  | operand {n : Nat} {level : Level} {levels : List Level} {e : Expr} : ExprBuilt given n (.within levels) e →
      ExprBuilt given n (.within (level :: levels)) e
  | joined {n : Nat} {levels : List Level} {sign : Token} {op : InfixOp} {left right : Expr} : given sign →
      op.kind = sign.kind → ExprBuilt given n (.within (op.level :: levels)) left →
      ExprBuilt given n (.within levels) right →
      ExprBuilt given n (.within (op.level :: levels)) (op.join sign.line left right)
  | plain {n : Nat} {e : Expr} : ExprBuilt given n (.within Level.all) e → ExprBuilt given (n + 1) .whole e
  | assign {n : Nat} {name : Token} {e : Expr} : given name → name.kind = .identifier → ExprBuilt given n .whole e →
      ExprBuilt given (n + 1) .whole (.assign name e)

/-- A variable that is built as an operand is one of the given tokens. -/
theorem ExprBuilt.var_inv {given : Token → Prop} {n : Nat} {levels : List Level} {name : Token}
    (h : ExprBuilt given n (.within levels) (.var name)) : given name ∧ name.kind = .identifier := by
  generalize hrank : Rank.within levels = rank at h
  generalize htree : Expr.var name = e at h
  induction h generalizing levels with
  | var hgiven hkind =>
    obtain rfl := Expr.var.inj htree
    exact ⟨hgiven, hkind⟩
  | operand _ ih => exact ih rfl htree
  | @joined _ _ _ op => cases op <;> simp [InfixOp.join] at htree
  | plain => simp at hrank
  | _ => simp at htree

/-! ### Statements -/

inductive DeclareBuilt (given : Token → Prop) (n : Nat) : Stmt → Prop where
  | intro {name : Token} {init : Option Expr} : given name → name.kind = .identifier →
      (∀ e ∈ init, ExprBuilt given n .whole e) → DeclareBuilt given n (.declare name init)

inductive InitBuilt (given : Token → Prop) (n : Nat) : Stmt → Prop where
  | declared {s : Stmt} : DeclareBuilt given n s → InitBuilt given n s
  | plain {e : Expr} : ExprBuilt given n .whole e → InitBuilt given n (.expression e)

/-- The declarations and statements that are built. Before an `else` that belongs to a conditional around it, a
statement is closed. -/
inductive StmtBuilt (given : Token → Prop) : Nat → Position → Stmt → Prop where
  | declare {n : Nat} {s : Stmt} : DeclareBuilt given n s → StmtBuilt given n .declaration s
  | statement {n : Nat} {s : Stmt} : StmtBuilt given n (.statement false) s → StmtBuilt given n .declaration s
  | expression {n : Nat} {closed : Bool} {e : Expr} : ExprBuilt given n .whole e →
      StmtBuilt given (n + 1) (.statement closed) (.expression e)
  | print {n : Nat} {closed : Bool} {e : Expr} : ExprBuilt given n .whole e →
      StmtBuilt given (n + 1) (.statement closed) (.print e)
  | block {n : Nat} {closed : Bool} {slots : List Slot} : (∀ s, some s ∈ slots → StmtBuilt given n .declaration s) →
      StmtBuilt given (n + 1) (.statement closed) (.block slots)
  | ifThen {n : Nat} {condition : Expr} {yes : Stmt} : ExprBuilt given n .whole condition →
      StmtBuilt given n (.statement false) yes →
      StmtBuilt given (n + 1) (.statement false) (.branch condition yes none)
  | ifElse {n : Nat} {closed : Bool} {condition : Expr} {yes no : Stmt} : ExprBuilt given n .whole condition →
      StmtBuilt given n (.statement true) yes → StmtBuilt given n (.statement closed) no →
      StmtBuilt given (n + 1) (.statement closed) (.branch condition yes (some no))
  | while {n : Nat} {closed : Bool} {condition : Expr} {body : Stmt} : ExprBuilt given n .whole condition →
      StmtBuilt given n (.statement closed) body →
      StmtBuilt given (n + 1) (.statement closed) (.loop condition body)
  | for {n : Nat} {closed : Bool} {keyword : Token} {init : Option Stmt} {condition increment : Option Expr}
      {body : Stmt} : given keyword → keyword.kind = .kwFor → (∀ s ∈ init, InitBuilt given n s) →
      (∀ e ∈ condition, ExprBuilt given n .whole e) → (∀ e ∈ increment, ExprBuilt given n .whole e) →
      StmtBuilt given n (.statement closed) body →
      StmtBuilt given (n + 1) (.statement closed) (Rule.forLoop keyword.line init condition increment body)

/-- A closed statement fits wherever a statement does. -/
theorem StmtBuilt.of_closed {given : Token → Prop} {n : Nat} {s : Stmt} (h : StmtBuilt given n (.statement true) s) :
    StmtBuilt given n (.statement false) s := by
  generalize hposition : Position.statement true = position at h
  induction h with
  | declare => simp at hposition
  | statement => simp at hposition
  | expression he => exact .expression he
  | print he => exact .print he
  | block hslots => exact .block hslots
  | ifThen => simp at hposition
  | ifElse hcondition hyes _ _ ih => exact .ifElse hcondition hyes (ih hposition)
  | «while» hcondition _ ih => exact .while hcondition (ih hposition)
  | «for» hgiven hkind hinit hcondition hincrement _ ih =>
    exact .for hgiven hkind hinit hcondition hincrement (ih hposition)

/-! ### Replies -/

variable {given : Token → Prop} {α β : Type}

/-- An answer is as `good` says of it and of the tokens that are left, and the tokens that are blamed or left are
given ones. -/
structure Reply.Keeps (given : Token → Prop) (good : α → List Token → Prop) (reply : Reply α) : Prop where
  answer : ∀ a, reply.result = .ok a → good a reply.rest
  findings : ∀ f ∈ reply.findings, ∀ t ∈ f.token, given t
  rest : ∀ t ∈ reply.rest, given t

namespace Rule

/-- From given tokens the rule comes to a reply that keeps to `good`. -/
def Keeps (given : Token → Prop) (good : α → List Token → Prop) (rule : Rule α) (tokens : List Token) : Prop :=
  (∀ t ∈ tokens, given t) → (rule tokens).Keeps given good

/-- Whatever the rule reads from given tokens, its answer is good, and it blames and leaves given tokens. -/
def Builds (given : Token → Prop) (good : α → Prop) (rule : Rule α) : Prop :=
  ∀ tokens, rule.Keeps given (fun a _ => good a) tokens

/-! ### Ways of building rules -/

variable {good : α → List Token → Prop} {tokens : List Token}

theorem Keeps.imp {good' : α → List Token → Prop} {rule : Rule α} (h : rule.Keeps given good tokens)
    (himp : ∀ a rest, good a rest → good' a rest) : rule.Keeps given good' tokens := by
  intro hgiven
  have hkeeps := h hgiven
  exact ⟨fun a ha => himp a _ (hkeeps.answer a ha), hkeeps.findings, hkeeps.rest⟩

theorem keeps_pure {a : α} (ha : good a tokens) : Keeps given good (pure a) tokens := by
  intro hgiven
  refine ⟨?_, by simp [pure, Rule.pure], hgiven⟩
  intro b hb
  obtain rfl : a = b := Except.ok.inj hb
  exact ha

theorem keeps_fail {fault : ParseFault} : Keeps given good (fail fault) tokens := by
  intro hgiven
  exact ⟨by simp [fail], by simp [fail], hgiven⟩

theorem keeps_note {fault : ParseFault} {token : Token} (htoken : given token) :
    Keeps given (fun _ _ => True) (note fault token) tokens := by
  intro hgiven
  exact ⟨fun _ _ => trivial, by simpa [note] using htoken, hgiven⟩

theorem keeps_bind {mid : α → List Token → Prop} {good : β → List Token → Prop} {rule : Rule α} {next : α → Rule β}
    (hrule : rule.Keeps given mid tokens) (hnext : ∀ a rest, mid a rest → (next a).Keeps given good rest) :
    (rule >>= next).Keeps given good tokens := by
  intro hgiven
  have hfirst := hrule hgiven
  rcases h : rule tokens with ⟨fault | a, findings, rest⟩
  · rw [h] at hfirst
    rw [bind_of_error h]
    exact ⟨nofun, hfirst.findings, hfirst.rest⟩
  · rw [h] at hfirst
    have hsecond := hnext a rest (hfirst.answer a rfl) hfirst.rest
    rw [bind_of_ok h]
    refine ⟨hsecond.answer, ?_, hsecond.rest⟩
    intro f hf
    exact (List.mem_append.1 hf).elim (hfirst.findings f) (hsecond.findings f)

theorem keeps_map {good : β → List Token → Prop} {f : α → β} {rule : Rule α}
    (hrule : rule.Keeps given (fun a rest => good (f a) rest) tokens) : (f <$> rule).Keeps given good tokens := by
  rw [map_eq_pure_bind]
  exact keeps_bind hrule fun a rest ha => keeps_pure ha

theorem keeps_choose {chosen : Token → Option (Rule α)} {otherwise : Rule α}
    (hchosen : ∀ token rest rule, tokens = token :: rest → given token → chosen token = some rule →
      rule.Keeps given good rest)
    (hotherwise : (∀ token rest, tokens = token :: rest → chosen token = none) →
      otherwise.Keeps given good tokens) :
    (choose chosen otherwise).Keeps given good tokens := by
  intro hgiven
  cases tokens with
  | nil => exact hotherwise (by simp) hgiven
  | cons token rest =>
    obtain ⟨htoken, hrest⟩ := List.forall_mem_cons.1 hgiven
    rw [choose]
    split
    next rule hrule => exact hchosen token rest rule rfl htoken hrule hrest
    next hnone =>
      refine hotherwise ?_ hgiven
      intro token' rest' heq
      obtain ⟨rfl, rfl⟩ := List.cons.inj heq
      exact hnone

theorem keeps_choose_kind {kind : TokenKind} {rule : Token → Rule α} {otherwise : Rule α}
    (hrule : ∀ token rest, tokens = token :: rest → given token → token.kind = kind →
      (rule token).Keeps given good rest)
    (hotherwise : nextKind tokens ≠ some kind → otherwise.Keeps given good tokens) :
    (choose (fun token => if token.kind = kind then some (rule token) else none) otherwise).Keeps given good
      tokens := by
  apply keeps_choose
  · intro token rest chosen htokens htoken hchosen
    obtain ⟨hkind, hsome⟩ := Option.ite_none_right_eq_some.1 hchosen
    obtain rfl := Option.some.inj hsome
    exact hrule token rest htokens htoken hkind
  · intro hnone
    apply hotherwise
    cases tokens with
    | nil => simp
    | cons token rest => simpa using hnone token rest rfl

theorem keeps_accept? {kind : TokenKind} :
    Keeps given (fun answer _ => ∀ t ∈ answer, given t ∧ t.kind = kind) (accept? kind) tokens := by
  apply keeps_choose_kind
  · intro token rest _ htoken hkind
    exact keeps_pure (by simp [htoken, hkind])
  · intro _
    exact keeps_pure (by simp)

theorem keeps_expect {kind : TokenKind} {fault : ParseFault} :
    Keeps given (fun t _ => given t ∧ t.kind = kind) (expect kind fault) tokens := by
  apply keeps_choose_kind
  · intro token rest _ htoken hkind
    exact keeps_pure ⟨htoken, hkind⟩
  · intro _
    exact keeps_fail

theorem keeps_close {symbol : TokenKind} {after : Clause} :
    Keeps given (fun _ _ => True) (close symbol after) tokens :=
  keeps_map (keeps_expect.imp fun _ _ _ => trivial)

theorem keeps_optionalAfter {kind : TokenKind} {item : Rule α} {good : Option α → List Token → Prop}
    (hitem : nextKind tokens = some kind → ∀ rest, item.Keeps given (fun a rest => good (some a) rest) rest)
    (hnone : nextKind tokens ≠ some kind → good none tokens) :
    (optionalAfter kind item).Keeps given good tokens := by
  apply keeps_choose_kind
  · rintro token rest rfl _ hkind
    exact keeps_map (hitem (by simp [hkind]) rest)
  · intro hnext
    exact keeps_pure (hnone hnext)

/-! ### Items that may be left out or repeated -/

section Items

variable {good : α → Prop}

theorem builds_fail {fault : ParseFault} : Builds given good (fail fault) :=
  fun _ => keeps_fail

theorem Builds.keeps_some {item : Rule α} (hitem : Builds given good item) (tokens : List Token) :
    (some <$> item).Keeps given (fun answer _ => ∀ a ∈ answer, good a) tokens :=
  keeps_map ((hitem tokens).imp (by simp))

theorem builds_unlessAt {stops : Token → Bool} {item : Rule α} (hitem : Builds given good item) :
    Builds given (fun answer => ∀ a ∈ answer, good a) (unlessAt stops item) := by
  intro tokens hgiven
  cases tokens with
  | nil => exact ⟨by simp [unlessAt], by simp [unlessAt], hgiven⟩
  | cons token rest =>
    rw [unlessAt]
    split
    · exact ⟨by simp, by simp, hgiven⟩
    · exact hitem.keeps_some (token :: rest) hgiven

theorem builds_optionalUntil {kind : TokenKind} {item : Rule α} (hitem : Builds given good item) :
    Builds given (fun answer => ∀ a ∈ answer, good a) (optionalUntil kind item) := by
  intro tokens hgiven
  cases tokens with
  | nil => exact hitem.keeps_some [] hgiven
  | cons token rest =>
    rw [optionalUntil]
    split
    · exact ⟨by simp, by simp, hgiven⟩
    · exact hitem.keeps_some (token :: rest) hgiven

theorem builds_optionalAfter {kind : TokenKind} {item : Rule α} (hitem : Builds given good item) :
    Builds given (fun answer => ∀ a ∈ answer, good a) (optionalAfter kind item) := by
  intro tokens
  apply keeps_optionalAfter
  · intro _ rest
    exact (hitem rest).imp (by simp)
  · simp

theorem builds_many {item : Rule (Option α)} (hitem : Builds given (fun answer => ∀ a ∈ answer, good a) item) :
    Builds given (fun as => ∀ a ∈ as, good a) (many item) := by
  intro tokens hgiven
  induction hlength : tokens.length using Nat.strongRecOn generalizing tokens with
  | ind length ih =>
    have hfirst := hitem tokens hgiven
    rw [many]
    rcases h : item tokens with ⟨fault | _ | a, findings, rest⟩
    · rw [h] at hfirst
      refine ⟨?_, hfirst.findings, hfirst.rest⟩
      intro as has
      simp at has
    · rw [h] at hfirst
      refine ⟨?_, hfirst.findings, hfirst.rest⟩
      intro as has
      obtain rfl := Except.ok.inj has
      simp
    · rw [h] at hfirst
      have ha : good a := hfirst.answer (some a) rfl a rfl
      dsimp only
      split
      next hlt =>
        have hmore := ih rest.length (hlength ▸ hlt) rest hfirst.rest rfl
        refine ⟨?_, ?_, hmore.rest⟩
        · intro as has
          rcases hmany : (many item rest).result with fault | tail
          · simp [hmany, Except.map] at has
          · obtain rfl : a :: tail = as := by simpa [hmany, Except.map] using has
            exact List.forall_mem_cons.2 ⟨ha, hmore.answer tail hmany⟩
        · intro f hf
          exact (List.mem_append.1 hf).elim (hfirst.findings f) (hmore.findings f)
      next =>
        refine ⟨?_, hfirst.findings, hfirst.rest⟩
        intro as has
        obtain rfl := Except.ok.inj has
        simpa using ha

/-- A failure is blamed on the next token, and no token is made up to resume at. -/
theorem builds_recovering {rule : Rule α} (hrule : Builds given good rule) :
    Builds given (fun slot => ∀ a ∈ slot, good a) (recovering rule) := by
  intro tokens hgiven
  have hkeeps := hrule tokens hgiven
  rw [recovering]
  rcases h : rule tokens with ⟨fault | a, findings, rest⟩
  · rw [h] at hkeeps
    refine ⟨?_, ?_, ?_⟩
    · intro slot hslot
      obtain rfl := Except.ok.inj hslot
      simp
    · intro f hf t ht
      rcases List.mem_append.1 hf with hf | hf
      · exact hkeeps.findings f hf t ht
      · obtain rfl := List.mem_singleton.1 hf
        exact hkeeps.rest t (List.mem_of_mem_head? ht)
    · intro t ht
      exact hkeeps.rest t ((resume_suffix rest).subset ht)
  · rw [h] at hkeeps
    refine ⟨?_, hkeeps.findings, hkeeps.rest⟩
    intro slot hslot
    obtain rfl := Except.ok.inj hslot
    simpa using hkeeps.answer a rfl

end Items

/-! ### Rules for expressions -/

section Expressions

variable {n : Nat} {level : Level} {levels : List Level}

/-- An operator of the level, read from a given token, and the right operand that is built behind it. -/
def OperationBuilt (given : Token → Prop) (n : Nat) (level : Level) (levels : List Level) :
    InfixOp × Nat × Expr → Prop
  | (op, line, right) => op.level = level ∧ (∃ sign, given sign ∧ op.kind = sign.kind ∧ sign.line = line)
      ∧ ExprBuilt given n (.within levels) right

theorem builds_operation {operand : Rule Expr} (hoperand : Builds given (ExprBuilt given n (.within levels)) operand) :
    Builds given (fun answer => ∀ a ∈ answer, OperationBuilt given n level levels a) (operation level operand) := by
  intro tokens
  apply keeps_choose
  · intro sign rest rule _ hsign hrule
    obtain ⟨op, hop, rfl⟩ := Option.map_eq_some_iff.1 hrule
    obtain ⟨hlevel, hkind⟩ := InfixOp.ofKind?_eq_some.1 hop
    refine keeps_bind (hoperand rest) fun right _ hright => ?_
    apply keeps_pure
    intro a ha
    obtain rfl := Option.some.inj ha
    exact ⟨hlevel, ⟨sign, hsign, hkind, rfl⟩, hright⟩
  · intro _
    exact keeps_pure (by simp)

/-- Operands are joined from the left, one operation after the other. -/
theorem built_foldl {operations : List (InfixOp × Nat × Expr)} {first : Expr}
    (hfirst : ExprBuilt given n (.within (level :: levels)) first)
    (hoperations : ∀ a ∈ operations, OperationBuilt given n level levels a) :
    ExprBuilt given n (.within (level :: levels))
      (operations.foldl (fun left (op, line, right) => op.join line left right) first) := by
  induction operations generalizing first with
  | nil => exact hfirst
  | cons operation operations ih =>
    obtain ⟨op, line, right⟩ := operation
    obtain ⟨hoperation, hrest⟩ := List.forall_mem_cons.1 hoperations
    obtain ⟨rfl, ⟨sign, hsign, hkind, rfl⟩, hright⟩ := hoperation
    exact ih (.joined hsign hkind hfirst hright) hrest

theorem builds_chain {operand : Rule Expr} (hoperand : Builds given (ExprBuilt given n (.within levels)) operand) :
    Builds given (ExprBuilt given n (.within (level :: levels))) (chain level operand) := by
  intro tokens
  refine keeps_bind (hoperand tokens) fun first rest hfirst => ?_
  refine keeps_bind (builds_many (builds_operation hoperand) rest) fun operations _ hoperations => ?_
  exact keeps_pure (built_foldl hfirst.operand hoperations)

theorem builds_cascade {operand : Rule Expr} (hoperand : Builds given (ExprBuilt given n (.within [])) operand) :
    Builds given (ExprBuilt given n (.within Level.all)) (cascade operand) := by
  rw [cascade]
  induction Level.all with
  | nil => exact hoperand
  | cons level levels ih => exact builds_chain ih

/-- What cannot be assigned to stands alone, and the fault is blamed on the equals sign. -/
theorem builds_assignment {operand value : Rule Expr}
    (hoperand : Builds given (ExprBuilt given n (.within [])) operand)
    (hvalue : Builds given (ExprBuilt given n .whole) value) :
    Builds given (ExprBuilt given (n + 1) .whole) (assignment operand value) := by
  intro tokens
  refine keeps_bind (builds_cascade hoperand tokens) fun target rest htarget => ?_
  refine keeps_bind keeps_accept? fun equals rest hequals => ?_
  cases equals with
  | none => exact keeps_pure (.plain htarget)
  | some equals =>
    refine keeps_bind (hvalue rest) fun assigned rest hassigned => ?_
    cases target with
    | var name =>
      obtain ⟨hname, hkind⟩ := htarget.var_inv
      exact keeps_pure (.assign hname hkind hassigned)
    | _ =>
      refine keeps_bind (keeps_note (hequals equals rfl).1) fun _ _ _ => ?_
      exact keeps_pure (.plain htarget)

theorem builds_primary {inner : Rule Expr} (hinner : Builds given (ExprBuilt given n .whole) inner) :
    Builds given (ExprBuilt given n (.within [])) (primary inner) := by
  intro tokens
  apply keeps_choose
  · intro token rest rule _ htoken hrule
    split at hrule
    case h_1 hkind | h_2 hkind | h_3 hkind =>
      obtain rfl := Option.some.inj hrule
      exact keeps_pure (.literal htoken (by rw [Token.constant?, hkind]))
    case h_4 hkind | h_5 hkind =>
      obtain ⟨literal, hliteral, rfl⟩ := Option.map_eq_some_iff.1 hrule
      exact keeps_pure (.literal htoken (by rw [Token.constant?, hkind, hliteral]; rfl))
    case h_6 hkind =>
      obtain rfl := Option.some.inj hrule
      exact keeps_pure (.var htoken hkind)
    case h_7 hkind =>
      obtain rfl := Option.some.inj hrule
      refine keeps_bind (hinner rest) fun inside _ hinside => ?_
      exact keeps_bind keeps_close fun _ _ _ => keeps_pure (.group htoken hkind hinside)
    case h_8 => simp at hrule
  · intro _
    exact keeps_fail

/-- The operand of a unary operator is built with one level less, so there has to be one. -/
theorem builds_operandOver {deeper inner : Rule Expr}
    (hdeeper : Builds given (fun e => ∃ m, n = m + 1 ∧ ExprBuilt given m (.within []) e) deeper)
    (hinner : Builds given (ExprBuilt given n .whole) inner) :
    Builds given (ExprBuilt given n (.within [])) (operandOver deeper inner) := by
  intro tokens
  apply keeps_choose
  · intro sign rest rule _ hsign hrule
    obtain ⟨op, hop, rfl⟩ := Option.map_eq_some_iff.1 hrule
    have hkind := UnaryOp.ofKind?_eq_some.1 hop
    refine keeps_bind (hdeeper rest) fun right _ hright => ?_
    obtain ⟨m, rfl, hright⟩ := hright
    exact keeps_pure (.unary hsign hkind hright)
  · intro _
    exact builds_primary hinner tokens

theorem builds_expression_operand (n : Nat) :
    Builds given (ExprBuilt given n .whole) (expression n)
      ∧ Builds given (ExprBuilt given n (.within [])) (operand n) := by
  induction n with
  | zero =>
    rw [expression, operand]
    exact ⟨builds_fail, builds_operandOver builds_fail builds_fail⟩
  | succ n ih =>
    obtain ⟨hexpression, hoperand⟩ := ih
    have hassignment := builds_assignment hoperand hexpression
    rw [expression, operand]
    refine ⟨hassignment, builds_operandOver ?_ hassignment⟩
    intro tokens
    exact (hoperand tokens).imp fun e _ he => ⟨n, rfl, he⟩

theorem builds_expression (n : Nat) : Builds given (ExprBuilt given n .whole) (expression n) :=
  (builds_expression_operand n).1

end Expressions

/-! ### Rules for statements -/

section Statements

variable {n : Nat} {expression : Rule Expr} {statement : Rule Stmt}

/-- The statements that the rule answers with are built, and closed where an `else` comes next. -/
def BuildsStatement (given : Token → Prop) (n : Nat) (rule : Rule Stmt) : Prop :=
  ∀ tokens, rule.Keeps given
    (fun s rest => StmtBuilt given n (.statement (nextKind rest == some .kwElse)) s) tokens

theorem BuildsStatement.builds (h : BuildsStatement given n statement) :
    Builds given (StmtBuilt given n (.statement false)) statement := by
  intro tokens
  refine (h tokens).imp ?_
  intro s rest hs
  cases hclosed : nextKind rest == some TokenKind.kwElse with
  | false => rwa [hclosed] at hs
  | true =>
    rw [hclosed] at hs
    exact hs.of_closed

theorem builds_variableDeclaration (hexpression : Builds given (ExprBuilt given n .whole) expression) :
    Builds given (DeclareBuilt given n) (variableDeclaration expression) := by
  intro tokens
  refine keeps_bind keeps_expect fun name rest hname => ?_
  refine keeps_bind (builds_optionalAfter hexpression rest) fun init rest hinit => ?_
  exact keeps_bind keeps_close fun _ _ _ => keeps_pure (.intro hname.1 hname.2 hinit)

theorem builds_declarations {stops : Token → Bool} (hexpression : Builds given (ExprBuilt given n .whole) expression)
    (hstatement : BuildsStatement given n statement) :
    Builds given (fun slots => ∀ s, some s ∈ slots → StmtBuilt given n .declaration s)
      (declarations stops expression statement) := by
  have hitem : Builds given (StmtBuilt given n .declaration)
      (choose (fun token => if token.kind = .kwVar then some (variableDeclaration expression) else none)
        statement) := by
    intro tokens
    apply keeps_choose_kind
    · intro token rest _ _ _
      exact (builds_variableDeclaration hexpression rest).imp fun s _ hs => .declare hs
    · intro _
      exact (hstatement.builds tokens).imp fun s _ hs => .statement hs
  intro tokens
  refine (builds_many (builds_unlessAt (builds_recovering hitem)) tokens).imp ?_
  intro slots _ hslots s hs
  exact hslots (some s) hs s rfl

theorem keeps_expressionStatement (hexpression : Builds given (ExprBuilt given n .whole) expression)
    (tokens : List Token) :
    (expressionStatement expression).Keeps given
      (fun s _ => ∃ e, s = .expression e ∧ ExprBuilt given n .whole e) tokens := by
  refine keeps_bind (hexpression tokens) fun e rest he => ?_
  exact keeps_bind keeps_close fun _ _ _ => keeps_pure ⟨e, rfl, he⟩

theorem builds_printStatement (hexpression : Builds given (ExprBuilt given n .whole) expression) :
    BuildsStatement given (n + 1) (printStatement expression) := by
  intro tokens
  refine keeps_bind (hexpression tokens) fun e rest he => ?_
  exact keeps_bind keeps_close fun _ _ _ => keeps_pure (.print he)

theorem builds_blockStatement (hexpression : Builds given (ExprBuilt given n .whole) expression)
    (hstatement : BuildsStatement given n statement) :
    BuildsStatement given (n + 1) (blockStatement expression statement) := by
  intro tokens
  refine keeps_bind (builds_declarations hexpression hstatement tokens) fun slots rest hslots => ?_
  exact keeps_bind keeps_close fun _ _ _ => keeps_pure (.block hslots)

theorem builds_ifStatement (hexpression : Builds given (ExprBuilt given n .whole) expression)
    (hstatement : BuildsStatement given n statement) :
    BuildsStatement given (n + 1) (ifStatement expression statement) := by
  intro tokens
  refine keeps_bind keeps_close fun _ rest _ => ?_
  refine keeps_bind (hexpression rest) fun condition rest hcondition => ?_
  refine keeps_bind keeps_close fun _ rest _ => ?_
  refine keeps_bind (hstatement rest) fun yes rest hyes => ?_
  -- Whether an `else` comes next decides both whether the branch is closed and whether there is another one.
  have hno : (optionalAfter .kwElse statement).Keeps given
      (fun no after => StmtBuilt given (n + 1) (.statement (nextKind after == some .kwElse))
        (.branch condition yes no)) rest := by
    apply keeps_optionalAfter
    · intro hnext rest
      rw [hnext, beq_self_eq_true] at hyes
      exact (hstatement rest).imp fun no _ hno => .ifElse hcondition hyes hno
    · intro hnext
      have hopen : (nextKind rest == some TokenKind.kwElse) = false := by simpa using hnext
      rw [hopen] at hyes ⊢
      exact .ifThen hcondition hyes
  exact keeps_bind hno fun no rest hbranch => keeps_pure hbranch

theorem builds_whileStatement (hexpression : Builds given (ExprBuilt given n .whole) expression)
    (hstatement : BuildsStatement given n statement) :
    BuildsStatement given (n + 1) (whileStatement expression statement) := by
  intro tokens
  refine keeps_bind keeps_close fun _ rest _ => ?_
  refine keeps_bind (hexpression rest) fun condition rest hcondition => ?_
  refine keeps_bind keeps_close fun _ rest _ => ?_
  exact keeps_bind (hstatement rest) fun body rest hbody => keeps_pure (.while hcondition hbody)

theorem builds_forInitializer (hexpression : Builds given (ExprBuilt given n .whole) expression) :
    Builds given (fun init => ∀ s ∈ init, InitBuilt given n s) (forInitializer expression) := by
  intro tokens
  apply keeps_choose
  · intro token rest rule _ _ hrule
    split at hrule
    case h_1 =>
      obtain rfl := Option.some.inj hrule
      exact keeps_pure (by simp)
    case h_2 =>
      obtain rfl := Option.some.inj hrule
      refine keeps_map ((builds_variableDeclaration hexpression rest).imp ?_)
      intro s _ hs t ht
      obtain rfl := Option.some.inj ht
      exact .declared hs
    case h_3 => simp at hrule
  · intro _
    refine keeps_map ((keeps_expressionStatement hexpression tokens).imp ?_)
    rintro _ _ ⟨e, rfl, he⟩ t ht
    obtain rfl := Option.some.inj ht
    exact .plain he

theorem builds_forStatement {keyword : Token} (hgiven : given keyword) (hkind : keyword.kind = .kwFor)
    (hexpression : Builds given (ExprBuilt given n .whole) expression)
    (hstatement : BuildsStatement given n statement) :
    BuildsStatement given (n + 1) (forStatement keyword.line expression statement) := by
  intro tokens
  refine keeps_bind keeps_close fun _ rest _ => ?_
  refine keeps_bind (builds_forInitializer hexpression rest) fun init rest hinit => ?_
  refine keeps_bind (builds_optionalUntil hexpression rest) fun condition rest hcondition => ?_
  refine keeps_bind keeps_close fun _ rest _ => ?_
  refine keeps_bind (builds_optionalUntil hexpression rest) fun increment rest hincrement => ?_
  refine keeps_bind keeps_close fun _ rest _ => ?_
  refine keeps_bind (hstatement rest) fun body rest hbody => ?_
  exact keeps_pure (.for hgiven hkind hinit hcondition hincrement hbody)

theorem builds_statementOver (hexpression : Builds given (ExprBuilt given n .whole) expression)
    (hstatement : BuildsStatement given n statement) :
    BuildsStatement given (n + 1) (statementOver expression statement) := by
  intro tokens
  apply keeps_choose
  · intro token rest rule _ htoken hrule
    split at hrule
    next hkind =>
      exact Option.some.inj hrule ▸ builds_forStatement htoken hkind hexpression hstatement rest
    next => exact Option.some.inj hrule ▸ builds_ifStatement hexpression hstatement rest
    next => exact Option.some.inj hrule ▸ builds_printStatement hexpression rest
    next => exact Option.some.inj hrule ▸ builds_whileStatement hexpression hstatement rest
    next => exact Option.some.inj hrule ▸ builds_blockStatement hexpression hstatement rest
    next => simp at hrule
  · intro _
    refine (keeps_expressionStatement hexpression tokens).imp ?_
    rintro _ _ ⟨e, rfl, he⟩
    exact .expression he

end Statements

theorem builds_statement (n : Nat) : BuildsStatement given n (statement n) := by
  induction n with
  | zero =>
    intro tokens
    rw [statement]
    exact keeps_fail
  | succ n ih =>
    rw [statement]
    exact builds_statementOver (builds_expression n) ih

theorem builds_program :
    Builds given (fun slots => ∀ s, some s ∈ slots → StmtBuilt given maxNesting .declaration s) program :=
  builds_declarations (builds_expression maxNesting) (builds_statement maxNesting)

end Rule

/-! ### Programs -/

theorem keeps_parse (tokens : List Token) :
    (Rule.program (beforeEnd tokens)).Keeps (· ∈ tokens)
      fun slots _ => ∀ s, some s ∈ slots → StmtBuilt (· ∈ tokens) Rule.maxNesting .declaration s :=
  Rule.builds_program _ fun _ ht => mem_of_mem_beforeEnd ht

/-- Every statement of a program is built from its tokens, with errors around it or not. -/
theorem built_of_parse {tokens : List Token} {s : Stmt} (hs : some s ∈ (parse tokens).slots) :
    StmtBuilt (· ∈ tokens) Rule.maxNesting .declaration s := by
  obtain ⟨slots, findings, rest, h⟩ := Rule.total_program (beforeEnd tokens)
  have hkeeps := keeps_parse tokens
  rw [h] at hkeeps
  rw [parse_eq_of_program h] at hs
  exact hkeeps.answer slots rfl s hs

/-- Every error is blamed on a token of the program, or on the end that is supplied for it. -/
theorem token_of_mem_errors {tokens : List Token} {e : ParseError} (he : e ∈ (parse tokens).errors) :
    e.token ∈ tokens ∨ e.token = endToken tokens := by
  rw [parse] at he
  obtain ⟨f, hf, rfl⟩ := List.mem_map.1 he
  rcases h : f.token with _ | t
  · exact .inr rfl
  · exact .inl ((keeps_parse tokens).findings f hf t h)

end Lox
