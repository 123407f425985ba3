import Lox.Proofs.RoundTrip
import Lox.Proofs.Unique
import Lox.Token.Scan
/-!
# For loops are while loops

A for loop parses into the very trees of the while loop that one would write in its place: the initializer before the
loop in a block around both, the increment behind the body in a block with it, and `true` for a condition that is not
there. Any of the three clauses may be left out, and each leaves out only its own part of the while loop.

The while loop opens at least as many levels of nesting around each clause, so where it can be read, the for loop can
be. That it can be read says how much nesting is left to the clauses, which is found by taking its form apart.
-/

namespace Lox

/-! ### Outlines of tokens -/

/-- A stretch of tokens, as far as it is known: some token of a kind, on any line or on a given one, or these very
tokens. -/
inductive Stretch where
  | symbol (kind : TokenKind)
  | symbolOn (kind : TokenKind) (line : Nat)
  | exactly (tokens : List Token)

namespace Stretch

def Fits : Stretch → List Token → Prop
  | symbol kind, ts => ts.map (·.kind) = [kind]
  | symbolOn kind line, ts => ts.map (fun t => (t.kind, t.line)) = [(kind, line)]
  | exactly tokens, ts => ts = tokens

instance Fits.decidable : (stretch : Stretch) → (ts : List Token) → Decidable (stretch.Fits ts)
  | symbol kind, ts => inferInstanceAs (Decidable (ts.map (·.kind) = [kind]))
  | symbolOn kind line, ts => inferInstanceAs (Decidable (ts.map (fun t => (t.kind, t.line)) = [(kind, line)]))
  | exactly tokens, ts => inferInstanceAs (Decidable (ts = tokens))

def length : Stretch → Nat
  | symbol _ => 1
  | symbolOn _ _ => 1
  | exactly tokens => tokens.length

theorem Fits.length_eq {stretch : Stretch} {ts : List Token} (h : stretch.Fits ts) : ts.length = stretch.length := by
  cases stretch with
  | symbol kind => simpa [length] using congrArg List.length h
  | symbolOn kind line => simpa [length] using congrArg List.length h
  | exactly tokens => exact congrArg List.length h

theorem fits_symbolOn {kind : TokenKind} {line : Nat} {ts : List Token} :
    (symbolOn kind line).Fits ts ↔ ∃ t, ts = [t] ∧ t.kind = kind ∧ t.line = line := by
  simp [Fits, List.map_eq_singleton_iff]

end Stretch

/-- The tokens are stretches that fit, one after the other. -/
def LaidOut : List Stretch → List Token → Prop
  | [], ts => ts = []
  | stretch :: outline, ts => ∃ us vs, ts = us ++ vs ∧ stretch.Fits us ∧ LaidOut outline vs

section Outlines

variable {stretch : Stretch} {outline more : List Stretch} {ts : List Token}

/-- How long a stretch is settles where it ends. -/
theorem laidOut_cons : LaidOut (stretch :: outline) ts
    ↔ stretch.Fits (ts.take stretch.length) ∧ LaidOut outline (ts.drop stretch.length) := by
  constructor
  · rintro ⟨us, vs, rfl, hus, hvs⟩
    simpa [← hus.length_eq] using ⟨hus, hvs⟩
  · rintro ⟨hus, hvs⟩
    exact ⟨_, _, (List.take_append_drop _ ts).symm, hus, hvs⟩

instance LaidOut.decidable : (outline : List Stretch) → (ts : List Token) → Decidable (LaidOut outline ts)
  | [], ts => inferInstanceAs (Decidable (ts = []))
  | stretch :: outline, ts =>
    have := decidable outline (ts.drop stretch.length)
    decidable_of_iff _ laidOut_cons.symm

theorem laidOut_symbol {kind : TokenKind} : LaidOut (.symbol kind :: outline) ts
    ↔ ∃ t us, t.kind = kind ∧ ts = t :: us ∧ LaidOut outline us := by
  simp only [LaidOut, Stretch.Fits, List.map_eq_singleton_iff]
  constructor
  · rintro ⟨_, us, rfl, ⟨t, rfl, hkind⟩, hus⟩
    exact ⟨t, us, hkind, rfl, hus⟩
  · rintro ⟨t, us, hkind, rfl, hus⟩
    exact ⟨[t], us, rfl, ⟨t, rfl, hkind⟩, hus⟩

theorem laidOut_exactly {tokens : List Token} : LaidOut (.exactly tokens :: outline) ts
    ↔ ∃ us, ts = tokens ++ us ∧ LaidOut outline us := by
  simp only [LaidOut, Stretch.Fits]
  constructor
  · rintro ⟨_, us, rfl, rfl, hus⟩
    exact ⟨us, rfl, hus⟩
  · rintro ⟨us, rfl, hus⟩
    exact ⟨tokens, us, rfl, rfl, hus⟩

theorem laidOut_append : LaidOut (outline ++ more) ts
    ↔ ∃ us vs, ts = us ++ vs ∧ LaidOut outline us ∧ LaidOut more vs := by
  induction outline generalizing ts with
  | nil => simp [LaidOut]
  | cons stretch outline ih =>
    simp only [List.cons_append, LaidOut, ih]
    constructor
    · rintro ⟨us, _, rfl, hfits, vs, ws, rfl, hvs, hws⟩
      exact ⟨us ++ vs, ws, by simp, ⟨us, vs, rfl, hfits, hvs⟩, hws⟩
    · rintro ⟨_, ws, rfl, ⟨us, vs, rfl, hfits, hvs⟩, hws⟩
      exact ⟨us, vs ++ ws, by simp, hfits, vs, ws, rfl, hvs, hws⟩

end Outlines

/-! ### The clauses of a for loop -/

/-- Tokens with a tree that they are a way of writing, at some nesting. -/
structure Passage {α : Type} (form : Nat → List Token → α → Prop) where
  tokens : List Token
  tree : α
  nesting : Nat
  fits : form nesting tokens tree

/-- A passage that may be left out can be read with as much nesting as it was made with, and with more. -/
theorem Passage.fits_of_mem {α : Type} {form : Nat → List Token → α → Prop} {n : Nat}
    (clause : Option (Passage form)) (hmono : ∀ {n m ts a}, form n ts a → n ≤ m → form m ts a)
    (hle : clause.elim 0 (·.nesting) ≤ n) : ∀ p ∈ clause, form n p.tokens p.tree := by
  rintro p ⟨⟩
  exact hmono p.fits hle

/-- The clauses of a for loop and its body: first a variable declaration or an expression statement with its semicolon,
then two expressions, all of which may be left out, and a statement. -/
structure ForClauses where
  init : Option (Passage fun n ts s => InitForm n ts (some s))
  condition : Option (Passage fun n => ExprForm n .whole)
  increment : Option (Passage fun n => ExprForm n .whole)
  body : Passage fun n => StmtForm n (.statement false)

namespace ForClauses

def initStretch (c : ForClauses) : Stretch :=
  c.init.elim (.symbol .semicolon) (.exactly ·.tokens)

/-- The for loop, with its keyword on the given line: `for ( init condition ; increment ) body`. -/
def forOutline (c : ForClauses) (line : Nat) : List Stretch :=
  [.symbolOn .kwFor line, .symbol .leftParen, c.initStretch, .exactly (c.condition.elim [] (·.tokens)),
    .symbol .semicolon, .exactly (c.increment.elim [] (·.tokens)), .symbol .rightParen, .exactly c.body.tokens]

/-- The body, or `{ body increment ; }`. -/
def bodyOutline (c : ForClauses) : List Stretch :=
  match c.increment with
  | none => [.exactly c.body.tokens]
  | some e => [.symbol .leftBrace, .exactly c.body.tokens, .exactly e.tokens, .symbol .semicolon, .symbol .rightBrace]

def conditionStretch (c : ForClauses) (line : Nat) : Stretch :=
  c.condition.elim (.symbolOn .kwTrue line) (.exactly ·.tokens)

/-- The loop without its initializer: `while ( condition )` and what is repeated. -/
def loopOutline (c : ForClauses) (line : Nat) : List Stretch :=
  .symbol .kwWhile :: .symbol .leftParen :: c.conditionStretch line :: .symbol .rightParen :: c.bodyOutline

/-- The while loop that does the same: the loop alone, or `{ init loop }`. -/
def whileOutline (c : ForClauses) (line : Nat) : List Stretch :=
  match c.init with
  | none => c.loopOutline line
  | some s => .symbol .leftBrace :: .exactly s.tokens :: (c.loopOutline line ++ [.symbol .rightBrace])

def bodyTree (c : ForClauses) : Stmt :=
  c.increment.elim c.body.tree fun e => .block [some c.body.tree, some (.expression e.tree)]

def conditionTree (c : ForClauses) (line : Nat) : Expr :=
  c.condition.elim (.literal (.bool true) line) (·.tree)

def loopTree (c : ForClauses) (line : Nat) : Stmt :=
  .loop (c.conditionTree line) c.bodyTree

def tree (c : ForClauses) (line : Nat) : Stmt :=
  c.init.elim (c.loopTree line) fun s => .block [some s.tree, some (c.loopTree line)]

/-- What the loop itself consists of can be read with that much nesting. -/
structure LoopWithin (c : ForClauses) (n : Nat) : Prop where
  condition : ∀ p ∈ c.condition, ExprForm n .whole p.tokens p.tree
  increment : ∀ p ∈ c.increment, ExprForm n .whole p.tokens p.tree
  body : StmtForm n (.statement false) c.body.tokens c.body.tree

/-- All clauses and the body can be read with that much nesting. -/
structure Within (c : ForClauses) (n : Nat) : Prop extends c.LoopWithin n where
  init : ∀ p ∈ c.init, InitForm n p.tokens (some p.tree)

theorem exists_within (c : ForClauses) : ∃ n, c.Within n := by
  let n := max (c.init.elim 0 (·.nesting)) (max (c.condition.elim 0 (·.nesting))
    (max (c.increment.elim 0 (·.nesting)) c.body.nesting))
  exact ⟨n,
    { init := Passage.fits_of_mem c.init InitForm.mono (by omega)
      condition := Passage.fits_of_mem c.condition ExprForm.mono (by omega)
      increment := Passage.fits_of_mem c.increment ExprForm.mono (by omega)
      body := c.body.fits.mono (by omega) }⟩

theorem tree_eq_forLoop (c : ForClauses) (line : Nat) : c.tree line = Rule.forLoop line (c.init.map (·.tree))
    (c.condition.map (·.tree)) (c.increment.map (·.tree)) c.body.tree := by
  obtain ⟨_ | _, _ | _, _ | _, _⟩ := c <;> rfl

/-! ### The clauses make both loops -/

section Forms

variable {c : ForClauses} {n line : Nat} {ts : List Token}

theorem optionForm {clause : Option (Passage fun n => ExprForm n .whole)}
    (h : ∀ p ∈ clause, ExprForm n .whole p.tokens p.tree) :
    OptionForm n (clause.elim [] (·.tokens)) (clause.map (·.tree)) := by
  cases clause with
  | none => exact .absent
  | some p => exact .present (h p rfl)

theorem Within.initForm (h : c.Within n) (hts : c.initStretch.Fits ts) :
    InitForm n ts (c.init.map (·.tree)) := by
  rw [initStretch] at hts
  cases hinit : c.init with
  | none =>
    rw [hinit] at hts
    obtain ⟨semicolon, rfl, hsemicolon⟩ := List.map_eq_singleton_iff.1 hts
    exact .absent hsemicolon
  | some p =>
    rw [hinit] at hts
    obtain rfl : ts = p.tokens := hts
    exact h.init p hinit

theorem Within.for_form (h : c.Within n) (hts : LaidOut (c.forOutline line) ts) :
    StmtForm (n + 1) (.statement false) ts (c.tree line) := by
  obtain ⟨_, _, rfl, hfirst, h₁⟩ := hts
  obtain ⟨keyword, rfl, hkeyword, rfl⟩ := Stretch.fits_symbolOn.1 hfirst
  obtain ⟨left, _, hleft, rfl, h₂⟩ := laidOut_symbol.1 h₁
  obtain ⟨is, _, rfl, his, h₃⟩ := h₂
  obtain ⟨_, rfl, h₄⟩ := laidOut_exactly.1 h₃
  obtain ⟨semicolon, _, hsemicolon, rfl, h₅⟩ := laidOut_symbol.1 h₄
  obtain ⟨_, rfl, h₆⟩ := laidOut_exactly.1 h₅
  obtain ⟨right, _, hright, rfl, h₇⟩ := laidOut_symbol.1 h₆
  obtain ⟨_, rfl, rfl⟩ := laidOut_exactly.1 h₇
  have hform := StmtForm.for hkeyword hleft (h.initForm his) (optionForm h.condition) hsemicolon
    (optionForm h.increment) hright h.body
  rw [← tree_eq_forLoop] at hform
  simpa using hform

theorem LoopWithin.condition_form (h : c.LoopWithin n) (hts : (c.conditionStretch line).Fits ts) :
    ExprForm (n + 1) .whole ts (c.conditionTree line) := by
  rw [conditionStretch] at hts
  rw [conditionTree]
  cases hcondition : c.condition with
  | none =>
    rw [hcondition] at hts
    obtain ⟨t, rfl, hkind, rfl⟩ := Stretch.fits_symbolOn.1 hts
    have hconstant : t.constant? = some (.bool true) := by rw [Token.constant?, hkind]
    exact .plain (@ExprForm.of_drop n [t] _ 0 Level.all.length (.literal hconstant))
  | some p =>
    rw [hcondition] at hts
    obtain rfl : ts = p.tokens := hts
    exact (h.condition p hcondition).mono (Nat.le_succ n)

def bodyParts (c : ForClauses) (e : Passage fun n => ExprForm n .whole) (semicolon : Token) :
    List (List Token × Stmt) :=
  [(c.body.tokens, c.body.tree), (e.tokens ++ [semicolon], .expression e.tree)]

theorem LoopWithin.bodyParts_form (h : c.LoopWithin n) {e : Passage fun n => ExprForm n .whole}
    (he : c.increment = some e) {semicolon : Token} (hsemicolon : semicolon.kind = .semicolon) :
    PartsForm (n + 1) (c.bodyParts e semicolon) := by
  have hbody : StmtForm (n + 1) .declaration c.body.tokens c.body.tree := .statement (h.body.mono (Nat.le_succ n))
  have hincrement : StmtForm (n + 1) .declaration (e.tokens ++ [semicolon]) (.expression e.tree) :=
    .statement (.expression (h.increment e he) hsemicolon)
  exact PartsForm.pair.2 ⟨hbody, hincrement⟩

/-- What is repeated, as tokens: the body alone, or a block of it and the increment. -/
theorem bodyOutline_cases (hts : LaidOut c.bodyOutline ts) :
    (c.increment = none ∧ ts = c.body.tokens) ∨ ∃ e left semicolon right, c.increment = some e
      ∧ left.kind = .leftBrace ∧ semicolon.kind = .semicolon ∧ right.kind = .rightBrace
      ∧ ts = left :: (c.bodyParts e semicolon).flatMap (·.1) ++ [right] := by
  rw [bodyOutline] at hts
  cases hincrement : c.increment with
  | none =>
    rw [hincrement] at hts
    obtain ⟨_, rfl, rfl⟩ := laidOut_exactly.1 hts
    exact .inl ⟨rfl, List.append_nil _⟩
  | some e =>
    rw [hincrement] at hts
    obtain ⟨left, _, hleft, rfl, h₁⟩ := laidOut_symbol.1 hts
    obtain ⟨_, rfl, h₂⟩ := laidOut_exactly.1 h₁
    obtain ⟨_, rfl, h₃⟩ := laidOut_exactly.1 h₂
    obtain ⟨semicolon, _, hsemicolon, rfl, h₄⟩ := laidOut_symbol.1 h₃
    obtain ⟨right, _, hright, rfl, rfl⟩ := laidOut_symbol.1 h₄
    exact .inr ⟨e, left, semicolon, right, rfl, hleft, hsemicolon, hright, by simp [bodyParts]⟩

theorem LoopWithin.body_form (h : c.LoopWithin n) (hts : LaidOut c.bodyOutline ts) :
    StmtForm (n + 2) (.statement false) ts c.bodyTree := by
  obtain ⟨hincrement, rfl⟩ | ⟨e, left, semicolon, right, hincrement, hleft, hsemicolon, hright, rfl⟩ :=
    bodyOutline_cases hts
  · rw [bodyTree, hincrement]
    exact h.body.mono (Nat.le_add_right n 2)
  · rw [bodyTree, hincrement]
    exact .block hleft (h.bodyParts_form hincrement hsemicolon) hright

/-- The loop, as tokens. -/
theorem exists_of_loopOutline (hts : LaidOut (c.loopOutline line) ts) : ∃ keyword left cs right us,
    keyword.kind = .kwWhile ∧ left.kind = .leftParen ∧ (c.conditionStretch line).Fits cs ∧ right.kind = .rightParen
      ∧ LaidOut c.bodyOutline us ∧ ts = keyword :: left :: cs ++ right :: us := by
  obtain ⟨keyword, _, hkeyword, rfl, h₁⟩ := laidOut_symbol.1 hts
  obtain ⟨left, _, hleft, rfl, h₂⟩ := laidOut_symbol.1 h₁
  obtain ⟨cs, _, rfl, hcs, h₃⟩ := h₂
  obtain ⟨right, us, hright, rfl, hus⟩ := laidOut_symbol.1 h₃
  exact ⟨keyword, left, cs, right, us, hkeyword, hleft, hcs, hright, hus, rfl⟩

theorem LoopWithin.loop_form (h : c.LoopWithin n) (hts : LaidOut (c.loopOutline line) ts) :
    StmtForm (n + 3) (.statement false) ts (c.loopTree line) := by
  obtain ⟨keyword, left, cs, right, us, hkeyword, hleft, hcs, hright, hus, rfl⟩ := exists_of_loopOutline hts
  exact .while hkeyword hleft ((h.condition_form hcs).mono (by omega)) hright (h.body_form hus)

def loopParts (c : ForClauses) (line : Nat) (s : Passage fun n ts s => InitForm n ts (some s)) (ts : List Token) :
    List (List Token × Stmt) :=
  [(s.tokens, s.tree), (ts, c.loopTree line)]

theorem Within.loopParts_form (h : c.Within n) {s : Passage fun n ts s => InitForm n ts (some s)}
    (hs : c.init = some s) (hts : LaidOut (c.loopOutline line) ts) : PartsForm (n + 3) (c.loopParts line s ts) := by
  have hinit : StmtForm (n + 3) .declaration s.tokens s.tree := (h.init s hs).declaration.mono (by omega)
  have hloop : StmtForm (n + 3) .declaration ts (c.loopTree line) := .statement (h.loop_form hts)
  exact PartsForm.pair.2 ⟨hinit, hloop⟩

/-- The while loop, as tokens: the loop alone, or a block of the initializer and the loop. -/
theorem whileOutline_cases (hts : LaidOut (c.whileOutline line) ts) :
    (c.init = none ∧ LaidOut (c.loopOutline line) ts) ∨ ∃ s left us right, c.init = some s
      ∧ left.kind = .leftBrace ∧ LaidOut (c.loopOutline line) us ∧ right.kind = .rightBrace
      ∧ ts = left :: (c.loopParts line s us).flatMap (·.1) ++ [right] := by
  rw [whileOutline] at hts
  cases hinit : c.init with
  | none =>
    rw [hinit] at hts
    exact .inl ⟨rfl, hts⟩
  | some s =>
    rw [hinit] at hts
    obtain ⟨left, _, hleft, rfl, h₁⟩ := laidOut_symbol.1 hts
    obtain ⟨_, rfl, h₂⟩ := laidOut_exactly.1 h₁
    obtain ⟨us, _, rfl, hus, h₃⟩ := laidOut_append.1 h₂
    obtain ⟨right, _, hright, rfl, rfl⟩ := laidOut_symbol.1 h₃
    exact .inr ⟨s, left, us, right, rfl, hleft, hus, hright, by simp [loopParts]⟩

theorem Within.while_form (h : c.Within n) (hts : LaidOut (c.whileOutline line) ts) :
    StmtForm (n + 4) (.statement false) ts (c.tree line) := by
  obtain ⟨hinit, hts⟩ | ⟨s, left, us, right, hinit, hleft, hus, hright, rfl⟩ := whileOutline_cases hts
  · rw [tree, hinit]
    exact (h.loop_form hts).mono (by omega)
  · rw [tree, hinit]
    exact .block hleft (h.loopParts_form hinit hus) hright

end Forms

/-! ### The nesting that is left to the clauses -/

section Nesting

variable {c : ForClauses} {n line : Nat} {ts : List Token} {s : Stmt}

theorem LoopWithin.mono {m : Nat} (h : c.LoopWithin n) (hle : n ≤ m) : c.LoopWithin m where
  condition p hp := (h.condition p hp).mono hle
  increment p hp := (h.increment p hp).mono hle
  body := h.body.mono hle

/-- Where the body can be read together with the increment, both can be. -/
theorem body_of_form (h : StmtForm n (.statement false) ts s) (hts : LaidOut c.bodyOutline ts) :
    StmtForm n (.statement false) c.body.tokens c.body.tree
      ∧ ∀ p ∈ c.increment, ExprForm n .whole p.tokens p.tree := by
  -- The forms at the nesting of the passages say where the parts end; the form at hand then has the same parts.
  obtain ⟨k, hknown⟩ := c.exists_within
  obtain ⟨hincrement, rfl⟩ | ⟨e, left, semicolon, right, hincrement, hleft, hsemicolon, hright, rfl⟩ :=
    bodyOutline_cases hts
  · obtain ⟨-, rfl, -⟩ := (StmtForm.statement h).unique (.statement hknown.body) (by simp) (by simp)
      (rfl : c.body.tokens ++ [] = c.body.tokens ++ [])
    exact ⟨h, by simp [hincrement]⟩
  · obtain ⟨m, rfl, hparts⟩ := h.parts_of_block hleft hright (hknown.bodyParts_form hincrement hsemicolon)
    obtain ⟨hbody, hexpression⟩ := PartsForm.pair.1 hparts
    have hstatement : StmtForm (k + 1) (.statement false) (e.tokens ++ [semicolon]) (.expression e.tree) :=
      .expression (hknown.increment e hincrement) hsemicolon
    obtain ⟨m, rfl, he⟩ :=
      (hexpression.of_declaration hstatement).expression_of_statement hsemicolon (hknown.increment e hincrement)
    refine ⟨(hbody.of_declaration hknown.body).mono (Nat.le_succ _), ?_⟩
    rw [hincrement]
    rintro _ ⟨⟩
    exact he.mono (by omega)

theorem loop_of_form (h : StmtForm n (.statement false) ts s) (hts : LaidOut (c.loopOutline line) ts) :
    ∃ m, n = m + 1 ∧ c.LoopWithin m := by
  obtain ⟨k, hknown⟩ := c.exists_within
  obtain ⟨keyword, left, cs, right, us, hkeyword, -, hcs, hright, hus, rfl⟩ := exists_of_loopOutline hts
  obtain ⟨m, body, rfl, hcondition, hbody⟩ := h.parts_of_while hkeyword hright (hknown.condition_form hcs)
  obtain ⟨hbody, hincrement⟩ := body_of_form hbody hus
  refine ⟨m, rfl, ?_, hincrement, hbody⟩
  intro p hp
  rw [conditionStretch, Option.mem_def.1 hp] at hcs
  obtain rfl : cs = p.tokens := hcs
  rwa [conditionTree, Option.mem_def.1 hp] at hcondition

/-- Where the while loop can be read, its clauses can be with one level of nesting less, which is what the for loop
leaves to them. -/
theorem while_of_form (h : StmtForm n (.statement false) ts s) (hts : LaidOut (c.whileOutline line) ts) :
    ∃ m, n = m + 1 ∧ c.Within m := by
  obtain ⟨k, hknown⟩ := c.exists_within
  obtain ⟨hinit, hts⟩ | ⟨i, left, us, right, hinit, hleft, hus, hright, rfl⟩ := whileOutline_cases hts
  · obtain ⟨m, rfl, hloop⟩ := loop_of_form h hts
    exact ⟨m, rfl, hloop, by simp [hinit]⟩
  · obtain ⟨m, rfl, hparts⟩ := h.parts_of_block hleft hright (hknown.loopParts_form hinit hus)
    obtain ⟨hfirst, hrest⟩ := PartsForm.pair.1 hparts
    obtain ⟨m, rfl, hloop⟩ := loop_of_form (hrest.of_declaration (hknown.loop_form hus)) hus
    refine ⟨m + 1, rfl, hloop.mono (Nat.le_succ m), ?_⟩
    rw [hinit]
    rintro _ ⟨⟩
    exact InitForm.of_declaration hfirst (hknown.init i hinit)

end Nesting

end ForClauses

/-- A program of one statement. -/
theorem ProgramForm.of_statement {ts : List Token} {s : Stmt} (h : StmtForm Rule.maxNesting (.statement false) ts s) :
    ProgramForm ts [some s] :=
  ⟨[(ts, s)], by simp, by simp, by simpa using h.statement⟩

/-- A program that is known to be one statement, at some nesting, is this one. -/
theorem ProgramForm.eq_of_statement {k : Nat} {ts : List Token} {slots : List Slot} {s : Stmt}
    (h : ProgramForm ts slots) (hknown : StmtForm k (.statement false) ts s) :
    slots = [some s] ∧ StmtForm Rule.maxNesting (.statement false) ts s := by
  obtain ⟨parts, hts, rfl, hparts⟩ := h
  have hsingle : PartsForm k [(ts, s)] := by simpa [PartsForm] using hknown.statement
  have htokens : parts.flatMap (·.1) ++ [] = [(ts, s)].flatMap (·.1) ++ [] := by simp [hts]
  obtain rfl := PartsForm.unique hparts hsingle (by simp) (by simp) htokens
  exact ⟨rfl, (hparts (ts, s) List.mem_cons_self).of_declaration hknown⟩

/-- A for loop is the while loop that one would write in its place, whichever clauses it has: where the while loop is
read without errors, the for loop is too, and both are the same tree, down to the lines of its tokens. -/
theorem parse_for_eq_parse_while (c : ForClauses) (line : Nat) (source target : List Token)
    (hsource : LaidOut (c.whileOutline line) (beforeEnd source))
    (htarget : LaidOut (c.forOutline line) (beforeEnd target)) (hclean : (parse source).errors = []) :
    parse target = parse source ∧ parse target = ⟨[some (c.tree line)], []⟩ := by
  obtain ⟨k, hknown⟩ := c.exists_within
  obtain ⟨hslots, hform⟩ := (errors_eq_nil_iff.1 hclean).eq_of_statement (hknown.while_form hsource)
  obtain ⟨m, hm, hwithin⟩ := ForClauses.while_of_form hform hsource
  have hfor : StmtForm Rule.maxNesting (.statement false) (beforeEnd target) (c.tree line) :=
    hm ▸ hwithin.for_form htarget
  have hparse : parse target = ⟨[some (c.tree line)], []⟩ := parse_eq_iff.2 (.of_statement hfor)
  have hwhile : parse source = ⟨[some (c.tree line)], []⟩ := parse_eq_iff.2 (.of_statement hform)
  exact ⟨hparse.trans hwhile.symm, hparse⟩

namespace ForClauses

/-- The clauses of `for (var i; i; i = i) if (i) print i;` on the first line. -/
def sample : ForClauses :=
  let i : Token := ⟨.identifier, "i", none, 1⟩
  let equals : Token := ⟨.equal, "=", none, 1⟩
  let semicolon : Token := ⟨.semicolon, ";", none, 1⟩
  have hi : ExprForm 1 .whole [i] (.var i) := .plain (@ExprForm.of_drop 0 [i] _ 0 Level.all.length (.var rfl))
  { init := some ⟨[⟨.kwVar, "var", none, 1⟩, i, semicolon], .declare i none, 0, .declared rfl (.bare rfl rfl)⟩
    condition := some ⟨[i], .var i, 1, hi⟩
    increment := some ⟨[i, equals, i], .assign i (.var i), 2, .assign rfl rfl hi⟩
    body :=
      { tokens := [⟨.kwIf, "if", none, 1⟩, ⟨.leftParen, "(", none, 1⟩, i, ⟨.rightParen, ")", none, 1⟩,
          ⟨.kwPrint, "print", none, 1⟩, i, semicolon]
        tree := .branch (.var i) (.print (.var i)) none
        nesting := 3
        fits := .ifThen rfl rfl (hi.mono (by decide)) rfl (.print rfl hi rfl) } }

end ForClauses

/-- Around a conditional that is open to an `else`, with all clauses and with the increment alone. -/
theorem parse_for_eq_parse_while_sample :
    let c := ForClauses.sample
    let source := (scan "\x7b var i; while (i) \x7b if (i) print i; i = i; \x7d \x7d").tokens
    let target := (scan "for (var i; i; i = i) if (i) print i;").tokens
    let endless : ForClauses := ⟨none, none, c.increment, c.body⟩
    let source' := (scan "while (true) \x7b if (i) print i; i = i; \x7d").tokens
    let target' := (scan "for (;; i = i) if (i) print i;").tokens
    ((parse source).errors = [] ∧ parse target = parse source ∧ parse target = ⟨[some (c.tree 1)], []⟩)
      ∧ (parse source').errors = [] ∧ parse target' = parse source'
      ∧ parse target' = ⟨[some (endless.tree 1)], []⟩ := by
  intro c source target endless source' target'
  have hclean : (parse source).errors = [] := by decide +kernel
  have hclean' : (parse source').errors = [] := by decide +kernel
  refine ⟨⟨hclean, ?_⟩, hclean', ?_⟩
  · exact parse_for_eq_parse_while c 1 source target (by decide +kernel) (by decide +kernel) hclean
  · exact parse_for_eq_parse_while endless 1 source' target' (by decide +kernel) (by decide +kernel) hclean'

end Lox
