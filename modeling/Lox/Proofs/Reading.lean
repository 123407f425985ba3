import Lox.Grammar.Statement
/-!
# Clean readings

A rule reads a stretch of tokens cleanly when it answers with a value and notes no fault on the way.
This module says, for every way of building rules, what the clean readings of the built rule are in
terms of those of its parts. The proofs about the grammar reach the rules only through these
equivalences, so how a reply is put together stays in here.
-/

namespace Lox

def nextKind (tokens : List Token) : Option TokenKind :=
  tokens.head?.map (·.kind)

@[simp] theorem nextKind_nil : nextKind [] = none :=
  rfl

@[simp] theorem nextKind_cons (token : Token) (rest : List Token) :
    nextKind (token :: rest) = some token.kind :=
  rfl

theorem forall_nextKind {holds : TokenKind → Prop} {tokens : List Token} :
    (∀ kind, nextKind tokens = some kind → holds kind) ↔ ∀ token mid, tokens = token :: mid → holds token.kind := by
  cases tokens <;> simp

namespace Rule

variable {α β : Type}

/-- The rule answers `a` without noting a fault, and leaves `rest`. -/
def Reads (rule : Rule α) (tokens : List Token) (a : α) (rest : List Token) : Prop :=
  rule tokens = ⟨.ok a, [], rest⟩

/-! ### Sequences -/

@[simp] theorem reads_pure {a b : α} {tokens rest : List Token} :
    Reads (pure a) tokens b rest ↔ b = a ∧ rest = tokens := by
  change (⟨.ok a, [], tokens⟩ : Reply α) = _ ↔ _
  simp [eq_comm]

@[simp] theorem reads_bind {rule : Rule α} {next : α → Rule β} {tokens rest : List Token} {b : β} :
    Reads (rule >>= next) tokens b rest
      ↔ ∃ a mid, rule.Reads tokens a mid ∧ (next a).Reads mid b rest := by
  constructor
  · intro h
    rcases hrule : rule tokens with ⟨fault | a, findings, mid⟩
    · rw [Reads, bind_of_error hrule] at h
      simp at h
    · rw [Reads, bind_of_ok hrule, Reply.mk.injEq, List.append_eq_nil_iff] at h
      obtain ⟨hresult, ⟨rfl, hfindings⟩, hrest⟩ := h
      refine ⟨a, mid, hrule, ?_⟩
      rw [Reads, ← hresult, ← hfindings, ← hrest]
  · intro h
    obtain ⟨a, mid, hrule, hnext⟩ := h
    rw [Reads, bind_of_ok hrule, hnext]
    rfl

@[simp] theorem reads_map {f : α → β} {rule : Rule α} {tokens rest : List Token} {b : β} :
    Reads (f <$> rule) tokens b rest ↔ ∃ a, rule.Reads tokens a rest ∧ b = f a := by
  rw [map_eq_pure_bind]
  simp only [reads_bind, reads_pure]
  constructor
  · intro h
    obtain ⟨a, mid, hrule, rfl, rfl⟩ := h
    exact ⟨a, hrule, rfl⟩
  · intro h
    obtain ⟨a, hrule, rfl⟩ := h
    exact ⟨a, rest, hrule, rfl, rfl⟩

@[simp] theorem not_reads_fail {fault : ParseFault} {tokens rest : List Token} {a : α} :
    ¬ Reads (fail fault) tokens a rest := by
  simp [Reads, fail]

@[simp] theorem not_reads_note {fault : ParseFault} {token : Token} {tokens rest : List Token}
    {u : Unit} : ¬ Reads (note fault token) tokens u rest := by
  simp [Reads, note]

/-! ### Choices -/

theorem reads_choose {chosen : Token → Option (Rule α)} {otherwise : Rule α} {a : α} {tokens rest : List Token} :
    Reads (choose chosen otherwise) tokens a rest
      ↔ (∃ token mid rule, tokens = token :: mid ∧ chosen token = some rule ∧ rule.Reads mid a rest)
        ∨ ((∀ token mid, tokens = token :: mid → chosen token = none) ∧ otherwise.Reads tokens a rest) := by
  cases tokens with
  | nil => simp [Reads, choose]
  | cons token tokens =>
    cases hchosen : chosen token with
    | none => simp [Reads, choose, hchosen]
    | some rule =>
      rw [Reads, choose, hchosen]
      constructor
      · intro h
        exact .inl ⟨token, tokens, rule, rfl, hchosen, h⟩
      · intro h
        obtain ⟨_, _, _, hcons, hrule, h⟩ | ⟨hnone, -⟩ := h
        · obtain ⟨rfl, rfl⟩ := List.cons.inj hcons
          obtain rfl := Option.some.inj (hchosen.symm.trans hrule)
          exact h
        · simp [hnone token tokens rfl] at hchosen

/-- A choice by one kind of token: with a token of that kind the chosen rule goes on behind it. -/
theorem reads_choose_kind {kind : TokenKind} {rule : Token → Rule α} {otherwise : Rule α} {a : α}
    {tokens rest : List Token} :
    Reads (choose (fun token => if token.kind = kind then some (rule token) else none) otherwise) tokens a rest
      ↔ (∃ token mid, token.kind = kind ∧ tokens = token :: mid ∧ (rule token).Reads mid a rest)
        ∨ (nextKind tokens ≠ some kind ∧ otherwise.Reads tokens a rest) := by
  rw [reads_choose]
  refine or_congr ?_ (and_congr ?_ Iff.rfl)
  · constructor
    · intro h
      obtain ⟨token, mid, _, rfl, hrule, hread⟩ := h
      obtain ⟨hkind, hsome⟩ := Option.ite_none_right_eq_some.1 hrule
      obtain rfl := Option.some.inj hsome
      exact ⟨token, mid, hkind, rfl, hread⟩
    · intro h
      obtain ⟨token, mid, hkind, rfl, hread⟩ := h
      exact ⟨token, mid, rule token, rfl, if_pos hkind, hread⟩
  · cases tokens <;> simp

@[simp] theorem reads_accept? {kind : TokenKind} {tokens rest : List Token} {answer : Option Token} :
    Reads (accept? kind) tokens answer rest
      ↔ (answer = none ∧ rest = tokens ∧ nextKind tokens ≠ some kind)
        ∨ ∃ token, answer = some token ∧ token.kind = kind ∧ tokens = token :: rest := by
  rw [accept?, reads_choose_kind, or_comm]
  simp only [reads_pure]
  refine or_congr ?_ ?_
  · rw [and_comm, and_assoc]
  · constructor
    · intro h
      obtain ⟨token, mid, hkind, rfl, rfl, rfl⟩ := h
      exact ⟨token, rfl, hkind, rfl⟩
    · intro h
      obtain ⟨token, rfl, hkind, rfl⟩ := h
      exact ⟨token, rest, hkind, rfl, rfl, rfl⟩

@[simp] theorem reads_expect {kind : TokenKind} {fault : ParseFault} {tokens rest : List Token}
    {token : Token} :
    Reads (expect kind fault) tokens token rest ↔ token.kind = kind ∧ tokens = token :: rest := by
  rw [expect, reads_choose_kind]
  simp only [reads_pure, not_reads_fail, and_false, or_false]
  constructor
  · intro h
    obtain ⟨_, mid, hkind, rfl, rfl, rfl⟩ := h
    exact ⟨hkind, rfl⟩
  · intro h
    obtain ⟨hkind, rfl⟩ := h
    exact ⟨token, rest, hkind, rfl, rfl, rfl⟩

@[simp] theorem reads_close {symbol : TokenKind} {after : Clause} {tokens rest : List Token}
    {u : Unit} :
    Reads (close symbol after) tokens u rest ↔ ∃ token, token.kind = symbol ∧ tokens = token :: rest := by
  change Reads ((Function.const Token ()) <$> expect symbol (.missing symbol after)) tokens u rest ↔ _
  simp

@[simp] theorem reads_optionalAfter {kind : TokenKind} {item : Rule α} {tokens rest : List Token}
    {answer : Option α} :
    Reads (optionalAfter kind item) tokens answer rest
      ↔ (answer = none ∧ rest = tokens ∧ nextKind tokens ≠ some kind)
        ∨ ∃ token mid a, token.kind = kind ∧ tokens = token :: mid ∧ item.Reads mid a rest
          ∧ answer = some a := by
  rw [optionalAfter, reads_choose_kind, or_comm]
  simp only [reads_pure, reads_map]
  refine or_congr ?_ ?_
  · rw [and_comm, and_assoc]
  · constructor
    · intro h
      obtain ⟨token, mid, hkind, rfl, a, hitem, rfl⟩ := h
      exact ⟨token, mid, a, hkind, rfl, hitem, rfl⟩
    · intro h
      obtain ⟨token, mid, a, hkind, rfl, hitem, rfl⟩ := h
      exact ⟨token, mid, hkind, rfl, a, hitem, rfl⟩

@[simp] theorem reads_optionalUntil {kind : TokenKind} {item : Rule α} {tokens rest : List Token}
    {answer : Option α} :
    Reads (optionalUntil kind item) tokens answer rest
      ↔ (answer = none ∧ rest = tokens ∧ nextKind tokens = some kind)
        ∨ ∃ a, nextKind tokens ≠ some kind ∧ item.Reads tokens a rest ∧ answer = some a := by
  cases tokens with
  | nil =>
    change Reads (some <$> item) [] answer rest ↔ _
    simp
  | cons token tokens =>
    by_cases hkind : token.kind = kind
    · rw [Reads, optionalUntil, if_pos hkind]
      simp [hkind, eq_comm]
    · rw [Reads, optionalUntil, if_neg hkind]
      change Reads (some <$> item) (token :: tokens) answer rest ↔ _
      simp [hkind]

@[simp] theorem reads_unlessAt_nil {stops : Token → Bool} {item : Rule α} {answer : Option α}
    {rest : List Token} :
    Reads (unlessAt stops item) [] answer rest ↔ answer = none ∧ rest = [] := by
  simp [Reads, unlessAt, eq_comm]

@[simp] theorem reads_unlessAt_cons {stops : Token → Bool} {item : Rule α} {answer : Option α}
    {token : Token} {tokens rest : List Token} :
    Reads (unlessAt stops item) (token :: tokens) answer rest
      ↔ (stops token = true ∧ answer = none ∧ rest = token :: tokens)
        ∨ (stops token = false ∧ ∃ a, item.Reads (token :: tokens) a rest ∧ answer = some a) := by
  cases hstops : stops token with
  | false =>
    rw [Reads, unlessAt, hstops, if_neg Bool.false_ne_true]
    change Reads (some <$> item) (token :: tokens) answer rest ↔ _
    simp
  | true =>
    rw [Reads, unlessAt, hstops, if_pos rfl]
    simp [eq_comm]

/-- A rule that turns failures into holes reads cleanly only what does not fail. -/
@[simp] theorem reads_recovering {rule : Rule α} {tokens rest : List Token} {answer : Option α} :
    Reads (recovering rule) tokens answer rest ↔ ∃ a, rule.Reads tokens a rest ∧ answer = some a := by
  rw [Reads, recovering]
  split
  next a findings mid h =>
    simp only [Reads, h, Reply.mk.injEq, Except.ok.injEq]
    constructor
    · intro h
      obtain ⟨rfl, rfl, rfl⟩ := h
      exact ⟨a, ⟨rfl, rfl, rfl⟩, rfl⟩
    · intro h
      obtain ⟨_, ⟨rfl, rfl, rfl⟩, rfl⟩ := h
      exact ⟨rfl, rfl, rfl⟩
  next fault findings mid h =>
    simp [Reads, h]

/-! ### Repetitions

An item that always reads at least one token is repeated until it answers nothing, so the repetition
reads what a chain of its readings reads. -/

/-- The item answers the listed values one after the other, and then nothing. -/
inductive Repeats (item : Rule (Option α)) : List Token → List α → List Token → Prop where
  | stop {tokens rest : List Token} : item.Reads tokens none rest → Repeats item tokens [] rest
  | step {tokens mid rest : List Token} {a : α} {as : List α} :
      item.Reads tokens (some a) mid → Repeats item mid as rest → Repeats item tokens (a :: as) rest

/-- Every clean reading of an item leaves fewer tokens. -/
def Advances (item : Rule (Option α)) : Prop :=
  ∀ ⦃tokens a rest⦄, item.Reads tokens (some a) rest → rest.length < tokens.length

theorem reads_many_nil {item : Rule (Option α)} {tokens rest : List Token}
    (h : item.Reads tokens none rest) : Reads (many item) tokens [] rest := by
  rw [Reads, many, h]

theorem reads_many_cons {item : Rule (Option α)} {tokens mid rest : List Token} {a : α} {as : List α}
    (h : item.Reads tokens (some a) mid) (hlt : mid.length < tokens.length)
    (hrest : Reads (many item) mid as rest) : Reads (many item) tokens (a :: as) rest := by
  rw [Reads, many, h]
  simp only [hlt, if_true, List.nil_append]
  rw [hrest]
  rfl

/-- A clean reading of a repetition starts with a clean reading of the item. -/
theorem reads_many_cases {item : Rule (Option α)} {tokens rest : List Token} {as : List α}
    (hitem : item.Advances) (h : Reads (many item) tokens as rest) :
    (as = [] ∧ item.Reads tokens none rest)
      ∨ ∃ a as' mid, as = a :: as' ∧ item.Reads tokens (some a) mid ∧ Reads (many item) mid as' rest := by
  rw [Reads, many] at h
  split at h
  next => simp at h
  next findings mid hread =>
    obtain ⟨hresult, rfl, rfl⟩ := Reply.mk.inj h
    exact .inl ⟨(Except.ok.inj hresult).symm, hread⟩
  next a findings mid hread =>
    split at h
    next hlt =>
      obtain ⟨hresult, hfindings, hrest⟩ := Reply.mk.inj h
      obtain ⟨rfl, hmore⟩ := List.append_eq_nil_iff.1 hfindings
      rcases hmany : many item mid with ⟨fault | as', more, left⟩
      · rw [hmany] at hresult
        simp [Except.map] at hresult
      · rw [hmany] at hresult hmore hrest
        obtain rfl := Except.ok.inj hresult
        obtain rfl : more = [] := hmore
        obtain rfl : left = rest := hrest
        exact .inr ⟨a, as', mid, rfl, hread, hmany⟩
    next hnot =>
      obtain ⟨hresult, rfl, rfl⟩ := Reply.mk.inj h
      exact absurd (hitem hread) hnot

theorem reads_many {item : Rule (Option α)} (hitem : item.Advances) {tokens rest : List Token}
    {as : List α} : Reads (many item) tokens as rest ↔ Repeats item tokens as rest := by
  constructor
  · intro h
    induction as generalizing tokens with
    | nil =>
      obtain ⟨-, hstop⟩ | ⟨_, _, _, hcons, _⟩ := reads_many_cases hitem h
      · exact .stop hstop
      · simp at hcons
    | cons a as ih =>
      obtain ⟨hnil, -⟩ | ⟨_, _, mid, hcons, hread, hrest⟩ := reads_many_cases hitem h
      · simp at hnil
      · obtain ⟨rfl, rfl⟩ := List.cons.inj hcons
        exact .step hread (ih hrest)
  · intro h
    induction h with
    | stop h => exact reads_many_nil h
    | step h _ ih => exact reads_many_cons h (hitem h) ih

end Rule

end Lox
