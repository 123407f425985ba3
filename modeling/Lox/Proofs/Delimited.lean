import Mathlib.Data.List.TakeWhile
/-!
# Telling texts apart

Whether a text can be read back without doubt is asked of two writings at once: two things are told apart if, with
anything behind them, they are written alike only when they are the same and the same stands behind them. What may
stand behind decides where a writing ends. A stretch of characters of one sort ends before the first other character,
and the items of a list end before the next separator or the closing character.
-/

namespace Lox

variable {α : Type}

/-- Two things are told apart by how they are written, with texts behind them that are as `ends` says. -/
def ToldApart (ends : List Char → Prop) (write : α → List Char) (a b : α) : Prop :=
  ∀ r s, ends r → ends s → write a ++ r = write b ++ s → a = b ∧ r = s

/-- The text starts with a character that is as `stops` says. -/
def StartsWith (stops : Char → Prop) (text : List Char) : Prop :=
  ∃ c rest, text = c :: rest ∧ stops c

theorem startsWith_cons {stops : Char → Prop} {c : Char} {rest : List Char} (h : stops c) :
    StartsWith stops (c :: rest) :=
  ⟨c, rest, rfl, h⟩

/-- A stretch of characters of one sort goes as far as they go. -/
theorem eq_of_stretch {sort : Char → Bool} {t u r s : List Char} (ht : ∀ c ∈ t, sort c) (hu : ∀ c ∈ u, sort c)
    (hr : StartsWith (sort · = false) r) (hs : StartsWith (sort · = false) s) (heq : t ++ r = u ++ s) :
    t = u ∧ r = s := by
  have htake {text rest : List Char} (htext : ∀ c ∈ text, sort c) (hrest : StartsWith (sort · = false) rest) :
      (text ++ rest).takeWhile sort = text := by
    obtain ⟨c, tail, rfl, hc⟩ := hrest
    rw [List.takeWhile_append_of_pos htext, List.takeWhile_cons_of_neg (by simp [hc]), List.append_nil]
  obtain rfl : t = u := by rw [← htake ht hr, ← htake hu hs, heq]
  exact ⟨rfl, List.append_cancel_left heq⟩

/-- A stretch that is not empty starts with none of the other characters. -/
theorem stretch_append_ne {sort : Char → Bool} {text r s : List Char} {c : Char} (hne : text ≠ [])
    (htext : ∀ c ∈ text, sort c) (hc : sort c = false) : text ++ r ≠ c :: s := by
  obtain ⟨d, rest, rfl⟩ := List.exists_cons_of_ne_nil hne
  intro heq
  obtain rfl : d = c := (List.cons.inj heq).1
  simp [htext d List.mem_cons_self] at hc

theorem toDigits_injective : Function.Injective (Nat.toDigits 10) :=
  Function.LeftInverse.injective (g := (Nat.ofDigitChars 10 · 0)) fun _ => Nat.ofDigitChars_ten_toDigits

/-! ### Lists of items -/

/-- An item of a list ends before the separator or the closing character. -/
def EndsItem (separator closing : Char) : List Char → Prop :=
  StartsWith fun c => c = separator ∨ c = closing

variable {separator closing : Char} {write : α → List Char}

theorem endsItem_items (items : List α) (rest : List Char) :
    EndsItem separator closing (items.flatMap (separator :: write ·) ++ closing :: rest) := by
  cases items with
  | nil => exact startsWith_cons (.inr rfl)
  | cons a items => exact startsWith_cons (.inl rfl)

/-- Lists are told apart by their items, each behind a separator, if the items are. -/
theorem eq_of_items (hne : separator ≠ closing) {as bs : List α}
    (h : ∀ a ∈ as, ∀ b ∈ bs, ToldApart (EndsItem separator closing) write a b) {r s : List Char}
    (heq : as.flatMap (separator :: write ·) ++ closing :: r = bs.flatMap (separator :: write ·) ++ closing :: s) :
    as = bs ∧ r = s := by
  induction as generalizing bs with
  | nil =>
    cases bs with
    | nil => exact ⟨rfl, (List.cons.inj heq).2⟩
    | cons b bs => exact absurd (List.cons.inj heq).1.symm hne
  | cons a as ih =>
    cases bs with
    | nil => exact absurd (List.cons.inj heq).1 hne
    | cons b bs =>
      simp only [List.flatMap_cons, List.cons_append, List.append_assoc, List.cons.injEq, true_and] at heq
      obtain ⟨rfl, hrest⟩ := h a List.mem_cons_self b List.mem_cons_self _ _ (endsItem_items as r)
        (endsItem_items bs s) heq
      obtain ⟨rfl, hrs⟩ := ih (fun a ha b hb => h a (List.mem_cons_of_mem _ ha) b (List.mem_cons_of_mem _ hb)) hrest
      exact ⟨rfl, hrs⟩

/-- Items with separators between them: the first, and every other behind a separator. -/
theorem intercalate_cons_eq (separator : Char) (item : List Char) (items : List (List Char)) :
    [separator].intercalate (item :: items) = item ++ items.flatMap (separator :: ·) := by
  induction items generalizing item with
  | nil => simp
  | cons next items ih => simp [List.intercalate_cons_cons, ih]

end Lox
