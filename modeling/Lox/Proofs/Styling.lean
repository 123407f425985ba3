import Lox.Diagnostic.Styled
/-!
# Colors add nothing but styling

A terminal takes the escape sequences of a styled text for styling and shows what is left. `Shows` says that a
styled text leaves a given plain one, whatever stands behind it; it is kept by styling a text once more and by
putting texts together. So a colored diagnostic leaves the very text of the plain one, as long as the diagnostic
quotes no escape character itself.
-/

namespace Lox

namespace TextStyle

/-! ### Taking out escape sequences -/

/-- The parameters of an escape sequence are digits and semicolons. -/
def isParameter (c : Char) : Bool :=
  c.isDigit || c == ';'

/-- What stands behind the escape sequence at the start of a text, if there is one there. -/
def behindSequence? : List Char → Option (List Char)
  | '\x1b' :: '[' :: rest =>
    match rest.dropWhile isParameter with
    | 'm' :: behind => some behind
    | _ => none
  | _ => none

theorem length_of_behindSequence? {text behind : List Char} (h : behindSequence? text = some behind) :
    behind.length < text.length := by
  fun_cases behindSequence? text with
  | case1 rest after hdrop =>
    obtain rfl : after = behind := by simpa [behindSequence?, hdrop] using h
    have hlength := (List.dropWhile_suffix (p := isParameter) (l := rest)).length_le
    rw [hdrop] at hlength
    simp only [List.length_cons] at hlength ⊢
    omega
  | case2 rest hdrop => simp_all [behindSequence?]
  | case3 => simp_all [behindSequence?]

def unstyled (text : List Char) : List Char :=
  match text with
  | [] => []
  | c :: rest =>
    match _hbehind : behindSequence? (c :: rest) with
    | some behind => unstyled behind
    | none => c :: unstyled rest
termination_by text.length
decreasing_by
  · exact length_of_behindSequence? (by assumption)
  · exact Nat.lt_succ_self rest.length

theorem unstyled_of_behind {text behind : List Char} (h : behindSequence? text = some behind) :
    unstyled text = unstyled behind := by
  cases text with
  | nil => simp [behindSequence?] at h
  | cons c rest =>
    rw [unstyled]
    split
    next behind' hbehind =>
      obtain rfl : behind = behind' := Option.some.inj (h.symm.trans hbehind)
      rfl
    next hnone => simp [h] at hnone

/-- Only an escape character can start a sequence. -/
theorem unstyled_cons {c : Char} (hc : c ≠ '\x1b') (rest : List Char) :
    unstyled (c :: rest) = c :: unstyled rest := by
  have hnone : behindSequence? (c :: rest) = none := by
    rw [behindSequence?]
    intro _ heq
    exact hc (List.cons.inj heq).1
  rw [unstyled]
  split
  next behind hbehind => simp [hnone] at hbehind
  next => rfl

theorem unstyled_sequence {parameter : String} (h : parameter.toList.all isParameter) (rest : List Char) :
    unstyled ((sequence parameter).toList ++ rest) = unstyled rest := by
  apply unstyled_of_behind
  have htext : (sequence parameter).toList ++ rest = '\x1b' :: '[' :: (parameter.toList ++ 'm' :: rest) := by
    simp [sequence]
  have hdrop : (parameter.toList ++ 'm' :: rest).dropWhile isParameter = 'm' :: rest := by
    rw [List.dropWhile_append_of_pos (List.all_eq_true.1 h), List.dropWhile_cons_of_neg (by decide)]
  simp only [htext, behindSequence?, hdrop]

theorem length_unstyled_le (text : List Char) : (unstyled text).length ≤ text.length := by
  fun_induction unstyled text with
  | case1 => exact Nat.le_refl 0
  | case2 c rest behind hbehind ih => exact Nat.le_trans ih (Nat.le_of_lt (length_of_behindSequence? hbehind))
  | case3 c rest _ ih => exact Nat.succ_le_succ ih

theorem exists_start_eq (style : TextStyle) :
    ∃ parameter, style.start = sequence parameter ∧ parameter.toList.all isParameter := by
  cases style with
  | bold => exact ⟨"1", rfl, by decide⟩
  | blue => exact ⟨"34", rfl, by decide⟩
  | red => exact ⟨"31", rfl, by decide⟩

theorem exists_stop_eq (style : TextStyle) :
    ∃ parameter, style.stop = sequence parameter ∧ parameter.toList.all isParameter := by
  cases style with
  | bold => exact ⟨"0", rfl, by decide⟩
  | blue => exact ⟨"39", rfl, by decide⟩
  | red => exact ⟨"39", rfl, by decide⟩

/-! ### What a styled text shows -/

/-- Without its escape sequences the styled text is the plain one, whatever stands behind it. -/
def Shows (styled plain : String) : Prop :=
  ∀ rest, unstyled (styled.toList ++ rest) = plain.toList ++ unstyled rest

namespace Shows

variable {styled plain styled' plain' : String}

theorem of_not_mem (h : '\x1b' ∉ plain.toList) : Shows plain plain := by
  intro rest
  generalize plain.toList = text at h
  induction text with
  | nil => rfl
  | cons c text ih =>
    rw [List.mem_cons, not_or] at h
    rw [List.cons_append, unstyled_cons (Ne.symm h.1), ih h.2, List.cons_append]

theorem append (h : Shows styled plain) (h' : Shows styled' plain') :
    Shows (styled ++ styled') (plain ++ plain') := by
  intro rest
  rw [String.toList_append, String.toList_append, List.append_assoc, h, h', List.append_assoc]

theorem apply (style : TextStyle) (h : Shows styled plain) : Shows (style.apply styled) plain := by
  obtain ⟨on, hstart, hon⟩ := style.exists_start_eq
  obtain ⟨off, hstop, hoff⟩ := style.exists_stop_eq
  intro rest
  rw [TextStyle.apply, String.toList_append, String.toList_append, List.append_assoc, List.append_assoc, hstart,
    unstyled_sequence hon, h, hstop, unstyled_sequence hoff]

theorem alarm (h : Shows styled plain) : Shows (alarm styled) plain :=
  (h.apply red).apply bold

theorem unstyled_eq (h : Shows styled plain) : unstyled styled.toList = plain.toList := by
  have hempty := h []
  rwa [List.append_nil, unstyled, List.append_nil] at hempty

end Shows

end TextStyle

/-! ### Diagnostics -/

namespace Diagnostic

open TextStyle

theorem shows_repr (n : Nat) : Shows (Nat.repr n) (Nat.repr n) := by
  apply Shows.of_not_mem
  intro hmem
  rw [Nat.toList_repr] at hmem
  exact absurd (Nat.isDigit_of_mem_toDigits (by decide) (by decide) hmem) (by decide)

theorem shows_place {place : Place} (h : ∀ text, place = .lexeme text → '\x1b' ∉ text.toList) :
    Shows place.text place.text := by
  cases place with
  | unspecified => exact Shows.of_not_mem (by decide)
  | inputEnd => exact Shows.of_not_mem (by decide)
  | lexeme text =>
    have hquoted := Shows.of_not_mem (h text rfl)
    exact ((Shows.of_not_mem (by decide)).append hquoted).append (Shows.of_not_mem (by decide))

theorem shows_bracketed (line : Nat) {after : String} (h : '\x1b' ∉ after.toList) :
    Shows ("[line " ++ Nat.repr line ++ after) ("[line " ++ Nat.repr line ++ after) :=
  ((Shows.of_not_mem (by decide)).append (shows_repr line)).append (.of_not_mem h)

/-- A fault at run time has its line below the message. -/
theorem shows_styled_running {d : Diagnostic} (hstage : d.stage = .running) (hmessage : '\x1b' ∉ d.message.toList) :
    Shows d.styled d.text := by
  have hshown : Shows (alarm d.message) d.message := (Shows.of_not_mem hmessage).alarm
  rw [styled, text, hstage]
  cases d.line with
  | none => exact hshown
  | some line =>
    have hbreak : Shows "\n" "\n" := .of_not_mem (by decide)
    have hsome := (hshown.append hbreak).append ((shows_bracketed line (by decide : '\x1b' ∉ "]".toList)).apply blue)
    have hplain : d.message ++ "\n" ++ ("[line " ++ Nat.repr line ++ "]")
        = d.message ++ "\n[line " ++ Nat.repr line ++ "]" := by
      rw [show "\n[line " = "\n" ++ "[line " from rfl]
      simp only [String.append_assoc]
    rw [hplain] at hsome
    exact hsome

/-- A fault of the source has its line and its place before the message. -/
theorem shows_styled_source {d : Diagnostic} (hstage : d.stage ≠ .running) (hmessage : '\x1b' ∉ d.message.toList)
    (hplace : ∀ text, d.place = .lexeme text → '\x1b' ∉ text.toList) : Shows d.styled d.text := by
  have herror := ((Shows.of_not_mem (by decide : '\x1b' ∉ "Error".toList)).append (shows_place hplace)).alarm
  have hcolon : Shows ": " ": " := .of_not_mem (by decide)
  have hshown := (Shows.of_not_mem hmessage).apply bold
  -- The plain text is cut where the colors change.
  have hsource {lead : String} (hlead : Shows lead lead) : Shows
      (blue.apply lead ++ alarm ("Error" ++ d.place.text) ++ ": " ++ bold.apply d.message)
      (lead ++ ("Error" ++ d.place.text) ++ ": " ++ d.message) :=
    (((hlead.apply blue).append herror).append hcolon).append hshown
  rw [styled, text]
  cases d.line with
  | none =>
    have hnone := hsource (.of_not_mem (by decide : '\x1b' ∉ "".toList))
    rw [String.empty_append] at hnone
    cases hcases : d.stage with
    | running => exact absurd hcases hstage
    | scanning => exact hnone
    | parsing => exact hnone
  | some line =>
    have hsome := hsource (shows_bracketed line (by decide : '\x1b' ∉ "] ".toList))
    have hplain : "[line " ++ Nat.repr line ++ "] " ++ ("Error" ++ d.place.text) ++ ": " ++ d.message
        = "[line " ++ Nat.repr line ++ "] Error" ++ d.place.text ++ ": " ++ d.message := by
      rw [show "] Error" = "] " ++ "Error" from rfl]
      simp only [String.append_assoc]
    rw [hplain] at hsome
    cases hcases : d.stage with
    | running => exact absurd hcases hstage
    | scanning => exact hsome
    | parsing => exact hsome

theorem exists_styled_eq (d : Diagnostic) : ∃ (style : TextStyle) (rest : String), d.styled = style.start ++ rest := by
  rw [styled]
  split
  · exact ⟨bold, _, by simp only [alarm, TextStyle.apply, String.append_assoc]; rfl⟩
  · exact ⟨bold, _, by simp only [alarm, TextStyle.apply, String.append_assoc]; rfl⟩
  · exact ⟨blue, _, by simp only [TextStyle.apply, String.append_assoc]; rfl⟩

/-- The colored text is longer than what it shows. -/
theorem length_unstyled_styled_lt (d : Diagnostic) : (unstyled d.styled.toList).length < d.styled.toList.length := by
  obtain ⟨style, rest, hstyled⟩ := d.exists_styled_eq
  obtain ⟨parameter, hstart, hparameter⟩ := style.exists_start_eq
  rw [hstyled, String.toList_append, hstart, unstyled_sequence hparameter, List.length_append]
  have hsequence : 0 < (TextStyle.sequence parameter).toList.length := by simp [TextStyle.sequence]
  have hrest := length_unstyled_le rest.toList
  omega

end Diagnostic

/-- Colors add only styling. A diagnostic that quotes no escape character is rendered plainly as its text, and in
colors as a text with escape sequences, without which it is the same text again. -/
theorem unstyled_render (d : Diagnostic) (hmessage : '\x1b' ∉ d.message.toList)
    (hplace : ∀ text, d.place = .lexeme text → '\x1b' ∉ text.toList) :
    TextStyle.unstyled (d.render true).toList = d.text.toList ∧ d.render false = d.text
      ∧ d.render true ≠ d.text := by
  have hshows : TextStyle.Shows d.styled d.text := by
    by_cases hstage : d.stage = .running
    · exact d.shows_styled_running hstage hmessage
    · exact d.shows_styled_source hstage hmessage hplace
  refine ⟨hshows.unstyled_eq, rfl, ?_⟩
  intro (heq : d.styled = d.text)
  have hlength := d.length_unstyled_styled_lt
  rw [hshows.unstyled_eq, heq] at hlength
  exact Nat.lt_irrefl _ hlength

theorem unstyled_render_brackets :
    let d : Diagnostic := ⟨.parsing, some 3, .lexeme "[1m", "[31m is no ';39m'."⟩
    '\x1b' ∉ d.message.toList ∧ (∀ text, d.place = .lexeme text → '\x1b' ∉ text.toList)
      ∧ d.render true = "\x1b[34m[line 3] \x1b[39m\x1b[1m\x1b[31mError at '[1m'\x1b[39m\x1b[0m: "
        ++ "\x1b[1m[31m is no ';39m'.\x1b[0m"
      ∧ TextStyle.unstyled (d.render true).toList = d.text.toList
      ∧ d.render false = "[line 3] Error at '[1m': [31m is no ';39m'." := by
  intro d
  have hmessage : '\x1b' ∉ d.message.toList := by decide +kernel
  have hplace : ∀ text, d.place = .lexeme text → '\x1b' ∉ text.toList := by
    intro text htext
    obtain rfl := Place.lexeme.inj htext
    decide +kernel
  exact ⟨hmessage, hplace, by decide +kernel, (unstyled_render d hmessage hplace).1, by decide +kernel⟩

end Lox
