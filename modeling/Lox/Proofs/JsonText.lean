import Lox.Proofs.JsonNumber
import Lox.Token.Json
/-!
# Token lists in JSON

Two things are shown of the JSON text of a token list. Without the blanks outside of its strings the pretty text is
the compact one: `Condenses` says this of a part of a text, whatever stands behind it. And the compact text tells token
lists apart: a string ends at the first quote that is not escaped, and numbers and objects before the next comma or
bracket. So both layouts give the list back, as long as its numbers are finite; an infinite one is written like a
literal that is missing.
-/

namespace Lox

namespace Json

/-! ### Escapes -/

/-- The characters that have an escape of two characters, with the second one. -/
def shortEscapes : List (Char × Char) :=
  [('"', '"'), ('\\', '\\'), ('\n', 'n'), ('\r', 'r'), ('\t', 't'), ('\x08', 'b'), ('\x0c', 'f')]

/-- A character is written as a short escape, by its code, or as it is. -/
theorem escape_cases (c : Char) : (∃ e, (c, e) ∈ shortEscapes ∧ escape c = ['\\', e])
    ∨ c.toNat < 0x20 ∧ escape c = ['\\', 'u', '0', '0'] ++ controlDigits c
    ∨ c ≠ '"' ∧ c ≠ '\\' ∧ escape c = [c] := by
  fun_cases escape c
  case case1 | case2 | case3 | case4 | case5 | case6 | case7 => exact .inl ⟨_, by simp [shortEscapes, *], rfl⟩
  case case8 hcontrol => exact .inr (.inl ⟨hcontrol, rfl⟩)
  case case9 hquote hbackslash _ _ _ _ _ _ => exact .inr (.inr ⟨hquote, hbackslash, rfl⟩)

theorem fst_eq_of_shortEscapes {c d e : Char} (hc : (c, e) ∈ shortEscapes) (hd : (d, e) ∈ shortEscapes) : c = d := by
  have hinjective : ∀ p ∈ shortEscapes, ∀ q ∈ shortEscapes, p.2 = q.2 → p.1 = q.1 := by decide
  exact hinjective _ hc _ hd rfl

theorem not_mem_shortEscapes (c : Char) : (c, 'u') ∉ shortEscapes := by
  have hnone : ∀ p ∈ shortEscapes, p.2 ≠ 'u' := by decide
  exact fun hmem => hnone _ hmem rfl

theorem eq_of_controlDigits {c d : Char} (hc : c.toNat < 0x20) (hd : d.toNat < 0x20)
    (h : controlDigits c = controlDigits d) : c = d := by
  have hdigit : ∀ i < 16, ∀ j < 16, Nat.digitChar i = Nat.digitChar j → i = j := by decide
  simp only [controlDigits, List.cons.injEq, and_true] at h
  have hhigh := hdigit _ (by omega) _ (by omega) h.1
  have hlow := hdigit _ (Nat.mod_lt _ (by decide)) _ (Nat.mod_lt _ (by decide)) h.2
  exact Char.toNat_inj.1 (by omega)

/-- No escape is the start of another. -/
theorem eq_of_escape_append {c d : Char} {r s : List Char} (h : escape c ++ r = escape d ++ s) : c = d ∧ r = s := by
  obtain ⟨e, he, hc⟩ | ⟨hcontrol, hc⟩ | ⟨-, hbackslash, hc⟩ := escape_cases c
  · obtain ⟨e', he', hd⟩ | ⟨-, hd⟩ | ⟨-, hbackslash', hd⟩ := escape_cases d
    · obtain ⟨rfl, hrest⟩ : e = e' ∧ r = s := by simpa [hc, hd] using h
      exact ⟨fst_eq_of_shortEscapes he he', hrest⟩
    · obtain rfl : e = 'u' := by simpa [hc, hd] using congrArg (·.tail.head?) h
      exact absurd he (not_mem_shortEscapes c)
    · obtain rfl : '\\' = d := by simpa [hc, hd] using congrArg List.head? h
      exact absurd rfl hbackslash'
  · obtain ⟨e', he', hd⟩ | ⟨hcontrol', hd⟩ | ⟨-, hbackslash', hd⟩ := escape_cases d
    · obtain rfl : 'u' = e' := by simpa [hc, hd] using congrArg (·.tail.head?) h
      exact absurd he' (not_mem_shortEscapes d)
    · obtain ⟨hdigits, hrest⟩ : controlDigits c = controlDigits d ∧ r = s := by
        simpa [hc, hd, controlDigits, and_assoc] using h
      exact ⟨eq_of_controlDigits hcontrol hcontrol' hdigits, hrest⟩
    · obtain rfl : '\\' = d := by simpa [hc, hd] using congrArg List.head? h
      exact absurd rfl hbackslash'
  · obtain ⟨e', he', hd⟩ | ⟨-, hd⟩ | ⟨-, -, hd⟩ := escape_cases d
    · obtain rfl : c = '\\' := by simpa [hc, hd] using congrArg List.head? h
      exact absurd rfl hbackslash
    · obtain rfl : c = '\\' := by simpa [hc, hd] using congrArg List.head? h
      exact absurd rfl hbackslash
    · simpa [hc, hd] using h

theorem exists_escape_eq (c : Char) : ∃ first rest, escape c = first :: rest ∧ first ≠ '"' := by
  obtain ⟨e, -, hc⟩ | ⟨-, hc⟩ | ⟨hquote, -, hc⟩ := escape_cases c
  · exact ⟨_, _, hc, by decide⟩
  · exact ⟨_, _, hc, by decide⟩
  · exact ⟨_, _, hc, hquote⟩

/-- The quote that ends a string is the first that is not part of an escape. -/
theorem eq_of_escapes_append {text text' r s : List Char}
    (h : text.flatMap escape ++ '"' :: r = text'.flatMap escape ++ '"' :: s) : text = text' ∧ r = s := by
  induction text generalizing text' with
  | nil =>
    cases text' with
    | nil => exact ⟨rfl, (List.cons.inj h).2⟩
    | cons d text' =>
      obtain ⟨first, rest, hd, hne⟩ := exists_escape_eq d
      rw [List.flatMap_cons, hd] at h
      exact absurd (List.cons.inj h).1.symm hne
  | cons c text ih =>
    cases text' with
    | nil =>
      obtain ⟨first, rest, hc, hne⟩ := exists_escape_eq c
      rw [List.flatMap_cons, hc] at h
      exact absurd (List.cons.inj h).1 hne
    | cons d text' =>
      rw [List.flatMap_cons, List.flatMap_cons, List.append_assoc, List.append_assoc] at h
      obtain ⟨rfl, hrest⟩ := eq_of_escape_append h
      obtain ⟨rfl, hrs⟩ := ih hrest
      exact ⟨rfl, hrs⟩

theorem eq_of_quoted_append {s t : String} {r r' : List Char} (h : quoted s ++ r = quoted t ++ r') :
    s = t ∧ r = r' := by
  simp only [quoted, List.cons_append, List.append_assoc, List.nil_append, List.cons.injEq, true_and] at h
  obtain ⟨htext, hrest⟩ := eq_of_escapes_append h
  exact ⟨String.toList_inj.1 htext, hrest⟩

theorem quoted_injective : Function.Injective quoted :=
  fun _ _ h => (eq_of_quoted_append (congrArg (· ++ []) h)).1

/-! ### Taking out blanks -/

/-- Where a character of a JSON text stands: outside of strings, inside of one, or behind a backslash in one. -/
inductive Zone where
  | outside
  | inside
  | escaped
deriving DecidableEq

def Zone.after (c : Char) : Zone → Zone
  | outside => if c = '"' then inside else outside
  | inside => if c = '"' then outside else if c = '\\' then escaped else inside
  | escaped => inside

/-- A JSON text without the spaces and newlines outside of its strings. -/
def condense : Zone → List Char → List Char
  | _, [] => []
  | zone, c :: rest =>
    if zone = .outside ∧ (c = ' ' ∨ c = '\n') then condense zone rest
    else c :: condense (zone.after c) rest

/-- Outside of strings, the loose text becomes the tight one, whatever stands behind it. -/
def Condenses (loose tight : List Char) : Prop :=
  ∀ rest, condense .outside (loose ++ rest) = tight ++ condense .outside rest

theorem condense_inside (c : Char) (rest : List Char) :
    condense .inside (c :: rest) = c :: condense (Zone.inside.after c) rest :=
  rfl

/-- An escape does not end a string. -/
theorem condense_escape (c : Char) (rest : List Char) :
    condense .inside (escape c ++ rest) = escape c ++ condense .inside rest := by
  have hdigit (n : Nat) : Zone.inside.after (Nat.digitChar n) = .inside := by
    have hquote : Nat.digitChar n ≠ '"' := Nat.digitChar_ne '"' (by decide)
    have hbackslash : Nat.digitChar n ≠ '\\' := Nat.digitChar_ne '\\' (by decide)
    rw [Zone.after, if_neg hquote, if_neg hbackslash]
  obtain ⟨e, -, hc⟩ | ⟨-, hc⟩ | ⟨hquote, hbackslash, hc⟩ := escape_cases c
  · rw [hc]
    rfl
  · have hcode (text : List Char) : condense .inside ('\\' :: 'u' :: '0' :: '0' :: text)
        = '\\' :: 'u' :: '0' :: '0' :: condense .inside text := rfl
    simp only [hc, controlDigits, List.cons_append, List.nil_append, hcode, condense_inside, hdigit]
  · rw [hc, List.cons_append, List.nil_append, condense_inside, Zone.after, if_neg hquote, if_neg hbackslash]
    rfl

namespace Condenses

variable {loose tight loose' tight' : List Char}

theorem nil : Condenses [] [] :=
  fun _ => rfl

theorem append (h : Condenses loose tight) (h' : Condenses loose' tight') :
    Condenses (loose ++ loose') (tight ++ tight') := by
  intro rest
  rw [List.append_assoc, h, h', List.append_assoc]

theorem cons {c : Char} (hc : c ∉ ['"', ' ', '\n']) (h : Condenses loose tight) :
    Condenses (c :: loose) (c :: tight) := by
  obtain ⟨hquote, hspace, hnewline⟩ : c ≠ '"' ∧ c ≠ ' ' ∧ c ≠ '\n' := by simpa using hc
  intro rest
  rw [List.cons_append, condense, if_neg (by simp [hspace, hnewline]), Zone.after, if_neg hquote, h]
  rfl

theorem blank {c : Char} (hc : c = ' ' ∨ c = '\n') (h : Condenses loose tight) : Condenses (c :: loose) tight := by
  intro rest
  rw [List.cons_append, condense, if_pos ⟨rfl, hc⟩, h]

theorem of_bare {text : List Char} (h : ∀ c ∈ text, isBare c) : Condenses text text := by
  induction text with
  | nil => exact nil
  | cons c text ih =>
    obtain ⟨hc, htext⟩ := List.forall_mem_cons.1 h
    have hnone : ['"', ' ', '\n'].all (!isBare ·) := by decide
    exact cons (fun hmem => by simpa [hc] using List.all_eq_true.1 hnone c hmem) (ih htext)

theorem quoted (s : String) : Condenses (quoted s) (quoted s) := by
  have htext (text rest : List Char) : condense .inside (text.flatMap escape ++ '"' :: rest)
      = text.flatMap escape ++ '"' :: condense .outside rest := by
    induction text with
    | nil => rfl
    | cons c text ih => rw [List.flatMap_cons, List.append_assoc, condense_escape, ih, List.append_assoc]
  intro rest
  have hopen : condense .outside ('"' :: (s.toList.flatMap escape ++ '"' :: rest))
      = '"' :: condense .inside (s.toList.flatMap escape ++ '"' :: rest) := rfl
  simp only [Json.quoted, List.cons_append, List.append_assoc, List.nil_append, hopen, htext]

end Condenses

/-! ### Strings and bare values -/

/-- The JSON values without parts: strings, and values of bare characters. -/
inductive IsScalar : List Char → Prop where
  | quoted (s : String) : IsScalar (quoted s)
  | bare {text : List Char} : text ≠ [] → (∀ c ∈ text, isBare c) → IsScalar text

theorem IsScalar.condenses {value : List Char} (h : IsScalar value) : Condenses value value := by
  cases h with
  | quoted s => exact .quoted s
  | bare _ hbare => exact .of_bare hbare

theorem quoted_append_ne {text r s : List Char} {t : String} (hne : text ≠ []) (h : ∀ c ∈ text, isBare c) :
    quoted t ++ r ≠ text ++ s :=
  (stretch_append_ne hne h (by decide)).symm

theorem eq_of_scalar_append {value other r s : List Char} (hvalue : IsScalar value) (hother : IsScalar other)
    (hr : StartsWith (isBare · = false) r) (hs : StartsWith (isBare · = false) s)
    (heq : value ++ r = other ++ s) : value = other ∧ r = s := by
  cases hvalue with
  | quoted t =>
    cases hother with
    | quoted t' =>
      obtain ⟨rfl, hrs⟩ := eq_of_quoted_append heq
      exact ⟨rfl, hrs⟩
    | bare hne hbare => exact absurd heq (quoted_append_ne hne hbare)
  | bare hne hbare =>
    cases hother with
    | quoted t' => exact absurd heq.symm (quoted_append_ne hne hbare)
    | bare _ hbare' => exact eq_of_stretch hbare hbare' hr hs heq

/-! ### Members and brackets -/

theorem Condenses.member (key : String) {value : List Char} (h : IsScalar value) :
    Condenses (member .pretty key value) (member .compact key value) :=
  (Condenses.quoted key).append
    (.cons (by decide) (.blank (.inl rfl) h.condenses))

theorem Condenses.lineStart (depth : Nat) : Condenses (lineStart .pretty depth) (lineStart .compact depth) := by
  have hspaces (n : Nat) : Condenses (List.replicate n ' ') [] := by
    induction n with
    | zero => exact .nil
    | succ n ih => exact .blank (.inl rfl) ih
  exact .blank (.inr rfl) (hspaces _)

variable {α : Type} {depth : Nat} {opening closing : Char}

/-- The items between brackets: the first, and the others behind commas. -/
theorem bracketed_cons (layout : JsonLayout) (item : List Char) (items : List (List Char)) :
    bracketed layout depth opening closing (item :: items)
      = opening :: (lineStart layout (depth + 1) ++ item
        ++ (items.flatMap (',' :: lineStart layout (depth + 1) ++ ·) ++ (lineStart layout depth ++ [closing]))) := by
  rw [bracketed, List.map_cons, intercalate_cons_eq, List.flatMap_map]
  · simp
  · simp

theorem Condenses.flatMap {loose tight : α → List Char} {items : List α}
    (h : ∀ a ∈ items, Condenses (loose a) (tight a)) : Condenses (items.flatMap loose) (items.flatMap tight) := by
  induction items with
  | nil => exact .nil
  | cons a items ih =>
    rw [List.forall_mem_cons] at h
    exact h.1.append (ih h.2)

theorem Condenses.bracketed {loose tight : α → List Char} {items : List α}
    (hitems : ∀ a ∈ items, Condenses (loose a) (tight a)) (hopening : Condenses [opening] [opening])
    (hclosing : Condenses [closing] [closing]) :
    Condenses (bracketed .pretty depth opening closing (items.map loose))
      (bracketed .compact depth opening closing (items.map tight)) := by
  have hline := Condenses.lineStart
  have hcomma : Condenses [','] [','] := .cons (by decide) .nil
  cases items with
  | nil => exact hopening.append hclosing
  | cons a items =>
    rw [List.forall_mem_cons] at hitems
    have hothers := Condenses.flatMap fun b hb => (hcomma.append (hline (depth + 1))).append (hitems.2 b hb)
    rw [List.map_cons, List.map_cons, bracketed_cons, bracketed_cons, List.flatMap_map, List.flatMap_map]
    exact hopening.append (((hline _).append hitems.1).append (hothers.append ((hline _).append hclosing)))

/-- Items between brackets are told apart in the compact layout, if each ends before the next comma or the closing
bracket and none starts with the latter. -/
theorem eq_of_bracketed_append {write : α → List Char} (hclosing : ',' ≠ closing) {as bs : List α}
    (hwrite : ∀ a ∈ as, ∀ b ∈ bs, ToldApart (EndsItem ',' closing) write a b)
    (hstart : ∀ a, StartsWith (· ≠ closing) (write a)) {r s : List Char}
    (heq : bracketed .compact depth opening closing (as.map write) ++ r
      = bracketed .compact depth opening closing (bs.map write) ++ s) : as = bs ∧ r = s := by
  have hcons (a : α) (as : List α) (r : List Char) :
      bracketed .compact depth opening closing ((a :: as).map write) ++ r
        = opening :: (write a ++ (as.flatMap (',' :: write ·) ++ closing :: r)) := by
    rw [List.map_cons, bracketed_cons, List.flatMap_map]
    simp [Json.lineStart]
  have hnil {b : α} {bs : List α} {r s : List Char} :
      bracketed .compact depth opening closing [] ++ r
        ≠ bracketed .compact depth opening closing ((b :: bs).map write) ++ s := by
    obtain ⟨c, rest, hb, hc⟩ := hstart b
    rw [hcons, hb]
    intro heq
    exact hc (List.cons.inj (List.cons.inj heq).2).1.symm
  cases as with
  | nil =>
    cases bs with
    | nil => exact ⟨rfl, List.append_cancel_left heq⟩
    | cons b bs => exact absurd heq hnil
  | cons a as =>
    cases bs with
    | nil => exact absurd heq.symm hnil
    | cons b bs =>
      rw [hcons, hcons] at heq
      refine eq_of_items hclosing hwrite ?_
      rw [List.flatMap_cons, List.flatMap_cons, List.cons_append, List.cons_append, List.cons_append, List.cons_append,
        List.append_assoc, List.append_assoc, (List.cons.inj heq).2]

/-- Members are told apart if their values have no parts. -/
theorem toldApart_member {closing : Char} (hclosing : isBare closing = false) {m n : String × List Char}
    (hm : IsScalar m.2) (hn : IsScalar n.2) :
    ToldApart (EndsItem ',' closing) (fun m => member .compact m.1 m.2) m n := by
  have hends {r : List Char} (hr : EndsItem ',' closing r) : StartsWith (isBare · = false) r := by
    obtain ⟨c, rest, rfl, rfl | rfl⟩ := hr
    · exact startsWith_cons (by decide)
    · exact startsWith_cons hclosing
  intro r s hr hs heq
  simp only [member, List.append_assoc] at heq
  obtain ⟨hkey, hrest⟩ := eq_of_quoted_append heq
  obtain ⟨hvalue, hrs⟩ := eq_of_scalar_append hm hn (hends hr) (hends hs) (List.cons.inj hrest).2
  exact ⟨Prod.ext hkey hvalue, hrs⟩

end Json

/-! ### Tokens -/

theorem TokenKind.ofName?_name (kind : TokenKind) : ofName? kind.name = some kind := by
  cases kind <;> decide +kernel

theorem TokenKind.name_injective : Function.Injective name := by
  intro kind other h
  rw [← Option.some.injEq, ← ofName?_name, h, ofName?_name]

theorem Number.json_ne_nil (x : Number) : x.json.toList ≠ [] := by
  cases hx : x.finite with
  | false => simp [json, hx]
  | true =>
    obtain ⟨c, rest, htext, -⟩ := exists_jsonDecimal_eq (shortest .even x.code)
    simp [json_of_finite hx, htext]

theorem Number.json_ne_null {x : Number} (hx : x.finite) : x.json.toList ≠ "null".toList := by
  obtain ⟨c, rest, htext, hc⟩ := exists_jsonDecimal_eq (shortest .even x.code)
  rw [json_of_finite hx, signText, htext]
  split
  · simp
  · intro heq
    obtain rfl : c = 'n' := (List.cons.inj heq).1
    exact absurd hc (by decide)

namespace Literal

/-- The JSON value of a literal that may be missing. -/
def jsonValue (literal : Option Literal) : List Char :=
  (literal.map json).getD "null".toList

theorem isScalar_jsonValue (literal : Option Literal) : Json.IsScalar (jsonValue literal) := by
  rcases literal with _ | n | s
  · have hnull : "null".toList.all Json.isBare := by decide
    exact .bare (by decide) (List.all_eq_true.1 hnull)
  · exact .bare n.json_ne_nil fun _ => Number.isBare_of_mem_json
  · exact .quoted s

/-- The JSON value tells whether there is a literal, of which kind it is, and which. -/
theorem eq_of_jsonValue_eq {literal other : Option Literal} (hliteral : ∀ n, literal = some (number n) → n.finite)
    (hother : ∀ n, other = some (number n) → n.finite) (h : jsonValue literal = jsonValue other) :
    literal = other := by
  have hnull (s : String) : Json.quoted s ≠ "null".toList := by simp [Json.quoted]
  have hnumber (s : String) (x : Number) : Json.quoted s ≠ x.json.toList := by
    simpa using @Json.quoted_append_ne x.json.toList [] [] s x.json_ne_nil fun _ => Number.isBare_of_mem_json
  rcases literal with _ | x | s
  · rcases other with _ | y | s'
    · rfl
    · exact absurd h.symm (Number.json_ne_null (hother y rfl))
    · exact absurd h.symm (hnull s')
  · rcases other with _ | y | s'
    · exact absurd h (Number.json_ne_null (hliteral x rfl))
    · rw [Number.eq_of_json_eq (hliteral x rfl) (hother y rfl) (String.toList_inj.1 h)]
    · exact absurd h.symm (hnumber s' x)
  · rcases other with _ | y | s'
    · exact absurd h (hnull s)
    · exact absurd h (hnumber s y)
    · rw [Json.quoted_injective h]

end Literal

namespace Token

/-- The keys and values of a token's object. -/
def members (t : Token) : List (String × List Char) :=
  [("kind", Json.quoted t.kind.name), ("lexeme", Json.quoted t.lexeme), ("line", Nat.toDigits 10 t.line),
   ("literal", Literal.jsonValue t.literal)]

theorem json_eq (layout : JsonLayout) (t : Token) : t.json layout
    = Json.bracketed layout 1 '\x7b' '\x7d' (t.members.map fun m => Json.member layout m.1 m.2) :=
  rfl

def HasFiniteLiteral (t : Token) : Prop :=
  ∀ n, t.literal = some (.number n) → n.finite

theorem isScalar_of_mem_members {t : Token} {m : String × List Char} (hm : m ∈ t.members) : Json.IsScalar m.2 := by
  simp only [members, List.mem_cons, List.not_mem_nil, or_false] at hm
  obtain rfl | rfl | rfl | rfl := hm
  · exact .quoted t.kind.name
  · exact .quoted t.lexeme
  · refine .bare Nat.toDigits_ne_nil fun c hc => Json.isBare_of_isDigit ?_
    exact Nat.isDigit_of_mem_toDigits (by decide) (by decide) hc
  · exact Literal.isScalar_jsonValue t.literal

theorem eq_of_members_eq {t u : Token} (ht : t.HasFiniteLiteral) (hu : u.HasFiniteLiteral)
    (h : t.members = u.members) : t = u := by
  simp only [members, List.cons.injEq, Prod.mk.injEq, true_and, and_true] at h
  obtain ⟨hkind, hlexeme, hline, hliteral⟩ := h
  rw [Token.mk.injEq]
  exact ⟨TokenKind.name_injective (Json.quoted_injective hkind), Json.quoted_injective hlexeme,
    Literal.eq_of_jsonValue_eq ht hu hliteral, toDigits_injective hline⟩

theorem toldApart_json {ends : List Char → Prop} {t u : Token} (ht : t.HasFiniteLiteral) (hu : u.HasFiniteLiteral) :
    ToldApart ends (json .compact) t u := by
  intro r s _ _ heq
  rw [json_eq, json_eq] at heq
  obtain ⟨hmembers, hrs⟩ := Json.eq_of_bracketed_append (by decide)
    (fun m hm n hn => Json.toldApart_member (by decide) (isScalar_of_mem_members hm) (isScalar_of_mem_members hn))
    (fun m => startsWith_cons (by decide)) heq
  exact ⟨eq_of_members_eq ht hu hmembers, hrs⟩

theorem condenses_json (t : Token) : Json.Condenses (t.json .pretty) (t.json .compact) := by
  rw [json_eq, json_eq]
  exact .bracketed (fun m hm => .member m.1 (isScalar_of_mem_members hm))
    (.cons (by decide) .nil) (.cons (by decide) .nil)

theorem toList_jsonArray (layout : JsonLayout) (tokens : List Token) :
    (jsonArray layout tokens).toList = Json.bracketed layout 0 '[' ']' (tokens.map (json layout)) := by
  rw [jsonArray, String.toList_ofList]

/-- Without its blanks the pretty text is the compact one. -/
theorem condense_jsonArray (tokens : List Token) :
    Json.condense .outside (jsonArray .pretty tokens).toList = (jsonArray .compact tokens).toList := by
  have hcondenses : Json.Condenses (jsonArray .pretty tokens).toList (jsonArray .compact tokens).toList := by
    rw [toList_jsonArray, toList_jsonArray]
    exact .bracketed (fun t _ => t.condenses_json) (.cons (by decide) .nil) (.cons (by decide) .nil)
  simpa [Json.condense] using hcondenses []

theorem eq_of_jsonArray_compact_eq {tokens others : List Token} (htokens : ∀ t ∈ tokens, t.HasFiniteLiteral)
    (hothers : ∀ t ∈ others, t.HasFiniteLiteral) (h : jsonArray .compact tokens = jsonArray .compact others) :
    tokens = others := by
  have htext := congrArg (·.toList ++ []) h
  simp only [toList_jsonArray] at htext
  exact (Json.eq_of_bracketed_append (by decide) (fun t ht u hu => toldApart_json (htokens t ht) (hothers u hu))
    (fun t => startsWith_cons (by decide)) htext).1

end Token

/-- The JSON text of a token list is faithful. In both layouts, lists without infinite numbers have the same text only
if they are the same list. And for every list, the pretty text without the spaces and newlines outside of its strings
is the compact text. -/
theorem jsonArray_faithful :
    (∀ (layout : JsonLayout) (tokens others : List Token), (∀ t ∈ tokens, t.HasFiniteLiteral) →
      (∀ t ∈ others, t.HasFiniteLiteral) →
        (Token.jsonArray layout tokens = Token.jsonArray layout others ↔ tokens = others))
    ∧ ∀ tokens : List Token, Json.condense .outside (Token.jsonArray .pretty tokens).toList
        = (Token.jsonArray .compact tokens).toList := by
  refine ⟨?_, Token.condense_jsonArray⟩
  intro layout tokens others htokens hothers
  refine ⟨fun h => Token.eq_of_jsonArray_compact_eq htokens hothers ?_, fun h => h ▸ rfl⟩
  cases layout with
  | compact => exact h
  | pretty => rw [← String.toList_inj, ← Token.condense_jsonArray, ← Token.condense_jsonArray, h]

theorem jsonArray_faithful_zeros :
    let t : Token := ⟨.string, "\"\x07 \\", some (.number (Float.ofBits 0)), 3⟩
    let u : Token := { t with literal := some (.number (Float.ofBits 0x8000000000000000)) }
    (∀ v ∈ [t], v.HasFiniteLiteral) ∧ (∀ v ∈ [u], v.HasFiniteLiteral)
      ∧ Token.jsonArray .compact [t]
        = "[\x7b\"kind\":\"String\",\"lexeme\":\"\\\"\\u0007 \\\\\",\"line\":3,\"literal\":0.0\x7d]"
      ∧ Token.jsonArray .compact [t] ≠ Token.jsonArray .compact [u]
      ∧ Json.condense .outside (Token.jsonArray .pretty [t]).toList = (Token.jsonArray .compact [t]).toList := by
  intro t u
  have hfinite (literal : Number) (hliteral : literal.finite) :
      ∀ v ∈ [{ t with literal := some (.number literal) }], Token.HasFiniteLiteral v := by
    intro v hv n hn
    obtain rfl := List.mem_singleton.1 hv
    obtain rfl : literal = n := by simpa using hn
    exact hliteral
  have ht := hfinite (Float.ofBits 0) (by decide +kernel)
  have hu := hfinite (Float.ofBits 0x8000000000000000) (by decide +kernel)
  have hne : [t] ≠ [u] := by decide +kernel
  exact ⟨ht, hu, by decide +kernel, (jsonArray_faithful.1 .compact [t] [u] ht hu).not.2 hne,
    jsonArray_faithful.2 [t]⟩

end Lox
