import Lox.Proofs.Delimited
import Lox.Proofs.Layout
import Lox.Proofs.Leaves
import Lox.Tree.Print
/-!
# Trees told apart by their texts

The text of a tree is put together from words, strings in quotes and lists in parentheses. Such items are told apart,
strings without escapes included, because a word ends before a blank or a parenthesis, a string with its second quote,
and a list with the parenthesis that closes it. So the text of a tree gives the heads of its lists and the texts of its
parts; the head and the number of parts say which kind of tree it is, and at the leaves scanning reads off what was
printed. Only the lines of a tree are not in its text.
-/

namespace Lox

/-! ### Items -/

/-- The characters of words in the text of a tree. -/
def inWord (c : Char) : Bool :=
  c != ' ' && c != '(' && c != ')' && c != '"'

/-- The items without parts: words, and texts in quotes. -/
inductive Atom : List Char → Prop where
  | word {text : List Char} : text ≠ [] → (∀ c ∈ text, inWord c) → Atom text
  | quoted {body : List Char} : (∀ c ∈ body, Piece.inQuotes c) → Atom ('"' :: (body ++ ['"']))

def listText (head : List Char) (parts : List (List Char)) : List Char :=
  '(' :: (head ++ (parts.flatMap (' ' :: ·) ++ [')']))

/-- The texts that trees are put together from. -/
inductive Item : List Char → Prop where
  | atom {text : List Char} : Atom text → Item text
  | list {head : List Char} {parts : List (List Char)} : (∀ part ∈ head :: parts, Item part) →
      Item (listText head parts)

theorem Atom.append_ne {t r s : List Char} (ht : Atom t) : t ++ r ≠ '(' :: s := by
  cases ht with
  | word hne hword => exact stretch_append_ne hne hword (by decide)
  | quoted => exact fun heq => absurd (List.cons.inj heq).1 (by decide)

theorem atom_of_word {text : String} (h : text.toList ≠ [] ∧ text.toList.all inWord) : Atom text.toList :=
  .word h.1 (List.all_eq_true.1 h.2)

/-- A word ends before a blank or a closing parenthesis, a text in quotes with its second quote. -/
theorem Atom.toldApart {t u : List Char} (ht : Atom t) (hu : Atom u) : ToldApart (EndsItem ' ' ')') id t u := by
  have hends {r : List Char} (hr : EndsItem ' ' ')' r) : StartsWith (inWord · = false) r := by
    obtain ⟨c, rest, rfl, rfl | rfl⟩ := hr
    · exact startsWith_cons (by decide)
    · exact startsWith_cons (by decide)
  intro r s hr hs heq
  cases ht with
  | word hne hword =>
    cases hu with
    | word _ hword' => exact eq_of_stretch hword hword' (hends hr) (hends hs) heq
    | quoted => exact absurd heq (stretch_append_ne hne hword (by decide))
  | quoted hbody =>
    cases hu with
    | word hne hword => exact absurd heq.symm (stretch_append_ne hne hword (by decide))
    | quoted hbody' =>
      simp only [id_eq, List.cons_append, List.append_assoc, List.nil_append, List.cons.injEq, true_and] at heq
      obtain ⟨rfl, hrest⟩ := eq_of_stretch hbody hbody' (startsWith_cons (by decide)) (startsWith_cons (by decide)) heq
      exact ⟨rfl, (List.cons.inj hrest).2⟩

/-- Lists are told apart by their items, and end with the parenthesis that closes them. -/
theorem eq_of_listText_append {head head' : List Char} {parts parts' : List (List Char)} {r s : List Char}
    (h : ∀ a ∈ head :: parts, ∀ b ∈ head' :: parts', ToldApart (EndsItem ' ' ')') id a b)
    (heq : listText head parts ++ r = listText head' parts' ++ s) :
    head :: parts = head' :: parts' ∧ r = s := by
  refine eq_of_items (by decide) h ?_
  simpa [listText] using heq

theorem Item.toldApart {t u : List Char} (ht : Item t) (hu : Item u) : ToldApart (EndsItem ' ' ')') id t u := by
  induction ht generalizing u with
  | atom ht =>
    cases hu with
    | atom hu => exact ht.toldApart hu
    | list => exact fun r s _ _ heq => absurd heq ht.append_ne
  | list _ ih =>
    intro r s _ _ heq
    cases hu with
    | atom hu => exact absurd heq.symm hu.append_ne
    | list hparts =>
      obtain ⟨hitems, hrs⟩ := eq_of_listText_append (fun a ha b hb => ih a ha (hparts b hb)) heq
      obtain ⟨rfl, rfl⟩ := List.cons.inj hitems
      exact ⟨rfl, hrs⟩

/-! ### Lists in parentheses -/

theorem toList_parenthesize (head : String) (parts : List String) :
    (parenthesize head parts).toList = listText head.toList (parts.map String.toList) := by
  have hblank : " ".toList = [' '] := rfl
  rw [parenthesize, String.toList_append, String.toList_append, String.toList_intercalate, hblank, List.map_cons,
    intercalate_cons_eq]
  simp [listText]

theorem Atom.ne_parenthesize {text : String} (h : Atom text.toList) (head : String) (parts : List String) :
    text ≠ parenthesize head parts := by
  intro heq
  have htext := congrArg (·.toList ++ []) heq
  simp only [toList_parenthesize] at htext
  exact h.append_ne htext

theorem item_parenthesize {head : String} {parts : List String} (h : ∀ p ∈ head :: parts, Item p.toList) :
    Item (parenthesize head parts).toList := by
  rw [toList_parenthesize]
  refine .list ?_
  simpa using h

/-- The text of a list gives its head and the texts of its parts. -/
theorem eq_of_parenthesize_eq {head head' : String} {parts parts' : List String}
    (h : ∀ p ∈ head :: parts, Item p.toList) (h' : ∀ p ∈ head' :: parts', Item p.toList)
    (heq : parenthesize head parts = parenthesize head' parts') : head = head' ∧ parts = parts' := by
  have htext := congrArg (·.toList ++ []) heq
  simp only [toList_parenthesize] at htext
  have hitems : ∀ a ∈ (head :: parts).map String.toList, ∀ b ∈ (head' :: parts').map String.toList,
      ToldApart (EndsItem ' ' ')') id a b := by
    intro a ha b hb
    obtain ⟨p, hp, rfl⟩ := List.mem_map.1 ha
    obtain ⟨q, hq, rfl⟩ := List.mem_map.1 hb
    exact (h p hp).toldApart (h' q hq)
  obtain ⟨hlists, -⟩ := eq_of_listText_append hitems htext
  exact List.cons.inj (List.map_injective_iff.2 (fun _ _ => String.toList_inj.1) hlists)

/-! ### Leaves -/

namespace Leaf

def text : Leaf → String
  | value v => v.literalText
  | name t => t.lexeme

def relocate (move : Nat → Nat) : Leaf → Leaf
  | value v => value v
  | name t => name (t.relocate move)

def isFinite : Leaf → Bool
  | value (.number n) => n.finite
  | value .nil => true
  | value (.bool _) => true
  | value (.string _) => true
  | name _ => true

/-- A leaf that can be read back: as scanning gives it, and finite. -/
def Legible (leaf : Leaf) : Prop :=
  leaf.Scanned ∧ leaf.isFinite

end Leaf

def Token.leaf? (t : Token) : Option Leaf :=
  if t.kind = .identifier then some (.name t) else t.constant?.map .value

/-- The leaf is printed as the text of a piece of source which is read as that leaf, on line 1. -/
def Leaf.PrintedAs (leaf : Leaf) (p : Piece) : Prop :=
  p.Proper ∧ p.lexeme? ≠ none ∧ p.text = leaf.text.toList ∧ (p.token? 1).bind Token.leaf? = some (leaf.relocate flatten)

theorem Leaf.eq_of_text_eq {leaf other : Leaf} {p q : Piece} (h : leaf.PrintedAs p) (h' : other.PrintedAs q)
    (heq : leaf.text = other.text) : leaf.relocate flatten = other.relocate flatten := by
  obtain ⟨hp, hlexeme, htext, hread⟩ := h
  obtain ⟨hq, hlexeme', htext', hread'⟩ := h'
  obtain rfl : p = q := Piece.eq_of_text_eq hp hlexeme hq hlexeme' (by rw [htext, htext', heq])
  exact Option.some.inj (hread.symm.trans hread')

theorem inWord_of_isWordPart {c : Char} (hc : Piece.isWordPart c) : inWord c := by
  have hne : ∀ d, Piece.isWordPart d = false → c ≠ d := by
    rintro d hd rfl
    simp [hc] at hd
  simp [inWord, hne ' ' (by decide), hne '(' (by decide), hne ')' (by decide), hne '"' (by decide)]

theorem Piece.Proper.atom_word {text : List Char} (hp : (Piece.word text).Proper) : Atom text := by
  obtain ⟨c, rest, rfl, hc, hrest⟩ := hp
  have hstart : Piece.isWordPart c := by
    simp only [Piece.isWordStart, Piece.isWordPart, Char.isAlphanum, Bool.or_eq_true] at hc ⊢
    tauto
  refine .word (by simp) (List.forall_mem_cons.2 ⟨inWord_of_isWordPart hstart, ?_⟩)
  exact fun d hd => inWord_of_isWordPart (hrest d hd)

theorem Piece.Proper.atom_number {whole fraction : List Char} (hp : (Piece.number whole fraction).Proper) :
    Atom (Piece.number whole fraction).text := by
  refine .word hp.text_ne_nil fun c hc => ?_
  obtain hdigit | rfl := Piece.mem_text_number hp hc
  · exact inWord_of_isWordPart (by simp [Piece.isWordPart, Char.isAlphanum, hdigit])
  · decide

/-- The values that are written as keywords. -/
theorem Leaf.exists_printed_keyword {v : Value} {c : Char} {rest : List Char}
    (htext : v.literalText = String.ofList (c :: rest)) (hc : Piece.isWordStart c) (hrest : rest.all Piece.isWordPart)
    (hread : ((Piece.word (c :: rest)).token? 1).bind Token.leaf? = some (.value v)) :
    ∃ p, (Leaf.value v).PrintedAs p ∧ Atom (Leaf.value v).text.toList := by
  have hp : (Piece.word (c :: rest)).Proper := ⟨c, rest, rfl, hc, List.all_eq_true.1 hrest⟩
  have hleaf : (Leaf.value v).text.toList = c :: rest := by rw [Leaf.text, htext, String.toList_ofList]
  exact ⟨.word (c :: rest), ⟨hp, by simp [Piece.lexeme?], hleaf.symm, hread⟩, hleaf ▸ hp.atom_word⟩

/-- A legible leaf is printed as a word or a string in quotes. -/
theorem Leaf.Legible.exists_printed {leaf : Leaf} (h : leaf.Legible) :
    ∃ p, leaf.PrintedAs p ∧ Atom leaf.text.toList := by
  obtain ⟨hscanned, hfinite⟩ := h
  cases leaf with
  | value v =>
    cases v with
    | nil => exact @exists_printed_keyword .nil 'n' ['i', 'l'] rfl (by decide) (by decide) (by decide +kernel)
    | bool b =>
      cases b with
      | false =>
        exact @exists_printed_keyword (.bool false) 'f' ['a', 'l', 's', 'e'] rfl (by decide) (by decide)
          (by decide +kernel)
      | true =>
        exact @exists_printed_keyword (.bool true) 't' ['r', 'u', 'e'] rfl (by decide) (by decide) (by decide +kernel)
    | number n =>
      obtain ⟨whole, fraction, htext, hp, -, hnumber⟩ := Number.exists_text_eq hfinite hscanned
      have hleaf : (value (.number n)).text.toList = (Piece.number whole fraction).text := by
        rw [← String.toList_ofList (l := (Piece.number whole fraction).text), ← htext]
        rfl
      refine ⟨.number whole fraction, ⟨hp, by simp [Piece.lexeme?], hleaf.symm, ?_⟩, hleaf ▸ hp.atom_number⟩
      rw [Piece.token?, hnumber]
      rfl
    | string s =>
      have hbody : ∀ c ∈ s.toList, Piece.inQuotes c := by
        intro c hc
        simp only [Piece.inQuotes, bne_iff_ne]
        rintro rfl
        exact hscanned hc
      have hleaf : (value (.string s)).text.toList = '"' :: (s.toList ++ ['"']) := by
        simp [text, Value.literalText]
      refine ⟨.string s.toList, ⟨hbody, by simp [Piece.lexeme?], ?_, ?_⟩, hleaf ▸ .quoted hbody⟩
      · rw [hleaf]
        rfl
      · rw [Piece.token?, String.ofList_toList]
        rfl
  | name t =>
    obtain ⟨hkind, hword, hplain, hliteral⟩ := hscanned
    refine ⟨.word t.lexeme.toList, ⟨hword, by simp [Piece.lexeme?], rfl, ?_⟩, hword.atom_word⟩
    simp [Piece.token?, hplain, Token.leaf?, relocate, Token.relocate, flatten, ← hkind, ← hliteral]

theorem Leaf.Legible.atom {leaf : Leaf} (h : leaf.Legible) : Atom leaf.text.toList := by
  obtain ⟨p, -, hatom⟩ := h.exists_printed
  exact hatom

theorem Token.item_lexeme {name : Token} (h : (Leaf.name name).Legible) : Item name.lexeme.toList :=
  .atom h.atom

theorem Token.relocate_eq_of_lexeme_eq {name other : Token} (hname : (Leaf.name name).Legible)
    (hother : (Leaf.name other).Legible) (h : name.lexeme = other.lexeme) :
    name.relocate flatten = other.relocate flatten := by
  have hkind : name.kind = other.kind := hname.1.kind.trans hother.1.kind.symm
  have hliteral : name.literal = other.literal := hname.1.literal.trans hother.1.literal.symm
  exact Token.agrees_iff.1 ⟨hkind, h, hliteral⟩

/-! ### Expressions -/

namespace Expr

/-- What an expression with parts is made by. -/
inductive Label where
  | group
  | unary (op : UnaryOp)
  | binary (op : BinaryOp)
  | logical (op : LogicalOp)
  | assign
deriving DecidableEq

namespace Label

def head : Label → String
  | group => "group"
  | unary op => op.symbol
  | binary op => op.symbol
  | logical op => op.symbol
  | assign => "="

def arity : Label → Nat
  | group => 1
  | unary _ => 1
  | binary _ => 2
  | logical _ => 2
  | assign => 2

def all : List Label :=
  [group, assign] ++ UnaryOp.all.map unary ++ BinaryOp.all.map binary ++ LogicalOp.all.map logical

theorem mem_all (label : Label) : label ∈ all := by
  cases label with
  | unary op => simp [all, op.mem_all]
  | binary op => simp [all, op.mem_all]
  | logical op => simp [all, op.mem_all]
  | _ => decide

/-- The head and the number of parts say what made an expression. The head alone does not: a minus is both negation and
subtraction. -/
theorem eq_of_head_eq {label other : Label} (hhead : label.head = other.head) (harity : label.arity = other.arity) :
    label = other := by
  have hall : ∀ a ∈ all, ∀ b ∈ all, a.head = b.head → a.arity = b.arity → a = b := by decide +kernel
  exact hall label label.mem_all other other.mem_all hhead harity

theorem atom_head (label : Label) : Atom label.head.toList := by
  have hall : ∀ a ∈ all, a.head.toList ≠ [] ∧ a.head.toList.all inWord := by decide +kernel
  exact atom_of_word (hall label label.mem_all)

end Label

/-- How an expression is printed: as a leaf, or as a list with the texts of its parts. -/
inductive Shape where
  | leaf (l : Leaf)
  | list (label : Label) (parts : List String)

namespace Shape

def text : Shape → String
  | leaf l => l.text
  | list label parts => parenthesize label.head parts

/-- The leaf is legible, or the list has items for parts, as many as it should. -/
def Good : Shape → Prop
  | leaf l => l.Legible
  | list label parts => parts.length = label.arity ∧ ∀ p ∈ parts, Item p.toList

def relocate (move : Nat → Nat) : Shape → Shape
  | leaf l => leaf (l.relocate move)
  | list label parts => list label parts

theorem item_list {label : Label} {parts : List String} (h : ∀ p ∈ parts, Item p.toList) :
    ∀ p ∈ label.head :: parts, Item p.toList :=
  List.forall_mem_cons.2 ⟨.atom label.atom_head, h⟩

theorem Good.item {a : Shape} (h : a.Good) : Item a.text.toList := by
  cases a with
  | leaf l => exact .atom (Leaf.Legible.atom h)
  | list label parts => exact item_parenthesize (item_list h.2)

/-- The text gives the shape, but for the lines of names. -/
theorem Good.relocate_eq {a b : Shape} (ha : a.Good) (hb : b.Good) (h : a.text = b.text) :
    a.relocate flatten = b.relocate flatten := by
  cases a with
  | leaf l =>
    cases b with
    | leaf l' =>
      obtain ⟨p, hp, -⟩ := ha.exists_printed
      obtain ⟨q, hq, -⟩ := hb.exists_printed
      exact congrArg leaf (Leaf.eq_of_text_eq hp hq h)
    | list label parts => exact absurd h (Leaf.Legible.atom ha |>.ne_parenthesize label.head parts)
  | list label parts =>
    cases b with
    | leaf l' => exact absurd h.symm (Leaf.Legible.atom hb |>.ne_parenthesize label.head parts)
    | list label' parts' =>
      obtain ⟨hhead, rfl⟩ := eq_of_parenthesize_eq (item_list ha.2) (item_list hb.2) h
      rw [Label.eq_of_head_eq hhead (ha.1.symm.trans hb.1)]

end Shape

def shape : Expr → Shape
  | literal value _ => .leaf (.value value)
  | group inner _ => .list .group [inner.text]
  | unary op right _ => .list (.unary op) [right.text]
  | binary left op right _ => .list (.binary op) [left.text, right.text]
  | logical left op right _ => .list (.logical op) [left.text, right.text]
  | var name => .leaf (.name name)
  | assign name value => .list .assign [name.lexeme, value.text]

theorem text_shape (e : Expr) : e.shape.text = e.text := by
  cases e <;> rfl

theorem good_shape {e : Expr} (h : e.AllLeaves Leaf.Legible) : e.shape.Good := by
  have hitem {e : Expr} (he : e.shape.Good) : Item e.text.toList := e.text_shape ▸ he.item
  induction e with
  | literal value line => exact allLeaves_literal.1 h
  | group inner line ih => exact ⟨rfl, by simpa using hitem (ih (allLeaves_group.1 h))⟩
  | unary op right line ih => exact ⟨rfl, by simpa using hitem (ih (allLeaves_unary.1 h))⟩
  | binary left op right line ihleft ihright =>
    obtain ⟨hleft, hright⟩ := allLeaves_binary.1 h
    exact ⟨rfl, by simpa using ⟨hitem (ihleft hleft), hitem (ihright hright)⟩⟩
  | logical left op right line ihleft ihright =>
    obtain ⟨hleft, hright⟩ := allLeaves_logical.1 h
    exact ⟨rfl, by simpa using ⟨hitem (ihleft hleft), hitem (ihright hright)⟩⟩
  | var name => exact allLeaves_var.1 h
  | assign name value ih =>
    obtain ⟨hname, hvalue⟩ := allLeaves_assign.1 h
    exact ⟨rfl, by simpa using ⟨Token.item_lexeme hname, hitem (ih hvalue)⟩⟩

theorem item_text {e : Expr} (h : e.AllLeaves Leaf.Legible) : Item e.text.toList :=
  e.text_shape ▸ (good_shape h).item

theorem shape_eq_of_text_eq {e f : Expr} (he : e.AllLeaves Leaf.Legible) (hf : f.AllLeaves Leaf.Legible)
    (h : e.text = f.text) : e.shape.relocate flatten = f.shape.relocate flatten :=
  (good_shape he).relocate_eq (good_shape hf) (by rw [text_shape, text_shape, h])

/-- Expressions with legible leaves and the same text differ at most in their lines. -/
theorem relocate_eq_of_text_eq {e f : Expr} (he : e.AllLeaves Leaf.Legible) (hf : f.AllLeaves Leaf.Legible)
    (h : e.text = f.text) : e.relocate flatten = f.relocate flatten := by
  -- Expressions of different kinds have different shapes; those of one kind have parts with the same texts.
  induction e generalizing f with
  | literal value line =>
    have hshape := shape_eq_of_text_eq he hf h
    cases f with
    | literal value' line' =>
      obtain rfl : value = value' := by simpa [shape, Shape.relocate, Leaf.relocate] using hshape
      rfl
    | _ => simp [shape, Shape.relocate, Leaf.relocate] at hshape
  | var name =>
    have hshape := shape_eq_of_text_eq he hf h
    cases f with
    | var name' => simpa [shape, Shape.relocate, Leaf.relocate, relocate] using hshape
    | _ => simp [shape, Shape.relocate, Leaf.relocate] at hshape
  | group inner line ih =>
    have hshape := shape_eq_of_text_eq he hf h
    cases f with
    | group inner' line' =>
      have htext : inner.text = inner'.text := by simpa [shape, Shape.relocate] using hshape
      simp only [relocate, flatten, ih (allLeaves_group.1 he) (allLeaves_group.1 hf) htext]
    | _ => simp [shape, Shape.relocate] at hshape
  | unary op right line ih =>
    have hshape := shape_eq_of_text_eq he hf h
    cases f with
    | unary op' right' line' =>
      obtain ⟨rfl, htext⟩ : op = op' ∧ right.text = right'.text := by simpa [shape, Shape.relocate] using hshape
      simp only [relocate, flatten, ih (allLeaves_unary.1 he) (allLeaves_unary.1 hf) htext]
    | _ => simp [shape, Shape.relocate] at hshape
  | binary left op right line ihleft ihright =>
    have hshape := shape_eq_of_text_eq he hf h
    cases f with
    | binary left' op' right' line' =>
      obtain ⟨rfl, hleft, hright⟩ : op = op' ∧ left.text = left'.text ∧ right.text = right'.text := by
        simpa [shape, Shape.relocate] using hshape
      simp only [relocate, flatten, ihleft (allLeaves_binary.1 he).1 (allLeaves_binary.1 hf).1 hleft,
        ihright (allLeaves_binary.1 he).2 (allLeaves_binary.1 hf).2 hright]
    | _ => simp [shape, Shape.relocate] at hshape
  | logical left op right line ihleft ihright =>
    have hshape := shape_eq_of_text_eq he hf h
    cases f with
    | logical left' op' right' line' =>
      obtain ⟨rfl, hleft, hright⟩ : op = op' ∧ left.text = left'.text ∧ right.text = right'.text := by
        simpa [shape, Shape.relocate] using hshape
      simp only [relocate, flatten, ihleft (allLeaves_logical.1 he).1 (allLeaves_logical.1 hf).1 hleft,
        ihright (allLeaves_logical.1 he).2 (allLeaves_logical.1 hf).2 hright]
    | _ => simp [shape, Shape.relocate] at hshape
  | assign name value ih =>
    have hshape := shape_eq_of_text_eq he hf h
    cases f with
    | assign name' value' =>
      obtain ⟨hlexeme, hvalue⟩ : name.lexeme = name'.lexeme ∧ value.text = value'.text := by
        simpa [shape, Shape.relocate] using hshape
      obtain ⟨hname, hlegible⟩ := allLeaves_assign.1 he
      obtain ⟨hname', hlegible'⟩ := allLeaves_assign.1 hf
      rw [relocate, relocate, Token.relocate_eq_of_lexeme_eq hname hname' hlexeme, ih hlegible hlegible' hvalue]
    | _ => simp [shape, Shape.relocate] at hshape

end Expr

/-! ### Statements -/

namespace Stmt

def head : Stmt → String
  | expression _ => ";"
  | print _ => "print"
  | declare _ _ => "var"
  | block _ => "block"
  | branch _ _ _ => "if"
  | loop _ _ => "while"

def partTexts : Stmt → List String
  | expression e => [e.text]
  | print e => [e.text]
  | declare name init => name.lexeme :: (init.map Expr.text).toList
  | block slots => slotTexts slots
  | branch condition yes no => condition.text :: yes.text :: (no.map text).toList
  | loop condition body => [condition.text, body.text]

theorem text_eq (s : Stmt) : s.text = parenthesize s.head s.partTexts := by
  cases s with
  | declare name init => cases init <;> rfl
  | branch condition yes no => cases no <;> rfl
  | _ => rfl

def slotText (slot : Slot) : String :=
  slot.elim holeText text

theorem slotTexts_eq (slots : List Slot) : slotTexts slots = slots.map slotText := by
  induction slots with
  | nil => rfl
  | cons slot slots ih =>
    cases slot with
    | none => rw [slotTexts, ih, List.map_cons]; rfl
    | some s => rw [slotTexts, ih, List.map_cons]; rfl

theorem atom_head (s : Stmt) : Atom s.head.toList := by
  cases s <;> rw [head] <;> exact atom_of_word (by decide)

theorem atom_holeText : Atom holeText.toList :=
  atom_of_word (by decide)

theorem item_of_parts {s : Stmt} (h : ∀ p ∈ s.partTexts, Item p.toList) : Item s.text.toList := by
  rw [text_eq]
  exact item_parenthesize (List.forall_mem_cons.2 ⟨.atom s.atom_head, h⟩)

/-- The parts of a statement are items if its leaves are legible. -/
theorem item_of_mem_partTexts {s : Stmt} (h : s.AllLeaves Leaf.Legible) : ∀ p ∈ s.partTexts, Item p.toList := by
  induction s using Stmt.induction with
  | expression e => exact List.forall_mem_singleton.2 (Expr.item_text (allLeaves_expression.1 h))
  | print e => exact List.forall_mem_singleton.2 (Expr.item_text (allLeaves_print.1 h))
  | declare name init =>
    obtain ⟨hname, hinit⟩ := allLeaves_declare.1 h
    refine List.forall_mem_cons.2 ⟨Token.item_lexeme hname, ?_⟩
    intro p hp
    obtain ⟨e, he, rfl⟩ := Option.map_eq_some_iff.1 (Option.mem_toList.1 hp)
    exact Expr.item_text (hinit e he)
  | block slots ih =>
    intro p hp
    rw [partTexts, slotTexts_eq] at hp
    obtain ⟨slot, hslot, rfl⟩ := List.mem_map.1 hp
    cases slot with
    | none => exact .atom atom_holeText
    | some s => exact item_of_parts (ih s hslot (allLeaves_block.1 h s hslot))
  | branch condition yes no ihyes ihno =>
    obtain ⟨hcondition, hyes, hno⟩ := allLeaves_branch.1 h
    refine List.forall_mem_cons.2 ⟨Expr.item_text hcondition, List.forall_mem_cons.2 ⟨item_of_parts (ihyes hyes), ?_⟩⟩
    intro p hp
    obtain ⟨s, hs, rfl⟩ := Option.map_eq_some_iff.1 (Option.mem_toList.1 hp)
    exact item_of_parts (ihno s hs (hno s hs))
  | loop condition body ih =>
    obtain ⟨hcondition, hbody⟩ := allLeaves_loop.1 h
    exact List.forall_mem_cons.2 ⟨Expr.item_text hcondition, List.forall_mem_singleton.2 (item_of_parts (ih hbody))⟩

theorem parts_eq_of_text_eq {s t : Stmt} (hs : s.AllLeaves Leaf.Legible) (ht : t.AllLeaves Leaf.Legible)
    (h : s.text = t.text) : s.head = t.head ∧ s.partTexts = t.partTexts := by
  rw [text_eq, text_eq] at h
  exact eq_of_parenthesize_eq (List.forall_mem_cons.2 ⟨.atom s.atom_head, item_of_mem_partTexts hs⟩)
    (List.forall_mem_cons.2 ⟨.atom t.atom_head, item_of_mem_partTexts ht⟩) h

theorem text_ne_holeText (s : Stmt) : s.text ≠ holeText := by
  rw [text_eq]
  exact (atom_holeText.ne_parenthesize s.head s.partTexts).symm

/-- Lists with the same texts agree in all that the texts of their members decide. -/
private theorem map_eq_map_of_imp {α β γ : Type} {f : α → β} {g : α → γ} {as bs : List α} (h : as.map f = bs.map f)
    (himp : ∀ a ∈ as, ∀ b ∈ bs, f a = f b → g a = g b) : as.map g = bs.map g := by
  induction as generalizing bs with
  | nil =>
    obtain rfl := List.map_eq_nil_iff.1 h.symm
    rfl
  | cons a as ih =>
    obtain ⟨b, bs, rfl, hb, hbs⟩ := List.map_eq_cons_iff.1 h.symm
    rw [List.map_cons, List.map_cons, himp a List.mem_cons_self b List.mem_cons_self hb.symm,
      ih hbs.symm fun a ha b hb => himp a (List.mem_cons_of_mem _ ha) b (List.mem_cons_of_mem _ hb)]

private theorem option_map_eq_of_imp {α γ : Type} {f : α → String} {g : α → γ} {a b : Option α}
    (h : (a.map f).toList = (b.map f).toList) (himp : ∀ x ∈ a, ∀ y ∈ b, f x = f y → g x = g y) : a.map g = b.map g := by
  cases a with
  | none =>
    cases b with
    | none => rfl
    | some y => simp at h
  | some x =>
    cases b with
    | none => simp at h
    | some y => rw [Option.map_some, Option.map_some, himp x rfl y rfl (by simpa using h)]

/-- Lists of slots with the same texts agree up to lines, if that is so of the statements in them. -/
theorem relocateSlots_eq_of_texts {slots others : List Slot} (h : slotTexts slots = slotTexts others)
    (himp : ∀ s, some s ∈ slots → ∀ t, some t ∈ others → s.text = t.text → s.relocate flatten = t.relocate flatten) :
    relocateSlots flatten slots = relocateSlots flatten others := by
  rw [slotTexts_eq, slotTexts_eq] at h
  rw [relocateSlots_eq, relocateSlots_eq]
  refine map_eq_map_of_imp h ?_
  intro slot hslot other hother htext
  cases slot with
  | none =>
    cases other with
    | none => rfl
    | some t => exact absurd htext.symm t.text_ne_holeText
  | some s =>
    cases other with
    | none => exact absurd htext s.text_ne_holeText
    | some t => exact congrArg some (himp s hslot t hother htext)

/-- Statements with legible leaves and the same text differ at most in their lines. -/
theorem relocate_eq_of_text_eq {s t : Stmt} (hs : s.AllLeaves Leaf.Legible) (ht : t.AllLeaves Leaf.Legible)
    (h : s.text = t.text) : s.relocate flatten = t.relocate flatten := by
  induction s using Stmt.induction generalizing t with
  | expression e =>
    obtain ⟨hhead, hparts⟩ := parts_eq_of_text_eq hs ht h
    cases t with
    | expression f =>
      have htext : e.text = f.text := by simpa [partTexts] using hparts
      rw [relocate, relocate,
        Expr.relocate_eq_of_text_eq (allLeaves_expression.1 hs) (allLeaves_expression.1 ht) htext]
    | _ => simp [head] at hhead
  | print e =>
    obtain ⟨hhead, hparts⟩ := parts_eq_of_text_eq hs ht h
    cases t with
    | print f =>
      have htext : e.text = f.text := by simpa [partTexts] using hparts
      rw [relocate, relocate, Expr.relocate_eq_of_text_eq (allLeaves_print.1 hs) (allLeaves_print.1 ht) htext]
    | _ => simp [head] at hhead
  | declare name init =>
    obtain ⟨hhead, hparts⟩ := parts_eq_of_text_eq hs ht h
    cases t with
    | declare name' init' =>
      obtain ⟨hname, hinit⟩ := allLeaves_declare.1 hs
      obtain ⟨hname', hinit'⟩ := allLeaves_declare.1 ht
      obtain ⟨hlexeme, htexts⟩ := List.cons.inj hparts
      rw [relocate, relocate, Token.relocate_eq_of_lexeme_eq hname hname' hlexeme,
        option_map_eq_of_imp htexts fun e he f hf => Expr.relocate_eq_of_text_eq (hinit e he) (hinit' f hf)]
    | _ => simp [head] at hhead
  | block slots ih =>
    obtain ⟨hhead, hparts⟩ := parts_eq_of_text_eq hs ht h
    cases t with
    | block slots' =>
      rw [relocate, relocate, relocateSlots_eq_of_texts hparts]
      exact fun s hmem t hmem' => ih s hmem (allLeaves_block.1 hs s hmem) (allLeaves_block.1 ht t hmem')
    | _ => simp [head] at hhead
  | branch condition yes no ihyes ihno =>
    obtain ⟨hhead, hparts⟩ := parts_eq_of_text_eq hs ht h
    cases t with
    | branch condition' yes' no' =>
      obtain ⟨hcondition, hyes, hno⟩ := allLeaves_branch.1 hs
      obtain ⟨hcondition', hyes', hno'⟩ := allLeaves_branch.1 ht
      obtain ⟨hconditions, hrest⟩ := List.cons.inj hparts
      obtain ⟨hyess, hnos⟩ := List.cons.inj hrest
      rw [relocate_branch, relocate_branch, Expr.relocate_eq_of_text_eq hcondition hcondition' hconditions,
        ihyes hyes hyes' hyess,
        option_map_eq_of_imp hnos fun s hmem t hmem' => ihno s hmem (hno s hmem) (hno' t hmem')]
    | _ => simp [head] at hhead
  | loop condition body ih =>
    obtain ⟨hhead, hparts⟩ := parts_eq_of_text_eq hs ht h
    cases t with
    | loop condition' body' =>
      obtain ⟨hcondition, hbody⟩ := allLeaves_loop.1 hs
      obtain ⟨hcondition', hbody'⟩ := allLeaves_loop.1 ht
      obtain ⟨hconditions, hbodies⟩ : condition.text = condition'.text ∧ body.text = body'.text := by
        simpa [partTexts] using hparts
      rw [relocate, relocate, Expr.relocate_eq_of_text_eq hcondition hcondition' hconditions, ih hbody hbody' hbodies]
    | _ => simp [head] at hhead

end Stmt

/-! ### Lines are not printed -/

section Lines

variable (move : Nat → Nat)

theorem Expr.text_relocate (e : Expr) : (e.relocate move).text = e.text := by
  induction e with
  | literal value line => rfl
  | group inner line ih => rw [relocate, text, text, ih]
  | unary op right line ih => rw [relocate, text, text, ih]
  | binary left op right line ihleft ihright => rw [relocate, text, text, ihleft, ihright]
  | logical left op right line ihleft ihright => rw [relocate, text, text, ihleft, ihright]
  | var name => rfl
  | assign name value ih => rw [relocate, text, text, ih, Token.lexeme_relocate]

theorem Stmt.slotTexts_relocateSlots {slots : List Slot}
    (h : ∀ s, some s ∈ slots → (s.relocate move).text = s.text) :
    slotTexts (relocateSlots move slots) = slotTexts slots := by
  rw [slotTexts_eq, slotTexts_eq, relocateSlots_eq, List.map_map]
  refine List.map_congr_left fun slot hslot => ?_
  cases slot with
  | none => rfl
  | some s => exact h s hslot

theorem Stmt.text_relocate (s : Stmt) : (s.relocate move).text = s.text := by
  induction s using Stmt.induction with
  | expression e => rw [relocate, text, text, Expr.text_relocate]
  | print e => rw [relocate, text, text, Expr.text_relocate]
  | declare name init => cases init <;> simp [relocate, text, Expr.text_relocate]
  | block slots ih => rw [relocate, text, text, slotTexts_relocateSlots move ih]
  | branch condition yes no ihyes ihno =>
    cases no with
    | none => rw [relocate, text, text, ihyes, Expr.text_relocate]
    | some s => rw [relocate, text, text, ihyes, ihno s rfl, Expr.text_relocate]
  | loop condition body ih => rw [relocate, text, text, ih, Expr.text_relocate]

end Lines

/-! ### Programs -/

/-- Lists of slots with legible leaves have the same texts exactly if they differ at most in their lines. -/
theorem Stmt.slotTexts_eq_iff {slots others : List Slot} (h : ∀ leaf ∈ leavesIn slots, leaf.Legible)
    (h' : ∀ leaf ∈ leavesIn others, leaf.Legible) :
    slotTexts slots = slotTexts others ↔ relocateSlots flatten slots = relocateSlots flatten others := by
  constructor
  · intro htexts
    refine relocateSlots_eq_of_texts htexts fun s hs t ht => ?_
    exact relocate_eq_of_text_eq (allLeaves_in.1 h s hs) (allLeaves_in.1 h' t ht)
  · intro hrelocated
    rw [← slotTexts_relocateSlots flatten fun s _ => s.text_relocate flatten, hrelocated,
      slotTexts_relocateSlots flatten fun s _ => s.text_relocate flatten]

/-- A literal beyond the largest double prints as a word. -/
theorem Number.text_of_overflow {whole fraction : List Char} (h : (ofDigits whole fraction).finite = false) :
    (ofDigits whole fraction).text = "Infinity" := by
  obtain ⟨code, hcode, hdigits⟩ : ∃ code ≤ infinityCode, ofDigits whole fraction = ofCode code :=
    ⟨_, Nat.min_le_right _ _, rfl⟩
  rw [hdigits] at h ⊢
  obtain hlt | rfl := Nat.lt_or_eq_of_le hcode
  · have hle : (ofCode code).code ≤ code := by
      rw [code_eq, toNat_toBits_ofCode hlt]
      exact Nat.mod_le _ _
    simp only [finite, decide_eq_false_iff_not] at h
    omega
  · decide +kernel

/-- The texts of what is parsed identify it up to lines. Whatever the source, faulty ones included, the names in it are
words that are no keywords, its strings hold no quotes and its numbers have no sign. If their numbers are finite, two
such lists have the same texts slot by slot exactly if they differ in nothing but their lines. For finite numbers have
different texts, while a literal that overflows prints like a variable named `Infinity`. -/
theorem slotTexts_identify (source other : String) :
    (∀ leaf ∈ Stmt.leavesIn (parse (scan source).tokens).slots, leaf.Scanned)
    ∧ ((∀ leaf ∈ Stmt.leavesIn (parse (scan source).tokens).slots, leaf.isFinite) →
      (∀ leaf ∈ Stmt.leavesIn (parse (scan other).tokens).slots, leaf.isFinite) →
        (Stmt.slotTexts (parse (scan source).tokens).slots = Stmt.slotTexts (parse (scan other).tokens).slots
          ↔ Stmt.relocateSlots flatten (parse (scan source).tokens).slots
            = Stmt.relocateSlots flatten (parse (scan other).tokens).slots))
    ∧ (∀ m n : Number, m.finite → n.finite → m.text = n.text → m = n)
    ∧ ∀ (whole fraction : List Char) (line : Nat) (name : Token),
        (Number.ofDigits whole fraction).finite = false → name.lexeme = "Infinity" →
          (Expr.literal (.number (.ofDigits whole fraction)) line).text = (Expr.var name).text := by
  refine ⟨scanned_of_parse source, ?_, fun _ _ => Number.eq_of_text_eq, ?_⟩
  · intro hfinite hfinite'
    exact Stmt.slotTexts_eq_iff (fun leaf hleaf => ⟨scanned_of_parse source leaf hleaf, hfinite leaf hleaf⟩)
      fun leaf hleaf => ⟨scanned_of_parse other leaf hleaf, hfinite' leaf hleaf⟩
  · intro whole fraction line name hoverflow hname
    exact (Number.text_of_overflow hoverflow).trans hname.symm

/-- A string with parentheses in it, a hole and both kinds of minus, laid out in two ways; and a literal that
overflows. -/
theorem slotTexts_identify_respaced :
    Stmt.slotTexts (parse (scan "var a = \") (\"; b = ; if (a) print -a - 0.50;").tokens).slots
      = ["(var a \") (\")", "<error>", "(if a (print (- (- a) 0.5)))"]
    ∧ (∀ leaf ∈ Stmt.leavesIn (parse (scan "var a = \") (\"; b = ; if (a) print -a - 0.50;").tokens).slots,
        leaf.isFinite)
    ∧ (∀ leaf ∈ Stmt.leavesIn
        (parse (scan "var a =\n\") (\"; c (;\nif (a)\n  print - a - 0.5;").tokens).slots, leaf.isFinite)
    ∧ Stmt.relocateSlots flatten (parse (scan "var a = \") (\"; b = ; if (a) print -a - 0.50;").tokens).slots
      = Stmt.relocateSlots flatten
        (parse (scan "var a =\n\") (\"; c (;\nif (a)\n  print - a - 0.5;").tokens).slots
    ∧ (Number.ofDigits ('1' :: List.replicate 309 '0') []).finite = false
    ∧ (Expr.literal (.number (.ofDigits ('1' :: List.replicate 309 '0') [])) 1).text
      = (Expr.var ⟨.identifier, "Infinity", none, 1⟩).text := by
  obtain ⟨-, hidentify, -, hinfinity⟩ := slotTexts_identify "var a = \") (\"; b = ; if (a) print -a - 0.50;"
    "var a =\n\") (\"; c (;\nif (a)\n  print - a - 0.5;"
  have hfinite : ∀ leaf ∈ Stmt.leavesIn
      (parse (scan "var a = \") (\"; b = ; if (a) print -a - 0.50;").tokens).slots, leaf.isFinite := by
    decide +kernel
  have hfinite' : ∀ leaf ∈ Stmt.leavesIn
      (parse (scan "var a =\n\") (\"; c (;\nif (a)\n  print - a - 0.5;").tokens).slots, leaf.isFinite := by
    decide +kernel
  have hoverflow : (Number.ofDigits ('1' :: List.replicate 309 '0') []).finite = false := by decide +kernel
  exact ⟨by decide +kernel, hfinite, hfinite', (hidentify hfinite hfinite').1 (by decide +kernel), hoverflow,
    hinfinity _ _ 1 ⟨.identifier, "Infinity", none, 1⟩ hoverflow rfl⟩

end Lox
