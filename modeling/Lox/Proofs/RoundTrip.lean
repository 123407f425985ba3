import Lox.Proofs.Written
/-!
# Writing out and reading back

Parsing undoes writing out, and writing out undoes parsing. Both go through the forms: a tree in normal
form has every way of writing it out as a form, and a form is a way of writing its tree out.
-/

namespace Lox

open List (Forall₂)

private theorem forall₂_append_left {α β : Type} {r : α → β → Prop} {as bs : List α} {cs : List β} :
    Forall₂ r (as ++ bs) cs ↔ ∃ us vs, cs = us ++ vs ∧ Forall₂ r as us ∧ Forall₂ r bs vs := by
  constructor
  · intro h
    refine ⟨cs.take as.length, cs.drop as.length, (List.take_append_drop _ _).symm, ?_, ?_⟩
    · simpa using List.forall₂_take as.length h
    · simpa using List.forall₂_drop as.length h
  · intro h
    obtain ⟨us, vs, rfl, hus, hvs⟩ := h
    exact List.rel_append hus hvs

/-! ### Expressions in normal form -/

namespace InfixOp

variable {op : InfixOp} {line : Nat} {left right : Expr}

theorem marks_join :
    (op.join line left right).marks = left.marks ++ .operator op.kind line :: right.marks := by
  cases op <;> rfl

theorem nesting_join : (op.join line left right).nesting = max left.nesting right.nesting := by
  cases op <;> rfl

theorem tightness_join : (op.join line left right).tightness = op.level.tightness := by
  cases op <;> rfl

end InfixOp

theorem Level.drop_tightness (level : Level) :
    Level.all.drop (level.tightness - 1) = level :: Level.all.drop level.tightness := by
  cases level <;> rfl

namespace ExprForm

variable {n : Nat} {ts : List Token} {e : Expr}

/-- An expression that fits among tighter operators fits among looser ones too. -/
theorem of_drop {k d : Nat} (h : ExprForm n (.within (Level.all.drop (k + d))) ts e) :
    ExprForm n (.within (Level.all.drop k)) ts e := by
  induction d with
  | zero => exact h
  | succ d ih =>
    apply ih
    by_cases hlt : k + d < Level.all.length
    · rw [List.drop_eq_getElem_cons hlt]
      exact h.weaken
    · rw [List.drop_of_length_le (by omega)]
      rwa [List.drop_of_length_le (by omega)] at h

/-- One more operation behind an operand of the same level. -/
theorem snoc {level : Level} {levels : List Level} {sign : Token} {op : InfixOp} {us : List Token}
    {right : Expr} (h : ExprForm n (.within (level :: levels)) ts e)
    (hop : InfixOp.ofKind? level sign.kind = some op) (hright : ExprForm n (.within levels) us right) :
    ExprForm n (.within (level :: levels)) (ts ++ sign :: us) (op.join sign.line e right) := by
  cases h with
  | @chain _ _ _ ts first operations hfirst hsigns hrights =>
    have hform := chain hfirst (List.forall_mem_append.2 ⟨hsigns, List.forall_mem_singleton.2 hop⟩)
      (@List.forall_mem_append _ (fun o : Operation => ExprForm n (.within levels) o.tokens o.right)
        operations [⟨sign, op, us, right⟩] |>.2 ⟨hrights, List.forall_mem_singleton.2 hright⟩)
    simpa [Operation.text, Operation.apply] using hform

end ExprForm

namespace Expr

/-- Every way of writing the expression out is a form of it, wherever the expression fits. -/
structure Readable (e : Expr) : Prop where
  whole : ∀ n ts, e.nesting ≤ n → Forall₂ Mark.Fits e.marks ts → ExprForm (n + 1) .whole ts e
  within : ∀ n k ts, e.nesting ≤ n → k < e.tightness → Forall₂ Mark.Fits e.marks ts →
    ExprForm n (.within (Level.all.drop k)) ts e

theorem readable_of_within {e : Expr} (htight : 0 < e.tightness)
    (h : ∀ n ts, e.nesting ≤ n → Forall₂ Mark.Fits e.marks ts →
      ExprForm n (.within (Level.all.drop (e.tightness - 1))) ts e) : e.Readable where
  whole n ts hnesting hts := by
    refine .plain (@ExprForm.of_drop n ts e 0 (e.tightness - 1) ?_)
    rw [Nat.zero_add]
    exact h n ts hnesting hts
  within n k ts hnesting hk hts := by
    refine @ExprForm.of_drop n ts e k (e.tightness - 1 - k) ?_
    rw [show k + (e.tightness - 1 - k) = e.tightness - 1 by omega]
    exact h n ts hnesting hts

theorem readable_literal {value : Value} {line : Nat} : (literal value line).Readable := by
  refine readable_of_within (by simp [tightness]) ?_
  intro n ts _ hts
  simp only [marks, List.forall₂_cons_left_iff, List.forall₂_nil_left_iff, Mark.Fits] at hts
  obtain ⟨t, _, ⟨hkind, hliteral, rfl⟩, rfl, rfl⟩ := hts
  have hconstant : t.constant? = some value := by
    rw [Token.constant?, hkind]
    cases value with
    | nil => rfl
    | bool b => cases b <;> rfl
    | number x => simp [hliteral (.number x) rfl, Value.kind, Literal.value]
    | string s => simp [hliteral (.string s) rfl, Value.kind, Literal.value]
  exact .literal hconstant

theorem readable_join {left right : Expr} {op : InfixOp} {line : Nat} (hleft : left.Readable)
    (hright : right.Readable) (hlefter : op.level.tightness ≤ left.tightness)
    (hrighter : op.level.tightness < right.tightness) : (op.join line left right).Readable := by
  have hpos := op.level.tightness_pos
  rw [← op.tightness_join] at hpos
  refine readable_of_within hpos ?_
  intro n ts hnesting hts
  rw [InfixOp.nesting_join] at hnesting
  rw [InfixOp.marks_join, forall₂_append_left] at hts
  simp only [List.forall₂_cons_left_iff, Mark.Fits] at hts
  obtain ⟨us, _, rfl, hus, sign, vs, ⟨hkind, rfl⟩, hvs, rfl⟩ := hts
  rw [InfixOp.tightness_join, Level.drop_tightness]
  have hleft := hleft.within n (op.level.tightness - 1) us (by omega) (by omega) hus
  rw [Level.drop_tightness] at hleft
  exact hleft.snoc (InfixOp.ofKind?_eq_some.2 ⟨rfl, hkind.symm⟩)
    (hright.within n op.level.tightness vs (by omega) hrighter hvs)

theorem readable_var {name : Token} (hname : name.kind = .identifier) : (var name).Readable := by
  refine readable_of_within (by simp [tightness]) ?_
  intro n ts _ hts
  simp only [marks, List.forall₂_cons_left_iff, List.forall₂_nil_left_iff, Mark.Fits] at hts
  obtain ⟨_, _, rfl, rfl, rfl⟩ := hts
  exact .var hname

theorem readable_group {inner : Expr} {line : Nat} (hinner : inner.Readable) :
    (group inner line).Readable := by
  refine readable_of_within (by simp [tightness]) ?_
  intro n ts hnesting hts
  simp only [marks, List.cons_append, List.forall₂_cons_left_iff, forall₂_append_left,
    List.forall₂_nil_left_iff, Mark.Fits] at hts
  obtain ⟨left, _, ⟨hleft, rfl⟩, ⟨us, _, rfl, hus, right, _, hright, rfl, rfl⟩, rfl⟩ := hts
  obtain _ | n := n
  · simp [nesting] at hnesting
  · exact .group hleft hright (hinner.whole n us (Nat.le_of_succ_le_succ hnesting) hus)

theorem readable_unary {op : UnaryOp} {right : Expr} {line : Nat} (hright : right.Readable)
    (htight : right.tightness = 7) : (unary op right line).Readable := by
  refine readable_of_within (by simp [tightness]) ?_
  intro n ts hnesting hts
  simp only [marks, List.forall₂_cons_left_iff, Mark.Fits] at hts
  obtain ⟨sign, us, ⟨hkind, rfl⟩, hus, rfl⟩ := hts
  obtain _ | n := n
  · simp [nesting] at hnesting
  · exact .unary (UnaryOp.ofKind?_eq_some.2 hkind.symm)
      (hright.within n 6 us (Nat.le_of_succ_le_succ hnesting) (by omega) hus)

theorem readable_assign {name : Token} {value : Expr} (hname : name.kind = .identifier)
    (hvalue : value.Readable) : (assign name value).Readable where
  whole n ts hnesting hts := by
    simp only [marks, List.forall₂_cons_left_iff, Mark.Fits] at hts
    obtain ⟨_, _, rfl, ⟨equals, us, hequals, hus, rfl⟩, rfl⟩ := hts
    obtain _ | n := n
    · simp [nesting] at hnesting
    · exact .assign hname hequals (hvalue.whole n us (Nat.le_of_succ_le_succ hnesting) hus)
  within n k ts _ hk _ := by
    simp [tightness] at hk

theorem Normal.readable {e : Expr} (h : e.Normal) : e.Readable := by
  induction e with
  | literal => exact readable_literal
  | group inner line ih => exact readable_group (ih h)
  | unary op right line ih => exact readable_unary (ih h.1) h.2
  | binary left op right line ihleft ihright =>
    obtain ⟨hleft, hright, hlefter, hrighter⟩ := h
    exact @readable_join left right (.binary op) line (ihleft hleft) (ihright hright) hlefter hrighter
  | logical left op right line ihleft ihright =>
    obtain ⟨hleft, hright, hlefter, hrighter⟩ := h
    exact @readable_join left right (.logical op) line (ihleft hleft) (ihright hright) hlefter hrighter
  | var name => exact readable_var h
  | assign name value ih => exact readable_assign h.1 (ih h.2)

theorem Normal.whole {e : Expr} (h : e.Normal) {n : Nat} {ts : List Token} (hnesting : e.nesting < n)
    (hts : Forall₂ Mark.Fits e.marks ts) : ExprForm n .whole ts e := by
  obtain _ | n := n
  · simp at hnesting
  · exact h.readable.whole n ts (Nat.le_of_lt_succ hnesting) hts

end Expr

/-! ### Statements in normal form -/

namespace Stmt

variable {n : Nat} {ts : List Token}

/-- Every way of writing a whole statement out is a form of it, within `n` levels of nesting. -/
def ReadableWithin (n : Nat) : Prop :=
  ∀ s closed ts, Normal s → s.holes = 0 → s.nesting ≤ n → ¬ s.IsDeclaration →
    (closed = true → ¬ s.EndsOpen) → Forall₂ Mark.Fits s.marks ts → StmtForm n (.statement closed) ts s

theorem form_of_declare {name : Token} {init : Option Expr} (hnormal : (declare name init).Normal)
    (hnesting : (declare name init).nesting ≤ n) (hts : Forall₂ Mark.Fits (declare name init).marks ts) :
    StmtForm n .declaration ts (declare name init) := by
  obtain ⟨hname, hinit⟩ := hnormal
  cases init with
  | none =>
    simp only [marks, List.forall₂_cons_left_iff, List.forall₂_nil_left_iff, Mark.Fits] at hts
    obtain ⟨keyword, _, hkeyword, ⟨_, _, rfl, ⟨semicolon, _, hsemicolon, rfl, rfl⟩, rfl⟩, rfl⟩ := hts
    exact .var hkeyword (.bare hname hsemicolon)
  | some e =>
    simp only [marks, List.cons_append, List.forall₂_cons_left_iff, forall₂_append_left,
      List.forall₂_nil_left_iff, Mark.Fits] at hts
    obtain ⟨keyword, _, hkeyword, ⟨_, _, rfl, ⟨equals, _, hequals,
      ⟨us, _, rfl, hus, semicolon, _, hsemicolon, rfl, rfl⟩, rfl⟩, rfl⟩, rfl⟩ := hts
    exact .var hkeyword (.init hname hequals ((hinit e rfl).whole hnesting hus) hsemicolon)

theorem form_of_normal (hstatement : ReadableWithin n) {s : Stmt} (hnormal : s.Normal)
    (hholes : s.holes = 0) (hnesting : s.nesting ≤ n) (hts : Forall₂ Mark.Fits s.marks ts) :
    StmtForm n .declaration ts s := by
  cases s with
  | declare name init => exact form_of_declare hnormal hnesting hts
  | _ => exact .statement (hstatement _ false ts hnormal hholes hnesting (by simp [IsDeclaration]) nofun hts)

theorem slotsForm_of_normal (hstatement : ReadableWithin n) {slots : List Slot} (hnormal : SlotsNormal slots)
    (hholes : slotHoles slots = 0) (hnesting : slotNesting slots ≤ n)
    (hts : Forall₂ Mark.Fits (slotMarks slots) ts) : SlotsForm n ts slots := by
  induction slots generalizing ts with
  | nil =>
    rw [slotMarks, List.forall₂_nil_left_iff] at hts
    subst hts
    exact .nil
  | cons slot slots ih =>
    cases slot with
    | none => simp [slotHoles] at hholes
    | some s =>
      rw [slotMarks, forall₂_append_left] at hts
      obtain ⟨us, vs, rfl, hus, hvs⟩ := hts
      rw [slotHoles, Nat.add_eq_zero_iff] at hholes
      rw [slotNesting, Nat.max_le] at hnesting
      have hs := form_of_normal hstatement hnormal.1 hholes.1 hnesting.1 hus
      exact (ih hnormal.2 hholes.2 hnesting.2 hvs).cons hs

theorem readableWithin_zero : ReadableWithin 0 := by
  intro s closed ts hnormal hholes hnesting hplace hclosed hts
  cases s with
  | declare => simp [IsDeclaration] at hplace
  | branch condition yes no => cases no <;> simp [nesting] at hnesting
  | _ => simp [nesting] at hnesting

theorem readableWithin_succ (hstatement : ReadableWithin n) : ReadableWithin (n + 1) := by
  intro s closed ts hnormal hholes hnesting hplace hclosed hts
  cases s with
  | expression e =>
    simp only [marks, forall₂_append_left, List.forall₂_cons_left_iff, List.forall₂_nil_left_iff,
      Mark.Fits] at hts
    obtain ⟨us, _, rfl, hus, semicolon, _, hsemicolon, rfl, rfl⟩ := hts
    exact .expression (hnormal.whole (Nat.le_of_succ_le_succ hnesting) hus) hsemicolon
  | print e =>
    simp only [marks, List.cons_append, forall₂_append_left, List.forall₂_cons_left_iff,
      List.forall₂_nil_left_iff, Mark.Fits] at hts
    obtain ⟨keyword, _, hkeyword, ⟨us, _, rfl, hus, semicolon, _, hsemicolon, rfl, rfl⟩, rfl⟩ := hts
    exact .print hkeyword (hnormal.whole (Nat.le_of_succ_le_succ hnesting) hus) hsemicolon
  | declare => simp [IsDeclaration] at hplace
  | block slots =>
    simp only [marks, List.cons_append, forall₂_append_left, List.forall₂_cons_left_iff,
      List.forall₂_nil_left_iff, Mark.Fits] at hts
    obtain ⟨left, _, hleft, ⟨us, _, rfl, hus, right, _, hright, rfl, rfl⟩, rfl⟩ := hts
    have hslots := slotsForm_of_normal hstatement hnormal hholes (Nat.le_of_succ_le_succ hnesting) hus
    exact hslots.block hleft hright
  | branch condition yes no =>
    cases no with
    | none =>
      simp only [marks, List.cons_append, forall₂_append_left, List.forall₂_cons_left_iff, Mark.Fits] at hts
      obtain ⟨keyword, _, hkeyword, ⟨left, _, hleft,
        ⟨cs, _, rfl, hcs, right, us, hright, hus, rfl⟩, rfl⟩, rfl⟩ := hts
      obtain ⟨hcondition, hyes, hplace⟩ := hnormal
      rw [nesting, Nat.add_le_add_iff_right, Nat.max_le] at hnesting
      cases closed with
      | true => simp [EndsOpen] at hclosed
      | false =>
        exact .ifThen hkeyword hleft (hcondition.whole hnesting.1 hcs) hright
          (hstatement yes false us hyes hholes hnesting.2 hplace nofun hus)
    | some no =>
      simp only [marks, List.cons_append, List.append_assoc, forall₂_append_left,
        List.forall₂_cons_left_iff, Mark.Fits] at hts
      obtain ⟨keyword, _, hkeyword, ⟨left, _, hleft, ⟨cs, _, rfl, hcs, right, _, hright,
        ⟨ys, _, rfl, hys, other, ns, hother, hns, rfl⟩, rfl⟩, rfl⟩, rfl⟩ := hts
      obtain ⟨hcondition, hyes, hno, hplaceYes, hplaceNo, hends⟩ := hnormal
      rw [nesting, Nat.add_le_add_iff_right, Nat.max_le, Nat.max_le] at hnesting
      rw [holes, Nat.add_eq_zero_iff] at hholes
      have hform := StmtForm.ifElse hkeyword hleft (hcondition.whole hnesting.1 hcs) hright
        (hstatement yes true ys hyes hholes.1 hnesting.2.1 hplaceYes (fun _ => hends) hys) hother
        (hstatement no closed ns hno hholes.2 hnesting.2.2 hplaceNo hclosed hns)
      simpa using hform
  | loop condition body =>
    simp only [marks, List.cons_append, forall₂_append_left, List.forall₂_cons_left_iff, Mark.Fits] at hts
    obtain ⟨keyword, _, hkeyword, ⟨left, _, hleft,
      ⟨cs, _, rfl, hcs, right, us, hright, hus, rfl⟩, rfl⟩, rfl⟩ := hts
    obtain ⟨hcondition, hbody, hplace⟩ := hnormal
    rw [nesting, Nat.add_le_add_iff_right, Nat.max_le] at hnesting
    exact .while hkeyword hleft (hcondition.whole hnesting.1 hcs) hright
      (hstatement body closed us hbody hholes hnesting.2 hplace hclosed hus)

theorem readableWithin (n : Nat) : ReadableWithin n := by
  induction n with
  | zero => exact readableWithin_zero
  | succ n ih => exact readableWithin_succ ih

end Stmt

/-- Parsing undoes writing out: the tokens of trees in normal form without holes are read back, without
an error, as the same trees. -/
theorem parse_of_written (slots : List Slot) (hnormal : Stmt.SlotsNormal slots)
    (hholes : Stmt.slotHoles slots = 0) (hnesting : Stmt.slotNesting slots ≤ Rule.maxNesting)
    (tokens : List Token) (hwritten : Written slots (beforeEnd tokens)) : parse tokens = ⟨slots, []⟩ := by
  rw [parse_eq_iff]
  exact Stmt.slotsForm_of_normal (Stmt.readableWithin _) hnormal hholes hnesting hwritten

/-- The trees of `{ var a = -"b" + nil; if (a) { } else while (a < a or !a) a = (a = a); }`. -/
def sampleSlots : List Slot :=
  let a (line : Nat) : Token := ⟨.identifier, "a", none, line⟩
  [some (.block [
    some (.declare (a 1) (some (.binary (.unary .negate (.literal (.string "b") 1) 1) .add (.literal .nil 2) 1))),
    some (.branch (.var (a 3)) (.block []) (some (.loop
      (.logical (.binary (.var (a 4)) .less (.var (a 4)) 4) .or (.unary .not (.var (a 5)) 5) 4)
      (.expression (.assign (a 6) (.group (.assign (a 6) (.var (a 7))) 6))))))])]

def sampleTokens : List Token :=
  write sampleSlots ++ [.eof 7]

theorem parse_sampleTokens :
    Stmt.SlotsNormal sampleSlots ∧ Stmt.slotHoles sampleSlots = 0
      ∧ Stmt.slotNesting sampleSlots ≤ Rule.maxNesting
      ∧ parse sampleTokens = ⟨sampleSlots, []⟩ := by
  have hnormal : Stmt.SlotsNormal sampleSlots := by
    simp [sampleSlots, Stmt.SlotsNormal, Stmt.Normal, Stmt.IsDeclaration, Stmt.EndsOpen, Expr.Normal,
      Expr.tightness, InfixOp.level, Level.tightness]
  have hholes : Stmt.slotHoles sampleSlots = 0 := by decide
  have hnesting : Stmt.slotNesting sampleSlots ≤ Rule.maxNesting := by decide
  have hend : beforeEnd sampleTokens = write sampleSlots := by decide
  refine ⟨hnormal, hholes, hnesting, parse_of_written sampleSlots hnormal hholes hnesting _ ?_⟩
  rw [hend]
  exact written_write sampleSlots

/-! ### Forms written out -/

def Literal.kind : Literal → TokenKind
  | number _ => .number
  | string _ => .string

def Token.CarriesOwnLiteral (t : Token) : Prop :=
  t.kind = .number ∨ t.kind = .string → t.literal.map Literal.kind = some t.kind

instance (t : Token) : Decidable t.CarriesOwnLiteral :=
  inferInstanceAs (Decidable (_ → _))

theorem fits_append {as bs : List Mark} {us vs : List Token} (has : Forall₂ Mark.Fits as us)
    (hbs : Forall₂ Mark.Fits bs vs) : Forall₂ Mark.Fits (as ++ bs) (us ++ vs) :=
  List.rel_append has hbs

theorem fits_literal {t : Token} {v : Value} (ht : t.CarriesOwnLiteral) (hv : t.constant? = some v) :
    (Mark.literal v t.line).Fits t := by
  rw [Token.constant?] at hv
  cases hkind : t.kind
  case kwFalse | kwTrue | kwNil =>
    rw [hkind] at hv
    obtain rfl := Option.some.inj hv
    exact ⟨hkind, by simp [Value.literal?], rfl⟩
  case number | string =>
    obtain ⟨l, hl, hown⟩ := Option.map_eq_some_iff.1 (ht (by simp [hkind]))
    rw [hkind, hl] at hv
    obtain rfl := Option.some.inj hv
    cases l <;> exact ⟨hown.symm, by simp [Value.literal?, Literal.value, hl], rfl⟩
  all_goals simp [hkind] at hv

theorem fits_operations {operations : List Operation} {first : Expr} {ts : List Token}
    (hfirst : Forall₂ Mark.Fits first.marks ts)
    (hsigns : ∀ o ∈ operations, o.sign.kind = o.op.kind)
    (hrights : ∀ o ∈ operations, Forall₂ Mark.Fits o.right.marks o.tokens) :
    Forall₂ Mark.Fits (operations.foldl Operation.apply first).marks
      (ts ++ operations.flatMap Operation.text) := by
  induction operations generalizing first ts with
  | nil => simpa using hfirst
  | cons o operations ih =>
    obtain ⟨hsign, hsigns⟩ := List.forall_mem_cons.1 hsigns
    obtain ⟨hright, hrights⟩ := List.forall_mem_cons.1 hrights
    have hjoin : Forall₂ Mark.Fits (o.apply first).marks (ts ++ o.text) := by
      rw [Operation.apply, InfixOp.marks_join]
      exact fits_append hfirst (.cons ⟨hsign, rfl⟩ hright)
    simpa using ih hjoin hsigns hrights

theorem fits_of_exprForm {n : Nat} {rank : Rank} {ts : List Token} {e : Expr} (h : ExprForm n rank ts e)
    (hts : ∀ t ∈ ts, t.CarriesOwnLiteral) : Forall₂ Mark.Fits e.marks ts := by
  induction h with
  | @literal n t v hv => exact .cons (fits_literal (hts t (by simp)) hv) .nil
  | var => exact .cons rfl .nil
  | group hleft hright _ ih =>
    exact .cons ⟨hleft, rfl⟩ (fits_append (ih fun t ht => hts t (by simp [ht])) (.cons hright .nil))
  | unary hop _ ih =>
    exact .cons ⟨(UnaryOp.ofKind?_eq_some.1 hop).symm, rfl⟩ (ih fun t ht => hts t (by simp [ht]))
  | @chain n level levels ts first operations _ hsigns _ ihfirst ihrights =>
    refine fits_operations (ihfirst fun t ht => hts t (by simp [ht])) ?_ ?_
    · intro o ho
      exact (InfixOp.ofKind?_eq_some.1 (hsigns o ho)).2.symm
    · intro o ho
      refine ihrights o ho fun t ht => hts t ?_
      exact List.mem_append_right _ (List.mem_flatMap.2 ⟨o, ho, List.mem_cons_of_mem _ ht⟩)
  | plain _ ih => exact ih hts
  | assign _ hequals _ ih => exact .cons rfl (.cons hequals (ih fun t ht => hts t (by simp [ht])))

theorem fits_of_varForm {n : Nat} {keyword : Token} {ts : List Token} {s : Stmt} (h : VarForm n ts s)
    (hkeyword : keyword.kind = .kwVar) (hts : ∀ t ∈ ts, t.CarriesOwnLiteral) :
    Forall₂ Mark.Fits s.marks (keyword :: ts) := by
  cases h with
  | bare _ hsemicolon => exact .cons hkeyword (.cons rfl (.cons hsemicolon .nil))
  | init _ hequals he hsemicolon =>
    have he := fits_of_exprForm he fun t ht => hts t (by simp [ht])
    exact .cons hkeyword (.cons rfl (.cons hequals (fits_append he (.cons hsemicolon .nil))))

theorem fits_of_parts {parts : List (List Token × Stmt)}
    (h : ∀ p ∈ parts, Forall₂ Mark.Fits p.2.marks p.1) :
    Forall₂ Mark.Fits (Stmt.slotMarks (parts.map fun p => some p.2)) (parts.flatMap (·.1)) := by
  induction parts with
  | nil => exact .nil
  | cons p parts ih =>
    obtain ⟨hp, hparts⟩ := List.forall_mem_cons.1 h
    exact fits_append hp (ih hparts)

theorem fits_of_stmtForm {n : Nat} {position : Position} {ts : List Token} {s : Stmt}
    (h : StmtForm n position ts s) (hfor : ∀ t ∈ ts, t.kind ≠ .kwFor)
    (hts : ∀ t ∈ ts, t.CarriesOwnLiteral) : Forall₂ Mark.Fits s.marks ts := by
  induction h with
  | var hkeyword h => exact fits_of_varForm h hkeyword fun t ht => hts t (by simp [ht])
  | statement _ ih => exact ih hfor hts
  | expression he hsemicolon =>
    have he := fits_of_exprForm he fun t ht => hts t (by simp [ht])
    exact fits_append he (.cons hsemicolon .nil)
  | print hkeyword he hsemicolon =>
    have he := fits_of_exprForm he fun t ht => hts t (by simp [ht])
    exact .cons hkeyword (fits_append he (.cons hsemicolon .nil))
  | @block n closed left right parts hleft _ hright ih =>
    refine .cons hleft (fits_append (fits_of_parts ?_) (.cons hright .nil))
    intro p hp
    have hmem : ∀ t ∈ p.1, t ∈ left :: parts.flatMap (·.1) ++ [right] := by
      intro t ht
      have hflat : t ∈ parts.flatMap (·.1) := List.mem_flatMap.2 ⟨p, hp, ht⟩
      exact List.mem_append_left _ (List.mem_cons_of_mem _ hflat)
    exact ih p hp (fun t ht => hfor t (hmem t ht)) fun t ht => hts t (hmem t ht)
  | ifThen hkeyword hleft hcondition hright _ ih =>
    have hcondition := fits_of_exprForm hcondition fun t ht => hts t (by simp [ht])
    have hyes := ih (fun t ht => hfor t (by simp [ht])) fun t ht => hts t (by simp [ht])
    exact .cons hkeyword (.cons hleft (fits_append hcondition (.cons hright hyes)))
  | ifElse hkeyword hleft hcondition hright _ hother _ ihyes ihno =>
    have hcondition := fits_of_exprForm hcondition fun t ht => hts t (by simp [ht])
    have hyes := ihyes (fun t ht => hfor t (by simp [ht])) fun t ht => hts t (by simp [ht])
    have hno := ihno (fun t ht => hfor t (by simp [ht])) fun t ht => hts t (by simp [ht])
    exact fits_append (.cons hkeyword (.cons hleft (fits_append hcondition (.cons hright hyes))))
      (.cons hother hno)
  | «while» hkeyword hleft hcondition hright _ ih =>
    have hcondition := fits_of_exprForm hcondition fun t ht => hts t (by simp [ht])
    have hbody := ih (fun t ht => hfor t (by simp [ht])) fun t ht => hts t (by simp [ht])
    exact .cons hkeyword (.cons hleft (fits_append hcondition (.cons hright hbody)))
  | @«for» n closed keyword left semicolon right is cs us ts init condition increment body hkeyword =>
    exact absurd hkeyword (hfor keyword (by simp))

/-- Writing out undoes parsing: when no loop is a `for`, the tokens before the end of input are a way of
writing the parsed trees out. -/
theorem written_of_parse (tokens : List Token) (hfor : ∀ t ∈ tokens, t.kind ≠ .kwFor)
    (hliteral : ∀ t ∈ tokens, t.CarriesOwnLiteral) (herrors : (parse tokens).errors = []) :
    Written (parse tokens).slots (beforeEnd tokens) := by
  obtain ⟨parts, htokens, hslots, hparts⟩ := errors_eq_nil_iff.1 herrors
  rw [Written, htokens, hslots]
  refine fits_of_parts ?_
  intro p hp
  have hmem : ∀ t ∈ p.1, t ∈ tokens := by
    intro t ht
    refine mem_of_mem_beforeEnd ?_
    rw [htokens]
    exact List.mem_flatMap.2 ⟨p, hp, ht⟩
  exact fits_of_stmtForm (hparts p hp) (fun t ht => hfor t (hmem t ht)) fun t ht => hliteral t (hmem t ht)

theorem written_sampleTokens :
    (∀ t ∈ sampleTokens, t.kind ≠ .kwFor) ∧ (∀ t ∈ sampleTokens, t.CarriesOwnLiteral)
      ∧ (parse sampleTokens).errors = [] ∧ Written (parse sampleTokens).slots (beforeEnd sampleTokens) := by
  have hfor : ∀ t ∈ sampleTokens, t.kind ≠ .kwFor := by decide
  have hliteral : ∀ t ∈ sampleTokens, t.CarriesOwnLiteral := by decide
  have herrors : (parse sampleTokens).errors = [] := by decide +kernel
  exact ⟨hfor, hliteral, herrors, written_of_parse sampleTokens hfor hliteral herrors⟩

end Lox
