import Lox.Proofs.Program
/-!
# Forms are unique

A stretch of tokens is a way of writing one tree only, and where it ends is settled by what it starts with. More
nesting than a form needs does no harm, so two forms can always be compared at a nesting that is enough for both: there
both are read, and a rule reads a list of tokens in one way only. The same comparison takes a form of a known shape
apart, which tells how much nesting is left to its parts.
-/

namespace Lox

/-! ### More nesting -/

theorem ExprForm.mono {n m : Nat} {rank : Rank} {ts : List Token} {e : Expr} (h : ExprForm n rank ts e) (hle : n ≤ m) :
    ExprForm m rank ts e := by
  induction h generalizing m with
  | literal hv => exact .literal hv
  | var hkind => exact .var hkind
  | group hleft hright _ ih => exact .group hleft hright (ih hle)
  | unary hop _ ih =>
    obtain ⟨m, rfl⟩ := Nat.exists_eq_add_of_lt hle
    exact .unary hop (ih (by omega))
  | chain _ hsigns _ ihfirst ihrights => exact .chain (ihfirst hle) hsigns fun o ho => ihrights o ho hle
  | plain _ ih =>
    obtain ⟨m, rfl⟩ := Nat.exists_eq_add_of_lt hle
    exact .plain (ih (by omega))
  | assign hname hequals _ ih =>
    obtain ⟨m, rfl⟩ := Nat.exists_eq_add_of_lt hle
    exact .assign hname hequals (ih (by omega))

theorem VarForm.mono {n m : Nat} {ts : List Token} {s : Stmt} (h : VarForm n ts s) (hle : n ≤ m) : VarForm m ts s := by
  cases h with
  | bare hname hsemicolon => exact .bare hname hsemicolon
  | init hname hequals he hsemicolon => exact .init hname hequals (he.mono hle) hsemicolon

theorem InitForm.mono {n m : Nat} {ts : List Token} {init : Option Stmt} (h : InitForm n ts init) (hle : n ≤ m) :
    InitForm m ts init := by
  cases h with
  | absent hsemicolon => exact .absent hsemicolon
  | declared hkeyword h => exact .declared hkeyword (h.mono hle)
  | plain he hsemicolon => exact .plain (he.mono hle) hsemicolon

theorem OptionForm.mono {n m : Nat} {ts : List Token} {e : Option Expr} (h : OptionForm n ts e) (hle : n ≤ m) :
    OptionForm m ts e := by
  cases h with
  | absent => exact .absent
  | present he => exact .present (he.mono hle)

theorem StmtForm.mono {n m : Nat} {position : Position} {ts : List Token} {s : Stmt} (h : StmtForm n position ts s)
    (hle : n ≤ m) : StmtForm m position ts s := by
  induction h generalizing m with
  | var hkeyword h => exact .var hkeyword (h.mono hle)
  | statement _ ih => exact .statement (ih hle)
  | expression he hsemicolon =>
    obtain ⟨m, rfl⟩ := Nat.exists_eq_add_of_lt hle
    exact .expression (he.mono (by omega)) hsemicolon
  | print hkeyword he hsemicolon =>
    obtain ⟨m, rfl⟩ := Nat.exists_eq_add_of_lt hle
    exact .print hkeyword (he.mono (by omega)) hsemicolon
  | block hleft _ hright ih =>
    obtain ⟨m, rfl⟩ := Nat.exists_eq_add_of_lt hle
    exact .block hleft (fun p hp => ih p hp (by omega)) hright
  | ifThen hkeyword hleft hcondition hright _ ih =>
    obtain ⟨m, rfl⟩ := Nat.exists_eq_add_of_lt hle
    exact .ifThen hkeyword hleft (hcondition.mono (by omega)) hright (ih (by omega))
  | ifElse hkeyword hleft hcondition hright _ hother _ ihyes ihno =>
    obtain ⟨m, rfl⟩ := Nat.exists_eq_add_of_lt hle
    exact .ifElse hkeyword hleft (hcondition.mono (by omega)) hright (ihyes (by omega)) hother (ihno (by omega))
  | «while» hkeyword hleft hcondition hright _ ih =>
    obtain ⟨m, rfl⟩ := Nat.exists_eq_add_of_lt hle
    exact .while hkeyword hleft (hcondition.mono (by omega)) hright (ih (by omega))
  | «for» hkeyword hleft hinit hcondition hsemicolon hincrement hright _ ih =>
    obtain ⟨m, rfl⟩ := Nat.exists_eq_add_of_lt hle
    exact .for hkeyword hleft (hinit.mono (by omega)) (hcondition.mono (by omega)) hsemicolon
      (hincrement.mono (by omega)) hright (ih (by omega))

/-! ### One tree only -/

theorem Rule.Reads.unique {α : Type} {rule : Rule α} {tokens rest rest' : List Token} {a a' : α}
    (h : rule.Reads tokens a rest) (h' : rule.Reads tokens a' rest') : a = a' ∧ rest = rest' := by
  have hreply := h.symm.trans h'
  rw [Reply.mk.injEq, Except.ok.injEq] at hreply
  exact ⟨hreply.1, hreply.2.2⟩

/-- Two expressions that stand before closing symbols at the front of the same tokens are the same. -/
theorem ExprForm.unique {n m : Nat} {ts ts' rest rest' : List Token} {e e' : Expr} {stop stop' : Token}
    (h : ExprForm n .whole ts e) (h' : ExprForm m .whole ts' e')
    (hstop : stop.kind = .semicolon ∨ stop.kind = .rightParen)
    (hstop' : stop'.kind = .semicolon ∨ stop'.kind = .rightParen)
    (htokens : ts ++ stop :: rest = ts' ++ stop' :: rest') : ts = ts' ∧ e = e' ∧ stop = stop' ∧ rest = rest' := by
  have hread := Rule.reads_expression_stop (h.mono (Nat.le_max_left n m)) hstop rest
  have hread' := Rule.reads_expression_stop (h'.mono (Nat.le_max_right n m)) hstop' rest'
  rw [htokens] at hread
  obtain ⟨rfl, hrest⟩ := hread.unique hread'
  rw [hrest, List.append_cancel_right_eq] at htokens
  obtain ⟨rfl, rfl⟩ := List.cons.inj hrest
  exact ⟨htokens, rfl, rfl, rfl⟩

namespace StmtForm

/-- Two declarations at the front of the same tokens are the same, if no `else` goes on with either. -/
theorem unique {n m : Nat} {ts ts' rest rest' : List Token} {s s' : Stmt} (h : StmtForm n .declaration ts s)
    (h' : StmtForm m .declaration ts' s') (helse : nextKind rest ≠ some .kwElse)
    (helse' : nextKind rest' ≠ some .kwElse) (htokens : ts ++ rest = ts' ++ rest') :
    ts = ts' ∧ s = s' ∧ rest = rest' := by
  have hread := Rule.readsAt_of_stmtForm (h.mono (Nat.le_max_left n m)) rest helse
  have hread' := Rule.readsAt_of_stmtForm (h'.mono (Nat.le_max_right n m)) rest' helse'
  rw [htokens] at hread
  obtain ⟨hs, rfl⟩ := hread.unique hread'
  exact ⟨List.append_cancel_right htokens, Option.some.inj hs, rfl⟩

/-- Nothing that stands in a block starts with `else` or with the brace that closes it. -/
theorem kind_head {n : Nat} {position : Position} {token : Token} {ts : List Token} {s : Stmt}
    (h : StmtForm n position (token :: ts) s) : token.kind ≠ .kwElse ∧ token.kind ≠ .rightBrace := by
  obtain ⟨_, _, hcons, hstarts⟩ := h.exists_head
  obtain ⟨rfl, rfl⟩ := List.cons.inj hcons
  constructor <;> intro hkind <;> simp [starts, ExprForm.starts, hkind] at hstarts

end StmtForm

def PartsForm (n : Nat) (parts : List (List Token × Stmt)) : Prop :=
  ∀ p ∈ parts, StmtForm n .declaration p.1 p.2

namespace PartsForm

variable {n m : Nat} {parts parts' : List (List Token × Stmt)} {rest rest' : List Token}

theorem pair {p q : List Token × Stmt} :
    PartsForm n [p, q] ↔ StmtForm n .declaration p.1 p.2 ∧ StmtForm n .declaration q.1 q.2 := by
  simp [PartsForm]

/-- What comes behind a declaration in a block: the next one, or the end of the block. -/
theorem nextKind_ne_else (h : PartsForm n parts) (hstop : ∀ t ∈ rest.head?, t.kind = .rightBrace) :
    nextKind (parts.flatMap (·.1) ++ rest) ≠ some .kwElse := by
  cases parts with
  | nil =>
    cases rest with
    | nil => simp
    | cons t rest => simp [hstop t rfl]
  | cons p parts =>
    obtain ⟨token, ts, hp, -⟩ := (h p List.mem_cons_self).exists_head
    have hhead := (hp ▸ h p List.mem_cons_self).kind_head
    rw [List.flatMap_cons, hp]
    simpa using hhead.1

/-- Where declarations end, no other declaration begins. -/
theorem flatMap_ne {p : List Token × Stmt} (h : PartsForm n (p :: parts))
    (hstop : ∀ t ∈ rest.head?, t.kind = .rightBrace) : rest ≠ (p :: parts).flatMap (·.1) ++ rest' := by
  rintro rfl
  obtain ⟨token, ts, hp, -⟩ := (h p List.mem_cons_self).exists_head
  have hhead := (hp ▸ h p List.mem_cons_self).kind_head
  rw [List.flatMap_cons, hp] at hstop
  exact hhead.2 (hstop token rfl)

/-- Tokens are cut into declarations in one way only. -/
theorem unique (h : PartsForm n parts) (h' : PartsForm m parts') (hstop : ∀ t ∈ rest.head?, t.kind = .rightBrace)
    (hstop' : ∀ t ∈ rest'.head?, t.kind = .rightBrace)
    (htokens : parts.flatMap (·.1) ++ rest = parts'.flatMap (·.1) ++ rest') : parts = parts' := by
  induction parts generalizing parts' with
  | nil =>
    cases parts' with
    | nil => rfl
    | cons p' parts' => exact absurd htokens (h'.flatMap_ne hstop)
  | cons p parts ih =>
    cases parts' with
    | nil => exact absurd htokens.symm (h.flatMap_ne hstop')
    | cons p' parts' =>
      obtain ⟨hp, hparts⟩ := List.forall_mem_cons.1 h
      obtain ⟨hp', hparts'⟩ := List.forall_mem_cons.1 h'
      simp only [List.flatMap_cons, List.append_assoc] at htokens
      obtain ⟨hfirst, hsecond, hrest⟩ := hp.unique hp' (nextKind_ne_else hparts hstop)
        (nextKind_ne_else hparts' hstop') htokens
      rw [Prod.ext hfirst hsecond, ih hparts hparts' hrest]

end PartsForm

/-! ### Taking forms apart -/

namespace StmtForm

variable {n : Nat} {closed : Bool} {token : Token} {ts : List Token} {s : Stmt}

/-- What is known to be a statement is one where a declaration may stand, too. -/
theorem of_declaration {k : Nat} {s' : Stmt} (h : StmtForm n .declaration ts s)
    (hknown : StmtForm k (.statement closed) ts s') : StmtForm n (.statement false) ts s := by
  cases h with
  | var hkeyword =>
    obtain ⟨_, _, hcons, hstarts⟩ := hknown.exists_head
    obtain ⟨rfl, rfl⟩ := List.cons.inj hcons
    simp [starts, ExprForm.starts, hkeyword] at hstarts
  | statement h => exact h

theorem var_of_declaration (h : StmtForm n .declaration (token :: ts) s) (htoken : token.kind = .kwVar) :
    VarForm n ts s := by
  cases h with
  | var _ h => exact h
  | statement h =>
    obtain ⟨_, _, hcons, hstarts⟩ := h.exists_head
    obtain ⟨rfl, rfl⟩ := List.cons.inj hcons
    simp [starts, ExprForm.starts, htoken] at hstarts

/-- What the first token says about a statement: the keywords that are of no use here are left open. -/
theorem head_cases (h : StmtForm n (.statement closed) (token :: ts) s) :
    (ExprForm.starts token.kind ∧ ∃ m us semicolon e, n = m + 1 ∧ token :: ts = us ++ [semicolon]
        ∧ semicolon.kind = .semicolon ∧ ExprForm m .whole us e)
      ∨ (token.kind = .leftBrace ∧ ∃ m parts right, n = m + 1 ∧ ts = parts.flatMap (·.1) ++ [right]
        ∧ right.kind = .rightBrace ∧ PartsForm m parts)
      ∨ (token.kind = .kwWhile ∧ ∃ m left cs right us condition body, n = m + 1 ∧ ts = left :: cs ++ right :: us
        ∧ right.kind = .rightParen ∧ ExprForm m .whole cs condition ∧ StmtForm m (.statement closed) us body)
      ∨ token.kind ∈ [.kwPrint, .kwIf, .kwFor] := by
  generalize htokens : token :: ts = tokens at h
  cases h with
  | @expression m _ us e semicolon he hsemicolon =>
    obtain ⟨first, rest, rfl, hstarts⟩ := he.exists_head
    obtain ⟨rfl, -⟩ := List.cons.inj htokens
    exact .inl ⟨hstarts, m, _, semicolon, e, rfl, rfl, hsemicolon, he⟩
  | print hkeyword =>
    obtain ⟨rfl, -⟩ := List.cons.inj htokens
    exact .inr (.inr (.inr (by simp [hkeyword])))
  | @block m _ left right parts hleft hparts hright =>
    obtain ⟨rfl, hts⟩ := List.cons.inj htokens
    exact .inr (.inl ⟨hleft, m, parts, right, rfl, hts, hright, hparts⟩)
  | ifThen hkeyword =>
    obtain ⟨rfl, -⟩ := List.cons.inj htokens
    exact .inr (.inr (.inr (by simp [hkeyword])))
  | ifElse hkeyword =>
    obtain ⟨rfl, -⟩ := List.cons.inj htokens
    exact .inr (.inr (.inr (by simp [hkeyword])))
  | @«while» m _ keyword left right cs us condition body hkeyword _ hcondition hright hbody =>
    obtain ⟨rfl, hts⟩ := List.cons.inj htokens
    exact .inr (.inr (.inl ⟨hkeyword, m, left, cs, right, us, condition, body, rfl, hts, hright, hcondition, hbody⟩))
  | «for» hkeyword =>
    obtain ⟨rfl, -⟩ := List.cons.inj htokens
    exact .inr (.inr (.inr (by simp [hkeyword])))

/-- A block of known declarations has these, with one level of nesting less. -/
theorem parts_of_block {k : Nat} {right : Token} {parts : List (List Token × Stmt)}
    (h : StmtForm n (.statement closed) (token :: parts.flatMap (·.1) ++ [right]) s) (htoken : token.kind = .leftBrace)
    (hright : right.kind = .rightBrace) (hparts : PartsForm k parts) : ∃ m, n = m + 1 ∧ PartsForm m parts := by
  obtain ⟨hstarts, -⟩ | ⟨-, m, parts', right', rfl, htokens, hright', hparts'⟩ | ⟨hwhile, -⟩ | hother := h.head_cases
  · simp [ExprForm.starts, htoken] at hstarts
  · have heq := hparts'.unique hparts (by simpa using hright') (by simpa using hright) htokens.symm
    exact ⟨m, rfl, heq ▸ hparts'⟩
  · simp [htoken] at hwhile
  · simp [htoken] at hother

/-- A loop over a known condition has it, and behind it its body, with one level of nesting less. -/
theorem parts_of_while {k : Nat} {left right : Token} {cs us : List Token} {condition : Expr}
    (h : StmtForm n (.statement closed) (token :: left :: cs ++ right :: us) s) (htoken : token.kind = .kwWhile)
    (hright : right.kind = .rightParen) (hcondition : ExprForm k .whole cs condition) :
    ∃ m body, n = m + 1 ∧ ExprForm m .whole cs condition ∧ StmtForm m (.statement closed) us body := by
  obtain ⟨hstarts, -⟩ | ⟨hbrace, -⟩
    | ⟨-, m, left', cs', right', us', condition', body, rfl, htokens, hright', hcondition', hbody⟩
    | hother := h.head_cases
  · simp [ExprForm.starts, htoken] at hstarts
  · simp [htoken] at hbrace
  · obtain ⟨-, htokens⟩ := List.cons.inj htokens
    obtain ⟨rfl, rfl, -, rfl⟩ := hcondition.unique hcondition' (.inr hright) (.inr hright') htokens
    exact ⟨m, body, rfl, hcondition', hbody⟩
  · simp [htoken] at hother

/-- A statement that consists of a known expression has it, with one level of nesting less. -/
theorem expression_of_statement {k : Nat} {semicolon : Token} {us : List Token} {e : Expr}
    (h : StmtForm n (.statement closed) (us ++ [semicolon]) s) (hsemicolon : semicolon.kind = .semicolon)
    (he : ExprForm k .whole us e) : ∃ m, n = m + 1 ∧ ExprForm m .whole us e := by
  obtain ⟨first, rest, rfl, hstarts⟩ := he.exists_head
  obtain ⟨-, m, us', semicolon', e', rfl, htokens, hsemicolon', he'⟩ | ⟨hbrace, -⟩ | ⟨hwhile, -⟩
    | hother := h.head_cases
  · obtain ⟨rfl, rfl, -⟩ := he.unique he' (.inl hsemicolon) (.inl hsemicolon') htokens
    exact ⟨m, rfl, he'⟩
  · simp [ExprForm.starts, hbrace] at hstarts
  · simp [ExprForm.starts, hwhile] at hstarts
  · simp only [List.mem_cons, List.not_mem_nil, or_false] at hother
    obtain hkind | hkind | hkind := hother <;> simp [ExprForm.starts, hkind] at hstarts

end StmtForm

namespace InitForm

variable {n k : Nat} {ts : List Token} {s : Stmt}

/-- The first clause of a for loop can stand in a block. -/
theorem declaration (h : InitForm n ts (some s)) : StmtForm (n + 1) .declaration ts s := by
  cases h with
  | declared hkeyword h => exact .var hkeyword (h.mono (Nat.le_succ n))
  | plain he hsemicolon => exact .statement (.expression he hsemicolon)

/-- A declaration in a block that is known to be the first clause of a for loop needs no more nesting as that. -/
theorem of_declaration (h : StmtForm n .declaration ts s) (hknown : InitForm k ts (some s)) :
    InitForm n ts (some s) := by
  cases hknown with
  | declared hkeyword => exact .declared hkeyword (h.var_of_declaration hkeyword)
  | @plain _ _ semicolon he hsemicolon =>
    have hstatement : StmtForm (k + 1) (.statement false) _ _ := .expression he hsemicolon
    obtain ⟨m, rfl, he'⟩ := (h.of_declaration hstatement).expression_of_statement hsemicolon he
    exact .plain (he'.mono (Nat.le_succ m)) hsemicolon

end InitForm

end Lox
