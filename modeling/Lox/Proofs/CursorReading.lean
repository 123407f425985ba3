import Lox.Proofs.Cursor
import Lox.Proofs.Progress
/-!
# The parser on a cursor always comes to an end

Each rule of the parser on a cursor does what the rule of the grammar says: it comes to an end, with the same
answer or failure, having moved the cursor to the tokens that the rule leaves.
-/

namespace Lox

namespace Cursor

variable {α β : Type}

/-! ### Steps -/

section Steps

variable {s s' : Cursor} {step : Step α} {parser : Parser α} {a : α}

theorem step_bind {next : α → Step β} (h : step s = some (a, s')) : (step >>= next) s = next a s' := by
  simp only [bind, StateT.bind, h, Option.bind_some]

theorem bind_of_ok {next : α → Parser β} (h : parser s = some (.ok a, s')) : (parser >>= next) s = next a s' :=
  @step_bind _ _ s s' parser (.ok a) (ExceptT.bindCont next) h

theorem bind_of_error {next : α → Parser β} {error : ParseError} (h : parser s = some (.error error, s')) :
    (parser >>= next) s = some (.error error, s') :=
  @step_bind _ _ s s' parser (.error error) (ExceptT.bindCont next) h

theorem lift_apply (h : step s = some (a, s')) : (liftM step : Parser α) s = some (.ok a, s') := by
  change (Except.ok <$> step : Step (Except ParseError α)) s = _
  simp only [Functor.map, StateT.map, h]
  rfl

theorem lift_bind {next : α → Parser β} (h : step s = some (a, s')) :
    ((liftM step : Parser α) >>= next) s = next a s' :=
  bind_of_ok (lift_apply h)

end Steps

end Cursor

/-! ### The tokens that are read -/

/-- An array of tokens, with those before the first end-of-input token and that token itself. -/
structure Input where
  tokens : Array Token
  before : List Token
  last : Token
  starts : before ++ [last] <+: tokens.toList
  unended : ∀ t ∈ before, t.kind ≠ .eof
  ended : last.kind = .eof

namespace Input

open Cursor

variable {α β : Type} (input : Input)

/-- The parser before the tokens `rest`, with the given nesting and errors. -/
def place (depth : Nat) (rest : List Token) (errors : List ParseError) : Cursor :=
  ⟨input.before.length - rest.length, depth, errors⟩

variable {depth : Nat} {rest : List Token} {token : Token} {errors : List ParseError}

theorem get?_eq (hrest : rest <:+ input.before) :
    input.tokens[input.before.length - rest.length]? = some (rest.head?.getD input.last) := by
  obtain ⟨after, hafter⟩ := input.starts
  obtain ⟨front, hfront⟩ := hrest
  rw [← Array.getElem?_toList, ← hafter, ← hfront, List.length_append, Nat.add_sub_cancel, List.append_assoc,
    List.append_assoc, List.getElem?_append_right (Nat.le_refl _), Nat.sub_self]
  cases rest <;> simp

theorem peek_place (hrest : rest <:+ input.before) :
    peek input.tokens (input.place depth rest errors)
      = some (rest.head?.getD input.last, input.place depth rest errors) := by
  rw [peek, place, input.get?_eq hrest]
  rfl

theorem peek_cons (hrest : token :: rest <:+ input.before) :
    peek input.tokens (input.place depth (token :: rest) errors)
      = some (token, input.place depth (token :: rest) errors) :=
  input.peek_place hrest

theorem previous_place (hrest : token :: rest <:+ input.before) :
    previous input.tokens (input.place depth rest errors) = some (token, input.place depth rest errors) := by
  have hget := input.get?_eq hrest
  rw [List.length_cons, ← Nat.sub_sub] at hget
  rw [previous, place, hget]
  rfl

theorem isAtEnd_nil :
    isAtEnd input.tokens (input.place depth [] errors) = some (true, input.place depth [] errors) := by
  have hkind : (input.last.kind == .eof) = true := by simp [input.ended]
  rw [isAtEnd, step_bind (input.peek_place List.nil_suffix)]
  exact congrArg (fun atEnd => some (atEnd, input.place depth [] errors)) hkind

theorem isAtEnd_cons (hrest : token :: rest <:+ input.before) :
    isAtEnd input.tokens (input.place depth (token :: rest) errors)
      = some (false, input.place depth (token :: rest) errors) := by
  have hkind : (token.kind == .eof) = false := by simp [input.unended token (hrest.subset List.mem_cons_self)]
  rw [isAtEnd, step_bind (input.peek_place hrest)]
  exact congrArg (fun atEnd => some (atEnd, input.place depth (token :: rest) errors)) hkind

theorem findIdx_eq : input.tokens.findIdx (·.kind == .eof) = input.before.length := by
  obtain ⟨after, hafter⟩ := input.starts
  have hnone : input.before.findIdx (·.kind == .eof) = input.before.length := by
    rw [List.findIdx_eq_length]
    simpa using input.unended
  rw [← input.tokens.toArray_toList, ← hafter, List.findIdx_toArray, List.append_assoc, List.findIdx_append, hnone,
    if_neg (Nat.lt_irrefl _)]
  simp [List.findIdx_cons, input.ended]

theorem move_cons (hrest : token :: rest <:+ input.before) :
    move input.tokens (input.place depth (token :: rest) errors) = some ((), input.place depth rest errors) := by
  have hlength := hrest.length_le
  rw [List.length_cons] at hlength
  have hlt : input.before.length - (token :: rest).length < input.before.length := by
    rw [List.length_cons]
    omega
  have hmove : input.before.length - (token :: rest).length + 1 = input.before.length - rest.length := by
    rw [List.length_cons]
    omega
  rw [move, place, place, hmove, input.findIdx_eq, if_pos hlt]

theorem advance_cons (hrest : token :: rest <:+ input.before) :
    advance input.tokens (input.place depth (token :: rest) errors) = some (token, input.place depth rest errors) := by
  rw [advance, step_bind (input.isAtEnd_cons hrest), if_neg Bool.false_ne_true, step_bind (input.move_cons hrest)]
  exact input.previous_place hrest

/-- At the end there is a token before the cursor, too: the last one before the end, or the end itself if there
is no other. -/
theorem advance_nil : ∃ t, advance input.tokens (input.place depth [] errors) = some (t, input.place depth [] errors) := by
  obtain ⟨t, ht⟩ : ∃ t, input.tokens[input.before.length - 1]? = some t := by
    have hsize := input.starts.length_le
    rw [List.length_append, List.length_singleton, Array.length_toList] at hsize
    exact ⟨_, Array.getElem?_eq_getElem (by omega)⟩
  refine ⟨t, ?_⟩
  rw [advance, step_bind input.isAtEnd_nil, if_pos rfl, previous, place, List.length_nil, Nat.sub_zero, ht]
  rfl

theorem check_cons (kind : TokenKind) (hrest : token :: rest <:+ input.before) :
    check input.tokens kind (input.place depth (token :: rest) errors)
      = some (token.kind == kind, input.place depth (token :: rest) errors) := by
  rw [check, step_bind (input.isAtEnd_cons hrest), if_neg Bool.false_ne_true, step_bind (input.peek_place hrest)]
  rfl

theorem check_of_ne {kind : TokenKind} (hrest : rest <:+ input.before) (hkind : nextKind rest ≠ some kind) :
    check input.tokens kind (input.place depth rest errors) = some (false, input.place depth rest errors) := by
  cases rest with
  | nil =>
    rw [check, step_bind input.isAtEnd_nil]
    rfl
  | cons token after =>
    rw [input.check_cons kind hrest, beq_eq_false_iff_ne.2 (by simpa using hkind)]

theorem matchKind_of_eq {kind : TokenKind} (hrest : token :: rest <:+ input.before) (hkind : token.kind = kind) :
    matchKind input.tokens kind (input.place depth (token :: rest) errors)
      = some (true, input.place depth rest errors) := by
  rw [matchKind, step_bind (input.check_cons kind hrest), beq_iff_eq.2 hkind, if_pos rfl,
    step_bind (input.advance_cons hrest)]
  rfl

theorem matchKind_of_ne {kind : TokenKind} (hrest : rest <:+ input.before) (hkind : nextKind rest ≠ some kind) :
    matchKind input.tokens kind (input.place depth rest errors) = some (false, input.place depth rest errors) := by
  rw [matchKind, step_bind (input.check_of_ne hrest hkind)]
  rfl

theorem matchOperator_of_some {read : TokenKind → Option β} {op : β} (hrest : token :: rest <:+ input.before)
    (hop : read token.kind = some op) :
    matchOperator input.tokens read (input.place depth (token :: rest) errors)
      = some (some op, input.place depth rest errors) := by
  rw [matchOperator, step_bind (input.isAtEnd_cons hrest), if_neg Bool.false_ne_true,
    step_bind (input.peek_place hrest)]
  simp only [List.head?_cons, Option.getD_some, hop]
  rw [step_bind (input.advance_cons hrest)]
  rfl

theorem matchOperator_of_none {read : TokenKind → Option β} (hrest : rest <:+ input.before)
    (hop : ∀ token after, rest = token :: after → read token.kind = none) :
    matchOperator input.tokens read (input.place depth rest errors) = some (none, input.place depth rest errors) := by
  cases rest with
  | nil =>
    rw [matchOperator, step_bind input.isAtEnd_nil]
    rfl
  | cons token after =>
    rw [matchOperator, step_bind (input.isAtEnd_cons hrest), if_neg Bool.false_ne_true,
      step_bind (input.peek_place hrest)]
    simp only [List.head?_cons, Option.getD_some, hop token after rfl]
    rfl

/-! ### What it is to follow a rule -/

/-- The error of a fault at the first of the tokens `rest`. -/
def errorAt (rest : List Token) (fault : ParseFault) : ParseError :=
  ⟨fault, rest.head?.getD input.last⟩

/-- Before the tokens `rest` the parser comes to an end as the rule does, and the cursor is then before the tokens
that the rule leaves. -/
structure FollowsAt (depth : Nat) (parser : Parser α) (rule : Rule α) (rest : List Token) : Prop where
  suffix : (rule rest).rest <:+ rest
  runs : ∀ errors, parser (input.place depth rest errors)
    = some ((rule rest).result.mapError (input.errorAt (rule rest).rest), input.place depth (rule rest).rest
      (errors ++ (rule rest).findings.map (Finding.error input.last)))

/-- Wherever the parser starts before the end, it does what the rule does. -/
def Follows (depth : Nat) (parser : Parser α) (rule : Rule α) : Prop :=
  ∀ rest, rest <:+ input.before → input.FollowsAt depth parser rule rest

variable {input} {parser : Parser α} {rule : Rule α}

theorem FollowsAt.bind {next : α → Parser β} {nextRule : α → Rule β} (hrule : input.FollowsAt depth parser rule rest)
    (hnext : ∀ a, input.FollowsAt depth (next a) (nextRule a) (rule rest).rest) :
    input.FollowsAt depth (parser >>= next) (rule >>= nextRule) rest := by
  obtain ⟨hsuffix, hruns⟩ := hrule
  rcases h : rule rest with ⟨fault | a, findings, mid⟩
  · rw [h] at hsuffix hruns
    refine ⟨?_, fun errors => ?_⟩
    · rw [Rule.bind_of_error h]
      exact hsuffix
    · rw [Rule.bind_of_error h, Cursor.bind_of_error (hruns errors)]
      rfl
  · rw [h] at hsuffix hruns hnext
    have hsecond := hnext a
    refine ⟨?_, fun errors => ?_⟩
    · rw [Rule.bind_of_ok h]
      exact hsecond.suffix.trans hsuffix
    · rw [Rule.bind_of_ok h, Cursor.bind_of_ok (hruns errors), hsecond.runs, List.map_append, List.append_assoc]

/-- A step, after which there is less to do for the parser and for the rule. -/
theorem FollowsAt.step {step : Step β} {b : β} {next : β → Parser α} {rule' : Rule α} {rest' : List Token}
    (hstep : ∀ errors, step (input.place depth rest errors) = some (b, input.place depth rest' errors))
    (hrest : rest' <:+ rest) (hrule : rule rest = rule' rest') (hnext : input.FollowsAt depth (next b) rule' rest') :
    input.FollowsAt depth (liftM step >>= next) rule rest := by
  refine ⟨?_, fun errors => ?_⟩
  · rw [hrule]
    exact hnext.suffix.trans hrest
  · rw [lift_bind (hstep errors), hrule, hnext.runs]

/-- A step that only looks. -/
theorem FollowsAt.look {step : Step β} {b : β} {next : β → Parser α}
    (hstep : ∀ errors, step (input.place depth rest errors) = some (b, input.place depth rest errors))
    (hnext : input.FollowsAt depth (next b) rule rest) : input.FollowsAt depth (liftM step >>= next) rule rest :=
  .step hstep List.suffix_rfl rfl hnext

theorem FollowsAt.congr {rule' : Rule α} (h : input.FollowsAt depth parser rule' rest) (hrule : rule rest = rule' rest) :
    input.FollowsAt depth parser rule rest := by
  obtain ⟨hsuffix, hruns⟩ := h
  rw [← hrule] at hsuffix hruns
  exact ⟨hsuffix, hruns⟩

theorem follows_pure (a : α) : input.Follows depth (pure a) (pure a) := by
  intro rest hrest
  refine ⟨List.suffix_rfl, fun errors => ?_⟩
  change some (Except.ok a, _) = some (Except.ok a, input.place depth rest (errors ++ []))
  rw [List.append_nil]

theorem follows_fail (fault : ParseFault) :
    input.Follows depth (failAt input.tokens fault : Parser α) (Rule.fail fault) := by
  intro rest hrest
  refine ⟨List.suffix_rfl, fun errors => ?_⟩
  rw [failAt, lift_bind (input.peek_place hrest)]
  change some (Except.error _, _) = some (Except.error _, input.place depth rest (errors ++ []))
  rw [List.append_nil]
  rfl

theorem follows_note (fault : ParseFault) (token : Token) :
    input.Follows depth (liftM (report ⟨fault, token⟩)) (Rule.note fault token) :=
  fun _ _ => ⟨List.suffix_rfl, fun _ => lift_apply rfl⟩

theorem follows_bind {next : α → Parser β} {nextRule : α → Rule β} (hrule : input.Follows depth parser rule)
    (hnext : ∀ a, input.Follows depth (next a) (nextRule a)) :
    input.Follows depth (parser >>= next) (rule >>= nextRule) :=
  fun rest hrest => (hrule rest hrest).bind fun a => hnext a _ ((hrule rest hrest).suffix.trans hrest)

theorem follows_map {f : α → β} (hrule : input.Follows depth parser rule) :
    input.Follows depth (f <$> parser) (f <$> rule) := by
  rw [map_eq_pure_bind, map_eq_pure_bind]
  exact follows_bind hrule fun a => follows_pure (f a)

/-- A branch by the kind of the next token. The first parser starts behind that token, the second before it. -/
theorem follows_matchKind {kind : TokenKind} {yes no : Parser α} {chosen : Token → Rule α} {otherwise : Rule α}
    (hyes : ∀ token after, token :: after <:+ input.before → input.FollowsAt depth yes (chosen token) after)
    (hno : input.Follows depth no otherwise) :
    input.Follows depth (liftM (matchKind input.tokens kind) >>= fun found => if found = true then yes else no)
      (Rule.choose (fun token => if token.kind = kind then some (chosen token) else none) otherwise) := by
  intro rest hrest
  by_cases hnext : nextKind rest = some kind
  · obtain ⟨token, after, rfl, hkind⟩ := exists_cons_of_nextKind hnext
    refine .step (fun _ => input.matchKind_of_eq hrest hkind) (List.suffix_cons token after)
      (Rule.choose_of_eq hkind) ?_
    rw [if_pos rfl]
    exact hyes token after hrest
  · refine .step (fun _ => input.matchKind_of_ne hrest hnext) List.suffix_rfl (Rule.choose_of_ne hnext) ?_
    rw [if_neg Bool.false_ne_true]
    exact hno rest hrest

theorem follows_consume (kind : TokenKind) (fault : ParseFault) :
    input.Follows depth (consume input.tokens kind fault) (Rule.expect kind fault) := by
  intro rest hrest
  rw [consume, Rule.expect]
  by_cases hnext : nextKind rest = some kind
  · obtain ⟨token, after, rfl, hkind⟩ := exists_cons_of_nextKind hnext
    refine .look (fun _ => input.check_cons kind hrest) ?_
    rw [if_pos (beq_iff_eq.2 hkind), ← bind_pure (liftM _)]
    exact .step (fun _ => input.advance_cons hrest) (List.suffix_cons token after) (Rule.choose_of_eq hkind)
      (follows_pure token after ((List.suffix_cons token after).trans hrest))
  · refine .step (fun _ => input.check_of_ne hrest hnext) List.suffix_rfl (Rule.choose_of_ne hnext) ?_
    rw [if_neg Bool.false_ne_true]
    exact follows_fail fault rest hrest

theorem follows_consumeAfter (symbol : TokenKind) (after : Clause) :
    input.Follows depth (consumeAfter input.tokens symbol after) (Rule.close symbol after) :=
  follows_map (follows_consume symbol _)

/-- A level of nesting leaves room for one level less, and fails where there is no room. -/
theorem follows_nested {rules : Nat → Rule α} (hfull : rules 0 = Rule.fail .tooDeep)
    (hrule : ∀ room, Rule.maxNesting - depth = room + 1 → input.Follows (depth + 1) parser (rules (room + 1))) :
    input.Follows depth (nested input.tokens parser) (rules (Rule.maxNesting - depth)) := by
  intro rest hrest
  by_cases hdepth : Rule.maxNesting ≤ depth
  · rw [Nat.sub_eq_zero_of_le hdepth, hfull]
    have hfail := @follows_fail α input depth .tooDeep rest hrest
    refine ⟨hfail.suffix, fun errors => ?_⟩
    exact (step_bind rfl).trans ((congrFun (if_pos hdepth) _).trans (hfail.runs errors))
  · obtain ⟨room, hroom⟩ : ∃ room, Rule.maxNesting - depth = room + 1 := ⟨Rule.maxNesting - depth - 1, by omega⟩
    have hinner := hrule room hroom rest hrest
    rw [hroom]
    refine ⟨hinner.suffix, fun errors => ?_⟩
    refine (step_bind rfl).trans ((congrFun (if_neg hdepth) _).trans ?_)
    exact (step_bind rfl).trans (step_bind (hinner.runs errors))

/-! ### Expressions -/

/-- Operators of a level behind a left operand. The loop has the left operand so far, where the rule joins all
operands at the end. -/
theorem follows_operations {level : Level} {tighter : List Level} {operand : Rule Expr}
    (htakes : Rule.Takes 0 operand) (hoperand : input.Follows depth (infixes input.tokens tighter) operand)
    (left : Expr) :
    input.Follows depth (operations input.tokens level tighter left) (do
      let operations ← Rule.many (Rule.operation level operand)
      pure (operations.foldl (fun left (op, line, right) => op.join line left right) left)) := by
  intro rest hrest
  induction hlength : rest.length using Nat.strongRecOn generalizing rest left with
  | ind length ih =>
    rw [operations, Rule.many_bind (Rule.moves_operation level htakes)]
    by_cases hop : ∃ token after op, rest = token :: after ∧ InfixOp.ofKind? level token.kind = some op
    · obtain ⟨token, after, op, rfl, hop⟩ := hop
      have hchosen : Rule.operation level operand (token :: after)
          = (operand >>= fun right => pure (some (op, token.line, right))) after := by
        simp only [Rule.operation, Rule.choose, hop, Option.map_some]
      refine .step (fun _ => input.matchOperator_of_some hrest hop) (List.suffix_cons token after)
        (Rule.bind_congr hchosen) ?_
      refine .look (fun _ => input.previous_place hrest) ?_
      rw [bind_assoc]
      have hafter := (List.suffix_cons token after).trans hrest
      have hright := hoperand after hafter
      have hlt : (operand after).rest.length < length := by
        rw [← hlength, List.length_cons]
        exact Nat.lt_succ_of_le hright.suffix.length_le
      refine hright.bind fun right => ?_
      rw [pure_bind]
      exact ih _ hlt (op.join token.line left right) _ (hright.suffix.trans hafter) rfl
    · have hnone : ∀ token after, rest = token :: after → InfixOp.ofKind? level token.kind = none := by
        intro token after heq
        rw [Option.eq_none_iff_forall_ne_some]
        exact fun op hsome => hop ⟨token, after, op, heq, hsome⟩
      refine .step (fun _ => input.matchOperator_of_none hrest hnone) List.suffix_rfl ?_
        (follows_pure left rest hrest)
      have hstops : Rule.operation level operand rest = ⟨.ok none, [], rest⟩ := by
        cases rest with
        | nil => rfl
        | cons token after => simp only [Rule.operation, Rule.choose, hnone token after rfl]; rfl
      rw [Rule.bind_of_ok hstops]
      rfl

theorem follows_infixes {operand : Rule Expr} (htakes : Rule.Takes 1 operand)
    (hoperand : input.Follows depth (unary input.tokens) operand) (levels : List Level) :
    input.Follows depth (infixes input.tokens levels) (levels.foldr Rule.chain operand) := by
  induction levels with
  | nil =>
    rw [infixes]
    exact hoperand
  | cons level levels ih =>
    rw [infixes]
    have htighter := (Rule.takes_levels htakes levels).weaken (Nat.zero_le 1)
    exact follows_bind ih fun first => follows_operations htighter ih first

theorem follows_assignment {operand value : Rule Expr} (htakes : Rule.Takes 1 operand)
    (hoperand : input.Follows depth (unary input.tokens) operand)
    (hvalue : input.Follows depth (expression input.tokens) value) :
    input.Follows depth (assignment input.tokens) (Rule.assignment operand value) := by
  rw [assignment]
  refine follows_bind (follows_infixes htakes hoperand Level.all) fun target => ?_
  rw [Rule.accept?_bind]
  refine follows_matchKind (fun equals after hequals => ?_) (follows_pure target)
  refine .look (fun _ => input.previous_place hequals) ?_
  refine follows_bind hvalue (fun assigned => ?_) after ((List.suffix_cons equals after).trans hequals)
  cases target with
  | var name => exact follows_pure (Expr.assign name assigned)
  | _ => exact follows_bind (follows_note _ equals) fun _ => follows_pure _

/-- The token that a primary expression starts with is looked at before it is passed. -/
theorem follows_advance {next : Token → Parser α} {chosen : Rule α} {after : List Token}
    (hrest : token :: after <:+ input.before) (hrule : rule (token :: after) = chosen after)
    (hnext : input.FollowsAt depth (next token) chosen after) :
    input.FollowsAt depth (liftM (advance input.tokens) >>= next) rule (token :: after) :=
  .step (fun _ => input.advance_cons hrest) (List.suffix_cons token after) hrule hnext

theorem follows_primary {inner : Rule Expr} (hinner : input.Follows depth (expression input.tokens) inner) :
    input.Follows depth (primary input.tokens) (Rule.primary inner) := by
  intro rest hrest
  rw [primary]
  refine .look (fun _ => input.peek_place hrest) ?_
  cases rest with
  | nil =>
    simp only [List.head?_nil, Option.getD_none, input.ended]
    exact (follows_fail .missingExpression [] hrest).congr rfl
  | cons token after =>
    have hafter := (List.suffix_cons token after).trans hrest
    simp only [List.head?_cons, Option.getD_some]
    cases hkind : token.kind
    case kwFalse | kwTrue | kwNil | identifier =>
      exact follows_advance hrest (Rule.choose_of_some (by simp only [hkind])) (follows_pure _ after hafter)
    case number | string =>
      cases hliteral : token.literal with
      | none =>
        exact (follows_fail .missingExpression _ hrest).congr
          (Rule.choose_of_none (by simp only [hkind, hliteral, Option.map_none]))
      | some literal =>
        exact follows_advance hrest (Rule.choose_of_some (by simp only [hkind, hliteral, Option.map_some]))
          (follows_pure _ after hafter)
    case leftParen =>
      refine follows_advance hrest (Rule.choose_of_some (by simp only [hkind]; rfl)) ?_
      refine follows_bind hinner (fun e => ?_) after hafter
      exact follows_bind (follows_consumeAfter _ _) fun _ => follows_pure (Expr.group e token.line)
    all_goals
      exact (follows_fail .missingExpression _ hrest).congr (Rule.choose_of_none (by simp only [hkind]))

theorem follows_unary {deeper inner : Rule Expr}
    (hdeeper : input.Follows depth (nested input.tokens (unary input.tokens)) deeper)
    (hinner : input.Follows depth (expression input.tokens) inner) :
    input.Follows depth (unary input.tokens) (Rule.operandOver deeper inner) := by
  intro rest hrest
  rw [unary]
  cases rest with
  | nil =>
    have hnone : Rule.operandOver deeper inner [] = Rule.primary inner [] := rfl
    refine .step (fun _ => input.matchOperator_of_none hrest (by simp)) List.suffix_rfl hnone ?_
    exact follows_primary hinner [] hrest
  | cons token after =>
    cases hop : UnaryOp.ofKind? token.kind with
    | none =>
      refine .step (fun _ => input.matchOperator_of_none hrest (by simpa using hop)) List.suffix_rfl
        (Rule.choose_of_none (by rw [hop, Option.map_none])) ?_
      exact follows_primary hinner _ hrest
    | some op =>
      refine .step (fun _ => input.matchOperator_of_some hrest hop) (List.suffix_cons token after)
        (Rule.choose_of_some (by rw [hop, Option.map_some])) ?_
      refine .look (fun _ => input.previous_place hrest) ?_
      exact follows_bind hdeeper (fun right => follows_pure (Expr.unary op right token.line)) after
        ((List.suffix_cons token after).trans hrest)

/-- The operand of a unary operator, when `room` more levels may be opened. -/
def unaryOperand : Nat → Rule Expr
  | 0 => Rule.fail .tooDeep
  | room + 1 => Rule.operand room

theorem operand_eq (room : Nat) : Rule.operand room = Rule.operandOver (unaryOperand room) (Rule.expression room) := by
  cases room with
  | zero => rw [Rule.operand, Rule.expression, unaryOperand]
  | succ room => rw [Rule.operand, Rule.expression, unaryOperand]

/-- Both rules call themselves and each other only with less room, or with fewer operators left. -/
theorem follows_expression_unary (depth : Nat) :
    input.Follows depth (expression input.tokens) (Rule.expression (Rule.maxNesting - depth))
      ∧ input.Follows depth (unary input.tokens) (Rule.operand (Rule.maxNesting - depth)) := by
  induction hroom : Rule.maxNesting - depth using Nat.strongRecOn generalizing depth with
  | ind room ih =>
    rw [← hroom]
    have hexpression : input.Follows depth (expression input.tokens) (Rule.expression (Rule.maxNesting - depth)) := by
      rw [expression]
      refine follows_nested (by rw [Rule.expression]) fun less hless => ?_
      obtain ⟨hvalue, hoperand⟩ := ih less (by omega) (depth + 1) (by omega)
      rw [Rule.expression]
      exact follows_assignment (Rule.takes_expression_operand less).2 hoperand hvalue
    have hdeeper : input.Follows depth (nested input.tokens (unary input.tokens))
        (unaryOperand (Rule.maxNesting - depth)) :=
      follows_nested rfl fun less hless => (ih less (by omega) (depth + 1) (by omega)).2
    rw [operand_eq]
    exact ⟨hexpression, follows_unary hdeeper hexpression⟩

theorem follows_expression (depth : Nat) :
    input.Follows depth (expression input.tokens) (Rule.expression (Rule.maxNesting - depth)) :=
  (follows_expression_unary depth).1

/-! ### Statements -/

section Statements

variable {expr : Rule Expr} {stmt : Rule Stmt}

theorem follows_initializer (hexpr : input.Follows depth (expression input.tokens) expr) :
    input.Follows depth (initializer input.tokens) (Rule.optionalAfter .equal expr) := by
  rw [initializer, Rule.optionalAfter]
  refine follows_matchKind (fun equals after hequals => ?_) (follows_pure none)
  exact follows_map hexpr after ((List.suffix_cons equals after).trans hequals)

theorem follows_variableDeclaration (hexpr : input.Follows depth (expression input.tokens) expr) :
    input.Follows depth (variableDeclaration input.tokens) (Rule.variableDeclaration expr) := by
  refine follows_bind (follows_consume _ _) fun name => ?_
  refine follows_bind (follows_initializer hexpr) fun init => ?_
  exact follows_bind (follows_consumeAfter _ _) fun _ => follows_pure (Stmt.declare name init)

theorem follows_expressionStatement (hexpr : input.Follows depth (expression input.tokens) expr) :
    input.Follows depth (expressionStatement input.tokens) (Rule.expressionStatement expr) := by
  refine follows_bind hexpr fun e => ?_
  exact follows_bind (follows_consumeAfter _ _) fun _ => follows_pure (Stmt.expression e)

theorem follows_printStatement (hexpr : input.Follows depth (expression input.tokens) expr) :
    input.Follows depth (printStatement input.tokens) (Rule.printStatement expr) := by
  refine follows_bind hexpr fun e => ?_
  exact follows_bind (follows_consumeAfter _ _) fun _ => follows_pure (Stmt.print e)

theorem follows_expressionUntil (kind : TokenKind) (hexpr : input.Follows depth (expression input.tokens) expr) :
    input.Follows depth (expressionUntil input.tokens kind) (Rule.optionalUntil kind expr) := by
  intro rest hrest
  rw [expressionUntil]
  by_cases hnext : nextKind rest = some kind
  · obtain ⟨token, after, rfl, hkind⟩ := exists_cons_of_nextKind hnext
    have hstops : Rule.optionalUntil kind expr (token :: after) = (pure none : Rule (Option Expr)) (token :: after) := by
      rw [Rule.optionalUntil, if_pos hkind]
      rfl
    refine .step (fun _ => input.check_cons kind hrest) List.suffix_rfl hstops ?_
    rw [if_pos (beq_iff_eq.2 hkind)]
    exact follows_pure none _ hrest
  · have hreads : Rule.optionalUntil kind expr rest = (some <$> expr) rest := by
      cases rest with
      | nil => rfl
      | cons token after =>
        have hkind : token.kind ≠ kind := by simpa using hnext
        rw [Rule.optionalUntil, if_neg hkind]
    refine .step (fun _ => input.check_of_ne hrest hnext) List.suffix_rfl hreads ?_
    rw [if_neg Bool.false_ne_true]
    exact follows_map hexpr rest hrest

theorem forInitializer_eq : Rule.forInitializer expr
    = Rule.choose (fun token => if token.kind = .semicolon then some (pure none) else none)
        (Rule.choose (fun token => if token.kind = .kwVar then some (some <$> Rule.variableDeclaration expr) else none)
          (some <$> Rule.expressionStatement expr)) := by
  funext tokens
  cases tokens with
  | nil => rfl
  | cons token after =>
    simp only [Rule.forInitializer, Rule.choose]
    cases token.kind <;> rfl

theorem follows_forInitializer (hexpr : input.Follows depth (expression input.tokens) expr) :
    input.Follows depth (forInitializer input.tokens) (Rule.forInitializer expr) := by
  rw [forInitializer, forInitializer_eq]
  refine follows_matchKind (fun semicolon after hsemicolon => ?_) (follows_matchKind (fun keyword after hkeyword => ?_)
    (follows_map (follows_expressionStatement hexpr)))
  · exact follows_pure none after ((List.suffix_cons semicolon after).trans hsemicolon)
  · exact follows_map (follows_variableDeclaration hexpr) after ((List.suffix_cons keyword after).trans hkeyword)

/-! ### Recovery -/

theorem skip_place (previous : Token) (rest : List Token) (hrest : previous :: rest <:+ input.before) :
    skip input.tokens (input.place depth rest errors)
      = some ((), input.place depth (Rule.resumeAfter previous rest) errors) := by
  induction rest generalizing previous with
  | nil =>
    rw [skip, step_bind input.isAtEnd_nil]
    rfl
  | cons token rest ih =>
    have htoken := (List.suffix_cons previous _).trans hrest
    rw [skip, step_bind (input.isAtEnd_cons htoken), if_neg Bool.false_ne_true,
      step_bind (input.previous_place hrest), Rule.resumeAfter]
    by_cases hsemicolon : previous.kind = .semicolon
    · rw [if_pos hsemicolon, if_pos (Or.inl hsemicolon)]
      rfl
    · rw [if_neg hsemicolon, step_bind (input.peek_cons htoken)]
      by_cases hstarts : token.kind.startsStatement
      · rw [if_pos hstarts, if_pos (Or.inr hstarts)]
        rfl
      · rw [if_neg hstarts, if_neg (not_or.2 ⟨hsemicolon, hstarts⟩), step_bind (input.advance_cons htoken)]
        exact ih token htoken

theorem synchronize_place (hrest : rest <:+ input.before) :
    synchronize input.tokens (input.place depth rest errors) = some ((), input.place depth (Rule.resume rest) errors) := by
  rw [synchronize]
  cases rest with
  | nil =>
    obtain ⟨t, ht⟩ := @advance_nil input depth errors
    rw [step_bind ht, skip, step_bind input.isAtEnd_nil]
    rfl
  | cons token rest =>
    rw [step_bind (input.advance_cons hrest)]
    exact skip_place token rest hrest

theorem follows_recovering (hrule : input.Follows depth parser rule) :
    input.Follows depth (recovering input.tokens parser) (Rule.recovering rule) := by
  intro rest hrest
  obtain ⟨hsuffix, hruns⟩ := hrule rest hrest
  rcases h : rule rest with ⟨fault | a, findings, left⟩
  · have hrecovers := Rule.recovering_of_fails h
    rw [h] at hsuffix hruns
    refine ⟨?_, fun errors => ?_⟩
    · rw [hrecovers]
      exact (Rule.resume_suffix left).trans hsuffix
    · rw [hrecovers]
      refine (step_bind (hruns errors)).trans ?_
      refine (step_bind rfl).trans ((step_bind (synchronize_place (hsuffix.trans hrest))).trans ?_)
      rw [List.map_append, ← List.append_assoc]
      rfl
  · have hrecovers : Rule.recovering rule rest = ⟨.ok (some a), findings, left⟩ := by
      rw [Rule.recovering, h]
    rw [h] at hsuffix hruns
    refine ⟨?_, fun errors => ?_⟩
    · rw [hrecovers]
      exact hsuffix
    · rw [hrecovers]
      exact (step_bind (hruns errors)).trans rfl

/-! ### Statements with parts -/

variable (hexpr : input.Follows depth (expression input.tokens) expr)
  (hstmt : input.Follows depth (statement input.tokens) stmt)

include hexpr hstmt

theorem follows_declaration : input.Follows depth (declaration input.tokens) (Rule.declaration expr stmt) := by
  rw [declaration, Rule.declaration]
  refine follows_recovering ?_
  rw [declarationKind]
  refine follows_matchKind (fun keyword after hkeyword => ?_) hstmt
  exact follows_variableDeclaration hexpr after ((List.suffix_cons keyword after).trans hkeyword)

theorem follows_declarations (htakes : Rule.Takes 1 expr) (htakes' : Rule.Takes 1 stmt) (stops : TokenKind → Bool) :
    input.Follows depth (declarations input.tokens stops) (Rule.declarations (stops ·.kind) expr stmt) := by
  intro rest hrest
  induction hlength : rest.length using Nat.strongRecOn generalizing rest with
  | ind length ih =>
    rw [declarations, Rule.declarations, ← bind_pure (Rule.many _),
      Rule.many_bind (Rule.moves_declaration _ htakes htakes')]
    cases rest with
    | nil =>
      refine .look (fun _ => input.isAtEnd_nil) ?_
      rw [if_pos rfl]
      exact (follows_pure [] [] hrest).congr rfl
    | cons token after =>
      refine .look (fun _ => input.isAtEnd_cons hrest) ?_
      rw [if_neg Bool.false_ne_true]
      refine .look (fun _ => input.peek_cons hrest) ?_
      by_cases hstops : stops token.kind
      · have hnone : Rule.unlessAt (stops ·.kind) (Rule.declaration expr stmt) (token :: after)
            = ⟨.ok none, [], token :: after⟩ := by
          rw [Rule.unlessAt, if_pos hstops]
        rw [if_pos hstops]
        refine (follows_pure [] _ hrest).congr ?_
        rw [Rule.bind_of_ok hnone]
        rfl
      · have hsome : Rule.unlessAt (stops ·.kind) (Rule.declaration expr stmt) (token :: after)
            = (some <$> Rule.declaration expr stmt) (token :: after) := by
          rw [Rule.unlessAt, if_neg hstops]
        have hfirst := follows_declaration hexpr hstmt (token :: after) hrest
        obtain ⟨hsuffix, hlt⟩ := Rule.length_declaration_lt htakes htakes' (List.cons_ne_nil token after)
        have hmore := ih _ (hlength ▸ hlt) _ (hsuffix.trans hrest) rfl
        rw [if_neg hstops]
        refine FollowsAt.congr ?_ (Rule.bind_congr hsome)
        rw [map_eq_pure_bind, bind_assoc]
        refine hfirst.bind fun slot => ?_
        rw [pure_bind]
        refine hmore.bind fun slots => follows_pure (slot :: slots) _ ?_
        exact hmore.suffix.trans (hsuffix.trans hrest)

theorem follows_block (htakes : Rule.Takes 1 expr) (htakes' : Rule.Takes 1 stmt) :
    input.Follows depth (block input.tokens) (Rule.blockStatement expr stmt) := by
  rw [block]
  refine follows_bind (follows_declarations hexpr hstmt htakes htakes' _) fun slots => ?_
  exact follows_bind (follows_consumeAfter _ _) fun _ => follows_pure (Stmt.block slots)

theorem follows_ifStatement : input.Follows depth (ifStatement input.tokens) (Rule.ifStatement expr stmt) := by
  rw [ifStatement]
  refine follows_bind (follows_consumeAfter _ _) fun _ => ?_
  refine follows_bind hexpr fun condition => ?_
  refine follows_bind (follows_consumeAfter _ _) fun _ => ?_
  refine follows_bind hstmt fun yes => ?_
  have helse : input.Follows depth (elseBranch input.tokens) (Rule.optionalAfter .kwElse stmt) := by
    rw [elseBranch, Rule.optionalAfter]
    refine follows_matchKind (fun keyword after hkeyword => ?_) (follows_pure none)
    exact follows_map hstmt after ((List.suffix_cons keyword after).trans hkeyword)
  exact follows_bind helse fun no => follows_pure (Stmt.branch condition yes no)

theorem follows_whileStatement :
    input.Follows depth (whileStatement input.tokens) (Rule.whileStatement expr stmt) := by
  rw [whileStatement]
  refine follows_bind (follows_consumeAfter _ _) fun _ => ?_
  refine follows_bind hexpr fun condition => ?_
  refine follows_bind (follows_consumeAfter _ _) fun _ => ?_
  exact follows_bind hstmt fun body => follows_pure (Stmt.loop condition body)

/-- The line of a for statement is that of its keyword, which was just passed. -/
theorem followsAt_forStatement {keyword : Token} {after : List Token} (hkeyword : keyword :: after <:+ input.before) :
    input.FollowsAt depth (forStatement input.tokens) (Rule.forStatement keyword.line expr stmt) after := by
  rw [forStatement]
  refine .look (fun _ => input.previous_place hkeyword) ?_
  refine follows_bind (follows_consumeAfter _ _) (fun _ => ?_) after ((List.suffix_cons keyword after).trans hkeyword)
  refine follows_bind (follows_forInitializer hexpr) fun init => ?_
  refine follows_bind (follows_expressionUntil .semicolon hexpr) fun condition => ?_
  refine follows_bind (follows_consumeAfter _ _) fun _ => ?_
  refine follows_bind (follows_expressionUntil .rightParen hexpr) fun increment => ?_
  refine follows_bind (follows_consumeAfter _ _) fun _ => ?_
  exact follows_bind hstmt fun body => follows_pure (Rule.forLoop keyword.line init condition increment body)

theorem follows_statementKind (htakes : Rule.Takes 1 expr) (htakes' : Rule.Takes 1 stmt) :
    input.Follows depth (statementKind input.tokens) (Rule.statementOver expr stmt) := by
  intro rest hrest
  rw [statementKind]
  refine .look (fun _ => input.peek_place hrest) ?_
  cases rest with
  | nil =>
    simp only [List.head?_nil, Option.getD_none, input.ended]
    exact (follows_expressionStatement hexpr [] hrest).congr rfl
  | cons token after =>
    have hafter := (List.suffix_cons token after).trans hrest
    simp only [List.head?_cons, Option.getD_some]
    cases hkind : token.kind
    case kwFor =>
      exact follows_advance hrest (Rule.choose_of_some (by simp only [hkind]))
        (followsAt_forStatement hexpr hstmt hrest)
    case kwIf =>
      exact follows_advance hrest (Rule.choose_of_some (by simp only [hkind]))
        (follows_ifStatement hexpr hstmt after hafter)
    case kwPrint =>
      exact follows_advance hrest (Rule.choose_of_some (by simp only [hkind]))
        (follows_printStatement hexpr after hafter)
    case kwWhile =>
      exact follows_advance hrest (Rule.choose_of_some (by simp only [hkind]))
        (follows_whileStatement hexpr hstmt after hafter)
    case leftBrace =>
      exact follows_advance hrest (Rule.choose_of_some (by simp only [hkind]))
        (follows_block hexpr hstmt htakes htakes' after hafter)
    all_goals
      exact (follows_expressionStatement hexpr _ hrest).congr (Rule.choose_of_none (by simp only [hkind]))

end Statements

theorem follows_statement (depth : Nat) :
    input.Follows depth (statement input.tokens) (Rule.statement (Rule.maxNesting - depth)) := by
  induction hroom : Rule.maxNesting - depth using Nat.strongRecOn generalizing depth with
  | ind room ih =>
    rw [← hroom, statement]
    refine follows_nested (by rw [Rule.statement]) fun less hless => ?_
    have hexpr : input.Follows (depth + 1) (expression input.tokens) (Rule.expression less) := by
      rw [show less = Rule.maxNesting - (depth + 1) by omega]
      exact follows_expression (depth + 1)
    have hstmt := ih less (by omega) (depth + 1) (by omega)
    rw [Rule.statement]
    exact follows_statementKind hexpr hstmt (Rule.takes_expression less) (Rule.takes_statement less)

/-! ### Where the cursor goes -/

theorem place_drop {s : Cursor} (h : s.current ≤ input.before.length) :
    input.place s.depth (input.before.drop s.current) s.errors = s := by
  rw [place, List.length_drop, Nat.sub_sub_self h]

/-- What a parser does that follows a rule: it moves the cursor to the tokens that the rule leaves and adds to the
errors, and the nesting is what it was. -/
theorem Follows.moves {s : Cursor} {a : α} {findings : List Finding} {left : List Token}
    (h : input.Follows s.depth parser rule) (hs : s.current ≤ input.before.length)
    (hreply : rule (input.before.drop s.current) = ⟨.ok a, findings, left⟩) :
    parser s = some (.ok a, input.place s.depth left (s.errors ++ findings.map (Finding.error input.last)))
      ∧ left <:+ input.before.drop s.current := by
  obtain ⟨hsuffix, hruns⟩ := h _ (List.drop_suffix s.current input.before)
  have hrun := hruns s.errors
  rw [input.place_drop hs, hreply] at hrun
  rw [hreply] at hsuffix
  exact ⟨hrun, hsuffix⟩

/-- A declaration before the end moves the cursor, but not past the end. -/
theorem exists_declaration_eq {s : Cursor} (h : s.current < input.before.length) :
    ∃ slot s', declaration input.tokens s = some (.ok slot, s') ∧ s.current < s'.current
      ∧ s'.current ≤ input.before.length := by
  let rest := input.before.drop s.current
  let room := Rule.maxNesting - s.depth
  have hne : rest ≠ [] := by
    rw [Ne, List.drop_eq_nil_iff]
    omega
  obtain ⟨-, hlt⟩ := Rule.length_declaration_lt (Rule.takes_expression room) (Rule.takes_statement room) hne
  obtain ⟨slot, findings, left, hreply⟩ :=
    Rule.total_declaration (Rule.expression room) (Rule.statement room) rest
  have hfollows := follows_declaration (@follows_expression input s.depth) (follows_statement s.depth)
  obtain ⟨hruns, -⟩ := hfollows.moves h.le hreply
  refine ⟨slot, _, hruns, ?_, Nat.sub_le _ _⟩
  have hlength : rest.length = input.before.length - s.current := List.length_drop
  rw [hreply] at hlt
  dsimp only [place] at hlt ⊢
  omega

end Input

/-! ### Token lists -/

/-- The tokens up to the first end-of-input token, which is supplied on the line of the last token if there is
none. -/
def upToEnd (tokens : List Token) : List Token :=
  beforeEnd tokens ++ [endToken tokens]

theorem kind_ne_eof_of_mem_beforeEnd {tokens : List Token} {t : Token} (ht : t ∈ beforeEnd tokens) : t.kind ≠ .eof := by
  simpa using List.mem_takeWhile_imp ht

theorem endToken_kind (tokens : List Token) : (endToken tokens).kind = .eof := by
  rw [endToken]
  cases h : tokens.find? (·.kind == .eof) with
  | none => rfl
  | some t => simpa using List.find?_some h

theorem starts_closed (tokens : List Token) : tokens <+: Cursor.closed tokens := by
  rw [Cursor.closed]
  split
  · split
    · exact List.prefix_rfl
    · exact List.prefix_append _ _
  next hnil =>
    rw [List.getLast?_eq_none_iff.1 hnil]
    exact List.nil_prefix

/-- If there is an end-of-input token, nothing has to be supplied before it, and otherwise it is supplied at the
end. -/
theorem upToEnd_starts_closed (tokens : List Token) : upToEnd tokens <+: Cursor.closed tokens := by
  cases h : tokens.find? (·.kind == .eof) with
  | some t =>
    refine List.IsPrefix.trans ?_ (starts_closed tokens)
    have hlast : endToken tokens = t := by rw [endToken, h, Option.getD_some]
    obtain ⟨ht, front, after, rfl, hfront⟩ := List.find?_eq_some_iff_append.1 h
    have hbefore : beforeEnd (front ++ t :: after) = front := by
      rw [beforeEnd, List.takeWhile_append_of_pos, List.takeWhile_cons_of_neg, List.append_nil]
      · simpa using ht
      · simpa using hfront
    rw [upToEnd, hbefore, hlast]
    exact ⟨after, by simp⟩
  | none =>
    have hbefore : beforeEnd tokens = tokens := by
      rw [beforeEnd, List.takeWhile_eq_self_iff]
      simpa using h
    rw [upToEnd, hbefore, endToken, h, Option.getD_none, Cursor.closed]
    cases hlast : tokens.getLast? with
    | none =>
      rw [List.getLast?_eq_none_iff.1 hlast]
      exact List.prefix_rfl
    | some last =>
      have hkind : last.kind ≠ .eof := by simpa using List.find?_eq_none.1 h last (List.mem_of_getLast? hlast)
      dsimp only
      rw [if_neg hkind]
      exact List.prefix_rfl

def inputOf (tokens : List Token) : Input where
  tokens := (Cursor.closed tokens).toArray
  before := beforeEnd tokens
  last := endToken tokens
  starts := upToEnd_starts_closed tokens
  unended := fun _ => kind_ne_eof_of_mem_beforeEnd
  ended := endToken_kind tokens

theorem follows_program (tokens : List Token) :
    (inputOf tokens).Follows 0 (Cursor.declarations (inputOf tokens).tokens fun _ => false) Rule.program :=
  Input.follows_declarations (Input.follows_expression 0) (Input.follows_statement 0)
    (Rule.takes_expression _) (Rule.takes_statement _) _

theorem cursor_parse_eq (tokens : List Token) : Cursor.parse tokens = some (parse tokens) := by
  obtain ⟨slots, findings, rest, h⟩ := Rule.total_program (beforeEnd tokens)
  have hparse := parse_eq_of_program h
  have hstart : (inputOf tokens).place 0 (beforeEnd tokens) [] = ⟨0, 0, []⟩ := by
    rw [Input.place, inputOf, Nat.sub_self]
  have hruns := (follows_program tokens (beforeEnd tokens) List.suffix_rfl).runs []
  rw [h, hstart] at hruns
  have harray : (inputOf tokens).tokens = (Cursor.closed tokens).toArray := rfl
  rw [harray] at hruns
  rw [Cursor.parse, hruns, hparse]
  rfl

theorem parse_congr {tokens other : List Token} (h : upToEnd other = upToEnd tokens) : parse other = parse tokens := by
  obtain ⟨hbefore, hlast⟩ := List.append_inj' h rfl
  rw [beforeEnd, beforeEnd] at hbefore
  rw [parse, parse, hbefore, List.cons.inj hlast |>.1]

/-- The parser on a cursor comes to an end on every token list, with the slots and errors of the grammar, and
without a read outside of the array or a move past the first end-of-input token. Every declaration that it starts
before the end, at whatever nesting, moves the cursor, whether it succeeds or fails. Tokens behind the first end of
input have no influence. -/
theorem parse_on_cursor (tokens : List Token) :
    Cursor.parse tokens = some (parse tokens)
    ∧ (∀ s : Cursor, s.current < (beforeEnd tokens).length →
      ∃ slot s', Cursor.declaration (Cursor.closed tokens).toArray s = some (.ok slot, s')
        ∧ s.current < s'.current ∧ s'.current ≤ (beforeEnd tokens).length)
    ∧ (∀ room rest, rest ≠ [] →
      (Rule.declaration (Rule.expression room) (Rule.statement room) rest).rest.length < rest.length)
    ∧ upToEnd tokens <+: Cursor.closed tokens
    ∧ ∀ other, upToEnd other = upToEnd tokens → parse other = parse tokens := by
  refine ⟨cursor_parse_eq tokens, ?_, ?_, upToEnd_starts_closed tokens, fun other => parse_congr⟩
  · intro s hs
    exact Input.exists_declaration_eq (show s.current < (inputOf tokens).before.length from hs)
  · intro room rest hne
    exact (Rule.length_declaration_lt (Rule.takes_expression room) (Rule.takes_statement room) hne).2

/-- A closing brace that nothing opens is no declaration, but it is passed. -/
theorem parse_on_cursor_stray_brace :
    let tokens : List Token := [⟨.rightBrace, "\x7d", none, 1⟩, ⟨.kwVar, "var", none, 2⟩]
    Cursor.parse tokens = some (parse tokens)
    ∧ 0 < (beforeEnd tokens).length
    ∧ ∃ slot s', Cursor.declaration (Cursor.closed tokens).toArray ⟨0, 0, []⟩ = some (.ok slot, s')
        ∧ 0 < s'.current ∧ s'.current ≤ (beforeEnd tokens).length := by
  intro tokens
  obtain ⟨hparse, hdeclaration, -⟩ := parse_on_cursor tokens
  have hstart : 0 < (beforeEnd tokens).length := by decide
  exact ⟨hparse, hstart, hdeclaration ⟨0, 0, []⟩ hstart⟩

end Lox
