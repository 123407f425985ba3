import Lox.Proofs.Built
import Lox.Proofs.Munch
import Lox.Proofs.Run
import Lox.Proofs.Submissions
import Mathlib.Data.List.Nodup
/-!
# What diagnostics point at

Every diagnostic that running a source appends tells of something that is in the source, and gives the line on
which it is. Lines travel from the scanner through tokens and trees up to errors raised in the middle of a run. Each
of these stages is followed on its own: where the tokens and errors of a scan are, which tokens errors of the
grammar are blamed on, and, by induction over the trees that are built, which tokens an error at run time tells of.
-/

namespace Lox

/-! ### The tokens of pieces -/

namespace Piece

/-- The text of a token that is a symbol is its spelling. -/
theorem lexeme_of_token? {p : Piece} {line : Nat} {t : Token} (ht : p.token? line = some t)
    (hkind : t.kind ∈ TokenKind.symbols) : t.lexeme = t.kind.spelling := by
  cases p with
  | symbol kind =>
    obtain rfl := Option.some.inj ht
    rfl
  | number whole fraction =>
    obtain rfl := Option.some.inj ht
    simp [TokenKind.symbols] at hkind
  | string body =>
    obtain rfl := Option.some.inj ht
    simp [TokenKind.symbols] at hkind
  | word text =>
    obtain rfl := Option.some.inj ht
    have hkeywords : ∀ kind ∈ TokenKind.keywords, kind ∉ TokenKind.symbols := by decide
    cases hword : TokenKind.keyword? (String.ofList text) with
    | none =>
      simp [hword, TokenKind.symbols] at hkind
    | some kind =>
      rw [hword] at hkind
      exact absurd hkind (hkeywords kind (TokenKind.keyword?_eq_some_iff.1 hword).1)
  | _ => simp [token?] at ht

theorem line_of_token? {p : Piece} {line : Nat} {t : Token} (ht : p.token? line = some t) : t.line = line := by
  cases p with
  | symbol kind => rw [← Option.some.inj ht]
  | number whole fraction => rw [← Option.some.inj ht]
  | string body => rw [← Option.some.inj ht]
  | word text => rw [← Option.some.inj ht]
  | _ => simp [token?] at ht

end Piece

/-! ### What a scan finds -/

section

variable {source : String} {t : Token}

/-- A token of a scan is the end of input on the last line, or it is read off a piece. -/
theorem mem_scan_tokens : t ∈ (scan source).tokens ↔ t = .eof (lineCount source)
    ∨ ∃ line p, (line, p) ∈ Piece.located 1 (Piece.split source.toList) ∧ p.token? line = some t := by
  rw [tokens_scan, Piece.gather, List.mem_append, List.mem_singleton, List.mem_filterMap, Prod.exists, or_comm]

theorem line_of_mem_scan (ht : t ∈ (scan source).tokens) : 1 ≤ t.line ∧ t.line ≤ lineCount source := by
  rcases mem_scan_tokens.1 ht with rfl | ⟨line, p, hmem, hread⟩
  · exact ⟨Nat.le_add_right _ _, Nat.le_refl _⟩
  · rw [Piece.line_of_token? hread]
    exact Piece.line_of_mem_located hmem

theorem lexeme_of_mem_scan (ht : t ∈ (scan source).tokens) (hkind : t.kind ∈ TokenKind.symbols) :
    t.lexeme = t.kind.spelling := by
  rcases mem_scan_tokens.1 ht with rfl | ⟨line, p, hmem, hread⟩
  · simp [Token.eof, TokenKind.symbols] at hkind
  · exact Piece.lexeme_of_token? hread hkind

theorem endToken_mem_scan (source : String) : endToken (scan source).tokens ∈ (scan source).tokens := by
  have heof : Token.eof (lineCount source) ∈ (scan source).tokens := mem_scan_tokens.2 (.inl rfl)
  cases hfind : (scan source).tokens.find? (·.kind == .eof) with
  | none => exact absurd rfl (List.find?_eq_none.1 hfind _ heof)
  | some last =>
    rw [endToken, hfind]
    exact List.mem_of_find?_eq_some hfind

end

/-- What is wrong with the characters of a source, as it is reported. An unexpected character is one that is cut
off since no lexeme starts with it, and its line is the one that it is on. A string that is not closed is reported on
the line on which it ends. -/
inductive LexicalCause (source : List Char) : Diagnostic → Prop where
  | unexpected {before after : List Cut} {c : Char} : Munch source (before ++ ⟨none, [c]⟩ :: after) →
      LexicalCause source
        ⟨.scanning, some (1 + (before.flatMap Cut.text).count '\n'), .unspecified, "Unexpected character."⟩
  | unterminated {before after : List Cut} {text : List Char} :
      Munch source (before ++ ⟨some .openString, text⟩ :: after) →
      LexicalCause source
        ⟨.scanning, some (1 + (before.flatMap Cut.text ++ text).count '\n'), .unspecified, "Unterminated string."⟩

section

variable {source : String} {e : ScanError}

theorem mem_scan_errors : e ∈ (scan source).errors
    ↔ ∃ line p, (line, p) ∈ Piece.located 1 (Piece.split source.toList) ∧ p.error? line = some e := by
  rw [errors_scan, Piece.gather, List.mem_filterMap, Prod.exists]

theorem line_of_mem_errors (he : e ∈ (scan source).errors) : 1 ≤ e.line ∧ e.line ≤ lineCount source := by
  obtain ⟨line, p, hmem, hread⟩ := mem_scan_errors.1 he
  have hline : e.line = line := by
    cases p with
    | stray c => rw [← Option.some.inj hread]
    | openString body => rw [← Option.some.inj hread]
    | _ => simp [Piece.error?] at hread
  rw [hline]
  exact Piece.line_of_mem_located hmem

theorem lexicalCause_of_mem_errors (he : e ∈ (scan source).errors) : LexicalCause source.toList e.diagnostic := by
  obtain ⟨line, p, hmem, hread⟩ := mem_scan_errors.1 he
  obtain ⟨before, after, hsplit, rfl⟩ := Piece.exists_append_of_mem_located hmem
  have hmunch : Munch source.toList (before.map Piece.cut ++ p.cut :: after.map Piece.cut) := by
    rw [Piece.munch_iff, hsplit, List.map_append, List.map_cons]
  have htexts : (before.map Piece.cut).flatMap Cut.text = before.flatMap Piece.text := List.flatMap_map _ _ _
  cases p with
  | stray c =>
    -- The piece is located where it ends, which is the line of the character since that is no newline.
    have hc : c ≠ '\n' := by
      rintro rfl
      exact Piece.ne_stray_newline _ (Piece.mem_of_mem_located hmem) rfl
    have hline : (Piece.stray c).newlines = 0 := by
      simp [Piece.newlines, Piece.text, hc]
    obtain rfl := Option.some.inj hread
    rw [hline, ← htexts]
    exact .unexpected hmunch
  | openString body =>
    obtain rfl := Option.some.inj hread
    have hcause := LexicalCause.unterminated hmunch
    rw [htexts, List.count_append, ← Nat.add_assoc] at hcause
    exact hcause
  | _ => simp [Piece.error?] at hread

end

/-! ### What is raised at run time -/

/-- What an error tells of is among the tokens: the name, or the operator, on the line that the error gives. -/
def RuntimeError.CausedIn (tokens : List Token) : RuntimeError → Prop
  | undefined name line | alreadyDefined name line =>
    ∃ t ∈ tokens, t.kind = .identifier ∧ t.lexeme = name ∧ t.line = line
  | operand op line => ∃ t ∈ tokens, t.lexeme = op.symbol ∧ t.line = line
  | operands op line => ∃ t ∈ tokens, t.lexeme = op.symbol ∧ t.line = line
  | output _ => True

def Halt.CausedIn (tokens : List Token) : Halt → Prop
  | error e => e.CausedIn tokens
  | exhausted => True

/-- Whatever the computation raises is among the errors that are expected. -/
def Raises {ε σ α : Type} (expected : ε → Prop) (x : EStateM ε σ α) : Prop :=
  ∀ state e after, x state = .error e after → expected e

namespace Raises

variable {ε σ α β : Type} {expected : ε → Prop}

theorem pure (a : α) : Raises expected (pure a : EStateM ε σ α) := by
  intro state e after h
  simp [Pure.pure, EStateM.pure] at h

theorem bind {x : EStateM ε σ α} {f : α → EStateM ε σ β} (hx : Raises expected x) (hf : ∀ a, Raises expected (f a)) :
    Raises expected (x >>= f) := by
  intro state e after h
  rw [bind_apply] at h
  cases hrun : x state with
  | ok a middle =>
    rw [hrun] at h
    exact hf a middle e after h
  | error e' middle =>
    rw [hrun] at h
    obtain ⟨rfl, -⟩ := EStateM.Result.error.inj h
    exact hx state _ middle hrun

end Raises

namespace Evaluation

variable {tokens : List Token} {name : Token}

theorem raises_ofExcept {α : Type} {expected : RuntimeError → Prop} {result : Except RuntimeError α}
    (h : ∀ e, result = .error e → expected e) : Raises expected (ofExcept result) := by
  intro env e after hraise
  cases result with
  | ok a => simp [ofExcept, Pure.pure, EStateM.pure] at hraise
  | error e' =>
    obtain ⟨rfl, -⟩ := EStateM.Result.error.inj hraise
    exact h _ rfl

/-- A computation that can only fail for a name raises an error that tells of the name. -/
theorem raises_of_name {α : Type} {x : Evaluation α} (hname : name ∈ tokens) (hkind : name.kind = .identifier)
    (h : ∀ env, (∃ a after, x env = .ok a after) ∨ ∃ fault, x env = .error (.ofName fault name) env) :
    Raises (RuntimeError.CausedIn tokens) x := by
  intro env e after hraise
  rcases h env with ⟨a, after', hok⟩ | ⟨fault, herror⟩
  · simp [hok] at hraise
  · rw [herror] at hraise
    obtain ⟨rfl, -⟩ := EStateM.Result.error.inj hraise
    cases fault <;> exact ⟨name, hname, hkind, rfl, rfl⟩

theorem raises_get (hname : name ∈ tokens) (hkind : name.kind = .identifier) :
    Raises (RuntimeError.CausedIn tokens) (get name) := by
  apply raises_of_name hname hkind
  intro env
  rw [get]
  split
  · exact .inl ⟨_, _, rfl⟩
  · exact .inr ⟨_, rfl⟩

theorem raises_assign (hname : name ∈ tokens) (hkind : name.kind = .identifier) (value : Value) :
    Raises (RuntimeError.CausedIn tokens) (assign name value) := by
  apply raises_of_name hname hkind
  intro env
  rw [assign]
  split
  · exact .inl ⟨_, _, rfl⟩
  · exact .inr ⟨_, rfl⟩

theorem raises_define (hname : name ∈ tokens) (hkind : name.kind = .identifier) (value : Value) :
    Raises (RuntimeError.CausedIn tokens) (define name value) := by
  apply raises_of_name hname hkind
  intro env
  rw [define]
  split
  · exact .inl ⟨_, _, rfl⟩
  · exact .inr ⟨_, rfl⟩

end Evaluation

/-- An operator only raises the error of its operand, on its line. -/
theorem UnaryOp.eq_of_apply_error {op : UnaryOp} {line : Nat} {right : Value} {e : RuntimeError}
    (h : op.apply line right = .error e) : e = .operand op line := by
  rw [UnaryOp.apply.eq_def] at h
  split at h <;> simp_all

theorem BinaryOp.eq_of_apply_error {op : BinaryOp} {line : Nat} {left right : Value} {e : RuntimeError}
    (h : op.apply line left right = .error e) : e = .operands op line := by
  rw [BinaryOp.apply.eq_def] at h
  split at h <;> simp_all

theorem UnaryOp.kind_mem_symbols (op : UnaryOp) : op.kind ∈ TokenKind.symbols := by
  cases op <;> decide

theorem BinaryOp.kind_mem_symbols (op : BinaryOp) : op.kind ∈ TokenKind.symbols := by
  cases op <;> decide

section

variable {tokens : List Token} {n : Nat}

/-- Evaluating an expression that is built from tokens raises only errors that tell of these. -/
theorem ExprBuilt.raises (hspelled : ∀ t ∈ tokens, t.kind ∈ TokenKind.symbols → t.lexeme = t.kind.spelling)
    {rank : Rank} {e : Expr} (h : ExprBuilt (· ∈ tokens) n rank e) : Raises (RuntimeError.CausedIn tokens) e.eval := by
  induction h with
  | literal => exact .pure _
  | var hgiven hkind => exact Evaluation.raises_get hgiven hkind
  | group _ _ _ ih => exact ih
  | @unary _ sign op _ hgiven hkind _ ih =>
    refine ih.bind fun right => Evaluation.raises_ofExcept ?_
    intro e he
    obtain rfl := UnaryOp.eq_of_apply_error he
    -- The error knows the operator, not its token. What ties them is that a symbol has a single spelling.
    have hlexeme := hspelled sign hgiven (hkind ▸ op.kind_mem_symbols)
    exact ⟨sign, hgiven, by rw [hlexeme, UnaryOp.symbol, hkind], rfl⟩
  | operand _ ih => exact ih
  | @joined _ _ sign op _ _ hgiven hkind _ _ ihleft ihright =>
    cases op with
    | binary op =>
      refine ihleft.bind fun left => ihright.bind fun right => Evaluation.raises_ofExcept ?_
      intro e he
      obtain rfl := BinaryOp.eq_of_apply_error he
      have hlexeme := hspelled sign hgiven (hkind ▸ op.kind_mem_symbols)
      exact ⟨sign, hgiven, by rw [hlexeme, BinaryOp.symbol, ← hkind]; rfl, rfl⟩
    | logical op =>
      refine ihleft.bind fun left => ?_
      split
      · exact .pure _
      · exact ihright
  | plain _ ih => exact ih
  | assign hgiven hkind _ ih =>
    refine ih.bind fun value => ?_
    exact (Evaluation.raises_assign hgiven hkind value).bind fun _ => .pure _

namespace Execution

variable {α : Type} {expected : Halt → Prop}

theorem raises_onEnvironment {x : Evaluation α} (h : Raises (fun e => expected (.error e)) x) :
    Raises expected (onEnvironment x) := by
  intro machine halt after hraise
  rw [onEnvironment] at hraise
  split at hraise
  · simp at hraise
  next e env herror =>
    obtain ⟨rfl, -⟩ := EStateM.Result.error.inj hraise
    exact h _ e env herror

theorem raises_printLine (h : ∀ reason, expected (.error (.output reason))) (text : String) :
    Raises expected (printLine text) := by
  intro machine halt after hraise
  rw [printLine] at hraise
  split at hraise
  · simp at hraise
  · obtain ⟨rfl, -⟩ := EStateM.Result.error.inj hraise
    exact h _

theorem raises_inScope {body : Execution α} (h : Raises expected body) : Raises expected (inScope body) := by
  intro machine halt after hraise
  rw [inScope] at hraise
  split at hraise
  · simp at hraise
  next halt' machine' herror =>
    obtain ⟨rfl, -⟩ := EStateM.Result.error.inj hraise
    exact h _ _ machine' herror

theorem raises_repeatWhile {test : Execution Bool} {body : Execution Unit} (hexhausted : expected .exhausted)
    (htest : Raises expected test) (hbody : Raises expected body) (rounds : Nat) :
    Raises expected (repeatWhile test body rounds) := by
  induction rounds with
  | zero =>
    intro machine halt after hraise
    obtain ⟨rfl, -⟩ := EStateM.Result.error.inj hraise
    exact hexhausted
  | succ rounds ih =>
    rw [repeatWhile]
    refine htest.bind fun holds => ?_
    cases holds with
    | true => exact hbody.bind fun _ => ih
    | false => exact .pure _

end Execution

namespace Stmt

variable {expected : Halt → Prop} {limit : Nat}

theorem raises_execSlots {slots : List Slot} (h : ∀ s, some s ∈ slots → Raises expected (exec limit s)) :
    Raises expected (execSlots limit slots) := by
  induction slots with
  | nil =>
    rw [execSlots_nil]
    exact .pure _
  | cons slot slots ih =>
    have hrest := ih fun s hs => h s (List.mem_cons_of_mem _ hs)
    cases slot with
    | none => rwa [execSlots_none]
    | some s =>
      rw [execSlots_some]
      exact (h s List.mem_cons_self).bind fun _ => hrest

theorem raises_block {slots : List Slot} (h : ∀ s, some s ∈ slots → Raises expected (exec limit s)) :
    Raises expected (exec limit (.block slots)) := by
  rw [exec_block]
  exact Execution.raises_inScope (raises_execSlots h)

theorem raises_expression {e : Expr} (h : Raises expected e.run) : Raises expected (exec limit (.expression e)) := by
  rw [exec_expression]
  exact h.bind fun _ => .pure _

theorem raises_loop {condition : Expr} {body : Stmt} (hexhausted : expected .exhausted)
    (hcondition : Raises expected condition.run) (hbody : Raises expected (exec limit body)) :
    Raises expected (exec limit (.loop condition body)) := by
  rw [exec_loop]
  exact Execution.raises_repeatWhile hexhausted (hcondition.bind fun _ => .pure _) hbody limit

theorem raises_branch {condition : Expr} {yes : Stmt} {no : Option Stmt} (hcondition : Raises expected condition.run)
    (hyes : Raises expected (exec limit yes)) (hno : ∀ s ∈ no, Raises expected (exec limit s)) :
    Raises expected (exec limit (.branch condition yes no)) := by
  rw [exec_branch]
  refine (hcondition.bind fun _ => .pure _).bind fun holds => ?_
  cases holds with
  | true => exact hyes
  | false =>
    cases no with
    | none => exact .pure _
    | some s => exact hno s rfl

/-- A for loop raises what its parts raise. -/
theorem raises_forLoop {line : Nat} {init : Option Stmt} {condition increment : Option Expr} {body : Stmt}
    (hexhausted : expected .exhausted) (hinit : ∀ s ∈ init, Raises expected (exec limit s))
    (hcondition : ∀ e ∈ condition, Raises expected e.run) (hincrement : ∀ e ∈ increment, Raises expected e.run)
    (hbody : Raises expected (exec limit body)) :
    Raises expected (exec limit (Rule.forLoop line init condition increment body)) := by
  have htest : Raises expected (condition.getD (.literal (.bool true) line)).run := by
    cases condition with
    | none => exact Execution.raises_onEnvironment (.pure _)
    | some e => exact hcondition e rfl
  have hloop : Raises expected (exec limit (Rule.forLoop line none condition increment body)) := by
    cases increment with
    | none => exact raises_loop hexhausted htest hbody
    | some e =>
      refine raises_loop hexhausted htest (raises_block ?_)
      simp [hbody, raises_expression (hincrement e rfl)]
  cases init with
  | none => exact hloop
  | some s =>
    show Raises expected (exec limit (.block [some s, some (Rule.forLoop line none condition increment body)]))
    apply raises_block
    simp [hloop, hinit s rfl]

end Stmt

variable (hspelled : ∀ t ∈ tokens, t.kind ∈ TokenKind.symbols → t.lexeme = t.kind.spelling)
include hspelled

theorem ExprBuilt.raises_run {e : Expr} (h : ExprBuilt (· ∈ tokens) n .whole e) :
    Raises (Halt.CausedIn tokens) e.run :=
  Execution.raises_onEnvironment (h.raises hspelled)

theorem DeclareBuilt.raises {limit : Nat} {s : Stmt} (h : DeclareBuilt (· ∈ tokens) n s) :
    Raises (Halt.CausedIn tokens) (Stmt.exec limit s) := by
  cases h with
  | @intro name init hgiven hkind hinit =>
    have hvalue : Raises (Halt.CausedIn tokens) (Stmt.initialValue init) := by
      cases init with
      | none => exact .pure _
      | some e => exact (hinit e rfl).raises_run hspelled
    rw [Stmt.exec_declare]
    exact hvalue.bind fun value => Execution.raises_onEnvironment (Evaluation.raises_define hgiven hkind value)

theorem InitBuilt.raises {limit : Nat} {s : Stmt} (h : InitBuilt (· ∈ tokens) n s) :
    Raises (Halt.CausedIn tokens) (Stmt.exec limit s) := by
  cases h with
  | declared h => exact h.raises hspelled
  | plain h => exact Stmt.raises_expression (h.raises_run hspelled)

/-- Executing a statement that is built from tokens raises only errors that tell of these. -/
theorem StmtBuilt.raises {limit : Nat} {position : Position} {s : Stmt} (h : StmtBuilt (· ∈ tokens) n position s) :
    Raises (Halt.CausedIn tokens) (Stmt.exec limit s) := by
  induction h with
  | declare h => exact h.raises hspelled
  | statement _ ih => exact ih
  | expression h => exact Stmt.raises_expression (h.raises_run hspelled)
  | print h =>
    rw [Stmt.exec_print]
    exact (h.raises_run hspelled).bind fun value => Execution.raises_printLine (fun _ => trivial) value.text
  | block _ ih => exact Stmt.raises_block ih
  | ifThen hcondition _ ih => exact Stmt.raises_branch (hcondition.raises_run hspelled) ih (by simp)
  | ifElse hcondition _ _ ihyes ihno =>
    exact Stmt.raises_branch (hcondition.raises_run hspelled) ihyes (by simpa using ihno)
  | «while» hcondition _ ih => exact Stmt.raises_loop trivial (hcondition.raises_run hspelled) ih
  | «for» _ _ hinit hcondition hincrement _ ih =>
    exact Stmt.raises_forLoop trivial (fun s hs => (hinit s hs).raises hspelled)
      (fun e he => (hcondition e he).raises_run hspelled) (fun e he => (hincrement e he).raises_run hspelled) ih

end

/-! ### Diagnostics of errors at run time -/

namespace RuntimeError

/-- The letter that the message of an error starts with. -/
def initial : RuntimeError → Char
  | undefined _ _ => 'U'
  | alreadyDefined _ _ => 'V'
  | operand _ _ | operands _ _ => 'O'
  | output _ => 'F'

theorem head?_message (e : RuntimeError) : e.message.toList.head? = some e.initial := by
  have happend : ∀ (c : Char) (s t : String), s.toList.head? = some c → (s ++ t).toList.head? = some c := by
    intro c s t h
    rw [String.toList_append, List.head?_append, h, Option.some_or]
  have hsum : "Operands of '+' must be two numbers or two strings.".toList.head? = some 'O' := by decide +kernel
  cases e with
  | undefined => exact happend 'U' _ _ (happend 'U' _ _ (by decide +kernel))
  | alreadyDefined => exact happend 'V' _ _ (happend 'V' _ _ (by decide +kernel))
  | operand => exact happend 'O' _ _ (happend 'O' _ _ (by decide +kernel))
  | operands op line =>
    cases op with
    | add => exact hsum
    | _ => exact happend 'O' _ _ (happend 'O' _ _ (by decide +kernel))
  | output => exact happend 'F' _ _ (by decide +kernel)

/-- The messages about operands are all different. -/
theorem nodup_operandMessages : ((UnaryOp.all.map fun op => (operand op 0).message)
    ++ BinaryOp.all.map fun op => (operands op 0).message).Nodup := by
  decide +kernel

theorem message_operands (op : BinaryOp) (line line' : Nat) :
    (operands op line).message = (operands op line').message := by
  cases op <;> rfl

theorem eq_of_message_operand {op op' : UnaryOp} {line line' : Nat}
    (h : (operand op line).message = (operand op' line').message) : op = op' :=
  List.inj_on_of_nodup_map (List.nodup_append.1 nodup_operandMessages).1 op.mem_all op'.mem_all h

theorem eq_of_message_operands {op op' : BinaryOp} {line line' : Nat}
    (h : (operands op line).message = (operands op' line').message) : op = op' := by
  rw [message_operands op line 0, message_operands op' line' 0] at h
  exact List.inj_on_of_nodup_map (List.nodup_append.1 nodup_operandMessages).2.1 op.mem_all op'.mem_all h

theorem message_operand_ne (op : UnaryOp) (op' : BinaryOp) (line line' : Nat) :
    (operand op line).message ≠ (operands op' line').message := by
  obtain ⟨-, -, hdisjoint⟩ := List.nodup_append.1 nodup_operandMessages
  rw [message_operands op' line' 0]
  exact hdisjoint _ (List.mem_map_of_mem op.mem_all) _ (List.mem_map_of_mem op'.mem_all)

/-- Different errors are told differently. -/
theorem diagnostic_injective : Function.Injective diagnostic := by
  intro e e' h
  obtain ⟨-, hline, -, hmessage⟩ := Diagnostic.mk.inj h
  have hinitial : e.initial = e'.initial := by
    have hhead := congrArg (·.toList.head?) hmessage
    rw [head?_message, head?_message] at hhead
    exact Option.some.inj hhead
  cases e with
  | undefined name line =>
    cases e' with
    | undefined name' line' =>
      have hname := (String.append_right_inj _).1 ((String.append_left_inj _).1 hmessage)
      rw [hname, Option.some.inj hline]
    | _ => simp [initial] at hinitial
  | alreadyDefined name line =>
    cases e' with
    | alreadyDefined name' line' =>
      have hname := (String.append_right_inj _).1 ((String.append_left_inj _).1 hmessage)
      rw [hname, Option.some.inj hline]
    | _ => simp [initial] at hinitial
  | operand op line =>
    cases e' with
    | operand op' line' => rw [eq_of_message_operand hmessage, Option.some.inj hline]
    | operands op' line' => exact absurd hmessage (message_operand_ne op op' line line')
    | _ => simp [initial] at hinitial
  | operands op line =>
    cases e' with
    | operand op' line' => exact absurd hmessage.symm (message_operand_ne op' op line' line)
    | operands op' line' => rw [eq_of_message_operands hmessage, Option.some.inj hline]
    | _ => simp [initial] at hinitial
  | output reason =>
    cases e' with
    | output reason' =>
      have hreason := (String.append_right_inj _).1 hmessage
      rw [hreason]
    | _ => simp [initial] at hinitial

/-- The line of an error is that of a token. -/
theorem CausedIn.exists_token {tokens : List Token} {e : RuntimeError} (h : e.CausedIn tokens) :
    ∀ line ∈ e.line?, ∃ t ∈ tokens, t.line = line := by
  intro line hline
  cases e with
  | undefined name line' | alreadyDefined name line' =>
    obtain rfl := Option.some.inj hline
    obtain ⟨t, ht, -, -, hat⟩ := h
    exact ⟨t, ht, hat⟩
  | operand op line' | operands op line' =>
    obtain rfl := Option.some.inj hline
    obtain ⟨t, ht, -, hat⟩ := h
    exact ⟨t, ht, hat⟩
  | output reason => simp [line?] at hline

end RuntimeError

/-! ### Diagnostics of a run -/

/-- The diagnostic tells of something in the source, on the line on which it is. -/
structure PointsInto (source : String) (d : Diagnostic) : Prop where
  scanning : d.stage = .scanning → LexicalCause source.toList d
  parsing : d.stage = .parsing → ∃ t ∈ (scan source).tokens, d.line = some t.line
    ∧ d.place = if t.kind = .eof then .inputEnd else .lexeme t.lexeme
  running : d.stage = .running → ∃ e : RuntimeError, d = e.diagnostic
  raised : ∀ e : RuntimeError, d = e.diagnostic → e.CausedIn (scan source).tokens
  unlined : d.line = none → ∃ reason, d = (RuntimeError.output reason).diagnostic
  lined : ∀ line ∈ d.line, 1 ≤ line ∧ line ≤ 1 + source.toList.count '\n'

section

variable {source : String}

theorem pointsInto_scanError {e : ScanError} (he : e ∈ (scan source).errors) : PointsInto source e.diagnostic where
  scanning _ := lexicalCause_of_mem_errors he
  parsing h := by simp [ScanError.diagnostic] at h
  running h := by simp [ScanError.diagnostic] at h
  raised e' h := by simp [ScanError.diagnostic, RuntimeError.diagnostic] at h
  unlined h := by simp [ScanError.diagnostic] at h
  lined line hline := by
    obtain rfl := Option.some.inj hline
    exact line_of_mem_errors he

theorem pointsInto_parseError {e : ParseError} (he : e ∈ (parse (scan source).tokens).errors) :
    PointsInto source e.diagnostic := by
  have hmem : e.token ∈ (scan source).tokens := by
    rcases token_of_mem_errors he with h | h
    · exact h
    · rw [h]
      exact endToken_mem_scan source
  exact {
    scanning := fun h => by simp [ParseError.diagnostic] at h
    parsing := fun _ => ⟨e.token, hmem, rfl, rfl⟩
    running := fun h => by simp [ParseError.diagnostic] at h
    raised := fun e' h => by simp [ParseError.diagnostic, RuntimeError.diagnostic] at h
    unlined := fun h => by simp [ParseError.diagnostic] at h
    lined := fun line hline => by
      obtain rfl := Option.some.inj hline
      exact line_of_mem_scan hmem }

theorem pointsInto_runtimeError {e : RuntimeError} (he : e.CausedIn (scan source).tokens) :
    PointsInto source e.diagnostic where
  scanning h := by simp [RuntimeError.diagnostic] at h
  parsing h := by simp [RuntimeError.diagnostic] at h
  running _ := ⟨e, rfl⟩
  raised e' h := RuntimeError.diagnostic_injective h ▸ he
  unlined h := by
    cases e with
    | output reason => exact ⟨reason, rfl⟩
    | _ => simp [RuntimeError.diagnostic, RuntimeError.line?] at h
  lined line hline := by
    obtain ⟨t, ht, rfl⟩ := he.exists_token line hline
    exact line_of_mem_scan ht

/-- What executing the statements of a source reports points into the source. -/
theorem pointsInto_of_effect {limit : Nat} {machine after : Machine} {ds : List Diagnostic}
    (h : Stmt.effect limit (parse (scan source).tokens).slots machine = some (after, ds)) :
    ∀ d ∈ ds, PointsInto source d := by
  have hraises : Raises (Halt.CausedIn (scan source).tokens)
      (Stmt.execSlots limit (parse (scan source).tokens).slots) := by
    apply Stmt.raises_execSlots
    intro s hs
    exact (built_of_parse hs).raises fun t => lexeme_of_mem_scan
  intro d hd
  rw [Stmt.effect] at h
  split at h
  · obtain ⟨-, rfl⟩ := Prod.mk.inj (Option.some.inj h)
    simp at hd
  next e machine' herror =>
    obtain ⟨-, rfl⟩ := Prod.mk.inj (Option.some.inj h)
    obtain rfl := List.mem_singleton.1 hd
    exact pointsInto_runtimeError (hraises machine (.error e) machine' herror)
  · simp at h

end

/-- Every diagnostic that running a source appends to the journal, and shows to a reporter, points into the
source. -/
theorem pointsInto_of_run {limit : Nat} {session result : Session} {source : String}
    (h : session.run limit source = some result) :
    ∃ ds, result.journal = session.journal.reportAll ds ∧ ∀ d ∈ ds, PointsInto source d := by
  have hlexical : ∀ d ∈ (scan source).errors.map ScanError.diagnostic, PointsInto source d := by
    intro d hd
    obtain ⟨e, he, rfl⟩ := List.mem_map.1 hd
    exact pointsInto_scanError he
  have hsyntactic : ∀ d ∈ (parse (scan source).tokens).errors.map ParseError.diagnostic, PointsInto source d := by
    intro d hd
    obtain ⟨e, he, rfl⟩ := List.mem_map.1 hd
    exact pointsInto_parseError he
  have hsource := List.forall_mem_append.2 ⟨hlexical, hsyntactic⟩
  have hload : (session.load source).1.journal = session.journal.reportAll
      ((scan source).errors.map ScanError.diagnostic
        ++ (parse (scan source).tokens).errors.map ParseError.diagnostic) :=
    (Journal.reportAll_append _ _ _).symm
  rw [Session.run_eq] at h
  split at h
  next =>
    obtain rfl := Option.some.inj h
    exact ⟨_, hload, hsource⟩
  next =>
    rw [Session.interpret_eq] at h
    obtain ⟨⟨machine, ds⟩, heffect, rfl⟩ := Option.map_eq_some_iff.1 h
    refine ⟨_ ++ ds, ?_, List.forall_mem_append.2 ⟨hsource, pointsInto_of_effect heffect⟩⟩
    rw [Journal.reportAll_append, ← hload]

/-- The operator is blamed on its own line, which is neither the first of its statement nor that of its operand. -/
theorem pointsInto_of_run_negation :
    let source := "var a = \"x\";\n\x7b print\n-\na; \x7d"
    let d : Diagnostic := ⟨.running, some 3, .unspecified, "Operand of '-' must be a number."⟩
    Session.run 1 {} source = some ⟨⟨⟨[("a", .string "x")], []⟩, {}⟩, { records := [d] }⟩ ∧ PointsInto source d := by
  intro source d
  have hrun : Session.run 1 {} source = some ⟨⟨⟨[("a", .string "x")], []⟩, {}⟩, { records := [d] }⟩ := by
    decide +kernel
  obtain ⟨ds, hjournal, hpoints⟩ := pointsInto_of_run hrun
  have hds : [d] = ds := congrArg Journal.records hjournal
  exact ⟨hrun, hpoints d (hds ▸ List.mem_singleton_self d)⟩

end Lox
