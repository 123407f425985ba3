import Lox.Grammar.Fault
/-!
# Grammar rules

A rule reads tokens from the front of a list and leaves the rest. It answers with a value or fails,
and in both cases says which faults it noted on the way and which tokens are left, so a failure can
be mended by the rule around it. The end-of-input token is not part of the list: a fault with no
token is blamed on it.
-/

namespace Lox

/-- A fault that was noted, with the token it is blamed on, or none at the end of input. -/
structure Finding where
  fault : ParseFault
  token : Option Token
deriving DecidableEq

/-- What a rule answers: a value or the fault it failed with, the faults noted, and the tokens left. -/
structure Reply (α : Type) where
  result : Except ParseFault α
  findings : List Finding
  rest : List Token

def Rule (α : Type) : Type :=
  List Token → Reply α

namespace Rule

variable {α β : Type}

/-- Answers without reading. -/
protected def pure (a : α) : Rule α :=
  fun tokens => ⟨.ok a, [], tokens⟩

/-- Goes on with another rule after a success. -/
protected def bind (rule : Rule α) (next : α → Rule β) : Rule β :=
  fun tokens =>
    match rule tokens with
    | ⟨.error fault, findings, rest⟩ => ⟨.error fault, findings, rest⟩
    | ⟨.ok a, findings, rest⟩ =>
      let reply := next a rest
      ⟨reply.result, findings ++ reply.findings, reply.rest⟩

instance : Monad Rule where
  pure := Rule.pure
  bind := Rule.bind

theorem bind_of_ok {rule : Rule α} {next : α → Rule β} {tokens rest : List Token} {a : α}
    {findings : List Finding} (h : rule tokens = ⟨.ok a, findings, rest⟩) :
    (rule >>= next) tokens
      = ⟨(next a rest).result, findings ++ (next a rest).findings, (next a rest).rest⟩ := by
  change Rule.bind rule next tokens = _
  rw [Rule.bind, h]

theorem bind_of_error {rule : Rule α} {next : α → Rule β} {tokens rest : List Token}
    {fault : ParseFault} {findings : List Finding}
    (h : rule tokens = ⟨.error fault, findings, rest⟩) :
    (rule >>= next) tokens = ⟨.error fault, findings, rest⟩ := by
  change Rule.bind rule next tokens = _
  rw [Rule.bind, h]

theorem bind_pure_eq (rule : Rule α) : Rule.bind rule Rule.pure = rule := by
  funext tokens
  rw [Rule.bind]
  split
  next h => exact h.symm
  next h => simp [h, Rule.pure]

theorem bind_bind_eq {γ : Type} (rule : Rule α) (next : α → Rule β) (after : β → Rule γ) :
    rule >>= next >>= after = rule >>= fun a => next a >>= after := by
  funext tokens
  rcases h : rule tokens with ⟨_ | a, findings, rest⟩
  · rw [bind_of_error (bind_of_error h), bind_of_error h]
  · rcases h' : next a rest with ⟨_ | b, findings', rest'⟩
    · rw [bind_of_ok h, bind_of_error h', bind_of_error]
      rw [bind_of_ok h, h']
    · rw [bind_of_ok h, bind_of_ok h', bind_of_ok]
      · rw [List.append_assoc]
      · rw [bind_of_ok h, h']

instance : LawfulMonad Rule :=
  LawfulMonad.mk' Rule bind_pure_eq (fun _ _ => rfl) bind_bind_eq

/-- Fails at the next token. -/
def fail (fault : ParseFault) : Rule α :=
  fun tokens => ⟨.error fault, [], tokens⟩

/-- Notes a fault and goes on. -/
def note (fault : ParseFault) (token : Token) : Rule Unit :=
  fun tokens => ⟨.ok (), [⟨fault, some token⟩], tokens⟩

/-- Lets the next token choose: a token with a rule of its own is read, and its rule goes on after it;
with any other, and at the end, the second rule goes on before it. -/
def choose (chosen : Token → Option (Rule α)) (otherwise : Rule α) : Rule α
  | [] => otherwise []
  | token :: rest =>
    match chosen token with
    | some rule => rule rest
    | none => otherwise (token :: rest)

/-- Reads a token of the given kind if it comes next. -/
def accept? (kind : TokenKind) : Rule (Option Token) :=
  choose (fun token => if token.kind = kind then some (pure (some token)) else none) (pure none)

/-- Reads an item behind a token of the given kind, if that comes next. -/
def optionalAfter (kind : TokenKind) (item : Rule α) : Rule (Option α) :=
  choose (fun token => if token.kind = kind then some (some <$> item) else none) (pure none)

/-- Reads a token of the given kind, or fails. -/
def expect (kind : TokenKind) (fault : ParseFault) : Rule Token :=
  choose (fun token => if token.kind = kind then some (pure token) else none) (fail fault)

/-- Reads a symbol that is required after a clause. -/
def close (symbol : TokenKind) (after : Clause) : Rule Unit :=
  discard (expect symbol (.missing symbol after))

/-- Reads an item unless the list is at its end or at a token where items stop. -/
def unlessAt (stops : Token → Bool) (item : Rule α) : Rule (Option α)
  | [] => ⟨.ok none, [], []⟩
  | token :: rest =>
    if stops token then ⟨.ok none, [], token :: rest⟩
    else (some <$> item) (token :: rest)

/-- Reads an item unless a token of the given kind comes next. -/
def optionalUntil (kind : TokenKind) (item : Rule α) : Rule (Option α)
  | [] => (some <$> item) []
  | token :: rest =>
    if token.kind = kind then ⟨.ok none, [], token :: rest⟩
    else (some <$> item) (token :: rest)

/-- Repeats an item until it answers nothing. An item that reads no token ends the repetition too. -/
def many (item : Rule (Option α)) : Rule (List α) :=
  fun tokens =>
    match item tokens with
    | ⟨.error fault, findings, rest⟩ => ⟨.error fault, findings, rest⟩
    | ⟨.ok none, findings, rest⟩ => ⟨.ok [], findings, rest⟩
    | ⟨.ok (some a), findings, rest⟩ =>
      if rest.length < tokens.length then
        let reply := many item rest
        ⟨reply.result.map (a :: ·), findings ++ reply.findings, reply.rest⟩
      else
        ⟨.ok [a], findings, rest⟩
termination_by tokens => tokens.length

end Rule

end Lox
