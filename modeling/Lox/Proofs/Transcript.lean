import Lox.Proofs.Execution
/-!
# Transcripts

Execution on an environment alone, without a sink. Where a line is printed, it is told together with the
environment that it is printed in, and nothing can go wrong with it. The transcript of statements is all that their
execution on a machine can do (`Stmt.plays_execSlots`): the lines are written to the machine's sink one after the
other; if all of them fit, the outcome is that of the transcript, and at the first line that does not fit the
execution stops with what it has got.
-/

namespace Lox

/-- A line that is printed, and the environment that it is printed in. -/
structure Printed where
  text : String
  environment : Environment

/-- A computation on an environment: the lines that it prints, in order, and its outcome if it can print them. -/
structure Transcript (α : Type) where
  lines : Environment → List Printed
  outcome : EStateM Halt Environment α

namespace Transcript

variable {α β : Type}

def silent (x : EStateM Halt Environment α) : Transcript α where
  lines _ := []
  outcome := x

instance : Monad Transcript where
  pure a := silent (pure a)
  bind x f :=
    { lines := fun env => x.lines env ++ match x.outcome env with
        | .ok a env => (f a).lines env
        | .error _ _ => []
      outcome := x.outcome >>= fun a => (f a).outcome }

def ofEvaluation (x : Evaluation α) : Transcript α :=
  silent fun env =>
    match x env with
    | .ok a env => .ok a env
    | .error e env => .error (.error e) env

def printLine (text : String) : Transcript Unit where
  lines env := [⟨text, env⟩]
  outcome := pure ()

def inScope (x : Transcript α) : Transcript α where
  lines env := x.lines env.push
  outcome env :=
    match x.outcome env.push with
    | .ok a env => .ok a env.pop
    | .error halt env => .error halt env.pop

def repeatWhile (test : Transcript Bool) (body : Transcript Unit) : Nat → Transcript Unit
  | 0 => silent (throw .exhausted)
  | rounds + 1 => do
    if ← test then
      body
      repeatWhile test body rounds

end Transcript

namespace Expr

def transcript (e : Expr) : Transcript Value :=
  .ofEvaluation e.eval

def testTranscript (e : Expr) : Transcript Bool := do
  let value ← e.transcript
  pure value.truthy

end Expr

namespace Stmt

def initialTranscript : Option Expr → Transcript Value
  | none => pure .nil
  | some e => e.transcript

mutual

def transcript (limit : Nat) : Stmt → Transcript Unit
  | .expression e => do
    let _ ← e.transcript
    pure ()
  | .print e => do
    let value ← e.transcript
    .printLine value.text
  | .declare name init => do
    let value ← initialTranscript init
    .ofEvaluation (.define name value)
  | .block slots => .inScope (slotsTranscript limit slots)
  | .branch condition yes none => do
    if ← condition.testTranscript then transcript limit yes
  | .branch condition yes (some no) => do
    if ← condition.testTranscript then transcript limit yes else transcript limit no
  | .loop condition body => .repeatWhile condition.testTranscript (transcript limit body) limit
termination_by structural s => s

/-- The transcript of the statements of a list in order. Holes do nothing. -/
def slotsTranscript (limit : Nat) : List (Option Stmt) → Transcript Unit
  | [] => pure ()
  | none :: rest => slotsTranscript limit rest
  | some s :: rest => do
    transcript limit s
    slotsTranscript limit rest
termination_by structural slots => slots

end

theorem transcript_branch {limit : Nat} (condition : Expr) (yes : Stmt) (no : Option Stmt) :
    transcript limit (.branch condition yes no) = condition.testTranscript >>= fun holds =>
      if holds then transcript limit yes else no.elim (pure ()) (transcript limit) := by
  cases no <;> rw [transcript] <;> rfl

end Stmt

/-! ### Playing a transcript -/

def Printed.bytes (line : Printed) : ByteArray :=
  (line.text ++ "\n").toUTF8

namespace Sink

/-- Writes lines as long as they fit, and gives the first that does not, with the failure it ends in. -/
def writeLines (sink : Sink) : List Printed → Sink × Option (Printed × String)
  | [] => (sink, none)
  | line :: lines =>
    match sink.write line.bytes with
    | (sink, none) => sink.writeLines lines
    | (sink, some failure) => (sink, some (line, failure))

theorem writeLines_append (sink : Sink) (lines more : List Printed) : sink.writeLines (lines ++ more)
    = match sink.writeLines lines with
      | (sink, none) => sink.writeLines more
      | (sink, some stop) => (sink, some stop) := by
  induction lines generalizing sink with
  | nil => rfl
  | cons line lines ih =>
    rw [List.cons_append, writeLines, writeLines]
    split
    · exact ih _
    · rfl

end Sink

def withSink {α : Type} (sink : Sink) : EStateM.Result Halt Environment α → EStateM.Result Halt Machine α
  | .ok a environment => .ok a { environment, sink }
  | .error halt environment => .error halt { environment, sink }

theorem Environment.globals_pop (env : Environment) : env.pop.globals = env.globals := by
  rcases env with ⟨innermost, _ | ⟨scope, outer⟩⟩
  · rfl
  · rw [pop, globals, globals, List.getLastD_cons]

namespace Transcript

variable {α β : Type}

/-- On a machine the computation plays the transcript. At the first line that does not fit it stops; of the scopes
that are open there, the global one stays as it is. -/
structure Plays (t : Transcript α) (x : Execution α) : Prop where
  through : ∀ {env sink after}, sink.writeLines (t.lines env) = (after, none) →
    x ⟨env, sink⟩ = withSink after (t.outcome env)
  stopped : ∀ {env sink after line failure}, sink.writeLines (t.lines env) = (after, some (line, failure)) →
    ∃ left, left.globals = line.environment.globals
      ∧ x ⟨env, sink⟩ = .error (.error (.output failure)) ⟨left, after⟩

/-- What prints nothing only acts on the environment. -/
theorem Plays.silent {t : EStateM Halt Environment α} {x : Execution α}
    (h : ∀ env sink, x ⟨env, sink⟩ = withSink sink (t env)) : Plays (silent t) x where
  through := by
    intro env sink after hwrite
    obtain ⟨rfl, -⟩ := Prod.mk.inj hwrite
    exact h env sink
  stopped := by
    intro env sink after line failure hwrite
    simp [Transcript.silent, Sink.writeLines] at hwrite

theorem Plays.pure (a : α) : Plays (pure a) (pure a) :=
  .silent fun _ _ => rfl

theorem Plays.onEnvironment (x : Evaluation α) : Plays (ofEvaluation x) (.onEnvironment x) := by
  apply Plays.silent
  intro env sink
  rw [Execution.onEnvironment]
  cases x env <;> rfl

theorem Plays.printLine (text : String) : Plays (printLine text) (.printLine text) where
  through := by
    intro env sink after hwrite
    rw [Transcript.printLine, Sink.writeLines, Printed.bytes] at hwrite
    split at hwrite
    next written hfits =>
      obtain ⟨rfl, -⟩ := Prod.mk.inj hwrite
      rw [Execution.printLine, hfits]
      rfl
    next => simp at hwrite
  stopped := by
    intro env sink after line failure hwrite
    rw [Transcript.printLine, Sink.writeLines, Printed.bytes] at hwrite
    split at hwrite
    next => simp [Sink.writeLines] at hwrite
    next written hfull =>
      obtain ⟨rfl, hstop⟩ := Prod.mk.inj hwrite
      obtain ⟨rfl, rfl⟩ := Prod.mk.inj (Option.some.inj hstop)
      refine ⟨env, rfl, ?_⟩
      rw [Execution.printLine, hfull]

theorem lines_bind (t : Transcript α) (f : α → Transcript β) (env : Environment) : (t >>= f).lines env
    = t.lines env ++ match t.outcome env with
      | .ok a env => (f a).lines env
      | .error _ _ => [] :=
  rfl

theorem outcome_bind (t : Transcript α) (f : α → Transcript β) :
    (t >>= f).outcome = t.outcome >>= fun a => (f a).outcome :=
  rfl

theorem Plays.bind {t : Transcript α} {x : Execution α} {f : α → Transcript β} {g : α → Execution β}
    (h : Plays t x) (hf : ∀ a, Plays (f a) (g a)) : Plays (t >>= f) (x >>= g) where
  through := by
    intro env sink after hwrite
    rw [lines_bind, Sink.writeLines_append] at hwrite
    rcases hfirst : sink.writeLines (t.lines env) with ⟨middle, _ | stop⟩
    · rw [hfirst] at hwrite
      rw [bind_apply, h.through hfirst, outcome_bind, bind_apply]
      cases hout : t.outcome env with
      | ok a env' =>
        rw [hout] at hwrite
        exact (hf a).through hwrite
      | error halt env' =>
        rw [hout] at hwrite
        obtain ⟨rfl, -⟩ := Prod.mk.inj hwrite
        rfl
    · simp [hfirst] at hwrite
  stopped := by
    intro env sink after line failure hwrite
    rw [lines_bind, Sink.writeLines_append] at hwrite
    rcases hfirst : sink.writeLines (t.lines env) with ⟨middle, _ | stop⟩
    · rw [hfirst] at hwrite
      rw [bind_apply, h.through hfirst]
      cases hout : t.outcome env with
      | ok a env' =>
        rw [hout] at hwrite
        exact (hf a).stopped hwrite
      | error halt env' => simp [hout, Sink.writeLines] at hwrite
    · rw [hfirst] at hwrite
      obtain ⟨rfl, hstop⟩ := Prod.mk.inj hwrite
      obtain rfl := Option.some.inj hstop
      obtain ⟨left, hglobals, hstop⟩ := h.stopped hfirst
      refine ⟨left, hglobals, ?_⟩
      rw [bind_apply, hstop]

theorem Plays.inScope {t : Transcript α} {x : Execution α} (h : Plays t x) : Plays (inScope t) (.inScope x) where
  through := by
    intro env sink after hwrite
    have hbody := h.through hwrite
    rw [Execution.inScope, hbody]
    dsimp only [Transcript.inScope]
    cases t.outcome env.push <;> rfl
  stopped := by
    intro env sink after line failure hwrite
    obtain ⟨left, hglobals, hstop⟩ := h.stopped hwrite
    -- The scope is left on the way out, so all that is known of the environment in the end is its globals.
    refine ⟨left.pop, left.globals_pop.trans hglobals, ?_⟩
    rw [Execution.inScope, hstop]

theorem Plays.repeatWhile {t : Transcript Bool} {test : Execution Bool} {u : Transcript Unit} {body : Execution Unit}
    (htest : Plays t test) (hbody : Plays u body) (rounds : Nat) :
    Plays (repeatWhile t u rounds) (.repeatWhile test body rounds) := by
  induction rounds with
  | zero => exact .silent fun _ _ => rfl
  | succ rounds ih =>
    rw [Transcript.repeatWhile, Execution.repeatWhile]
    refine htest.bind fun holds => ?_
    cases holds with
    | true => exact hbody.bind fun _ => ih
    | false => exact .pure _

end Transcript

open Transcript

theorem Expr.plays_run (e : Expr) : Plays e.transcript e.run :=
  .onEnvironment e.eval

theorem Expr.plays_test (e : Expr) : Plays e.testTranscript e.test :=
  e.plays_run.bind fun value => .pure value.truthy

namespace Stmt

variable {limit : Nat}

theorem plays_initialValue (init : Option Expr) : Plays (initialTranscript init) (initialValue init) := by
  cases init with
  | none => exact .pure _
  | some e => exact e.plays_run

theorem plays_slots_of_mem {slots : List Slot} (h : ∀ s, some s ∈ slots → Plays (transcript limit s) (exec limit s)) :
    Plays (slotsTranscript limit slots) (execSlots limit slots) := by
  induction slots with
  | nil =>
    rw [slotsTranscript, execSlots_nil]
    exact .pure _
  | cons slot slots ih =>
    have hrest := ih fun s hs => h s (List.mem_cons_of_mem _ hs)
    cases slot with
    | none =>
      rw [slotsTranscript, execSlots_none]
      exact hrest
    | some s =>
      rw [slotsTranscript, execSlots_some]
      exact (h s List.mem_cons_self).bind fun _ => hrest

/-- Executing a statement is playing its transcript. -/
theorem plays_exec (s : Stmt) : Plays (transcript limit s) (exec limit s) := by
  induction s using Stmt.induction with
  | expression e =>
    rw [transcript, exec_expression]
    exact e.plays_run.bind fun _ => .pure _
  | print e =>
    rw [transcript, exec_print]
    exact e.plays_run.bind fun value => .printLine value.text
  | declare name init =>
    rw [transcript, exec_declare]
    exact (plays_initialValue init).bind fun value => .onEnvironment (.define name value)
  | block slots ih =>
    rw [transcript, exec_block]
    exact (plays_slots_of_mem ih).inScope
  | branch condition yes no ihyes ihno =>
    rw [transcript_branch, exec_branch]
    refine condition.plays_test.bind fun holds => ?_
    cases holds with
    | true => exact ihyes
    | false =>
      cases no with
      | none => exact .pure _
      | some s => exact ihno s rfl
  | loop condition body ih =>
    rw [transcript, exec_loop]
    exact condition.plays_test.repeatWhile ih limit

/-- Executing statements is playing their transcript. -/
theorem plays_execSlots (limit : Nat) (slots : List Slot) :
    Plays (slotsTranscript limit slots) (execSlots limit slots) :=
  plays_slots_of_mem fun s _ => plays_exec s

end Stmt

end Lox
