import Lox.Proofs.Program
import Lox.Proofs.Reach
import Lox.Proofs.ScopeLevels
/-!
# Lexical scope

Names are looked up in the scopes that are there when they are used, and yet the text alone decides what they
stand for. Wherever a program uses a name, the scopes around it are the global one and one for each block
around the use, and each of these holds the names that the block declares before the use.
This rests on declarations standing only where a list of statements does, which the grammar sees to.
-/

namespace Lox

/-! ### The blocks around a place -/

/-- The name that a statement declares where it stands, if it does. -/
def Stmt.declared : Stmt → List String
  | .declare name _ => [name.lexeme]
  | _ => []

def declaredNames (slots : List Slot) : List String :=
  slots.flatMap fun slot => slot.elim [] Stmt.declared

namespace Node

/-- The names that the node, if it is a block, declares before the child with the given number. -/
def declaredBefore : Node → Nat → List (List String)
  | statement (.block slots), i => [declaredNames (slots.take i)]
  | _, _ => []

/-- For each block around the end of a path, from the inside out, the names that it declares before the
statement which the path goes on in. -/
def blocksAround (node : Node) : List Nat → List (List String)
  | [] => []
  | i :: path => ((node.child i).elim [] (blocksAround · path)) ++ node.declaredBefore i

/-- At the end of the path the name is read or assigned to. -/
def Uses (node : Node) (path : List Nat) (name : Token) : Prop :=
  node.part path = some (expression (.var name)) ∨ ∃ value, node.part path = some (expression (.assign name value))

/-- A visit to a place that uses a name, in an environment whose scopes are those of the blocks around the
place and, outside the node, those given. -/
def Fits (node : Node) (around : List (List String)) (visit : Visit) : Prop :=
  (∃ name, node.Uses visit.path name) ∧ visit.environment.names = node.blocksAround visit.path ++ around

variable {node part : Node} {around : List (List String)} {visit : Visit} {i : Nat}

theorem Fits.below (hchild : node.child i = some part) (h : part.Fits (node.declaredBefore i ++ around) visit) :
    node.Fits around (visit.below i) := by
  obtain ⟨⟨name, huses⟩, hnames⟩ := h
  refine ⟨⟨name, ?_⟩, ?_⟩
  · simpa only [Uses, Visit.below, Node.part, hchild, Option.bind_some] using huses
  · simpa only [Visit.below, blocksAround, hchild, Option.elim_some, List.append_assoc] using hnames

end Node

/-! ### Expressions -/

namespace Watched

variable {ε σ α : Type} {pre post : σ → Prop} {node part : Node} {around : List (List String)} {i : Nat}

/-- What is seen in a child is seen from its parent. -/
theorem Sees.child {x : Watched ε σ α} (hchild : node.child i = some part)
    (h : Sees pre x post (part.Fits (node.declaredBefore i ++ around))) :
    Sees pre (Watched.within i x) post (node.Fits around) := by
  refine .within (h.imp ?_)
  intro visit hvisit
  exact hvisit.below hchild

theorem Sees.visit {e : Expr} {name : Token} (h : (Node.expression e).Uses [] name) :
    Sees (·.names = around) Watched.visit (·.names = around) ((Node.expression e).Fits around) := by
  intro env hnames
  refine ⟨?_, ?_⟩
  · intro visit hvisit
    obtain rfl := List.mem_singleton.1 hvisit
    exact ⟨⟨name, h⟩, hnames⟩
  · rintro _ _ ⟨⟩
    exact hnames

theorem Sees.of_keepsNames {fine : Visit → Prop} {x : Evaluation α} (h : Evaluation.KeepsNames x) :
    Sees (·.names = around) (Watched.quiet x) (·.names = around) fine := by
  refine .quiet fun env a after hnames hafter => ?_
  have hkeeps := h env
  rw [hafter] at hkeeps
  exact hkeeps.trans hnames

end Watched

open Watched (Sees)

theorem Expr.sees_watched (e : Expr) (around : List (List String)) :
    Sees (·.names = around) e.watched (·.names = around) ((Node.expression e).Fits around) := by
  induction e with
  | literal value line => exact .pure value
  | group inner line ih => exact .child rfl ih
  | unary op right line ih =>
    exact (Sees.child rfl ih).bind fun _ => .of_keepsNames (Evaluation.keepsNames_ofExcept _)
  | binary left op right line ihleft ihright =>
    refine (Sees.child rfl ihleft).bind fun _ => (Sees.child rfl ihright).bind fun _ => ?_
    exact .of_keepsNames (Evaluation.keepsNames_ofExcept _)
  | logical left op right line ihleft ihright =>
    refine (Sees.child rfl ihleft).bind fun value => ?_
    split
    · exact .pure value
    · exact .child rfl ihright
  | var name => exact (Sees.visit (.inl rfl)).bind fun _ => .of_keepsNames (Evaluation.keepsNames_get name)
  | assign name value ih =>
    have huses : (Node.expression (.assign name value)).Uses [] name := .inr ⟨value, rfl⟩
    refine (Sees.visit huses).bind fun _ => (Sees.child rfl ih).bind fun value => (Sees.visit huses).bind fun _ => ?_
    exact (Sees.of_keepsNames (Evaluation.keepsNames_assign name value)).bind fun _ => .pure value

/-! ### Statements -/

theorem Environment.names_define {env after : Environment} {name : String} {value : Value}
    (h : env.define name value = .ok after) :
    after.names = (env.innermost.names ++ [name]) :: env.outer.map Scope.names := by
  rw [define] at h
  split at h
  · simp at h
  · obtain rfl := Except.ok.inj h
    rw [names_eq, Scope.names_declare]

def Machine.HasNames (names : List (List String)) (machine : Machine) : Prop :=
  machine.environment.names = names

open Machine (HasNames)

namespace Watched

variable {α : Type} {node : Node} {around : List (List String)} {fine : Visit → Prop}

theorem Sees.onEnvironment {pre post : Environment → Prop} {x : Watched RuntimeError Environment α}
    (h : Sees pre x post fine) :
    Sees (fun machine => pre machine.environment) (Watched.onEnvironment x)
      (fun machine => post machine.environment) fine := by
  intro machine hnames
  obtain ⟨hvisits, hpost⟩ := h machine.environment hnames
  refine ⟨hvisits, ?_⟩
  intro a after hafter
  simp only [Watched.onEnvironment, Execution.onEnvironment] at hafter
  split at hafter
  next b env houtcome =>
    obtain ⟨rfl, rfl⟩ := EStateM.Result.ok.inj hafter
    exact hpost b env houtcome
  next => simp at hafter

/-- Whatever is declared in a scope of its own is gone when it is left. -/
theorem Sees.inScope {x : Watched Halt Machine Unit} {declared : List String} (haround : around ≠ [])
    (h : Sees (HasNames ([] :: around)) x (HasNames (declared :: around)) fine) :
    Sees (HasNames around) (Watched.inScope x) (HasNames around) fine := by
  intro machine hnames
  obtain ⟨hvisits, hpost⟩ := h { machine with environment := machine.environment.push }
    (congrArg ([] :: ·) hnames)
  refine ⟨hvisits, ?_⟩
  intro a after hafter
  simp only [Watched.inScope, Execution.inScope] at hafter
  split at hafter
  next b ended houtcome =>
    obtain ⟨rfl, rfl⟩ := EStateM.Result.ok.inj hafter
    have hended := hpost b ended houtcome
    rw [HasNames, Environment.names_eq, List.cons.injEq] at hended
    rw [HasNames, Environment.pop]
    split
    next houter =>
      rw [houter] at hended
      exact absurd hended.2.symm haround
    next houter =>
      rw [houter] at hended
      exact hended.2
  next => simp at hafter

end Watched

namespace Expr

variable {node : Node} {e : Expr} {around : List (List String)}

theorem sees_watchedRun (hchild : node.child 0 = some (.expression e)) (hbefore : node.declaredBefore 0 = []) :
    Sees (HasNames around) e.watchedRun (HasNames around) (node.Fits around) := by
  refine .child hchild ?_
  rw [hbefore]
  exact (e.sees_watched around).onEnvironment

theorem sees_watchedTest (hchild : node.child 0 = some (.expression e)) (hbefore : node.declaredBefore 0 = []) :
    Sees (HasNames around) e.watchedTest (HasNames around) (node.Fits around) :=
  (sees_watchedRun hchild hbefore).bind fun value => .pure value.truthy

end Expr

namespace Stmt

/-- Declarations stand only in lists of statements: the branches of a conditional and the bodies of loops are
none. -/
inductive Placed : Stmt → Prop where
  | expression (e : Expr) : Placed (.expression e)
  | print (e : Expr) : Placed (.print e)
  | declare (name : Token) (init : Option Expr) : Placed (.declare name init)
  | block {slots : List Slot} : (∀ s, some s ∈ slots → Placed s) → Placed (.block slots)
  | branch {condition : Expr} {yes : Stmt} {no : Option Stmt} : Placed yes → yes.declared = [] →
      (∀ s ∈ no, Placed s) → (∀ s ∈ no, s.declared = []) → Placed (.branch condition yes no)
  | loop {condition : Expr} {body : Stmt} : Placed body → body.declared = [] → Placed (.loop condition body)

/-- Wherever the statement is executed, its visits fit the text, and it declares just what the text says. -/
def SeesText (limit : Nat) (s : Stmt) : Prop :=
  ∀ inner outer, Sees (HasNames (inner :: outer)) (watched limit s) (HasNames ((inner ++ s.declared) :: outer))
    ((Node.statement s).Fits (inner :: outer))

variable {limit : Nat}

theorem seesText_iff {s : Stmt} (hnone : s.declared = []) : SeesText limit s ↔ ∀ inner outer,
    Sees (HasNames (inner :: outer)) (watched limit s) (HasNames (inner :: outer))
      ((Node.statement s).Fits (inner :: outer)) := by
  simp only [SeesText, hnone, List.append_nil]

/-- A list of statements, seen slot by slot: behind the slots that are done, the scope holds what it held
before them and what they declare. -/
theorem sees_watchedSlots {slots : List Slot} {fine : Visit → Prop} {inner : List String}
    {outer : List (List String)} (hslots : ∀ s, some s ∈ slots → SeesText limit s)
    (hfine : ∀ i s visit, slots[i]? = some (some s) →
      (Node.statement s).Fits ((inner ++ declaredNames (slots.take i)) :: outer) visit → fine (visit.below i))
    {done rest : List Slot} (hrest : slots = done ++ rest) :
    Sees (HasNames ((inner ++ declaredNames done) :: outer)) (watchedSlots limit done.length rest)
      (HasNames ((inner ++ declaredNames slots) :: outer)) fine := by
  -- The slots that are left get fewer, while the whole list, which the visits are told about, stays.
  induction rest generalizing done with
  | nil =>
    rw [hrest, List.append_nil, watchedSlots]
    exact .pure ()
  | cons slot rest ih =>
    have hnext := @ih (done ++ [slot]) (by rw [hrest, List.append_assoc, List.singleton_append])
    rw [List.length_append, List.length_singleton] at hnext
    cases slot with
    | none =>
      rw [watchedSlots]
      simpa [declaredNames] using hnext
    | some s =>
      have hmem : slots[done.length]? = some (some s) := by simp [hrest]
      have hdone : slots.take done.length = done := by simp [hrest]
      have hfirst := hslots s (List.mem_of_getElem? hmem) (inner ++ declaredNames done) outer
      have hdeclared : inner ++ declaredNames (done ++ [some s]) = inner ++ declaredNames done ++ s.declared := by
        simp [declaredNames]
      rw [hdeclared] at hnext
      rw [watchedSlots]
      refine .bind (.within (hfirst.imp ?_)) fun _ => hnext
      intro visit hvisit
      refine hfine done.length s visit hmem ?_
      rwa [hdone]

theorem sees_define {fine : Visit → Prop} (name : Token) (value : Value) (inner : List String)
    (outer : List (List String)) : Sees (HasNames (inner :: outer))
      (.quiet (Execution.onEnvironment (.define name value))) (HasNames ((inner ++ [name.lexeme]) :: outer)) fine := by
  have hdefine : Sees (·.names = inner :: outer) (.quiet (Evaluation.define name value))
      (·.names = (inner ++ [name.lexeme]) :: outer) fine := by
    refine .quiet ?_
    intro env a after hnames hafter
    rw [Environment.names_eq, List.cons.injEq] at hnames
    rw [Evaluation.define] at hafter
    split at hafter
    next env' henv =>
      obtain ⟨-, rfl⟩ := EStateM.Result.ok.inj hafter
      rw [Environment.names_define henv, hnames.1, hnames.2]
    next => simp at hafter
  exact hdefine.onEnvironment

/-- A statement whose declarations are in their places is executed as the text says. -/
theorem Placed.seesText {s : Stmt} (h : s.Placed) : SeesText limit s := by
  induction h with
  | expression e =>
    refine (seesText_iff rfl).2 fun inner outer => ?_
    rw [watched]
    exact (Expr.sees_watchedRun rfl rfl).bind fun _ => .pure ()
  | print e =>
    refine (seesText_iff rfl).2 fun inner outer => ?_
    rw [watched]
    refine (Expr.sees_watchedRun rfl rfl).bind fun value => .quiet ?_
    intro machine a after hnames hafter
    have hend := Execution.endState_printLine value.text machine
    rw [hafter] at hend
    exact (congrArg Environment.names hend).trans hnames
  | declare name init =>
    intro inner outer
    rw [watched]
    have hinit : Sees (HasNames (inner :: outer)) (watchedInitial init) (HasNames (inner :: outer))
        ((Node.statement (.declare name init)).Fits (inner :: outer)) := by
      cases init with
      | none => exact .pure Value.nil
      | some e => exact Expr.sees_watchedRun rfl rfl
    exact hinit.bind fun value => sees_define name value inner outer
  | @block slots _ ih =>
    refine (seesText_iff rfl).2 fun inner outer => ?_
    rw [watched]
    refine .inScope (by simp) (@sees_watchedSlots limit slots _ [] (inner :: outer) ih ?_ [] slots rfl)
    intro i s visit hmem hfits
    exact .below (by simp [Node.child, hmem]) hfits
  | @branch condition yes no _ hyes _ hno ihyes ihno =>
    refine (seesText_iff rfl).2 fun inner outer => ?_
    rw [watched_branch]
    refine (Expr.sees_watchedTest rfl rfl).bind fun holds => ?_
    cases holds with
    | true => exact .child rfl ((seesText_iff hyes).1 ihyes inner outer)
    | false =>
      cases no with
      | none => exact .pure ()
      | some no => exact .child rfl ((seesText_iff (hno no rfl)).1 (ihno no rfl) inner outer)
  | loop _ hbody ih =>
    refine (seesText_iff rfl).2 fun inner outer => ?_
    rw [watched]
    exact .repeatWhile (Expr.sees_watchedTest rfl rfl) (.child rfl ((seesText_iff hbody).1 ih inner outer)) limit

end Stmt

/-! ### The grammar -/

theorem Stmt.Placed.pair {s t : Stmt} (hs : s.Placed) (ht : t.Placed) : (Stmt.block [some s, some t]).Placed := by
  refine .block ?_
  intro u hu
  simp only [List.mem_cons, List.not_mem_nil, or_false, Option.some.injEq] at hu
  rcases hu with rfl | rfl
  · exact hs
  · exact ht

theorem Stmt.placed_forLoop {line : Nat} {init : Option Stmt} {condition increment : Option Expr} {body : Stmt}
    (hinit : ∀ s ∈ init, s.Placed) (hbody : body.Placed) (hnone : body.declared = []) :
    (Rule.forLoop line init condition increment body).Placed
      ∧ (Rule.forLoop line init condition increment body).declared = [] := by
  have hloop : (Stmt.loop (condition.getD (.literal (.bool true) line))
      (increment.elim body fun e => .block [some body, some (.expression e)])).Placed := by
    cases increment with
    | none => exact .loop hbody hnone
    | some e => exact .loop (hbody.pair (.expression e)) rfl
  cases increment <;> cases init with
  | none => exact ⟨hloop, rfl⟩
  | some s => exact ⟨(hinit s rfl).pair hloop, rfl⟩

theorem InitForm.placed {n : Nat} {ts : List Token} {init : Option Stmt} (h : InitForm n ts init) :
    ∀ s ∈ init, s.Placed := by
  cases h with
  | absent => simp
  | declared _ h =>
    rintro s ⟨⟩
    cases h <;> exact .declare _ _
  | plain =>
    rintro s ⟨⟩
    exact .expression _

/-- The grammar puts declarations into lists of statements only. -/
theorem StmtForm.placed {n : Nat} {position : Position} {ts : List Token} {s : Stmt}
    (h : StmtForm n position ts s) :
    s.Placed ∧ ∀ closed, position = .statement closed → s.declared = [] := by
  induction h with
  | var _ h =>
    cases h <;> exact ⟨.declare _ _, nofun⟩
  | statement _ ih => exact ⟨ih.1, nofun⟩
  | expression => exact ⟨.expression _, fun _ _ => rfl⟩
  | print => exact ⟨.print _, fun _ _ => rfl⟩
  | block _ _ _ ih =>
    refine ⟨.block ?_, fun _ _ => rfl⟩
    intro s hs
    obtain ⟨p, hp, hs⟩ := List.mem_map.1 hs
    obtain rfl := Option.some.inj hs
    exact (ih p hp).1
  | ifThen _ _ _ _ _ ih => exact ⟨.branch ih.1 (ih.2 _ rfl) nofun nofun, fun _ _ => rfl⟩
  | ifElse _ _ _ _ _ _ _ ihyes ihno =>
    refine ⟨.branch ihyes.1 (ihyes.2 _ rfl) ?_ ?_, fun _ _ => rfl⟩
    · rintro s ⟨⟩
      exact ihno.1
    · rintro s ⟨⟩
      exact ihno.2 _ rfl
  | «while» _ _ _ _ _ ih => exact ⟨.loop ih.1 (ih.2 _ rfl), fun _ _ => rfl⟩
  | «for» _ _ hinit _ _ _ _ _ ih =>
    obtain ⟨hplaced, hnone⟩ := Stmt.placed_forLoop hinit.placed ih.1 (ih.2 _ rfl)
    exact ⟨hplaced, fun _ _ => hnone⟩

theorem ProgramForm.placed {ts : List Token} {slots : List Slot} (h : ProgramForm ts slots) :
    ∀ s, some s ∈ slots → s.Placed := by
  obtain ⟨parts, -, rfl, hparts⟩ := h
  intro s hs
  obtain ⟨p, hp, hs⟩ := List.mem_map.1 hs
  obtain rfl := Option.some.inj hs
  exact (hparts p hp).placed.1

/-! ### What names stand for -/

namespace Scope

theorem contains_names (scope : Scope) (name : String) : scope.names.contains name = scope.holds name := by
  rw [Bool.eq_iff_iff, holds_iff, List.contains_iff_mem]

end Scope

namespace Environment

/-- The name stands for the variable in the scope with this number, counted from the inside. -/
structure Resolves (env : Environment) (name : String) (k : Nat) : Prop where
  get : ∃ value, env.scopes[k]?.bind (·.get? name) = some value ∧ env.get name = .ok value
  assign : ∀ value, (env.assign name value).map scopes = .ok (env.scopes.modify k (·.set name value))

/-- The name stands for nothing. -/
structure Misses (env : Environment) (name : String) : Prop where
  get : env.get name = .error .undefined
  assign : ∀ value, env.assign name value = .error .undefined

/-- The name stands for the variable of the innermost block that declares it, and if there is none, for the
global variable or nothing. -/
def ResolvesLexically (env : Environment) (blocks : List (List String)) (name : String) : Prop :=
  match blocks.findIdx? (·.contains name) with
  | some k => env.Resolves name k
  | none => if env.globals.holds name then env.Resolves name blocks.length else env.Misses name

theorem findIdx?_names (name : String) (env : Environment) :
    env.names.findIdx? (·.contains name) = env.scopes.findIdx? (·.holds name) := by
  rw [names, List.findIdx?_map]
  congr 1
  funext scope
  exact scope.contains_names name

/-- The first scope that holds a name is the one it is read from. -/
theorem findSome?_of_findIdx? {name : String} {scopes : List Scope} {k : Nat}
    (h : scopes.findIdx? (·.holds name) = some k) :
    ∃ value, scopes[k]?.bind (·.get? name) = some value ∧ scopes.findSome? (·.get? name) = some value := by
  induction scopes generalizing k with
  | nil => simp at h
  | cons scope scopes ih =>
    rw [List.findIdx?_cons] at h
    split at h
    next hholds =>
      obtain rfl := Option.some.inj h
      obtain ⟨value, hvalue⟩ := Option.isSome_iff_exists.1 ((scope.isSome_get? name).trans hholds)
      refine ⟨value, ?_, ?_⟩
      · simpa using hvalue
      · rw [List.findSome?_cons, hvalue]
    next hnot =>
      obtain ⟨k, hk, rfl⟩ := Option.map_eq_some_iff.1 h
      obtain ⟨value, hget, hfind⟩ := ih hk
      refine ⟨value, hget, ?_⟩
      rw [List.findSome?_cons, Scope.get?_eq_none hnot, hfind]

theorem resolves_of_findIdx? {env : Environment} {name : String} {k : Nat}
    (h : env.scopes.findIdx? (·.holds name) = some k) : env.Resolves name k := by
  obtain ⟨value, hscope, hfind⟩ := findSome?_of_findIdx? h
  refine ⟨⟨value, hscope, ?_⟩, ?_⟩
  · rw [get, hfind]
  · intro value
    rw [assign_eq, setFirst_eq, h]
    rfl

theorem misses_of_findIdx? {env : Environment} {name : String}
    (h : env.scopes.findIdx? (·.holds name) = none) : env.Misses name := by
  refine ⟨?_, ?_⟩
  · refine get_eq_error_iff.2 ?_
    intro scope hscope
    rw [List.findIdx?_eq_none_iff.1 h scope hscope]
    exact Bool.false_ne_true
  · intro value
    have hassign := assign_eq env name value
    rw [setFirst_eq, h] at hassign
    cases henv : env.assign name value with
    | ok after =>
      rw [henv] at hassign
      simp [Except.map] at hassign
    | error fault =>
      rw [henv] at hassign
      exact congrArg Except.error (Except.error.inj hassign)

theorem getLast?_names (env : Environment) : env.names.getLast? = some env.globals.names := by
  rcases env with ⟨innermost, outer⟩
  simp [names_eq, globals, List.getLast?_cons, List.getLastD_eq_getLast?]

theorem names_of_depth {env : Environment} (h : env.depth = 1) : env.names = [env.globals.names] := by
  rcases env with ⟨_, _ | _⟩
  · rfl
  · simp [depth, scopes] at h

/-- If the scopes are those of blocks in the global scope, the text of the blocks decides what a name
stands for. -/
theorem resolvesLexically_of_names {env : Environment} {blocks : List (List String)} (name : String)
    (h : env.names = blocks ++ [env.globals.names]) : env.ResolvesLexically blocks name := by
  have hfind : env.scopes.findIdx? (·.holds name)
      = (blocks.findIdx? (·.contains name)).or
        (if env.globals.holds name then some blocks.length else none) := by
    rw [← findIdx?_names, h, List.findIdx?_append, List.findIdx?_cons, Scope.contains_names]
    cases env.globals.holds name <;> simp
  rw [ResolvesLexically]
  split
  next k hk =>
    rw [hk] at hfind
    exact resolves_of_findIdx? hfind
  next hnone =>
    rw [hnone, Option.none_or] at hfind
    split
    next hglobal => exact resolves_of_findIdx? (hfind.trans (if_pos hglobal))
    next hglobal => exact misses_of_findIdx? (hfind.trans (if_neg hglobal))

end Environment

/-- Scoping is lexical. Watching the statements of a parsed program run from the global scope changes nothing,
and tells of every use of a name that they come to. Wherever it is, there is a scope for each block around it with
the names that the block declares before it, and the global scope. So the name stands for the variable of the
innermost block that declares it before its use, or else for the global one, if there is one. -/
theorem lexical_scope (limit : Nat) (tokens : List Token) (machine : Machine) (hparse : (parse tokens).errors = [])
    (hdepth : machine.environment.depth = 1) :
    let program := Node.program (parse tokens).slots
    let run := Stmt.watchedSlots limit 0 (parse tokens).slots
    run.outcome = Stmt.execSlots limit (parse tokens).slots
      ∧ (∀ path env, ⟨path, env⟩ ∈ run.visits machine
        ↔ ∃ part last, program.Reaches limit machine path part last ∧ part.UsesIn last env)
      ∧ ∀ visit ∈ run.visits machine, ∃ name, program.Uses visit.path name
        ∧ visit.environment.names = program.blocksAround visit.path ++ [visit.environment.globals.names]
        ∧ visit.environment.ResolvesLexically (program.blocksAround visit.path) name.lexeme := by
  intro program run
  refine ⟨Stmt.outcome_watchedSlots limit 0 _, fun path env => program.mem_visits_iff path, ?_⟩
  have hslots : ∀ s, some s ∈ (parse tokens).slots → Stmt.SeesText limit s := by
    intro s hs
    exact ((errors_eq_nil_iff.1 hparse).placed s hs).seesText
  -- The global scope is the one that grows from slot to slot here, as the scope of a block does in it.
  have hsees := @Stmt.sees_watchedSlots limit (parse tokens).slots
    (fun visit => ∃ global, program.Fits [global] visit) machine.environment.globals.names [] hslots
    (fun i s visit hmem hfits => ⟨_, .below (by simp [program, Node.child, hmem]) hfits⟩) [] _ rfl
  intro visit hvisit
  have hnames : machine.HasNames [machine.environment.globals.names ++ declaredNames []] :=
    (Environment.names_of_depth hdepth).trans (by simp [declaredNames])
  obtain ⟨global, ⟨name, huses⟩, hnames⟩ := (hsees machine hnames).1 visit hvisit
  obtain rfl : global = visit.environment.globals.names := by
    have hlast := visit.environment.getLast?_names
    rw [hnames, List.getLast?_concat] at hlast
    exact Option.some.inj hlast
  exact ⟨name, huses, hnames, Environment.resolvesLexically_of_names name.lexeme hnames⟩

/-- A program that uses a global variable in a block, and then one of the block by the same name. -/
def shadowingTokens : List Token :=
  (scan "var x; \x7b print x; var x = true; while (x) x = false; \x7d").tokens

/-- The first use is of the global variable, and the assignment in the loop is to the one of the block. -/
theorem lexical_scope_shadowing :
    let program := Node.program (parse shadowingTokens).slots
    let visits := (Stmt.watchedSlots 2 0 (parse shadowingTokens).slots).visits {}
    let before : Environment := ⟨[], [[("x", .nil)]]⟩
    let inside : Environment := ⟨[("x", .bool true)], [[("x", .nil)]]⟩
    (⟨[1, 0, 0], before⟩ ∈ visits ∧ program.blocksAround [1, 0, 0] = [[]]
        ∧ ∃ name, program.Uses [1, 0, 0] name ∧ before.ResolvesLexically [[]] name.lexeme)
      ∧ ⟨[1, 2, 1, 0], inside⟩ ∈ visits ∧ program.blocksAround [1, 2, 1, 0] = [["x"]]
        ∧ ∃ name, program.Uses [1, 2, 1, 0] name ∧ inside.ResolvesLexically [["x"]] name.lexeme := by
  intro program visits before inside
  have hrun := (lexical_scope 2 shadowingTokens {} (by decide +kernel) rfl).2.2
  have hbefore : ⟨[1, 0, 0], before⟩ ∈ visits := by decide +kernel
  have hinside : ⟨[1, 2, 1, 0], inside⟩ ∈ visits := by decide +kernel
  have hblocks : program.blocksAround [1, 0, 0] = [[]] := by decide +kernel
  have hblocks' : program.blocksAround [1, 2, 1, 0] = [["x"]] := by decide +kernel
  obtain ⟨name, huses, -, hresolves⟩ := hrun _ hbefore
  obtain ⟨name', huses', -, hresolves'⟩ := hrun _ hinside
  exact ⟨⟨hbefore, hblocks, name, huses, hblocks ▸ hresolves⟩,
    hinside, hblocks', name', huses', hblocks' ▸ hresolves'⟩

end Lox
