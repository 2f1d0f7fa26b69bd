import PhraseStructure.Search.Arena
import PhraseStructure.Search.Pruning

/-!
# Searching for a derivation

A string belongs to a grammar if it has a derivation. Leftmost derivations are searched breadth
first, productions in their order, so the first derivation found has the fewest steps and, among
those, the least sequence of production numbers. Each form is stored once, hopeless forms are left
out, and two limits end the search early: the length of a derivation and the number of stored
forms. The step bound is lifted when no nonterminal can vanish: forms then never shrink, so only
finitely many can become the string.

* `search` runs to the end.
* `searchUnless` asks before each level whether to give up.
-/

namespace PhraseStructure

/-- What a search did. -/
structure Effort where
  /-- The number of forms looked at. -/
  explored : Nat := 0
  /-- The number of steps a derivation may have; none if the bound is lifted. -/
  stepBound : Option Nat := none
  /-- The number of steps to the last level looked at. -/
  deepest : Nat := 0
  /-- Whether a form at the step bound still had a nonterminal. -/
  depthLimitHit : Bool := false
  /-- Whether a form could not be stored. -/
  stateLimitHit : Bool := false
deriving DecidableEq, Repr

/-- What a search found, and how. -/
structure Finding where
  derivation : Option Derivation
  strategy : Strategy
  effort : Effort
deriving DecidableEq, Repr

namespace Finding

/-- Whether a derivation was found. -/
def belongs (f : Finding) : Bool := f.derivation.isSome

/-- Whether nothing was found although a limit kept the search from trying everything. -/
def truncated (f : Finding) : Bool :=
  !f.belongs && (f.effort.depthLimitHit || f.effort.stateLimitHit)

end Finding

/-- A search was given up after the level `depth`. -/
structure Cancelled where
  depth : Nat
deriving DecidableEq, Repr

/-- The words for a search that was given up. -/
def Cancelled.message (c : Cancelled) : String :=
  "Search cancelled after exploring " ++ toString c.depth ++ " levels"

/-- What stays fixed during a search. -/
structure Query where
  grammar : Grammar
  sieve : Sieve
  stepBound : Option Nat
  maxStates : Nat

namespace Query

/-- The query for a string, taking the grammar to be of the given class. -/
def new (g : Grammar) (cls : GrammarClass) (input : String) (limits : SearchLimits) : Query :=
  let target := input.toList
  let yields := ShortestYields.ofGrammar g
  let exact := limits.exactIfEpsilonFree && !yields.hasNullable
  { grammar := g
    sieve := ⟨.forGrammar g cls, target, yields⟩
    stepBound := if exact then none else some (limits.stepBound target.length g.productions.length)
    maxStates := limits.maxStates }

/-- Whether a form is the wanted string. -/
def isGoal (q : Query) (form : Form) : Bool := form == q.sieve.target.map Symbol.terminal

/-- Whether forms of a level may not be rewritten any more. -/
def atBound (q : Query) (depth : Nat) : Bool :=
  match q.stepBound with
  | some bound => bound ≤ depth
  | none => false

end Query

/-- Where a search stands before a level. The level consists of the nodes from `first` on, whose
forms are `depth` steps from the start. -/
structure SearchState where
  arena : Arena
  effort : Effort
  depth : Nat := 0
  first : Nat := 0

namespace SearchState

/-- The state before the first level. -/
def initial (q : Query) : SearchState :=
  { arena := .ofStart q.grammar.startForm, effort := { stepBound := q.stepBound } }

/-- Stores a rewritten form, unless it is hopeless, known, or there is no more room. -/
def offer (q : Query) (parent : Nat) (s : SearchState) (step : Step) : SearchState :=
  if s.effort.stateLimitHit || !q.sieve.passes step.form || s.arena.seen.contains step.form then s
  else if q.maxStates ≤ s.arena.size then { s with effort.stateLimitHit := true }
  else { s with arena := s.arena.push parent step }

/-- Rewrites the form of a node in all ways, unless a limit forbids it. -/
def expand (q : Query) (index : Nat) (form : Form) (s : SearchState) : SearchState :=
  if q.atBound s.depth then { s with effort.depthLimitHit := true }
  -- Without room the rest of the level is still compared with the string, but nothing is added.
  else if s.effort.stateLimitHit then s
  else (q.grammar.leftmostSteps form).foldl (offer q index) s

/-- Looks at nodes in turn; ends at the wanted string, giving its index. -/
def scan (q : Query) : List (Node × Nat) → SearchState → Option Nat × SearchState
  | [], s => (none, s)
  | (node, index) :: rest, s =>
    let s := { s with effort.explored := s.effort.explored + 1 }
    if node.form.isTerminal then
      if q.isGoal node.form then (some index, s) else scan q rest s
    else scan q rest (s.expand q index node.form)

/-- Looks at the level, and goes on to the next one: the nodes that this one added. -/
def advance (q : Query) (s : SearchState) : Option Nat × SearchState :=
  let nextFirst := s.arena.size
  let nextDepth := s.depth + 1
  let (goal, s) := scan q (s.arena.nodesFrom s.first) { s with effort.deepest := s.depth }
  (goal, { s with depth := nextDepth, first := nextFirst })

/-- Whether the level has no nodes. -/
def isDone (s : SearchState) : Bool := s.arena.size ≤ s.first

/-- What is found by a search that ends in this state. -/
def finding (q : Query) (derivation : Option Derivation) (s : SearchState) : Finding :=
  ⟨derivation, q.sieve.strategy, s.effort⟩

end SearchState

/-- What a search found, and whether it was given up before its end. -/
structure SearchRun where
  finding : Finding
  givenUp : Bool
deriving DecidableEq, Repr

namespace SearchRun

/-- Searches level by level, asking `giveUp` before each. Every level but the last stores a form,
so `fuel` for all storable forms is never used up. -/
def levels (q : Query) (giveUp : Nat → Bool) : (fuel : Nat) → SearchState → SearchRun
  | 0, s => ⟨s.finding q none, false⟩
  | fuel + 1, s =>
    if s.isDone then ⟨s.finding q none, false⟩
    else if giveUp s.depth then ⟨s.finding q none, true⟩
    else
      match s.advance q with
      | (some index, s) =>
        ⟨s.finding q (some (s.arena.derivation q.grammar.start index)), false⟩
      | (none, s) => levels q giveUp fuel s

/-- A search from its beginning. -/
def ofQuery (q : Query) (giveUp : Nat → Bool) : SearchRun :=
  levels q giveUp (q.maxStates + 2) (.initial q)

end SearchRun

/-- Searches for the shortest leftmost derivation of a string, first in production order. -/
def search (g : Grammar) (cls : GrammarClass) (input : String) (limits : SearchLimits) :
    Finding :=
  (SearchRun.ofQuery (.new g cls input limits) fun _ => false).finding

/-- Searches likewise, but gives up before the first level for which `giveUp` holds. -/
def searchUnless (giveUp : Nat → Bool) (g : Grammar) (cls : GrammarClass) (input : String)
    (limits : SearchLimits) : Except Cancelled Finding :=
  let run := SearchRun.ofQuery (.new g cls input limits) giveUp
  if run.givenUp then .error ⟨run.finding.effort.deepest⟩ else .ok run.finding

end PhraseStructure
