import ShiftReduce.LeftRecursion.Cycle
import ShiftReduce.Lookahead.Follow
/-!
# Elimination of immediate left recursion

A nonterminal `A -> A α | β₁ | … | βₙ` with one self-recursive rule becomes
`A -> β₁ A′ | … | βₙ A′` and `A′ -> α A′ | ε`, where the tail `A′` is a fresh nonterminal.
`Elimination.ofGrammar` refuses hidden left recursion, a rule `A -> A`, and two or more
self-recursive rules of one nonterminal. FIRST is read off the rewritten rules.
-/

namespace ShiftReduce

/-! ## 1. Left recursion that stays -/

/-- Why left recursion on a nonterminal cannot be eliminated. -/
inductive RecursionDefect where
  | hidden
  | derivesItself
  | severalRules (count : Nat)
  deriving DecidableEq, Repr

/-- Left recursion that cannot be eliminated. -/
structure LeftRecursionError where
  nonterminal : Nonterminal
  defect : RecursionDefect
  deriving DecidableEq, Repr

/-- The finding in words. -/
def RecursionDefect.detail : RecursionDefect → String
  | .hidden => "indirect left recursion"
  | .derivesItself => "the nonterminal derives itself"
  | .severalRules count => s!"{count} left-recursive alternatives"

def LeftRecursionError.message (e : LeftRecursionError) : String :=
  "left recursion on " ++ Symbol.text (.nonterminal e.nonterminal) ++ " cannot be eliminated: " ++
    e.defect.detail

/-! ## 2. Which nonterminals are rewritten -/

/-- The self-recursive rules of a nonterminal. -/
def Grammar.selfRecursiveRules (g : Grammar) (n : Nonterminal) : List Rule :=
  (g.rulesOf n).filter Rule.isSelfRecursive

/-- What keeps the left recursion of one nonterminal from being eliminated, if anything does. -/
def Grammar.recursionDefect? (g : Grammar) (n : Nonterminal) : Option RecursionDefect :=
  match g.selfRecursiveRules n with
  | [] => none
  | [r] => if r.rhs.length = 1 then some .derivesItself else none
  | rs => some (.severalRules rs.length)

/-- The nonterminals with a self-recursive rule, in order of first appearance. -/
def Grammar.recursiveNonterminals (g : Grammar) : List Nonterminal :=
  g.nonterminals.filter fun n => !(g.selfRecursiveRules n).isEmpty

/-- The least number above every nonterminal. -/
def Grammar.freshNonterminal (g : Grammar) : Nonterminal :=
  g.nonterminals.foldl (fun m n => max m (n + 1)) 0

/-! ## 3. The rewritten rules -/

/-- Each rewritten nonterminal with its tail. -/
abbrev Tails := List (Nonterminal × Nonterminal)

/-- Tails for the recursive nonterminals, numbered upwards from the first fresh number. -/
def Grammar.tails (g : Grammar) : Tails :=
  g.recursiveNonterminals.zipIdx g.freshNonterminal

/-- What a rule becomes. -/
def Rule.eliminate (tails : Tails) (r : Rule) : List Rule :=
  match tails.lookup r.lhs with
  | none => [r]
  | some tail =>
    if r.isSelfRecursive then [⟨tail, r.rhs.tail ++ [.nonterminal tail]⟩, ⟨tail, []⟩]
    else [⟨r.lhs, r.rhs ++ [.nonterminal tail]⟩]

/-- The rules of a grammar with immediate left recursion eliminated. -/
structure Elimination where
  rules : List Rule
  start : Nonterminal
  tails : Tails
  slots : Slots

namespace Elimination

/-- Hidden left recursion is looked for first, then each nonterminal in order. -/
def ofGrammar (g : Grammar) : Except LeftRecursionError Elimination :=
  match g.hiddenRecursion? with
  | some n => .error ⟨n, .hidden⟩
  | none =>
    match g.nonterminals.findSome? fun n => (g.recursionDefect? n).map (LeftRecursionError.mk n) with
    | some e => .error e
    | none => .ok {
        rules := g.rules.toList.flatMap (Rule.eliminate g.tails)
        start := g.augmentedStart
        tails := g.tails
        slots := .ofList g.terminals }

/-- The tail of a nonterminal, if its left recursion was eliminated. -/
def tail? (e : Elimination) (n : Nonterminal) : Option Nonterminal := e.tails.lookup n

/-- FIRST of the rewritten rules. -/
def first (e : Elimination) : SetTable e.slots := firstSets e.rules e.slots

/-- FOLLOW of the rewritten rules. -/
def follow (e : Elimination) : SetTable e.slots := followSets e.rules e.start e.first

end Elimination

end ShiftReduce
