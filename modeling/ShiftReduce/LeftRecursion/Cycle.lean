import ShiftReduce.Grammar
import ShiftReduce.Nullable
/-!
# Hidden left recursion

A nonterminal reaches another on the left when one of its rules has the other behind nonterminals
that can all vanish. A rule that simply opens with its own left-hand side does not count: that
recursion can be eliminated. Every other cycle of this relation is hidden left recursion, and
`Grammar.hiddenRecursion?` finds the nonterminal at which a depth-first search first closes one.
-/

namespace ShiftReduce

/-! ## 1. Reaching on the left -/

/-- The nonterminals at the front of a string, up to and with the first that cannot vanish. -/
def leftNonterminals (vanishing : Std.TreeSet Nonterminal) : List Symbol → List Nonterminal
  | .nonterminal n :: xs =>
    n :: if vanishing.contains n then leftNonterminals vanishing xs else []
  | _ => []

/-- What the left-hand side reaches by this rule; its own occurrence in front is passed over. -/
def Rule.reaches (vanishing : Std.TreeSet Nonterminal) (r : Rule) : List Nonterminal :=
  if r.isSelfRecursive then (leftNonterminals vanishing r.rhs).tail
  else leftNonterminals vanishing r.rhs

/-- What a nonterminal reaches on the left, rule by rule. -/
def Grammar.reaches (g : Grammar) (vanishing : Std.TreeSet Nonterminal) (n : Nonterminal) :
    List Nonterminal :=
  (g.rulesOf n).flatMap (Rule.reaches vanishing)

/-! ## 2. Depth-first search -/

/-- Searches from `n` for a nonterminal that is met again on the path to it. The answer is that
    nonterminal, as an error, or the finished nonterminals with those of this search in front. A
    path holds no nonterminal twice, which bounds its depth. -/
def search (next : Nonterminal → List Nonterminal) :
    Nat → List Nonterminal → List Nonterminal → Nonterminal →
      Except Nonterminal (List Nonterminal)
  | 0, _, finished, _ => .ok finished
  | depth + 1, path, finished, n =>
    if path.contains n then .error n
    else if finished.contains n then .ok finished
    else do
      let finished ← (next n).foldlM (search next depth (n :: path)) finished
      return n :: finished

/-- The nonterminal at which hidden left recursion is first found, the nonterminals of the grammar
    tried in order. -/
def Grammar.hiddenRecursion? (g : Grammar) : Option Nonterminal :=
  let vanishing := nullable g.rules.toList
  let depth := g.nonterminals.length + 1
  match g.nonterminals.foldlM (search (g.reaches vanishing) depth []) [] with
  | .error n => some n
  | .ok _ => none

end ShiftReduce
