import ShiftReduce.Item.Closure
import ShiftReduce.Directory
/-!
# The canonical collection

The states of the automaton are item sets, numbered in order of discovery: state 0 is the closure
of the initial item of rule 0, and each state in turn adds the targets of its transitions that are
new, its symbols taken in item order.
-/

namespace ShiftReduce

/-! ## 1. Automata -/

/-- Transitions of one state, in the order they were found. -/
abbrev Transitions := Directory Symbol Nat

/-- Item sets as numbered states, and the transitions of each state. -/
structure Automaton where
  states : Numbering ItemSet
  transitions : Array Transitions

namespace Automaton

def size (a : Automaton) : Nat := a.states.size

def items? (a : Automaton) (s : Nat) : Option ItemSet := a.states.member? s

def transitions? (a : Automaton) (s : Nat) : Option Transitions := a.transitions[s]?

/-- The target of the transition of `s` on `x`. -/
def transition? (a : Automaton) (s : Nat) (x : Symbol) : Option Nat :=
  (a.transitions? s).bind fun row => row.find? x

/-- The state with exactly these items. -/
def find? (a : Automaton) (items : ItemSet) : Option Nat := a.states.number? items

/-- **A state is found by its items.** -/
theorem find?_eq_some_iff {a : Automaton} {items : ItemSet} {s : Nat} :
    a.find? items = some s ↔ a.items? s = some items :=
  Numbering.number?_eq_some_iff

/-! ## 2. Discovery -/

/-- Closes the moved items of each symbol of a list, in order, and numbers the results. -/
def targets (g : Grammar) (moves : Std.TreeMap Symbol (List Item)) :
    List Symbol → Numbering ItemSet → Numbering ItemSet × List (Symbol × Nat)
  | [], states => (states, [])
  | x :: xs, states =>
    let (states, s) := states.insert (g.closure (moves[x]?.getD []))
    let (states, rest) := targets g moves xs states
    (states, (x, s) :: rest)

/-- Adds the transitions of the first state that has none yet. -/
def grow (g : Grammar) (items : ItemSet) : Automaton → Automaton
  | ⟨states, transitions⟩ =>
    let (states, row) := targets g (g.moves items.toList) (g.nextSymbols items) states
    ⟨states, transitions.push (.ofList row)⟩

/-- Grows the automaton until every state has its transitions, at most `bound` times. -/
def growUpTo (g : Grammar) : Nat → Automaton → Automaton
  | 0, a => a
  | bound + 1, a =>
    match a.items? a.transitions.size with
    | some items => growUpTo g bound (grow g items a)
    | none => a

/-- The automaton of a grammar. There are no more states than sets of items, which bounds the
    discovery. -/
def ofGrammar (g : Grammar) : Automaton :=
  growUpTo g (Nat.pow 2 g.itemCount) ⟨.ofList [g.closure [⟨0, 0⟩]], #[]⟩

end Automaton

end ShiftReduce
