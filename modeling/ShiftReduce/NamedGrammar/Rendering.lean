import ShiftReduce.NamedGrammar.Basic
import ShiftReduce.Automaton
/-!
# Items and automata with names

Items are written as rules with a dot between blanks, and the transitions of an automaton one state
a line.
-/

namespace ShiftReduce

namespace NamedGrammar

variable (n : NamedGrammar)

/-- The words of a right-hand side with the dot among them; a dot beyond the end is not written. -/
def dotted (rhs : List Symbol) (dot : Nat) : List String :=
  (rhs.take dot).map n.symbolName ++ (if dot ≤ rhs.length then ["."] else []) ++
    (rhs.drop dot).map n.symbolName

/-- An item with names: `E -> E . + T`. Nothing for a rule that is not in the grammar. -/
def renderItem? (i : Item) : Option String :=
  n.grammar.rules[i.rule]?.map fun r => n.renderWords r.lhs (n.dotted r.rhs i.dot)

/-- The items of a set in order; nothing if one of them has a foreign rule. -/
def renderItems? (items : ItemSet) : Option (List String) := items.toList.mapM n.renderItem?

/-- One state with its transitions: `3: E -> 4, + -> 6`. -/
def renderRow (state : Nat) (row : Transitions) : String :=
  if row.entries = [] then s!"{state}:"
  else s!"{state}: " ++
    ", ".intercalate (row.entries.map fun p => n.symbolName p.1 ++ s!" -> {p.2}")

/-- One line for each state. -/
def renderTransitions (a : Automaton) : String :=
  "\n".intercalate (a.transitions.toList.zipIdx.map fun p => n.renderRow p.2 p.1)

end NamedGrammar

end ShiftReduce
