import ShiftReduce.Rule
import ShiftReduce.Lookahead.SetTable
/-!
# FIRST sets

`SetTable.firstOf` reads the set of a string off a table: the first symbols of what the string can
become, and `ε` when all of it can vanish. A symbol that is no key becomes nothing. `firstSets` is
the least table in which every listed terminal and `$` begin with themselves and the set of a
nonterminal holds the set of each of its right-hand sides.
-/

namespace ShiftReduce

variable {t : Slots}

/-- The set of a symbol in front of a string, given the set of the string. -/
def SetTable.inFront (T : SetTable t) (x : Symbol) (rest : SlotSet t.blocks) :
    SlotSet t.blocks :=
  match T.set? x with
  | none => ∅
  | some s => if s.contains 0 then (s.erase 0).union rest else s

/-- The set of a string: symbol by symbol while the part before can vanish. -/
def SetTable.firstOf (T : SetTable t) : List Symbol → SlotSet t.blocks
  | [] => .singleton 0
  | x :: xs =>
    match T.set? x with
    | none => ∅
    | some s => if s.contains 0 then (s.erase 0).union (T.firstOf xs) else s

theorem SetTable.firstOf_cons (T : SetTable t) (x : Symbol) (xs : List Symbol) :
    T.firstOf (x :: xs) = T.inFront x (T.firstOf xs) := rfl

/-- The symbols of the set of a string, in slot order. -/
def SetTable.firstSymbols (T : SetTable t) (xs : List Symbol) : List Symbol :=
  t.symbolsOf (T.firstOf xs)

/-- The listed terminals in slot order, `$`, and the nonterminals of the rules. -/
def firstKeys (rules : List Rule) (t : Slots) : Numbering Symbol :=
  .ofList (t.terminals.toList.map .terminal ++
    .endOfInput :: (nonterminalsOf rules).map .nonterminal)

/-- Every listed terminal and `$` with itself, every nonterminal of the rules with nothing. -/
def firstBase (rules : List Rule) (t : Slots) : SetTable t :=
  .ofKeys (firstKeys rules t) fun x => (t.slot? x).elim ∅ .singleton

/-- A left-hand side begins as its right-hand side does. -/
def Rule.firstInclusion (t : Slots) (r : Rule) : SetTable.Inclusion t :=
  ⟨.nonterminal r.lhs, fun T => T.firstOf r.rhs⟩

/-- FIRST of every listed terminal, of `$` and of every nonterminal of the rules. A round takes the
    rules forwards and backwards, so that chains of rules settle in few rounds either way. -/
def firstSets (rules : List Rule) (t : Slots) : SetTable t :=
  let inclusions := rules.map (Rule.firstInclusion t)
  (firstBase rules t).saturate (inclusions ++ inclusions.reverse)

end ShiftReduce
