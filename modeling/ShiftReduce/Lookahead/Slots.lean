import ShiftReduce.Symbol
import ShiftReduce.Numbering
import ShiftReduce.Lookahead.SlotSet
/-!
# Slots of lookahead symbols

A numbering of what a lookahead set can hold: slot 0 is `ε`, slot 1 is `$`, and the terminals of a
list follow from slot 2 on. Slot and symbol are inverse to each other (`slot?_eq_some_iff`).
-/

namespace ShiftReduce

/-- The terminals that have a slot, in slot order. -/
structure Slots where
  terminals : Numbering Terminal

namespace Slots

/-- Slots for the terminals of a list; repetitions count once. -/
def ofList (ts : List Terminal) : Slots := ⟨.ofList ts⟩

/-- How many slots there are: the terminals, `ε` and `$`. -/
def size (t : Slots) : Nat := t.terminals.size + 2

/-- How many blocks a set of these slots takes. -/
def blocks (t : Slots) : Nat := SlotSet.blocksFor t.size

/-- The slot of a symbol. Nonterminals and unlisted terminals have none. -/
def slot? (t : Slots) : Symbol → Option Nat
  | .epsilon => some 0
  | .endOfInput => some 1
  | .terminal id => (t.terminals.number? id).map (· + 2)
  | .nonterminal _ => none

/-- The symbol of a slot. -/
def symbol? (t : Slots) : Nat → Option Symbol
  | 0 => some .epsilon
  | 1 => some .endOfInput
  | i + 2 => (t.terminals.member? i).map .terminal

/-- The symbols of the members of a set, in slot order. -/
def symbolsOf (t : Slots) (s : SlotSet t.blocks) : List Symbol :=
  s.members.filterMap t.symbol?

/-- **Slot and symbol are inverse to each other.** -/
theorem slot?_eq_some_iff {t : Slots} {x : Symbol} {i : Nat} :
    t.slot? x = some i ↔ t.symbol? i = some x := by
  match i with
  | 0 => cases x <;> simp [slot?, symbol?]
  | 1 => cases x <;> simp [slot?, symbol?]
  | i + 2 =>
    cases x with
    | terminal id => simp [slot?, symbol?, Numbering.number?_eq_some_iff]
    | nonterminal id => simp [slot?, symbol?]
    | endOfInput => simp [slot?, symbol?]
    | epsilon => simp [slot?, symbol?]

end Slots

end ShiftReduce
