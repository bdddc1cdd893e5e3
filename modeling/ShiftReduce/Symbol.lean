/-!
# Grammar symbols

A symbol is a numbered terminal, a numbered nonterminal, the end-of-input mark `$` or the empty
string `ε`. The two marks never occur in the rules of a grammar: `$` ends an input, and `ε` stands
only inside lookahead sets. Symbols are ordered (terminals, nonterminals, `$`, `ε`; by number
inside the first two groups), and the order is decidable.
-/

namespace ShiftReduce

/-! ## 1. Numbers

Terminals and nonterminals are numbered apart. Rules and states are counted from 0 and written as
plain numbers: rule 0 is the augmenting rule, state 0 the initial state. -/

/-- The number of a terminal. -/
abbrev Terminal := Nat

/-- The number of a nonterminal. -/
abbrev Nonterminal := Nat

/-! ## 2. Symbols -/

/-- What a rule, an input or a lookahead set can hold. -/
inductive Symbol where
  | terminal (id : Terminal)
  | nonterminal (id : Nonterminal)
  | endOfInput
  | epsilon
  deriving DecidableEq, Repr

namespace Symbol

/-- The number of a terminal; nothing for any other symbol. -/
def terminal? : Symbol → Option Terminal
  | .terminal id => some id
  | _ => none

/-- The number of a nonterminal; nothing for any other symbol. -/
def nonterminal? : Symbol → Option Nonterminal
  | .nonterminal id => some id
  | _ => none

def isTerminal (s : Symbol) : Bool :=
  s.terminal?.isSome

@[simp] theorem terminal?_eq_some_iff {s : Symbol} {t : Terminal} :
    s.terminal? = some t ↔ s = .terminal t := by
  cases s <;> simp [terminal?]

@[simp] theorem nonterminal?_eq_some_iff {s : Symbol} {n : Nonterminal} :
    s.nonterminal? = some n ↔ s = .nonterminal n := by
  cases s <;> simp [nonterminal?]

theorem isTerminal_iff {s : Symbol} : s.isTerminal = true ↔ ∃ id, s = .terminal id := by
  cases s <;> simp [isTerminal, terminal?]

/-- Written form: `t5`, `N3`, `$`, `ε`. -/
def text : Symbol → String
  | .terminal id => "t" ++ toString id
  | .nonterminal id => "N" ++ toString id
  | .endOfInput => "$"
  | .epsilon => "ε"

instance : ToString Symbol := ⟨text⟩

/-! ## 3. Order -/

/-- The group a symbol sorts into. -/
def group : Symbol → Nat
  | .terminal _ => 0
  | .nonterminal _ => 1
  | .endOfInput => 2
  | .epsilon => 3

/-- The place of a symbol inside its group. -/
def index : Symbol → Nat
  | .terminal id => id
  | .nonterminal id => id
  | .endOfInput => 0
  | .epsilon => 0

/-- Groups first, then numbers. -/
instance : LT Symbol where
  lt a b := a.group < b.group ∨ (a.group = b.group ∧ a.index < b.index)

instance : LE Symbol where
  le a b := ¬ b < a

instance (a b : Symbol) : Decidable (a < b) :=
  inferInstanceAs (Decidable (a.group < b.group ∨ (a.group = b.group ∧ a.index < b.index)))

instance (a b : Symbol) : Decidable (a ≤ b) :=
  inferInstanceAs (Decidable (¬ b < a))

/-- Two symbols of one group with one index are the same. -/
theorem eq_of_group_index {a b : Symbol} (hg : a.group = b.group) (hi : a.index = b.index) :
    a = b := by
  cases a <;> cases b <;> simp_all [group, index]

/-- The order as a comparison. -/
def order : Symbol → Symbol → Ordering
  | .terminal a, .terminal b => compare a b
  | .nonterminal a, .nonterminal b => compare a b
  | a, b => compare a.group b.group

instance : Ord Symbol := ⟨order⟩

/-- Groups are compared first, then numbers. -/
theorem compare_eq :
    (compare : Symbol → Symbol → Ordering) = compareLex (compareOn group) (compareOn index) := by
  funext a b
  cases a <;> cases b <;> rfl

instance : Std.TransOrd Symbol := by
  unfold Std.TransOrd
  rw [compare_eq]
  infer_instance

instance : Std.LawfulEqOrd Symbol where
  eq_of_compare {a b} h := by
    rw [compare_eq] at h
    obtain ⟨hg, hi⟩ := Ordering.then_eq_eq.1 h
    exact eq_of_group_index (Nat.compare_eq_eq.1 hg) (Nat.compare_eq_eq.1 hi)

/-- Symbols in increasing order, repetitions kept. -/
def sort (symbols : List Symbol) : List Symbol :=
  symbols.mergeSort (· ≤ ·)

end Symbol

end ShiftReduce
