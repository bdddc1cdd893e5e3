import ShiftReduce.Symbol
import ShiftReduce.Numbering
/-!
# Rules

A rule rewrites a nonterminal to a possibly empty string of symbols. This file holds the rules
themselves and what can be read off a plain list of rules: its terminals and nonterminals in order
of first appearance.
-/

namespace ShiftReduce

/-- A production `lhs -> rhs`. -/
structure Rule where
  lhs : Nonterminal
  rhs : List Symbol
  deriving DecidableEq, Repr

namespace Rule

/-- Written form: the left-hand side, an arrow, and every symbol after a blank. -/
def text (r : Rule) : String :=
  r.rhs.foldl (fun s x => s ++ " " ++ x.text) (Symbol.text (.nonterminal r.lhs) ++ " ->")

instance : ToString Rule := ⟨text⟩

/-- The nonterminal that opens the right-hand side, if one does. -/
def leading? (r : Rule) : Option Nonterminal :=
  r.rhs.head?.bind Symbol.nonterminal?

/-- Immediate left recursion: the right-hand side opens with the left-hand side. -/
def isSelfRecursive (r : Rule) : Bool :=
  r.leading? == some r.lhs

@[simp] theorem leading?_eq_some_iff {r : Rule} {n : Nonterminal} :
    r.leading? = some n ↔ ∃ rest, r.rhs = .nonterminal n :: rest := by
  cases h : r.rhs with
  | nil => simp [leading?, h]
  | cons x rest => simp [leading?, h]

theorem isSelfRecursive_iff {r : Rule} :
    r.isSelfRecursive = true ↔ ∃ rest, r.rhs = .nonterminal r.lhs :: rest := by
  simp [isSelfRecursive]

/-- The nonterminals of a rule from left to right, its left-hand side first. -/
def nonterminals (r : Rule) : List Nonterminal :=
  r.lhs :: r.rhs.filterMap Symbol.nonterminal?

/-- The terminals of a rule from left to right. -/
def terminals (r : Rule) : List Terminal :=
  r.rhs.filterMap Symbol.terminal?

end Rule

/-! ## 1. The symbols of a list of rules -/

/-- The terminals of the rules, each once, in order of first appearance. -/
def terminalsOf (rules : List Rule) : List Terminal :=
  (Numbering.ofList (rules.flatMap Rule.terminals)).toList

/-- The nonterminals of the rules, each once, in order of first appearance: a left-hand side comes
    before the symbols of its own right-hand side. -/
def nonterminalsOf (rules : List Rule) : List Nonterminal :=
  (Numbering.ofList (rules.flatMap Rule.nonterminals)).toList

theorem mem_terminalsOf {rules : List Rule} {t : Terminal} :
    t ∈ terminalsOf rules ↔ ∃ r ∈ rules, .terminal t ∈ r.rhs := by
  rw [terminalsOf, ← Numbering.mem_def, Numbering.mem_ofList]
  simp [Rule.terminals]

theorem mem_nonterminalsOf {rules : List Rule} {n : Nonterminal} :
    n ∈ nonterminalsOf rules ↔ ∃ r ∈ rules, n = r.lhs ∨ .nonterminal n ∈ r.rhs := by
  rw [nonterminalsOf, ← Numbering.mem_def, Numbering.mem_ofList]
  simp [Rule.nonterminals]

end ShiftReduce
