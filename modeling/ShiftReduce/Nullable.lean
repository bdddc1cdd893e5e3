import ShiftReduce.Rule
import Std.Data.TreeSet.Lemmas
/-!
# Nullable nonterminals

`nullable` finds the nonterminals that derive the empty string: those of an empty rule, those
of a rule whose right-hand side holds only nonterminals found before, and so on. Terminals and
marks never vanish.
-/

namespace ShiftReduce

/-- The symbol vanishes when the nonterminals of `found` do. -/
def Symbol.isErasedBy (found : Std.TreeSet Nonterminal) : Symbol → Bool
  | .nonterminal n => found.contains n
  | _ => false

/-- Only nonterminals vanish. -/
theorem Symbol.isErasedBy_iff {found : Std.TreeSet Nonterminal} {s : Symbol} :
    s.isErasedBy found = true ↔ ∃ n, s = .nonterminal n ∧ found.contains n = true := by
  cases s <;> simp [isErasedBy]

/-- The right-hand side vanishes when the nonterminals of `found` do. -/
def Rule.isErasedBy (found : Std.TreeSet Nonterminal) (r : Rule) : Bool :=
  r.rhs.all (Symbol.isErasedBy found)

/-- The rules whose right-hand sides vanish already. -/
def erasedRules (found : Std.TreeSet Nonterminal) (rules : List Rule) : List Rule :=
  rules.filter fun r => r.isErasedBy found

/-- The rules whose right-hand sides do not vanish yet. -/
def standingRules (found : Std.TreeSet Nonterminal) (rules : List Rule) : List Rule :=
  rules.filter fun r => !r.isErasedBy found

theorem length_standingRules_lt {found : Std.TreeSet Nonterminal} {rules : List Rule}
    (h : erasedRules found rules ≠ []) : (standingRules found rules).length < rules.length := by
  obtain ⟨r, hr⟩ := List.exists_mem_of_ne_nil _ h
  simp only [erasedRules, List.mem_filter] at hr
  apply List.length_filter_lt_length_iff_exists.2
  exact ⟨r, hr.1, by simp [hr.2]⟩

/-- One round takes every pending rule whose right-hand side vanishes already and adds its
    left-hand side; the rounds end when there is none to take. -/
def nullableFrom (pending : List Rule) (found : Std.TreeSet Nonterminal) :
    Std.TreeSet Nonterminal :=
  if erasedRules found pending = [] then found
  else nullableFrom (standingRules found pending)
    (found.insertMany ((erasedRules found pending).map Rule.lhs))
termination_by pending.length
decreasing_by exact length_standingRules_lt (by assumption)

/-- The nonterminals that derive the empty string. -/
def nullable (rules : List Rule) : Std.TreeSet Nonterminal :=
  nullableFrom rules ∅

end ShiftReduce
