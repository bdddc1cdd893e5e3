import ShiftReduce.Proofs.ClosureWorklist
import ShiftReduce.Proofs.CycleSearch
import ShiftReduce.Proofs.FixpointRounds
/-!
# The construction of tables ends

Nothing that the construction of tables repeats is bounded from outside: states are visited as long as
one is pending, items as long as one waits, rules as long as a round changes something, and the search
for hidden left recursion calls itself. All of it ends on every grammar, with what the library computes
(`construction_ends`), because each turn uses up something of which there is only so much:

* closing an item set, the initial items that have not come to wait (`ClosureWorklist`);
* discovering states, the sets of items that are no state (`Automaton.endsIn_ofGrammar`);
* the rounds for nullable nonterminals, FIRST and FOLLOW, what is missing from the sets
  (`FixpointRounds`);
* the search, the nonterminals that are not on its path (`CycleSearch`).
-/

namespace ShiftReduce

/-! ## 1. Discovering states -/

namespace Automaton

variable {g : Grammar}

/-- The first state that has no transitions yet gets them. -/
def next? (g : Grammar) (a : Automaton) : Option Automaton :=
  (a.items? a.transitions.size).map fun items => grow g items a

/-- State 0 alone, without its transitions. -/
def initial (g : Grammar) : Automaton := ⟨.ofList [g.closure [⟨0, 0⟩]], #[]⟩

theorem next?_eq_none {a : Automaton} (h : a.items? a.transitions.size = none) :
    next? g a = none := by
  rw [next?, h, Option.map_none]

/-- If the bound on the rounds leaves no state pending, the loop without a bound ends where they do.
    A turn adds the transitions of one state. -/
theorem endsIn_growUpTo (bound : Nat) {a : Automaton}
    (h : (growUpTo g bound a).items? (growUpTo g bound a).transitions.size = none) :
    ∃ k, EndsIn (next? g) k a (growUpTo g bound a) ∧
      (growUpTo g bound a).transitions.size = a.transitions.size + k := by
  induction bound generalizing a with
  | zero => exact ⟨0, .ended (next?_eq_none h), rfl⟩
  | succ bound ih =>
    cases hi : a.items? a.transitions.size with
    | none =>
      have hdone : growUpTo g (bound + 1) a = a := by rw [growUpTo, hi]
      rw [hdone]
      exact ⟨0, .ended (next?_eq_none hi), rfl⟩
    | some items =>
      have hgrow : growUpTo g (bound + 1) a = growUpTo g bound (grow g items a) := by
        rw [growUpTo, hi]
      rw [hgrow] at h ⊢
      obtain ⟨k, hend, hsize⟩ := ih h
      rw [size_transitions_grow] at hsize
      exact ⟨k + 1, .turn (by rw [next?, hi, Option.map_some]) hend, by omega⟩

/-- **The discovery ends after one turn for each state.** -/
theorem endsIn_ofGrammar (g : Grammar) :
    EndsIn (next? g) (ofGrammar g).size (initial g) (ofGrammar g) := by
  have hnone : (ofGrammar g).items? (ofGrammar g).transitions.size = none := by
    rw [size_transitions]
    exact Array.getElem?_eq_none (Nat.le_refl _)
  obtain ⟨k, hend, hsize⟩ := endsIn_growUpTo (Nat.pow 2 g.itemCount) hnone
  have hturns : (ofGrammar g).transitions.size = 0 + k := hsize
  rw [size_transitions, Nat.zero_add] at hturns
  exact hturns ▸ hend

end Automaton

/-! ## 2. The construction -/

open SetTable

/-- **Table construction ends.** On every grammar the worklist of a closure runs empty, the discovery
    of states comes to the last of them and the search for hidden left recursion has its answer; on
    every list of rules the rounds for the nullable nonterminals, for FIRST and for FOLLOW come to
    rest. Each ends with what the library computes. -/
theorem construction_ends :
    (∀ g : Grammar,
      (∀ items : List Item, ∃ k ≤ items.length + g.rules.size, ∃ w,
        EndsIn (Worklist.next? g) k (.ofList items) w ∧ w.found = g.closure items) ∧
      ((Automaton.ofGrammar g).size ≤ 2 ^ g.itemCount ∧
        EndsIn (Automaton.next? g) (Automaton.ofGrammar g).size (.initial g)
          (Automaton.ofGrammar g)) ∧
      ∃ answer,
        (∀ a, Searches (g.reaches (nullable g.rules.toList)) [] [] g.nonterminals a ↔ a = answer) ∧
          ∀ n, answer = .error n ↔ g.hiddenRecursion? = some n) ∧
    ∀ rules : List Rule,
      (∃ k ≤ rules.length + 1, ∃ found,
        EndsIn (whileChanging (sweep Rule.takeIn rules)) k (∅, true) (found, false) ∧
          ∀ n, found.contains n = (nullable rules).contains n) ∧
      ∀ t : Slots,
        (∃ k ≤ (firstKeys rules t).size * (64 * t.blocks) + 1,
          EndsIn (whileChanging (sweep enforceTelling (rules.map (Rule.firstInclusion t)))) k
            (firstBase rules t, true) (firstSets rules t, false)) ∧
        ∀ (start : Nonterminal) (first : SetTable t),
          ∃ k ≤ (followKeys rules start).size * (64 * t.blocks) + 1,
            EndsIn
              (whileChanging (sweep enforceTelling (rules.flatMap (Rule.followInclusions first)))) k
              (followBase rules start t, true) (followSets rules start first, false) := by
  refine ⟨fun g => ⟨Worklist.exists_endsIn_closure g, ⟨?_, Automaton.endsIn_ofGrammar g⟩,
    g.exists_searches⟩, fun rules => ⟨exists_endsIn_nullable rules, fun t =>
      ⟨exists_endsIn_firstSets rules t, exists_endsIn_followSets rules⟩⟩⟩
  exact (Automaton.ofGrammar_grown g).size_le

end ShiftReduce
