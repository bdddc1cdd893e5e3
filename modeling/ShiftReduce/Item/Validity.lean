import ShiftReduce.Item.Basic
/-!
# Valid items

Which items can hold after a string of symbols has been read, said without closures or states. A
rule is entered after `δ` when a chain of rules leads to it: rule 0 is entered after the empty
string, and a rule entered after `δ` whose right-hand side has `B` behind `η` lets every rule of
`B` be entered after `δ ++ η`. An item is valid for `γ` when its rule is entered after some `δ` and
`γ` is `δ` followed by what stands before the dot.
-/

namespace ShiftReduce

/-- A chain of rules leads to rule `i` after `δ`. -/
inductive Entered (g : Grammar) : List Symbol → Nat → Prop where
  | start : Entered g [] 0
  | enter {δ η τ : List Symbol} {i j : Nat} {r s : Rule} (h : Entered g δ i)
      (hr : g.rules[i]? = some r) (hs : g.rules[j]? = some s)
      (hb : r.rhs = η ++ .nonterminal s.lhs :: τ) : Entered g (δ ++ η) j

/-- The item can hold after `γ` has been read. -/
def Item.ValidFor (g : Grammar) (γ : List Symbol) (i : Item) : Prop :=
  ∃ δ r, Entered g δ i.rule ∧ g.rules[i.rule]? = some r ∧ i.dot ≤ r.rhs.length ∧
    γ = δ ++ r.rhs.take i.dot

/-- The initial item of rule 0 is valid for the empty string. -/
theorem Item.validFor_nil (g : Grammar) : Item.ValidFor g [] ⟨0, 0⟩ :=
  ⟨[], _, .start, g.rule_zero, Nat.zero_le _, rfl⟩

/-- Reading the symbol after the dot moves the dot over it. -/
theorem Item.ValidFor.advance {g : Grammar} {γ : List Symbol} {i : Item} {x : Symbol}
    (h : i.ValidFor g γ) (hx : i.next? g = some x) : i.advance.ValidFor g (γ ++ [x]) := by
  obtain ⟨δ, r, he, hr, _, rfl⟩ := h
  obtain ⟨r', hr', hd⟩ := Item.next?_eq_some_iff.1 hx
  obtain rfl : r = r' := Option.some.inj (hr.symm.trans hr')
  have hlt := (List.getElem?_eq_some_iff.1 hd).1
  refine ⟨δ, r, he, hr, hlt, ?_⟩
  simp [Item.advance, List.take_add_one, hd]

/-- A nonterminal after the dot makes the initial items of its rules valid. -/
theorem Item.ValidFor.enter {g : Grammar} {γ : List Symbol} {i : Item} {j : Nat} {s : Rule}
    (h : i.ValidFor g γ) (hx : i.next? g = some (.nonterminal s.lhs))
    (hs : g.rules[j]? = some s) : Item.ValidFor g γ ⟨j, 0⟩ := by
  obtain ⟨δ, r, he, hr, _, rfl⟩ := h
  obtain ⟨r', hr', hd⟩ := Item.next?_eq_some_iff.1 hx
  obtain rfl : r = r' := Option.some.inj (hr.symm.trans hr')
  obtain ⟨hlt, hget⟩ := List.getElem?_eq_some_iff.1 hd
  have hsplit : r.rhs = r.rhs.take i.dot ++ .nonterminal s.lhs :: r.rhs.drop (i.dot + 1) := by
    rw [← hget, ← List.drop_eq_getElem_cons hlt, List.take_append_drop]
  exact ⟨δ ++ r.rhs.take i.dot, s, .enter he hr hs hsplit, hs, Nat.zero_le _, by simp⟩

end ShiftReduce
