import Mathlib.Data.List.Induction
import ShiftReduce.Proofs.Collection
/-!
# Stacks of states spell viable prefixes

A stack of states is a path of the automaton from state 0, and the symbols along the path are what
the stack spells (`Automaton.Spells`). In the automaton of a grammar the state on top of a stack
that spells `γ` holds exactly the items valid for `γ` (`Spells.mem_iff`). So a symbol behind the
dot of a valid item can always be pushed (`Spells.exists_push`), and taking symbols off leads back
to the stack of the shorter string (`Spells.drop`).
-/

namespace ShiftReduce

namespace Automaton

/-- The states, from the top down, are those of the path along `γ` from state 0. -/
inductive Spells (a : Automaton) : List Nat → List Symbol → Prop where
  | start : Spells a [0] []
  | push {s t : Nat} {below : List Nat} {γ : List Symbol} {x : Symbol}
      (h : Spells a (s :: below) γ) (ht : a.transition? s x = some t) :
      Spells a (t :: s :: below) (γ ++ [x])

namespace Spells

variable {a : Automaton} {stack : List Nat} {γ : List Symbol}

/-! ## 1. Stacks and strings determine each other's shape -/

theorem ne_nil (h : a.Spells stack γ) : stack ≠ [] := by
  cases h with
  | start => exact List.cons_ne_nil _ _
  | push h ht => exact List.cons_ne_nil _ _

theorem exists_cons (h : a.Spells stack γ) : ∃ s below, stack = s :: below :=
  List.exists_cons_of_ne_nil h.ne_nil

theorem eq_of_nil (h : a.Spells stack []) : stack = [0] := by
  generalize hδ : ([] : List Symbol) = δ at h
  cases h with
  | start => rfl
  | push h ht => exact absurd hδ.symm (by simp)

/-- What a stack spells last was pushed last. -/
theorem inv_push {x : Symbol} (h : a.Spells stack (γ ++ [x])) :
    ∃ s t below, stack = t :: s :: below ∧ a.Spells (s :: below) γ ∧
      a.transition? s x = some t := by
  generalize hδ : γ ++ [x] = δ at h
  cases h with
  | start => exact absurd hδ (by simp)
  | @push s t below γ' y h ht =>
    obtain ⟨hγ, hx⟩ := List.append_inj' hδ rfl
    obtain rfl := hγ
    obtain rfl := List.singleton_inj.1 hx
    exact ⟨s, t, below, rfl, h, ht⟩

/-- **A string is spelled by one stack only.** -/
theorem unique {stack' : List Nat} (h : a.Spells stack γ) (h' : a.Spells stack' γ) :
    stack = stack' := by
  induction h generalizing stack' with
  | start => exact h'.eq_of_nil.symm
  | push h ht ih =>
    obtain ⟨s, t, below, rfl, hb, ht'⟩ := h'.inv_push
    cases ih hb
    rw [Option.some.inj (ht.symm.trans ht')]

/-- **Taking symbols off leads back to the stack of the shorter string.** -/
theorem drop {ξ : List Symbol} (h : a.Spells stack (γ ++ ξ)) :
    a.Spells (stack.drop ξ.length) γ := by
  induction ξ using List.reverseRecOn generalizing stack with
  | nil => simpa using h
  | append_singleton ξ x ih =>
    rw [← List.append_assoc] at h
    obtain ⟨s, t, below, rfl, hb, _⟩ := h.inv_push
    rw [List.length_append, List.length_singleton, List.drop_succ_cons]
    exact ih hb

/-! ## 2. The automaton of a grammar -/

variable {g : Grammar} {s : Nat} {below : List Nat}

/-- The state on top holds the items valid for the string. -/
theorem represents (h : (ofGrammar g).Spells (s :: below) γ) :
    ∃ items, (ofGrammar g).items? s = some items ∧ items.Represents g γ := by
  generalize hs : s :: below = stack at h
  induction h generalizing s below with
  | start =>
    obtain ⟨rfl, -⟩ := List.cons.inj hs
    exact ⟨_, (ofGrammar_grown g).start, represents_start g⟩
  | @push s₀ t below₀ γ x h ht ih =>
    obtain ⟨rfl, -⟩ := List.cons.inj hs
    obtain ⟨items, hi, hx, hti⟩ := transition?_iff.1 ht
    obtain ⟨items', hi', hr⟩ := ih rfl
    obtain rfl : items = items' := Option.some.inj (hi.symm.trans hi')
    exact ⟨_, hti, hr.goto x⟩

/-- **The items of the state on top are the items valid for what the stack spells.** -/
theorem mem_iff (h : (ofGrammar g).Spells (s :: below) γ) {items : ItemSet}
    (hs : (ofGrammar g).items? s = some items) {i : Item} : i ∈ items ↔ i.ValidFor g γ := by
  obtain ⟨items', hs', hr⟩ := h.represents
  obtain rfl : items = items' := Option.some.inj (hs.symm.trans hs')
  exact hr i

/-- **The symbol after the dot of a valid item can be pushed.** -/
theorem exists_push (h : (ofGrammar g).Spells (s :: below) γ) {i : Item} {x : Symbol}
    (hv : i.ValidFor g γ) (hx : i.next? g = some x) :
    ∃ t, (ofGrammar g).transition? s x = some t ∧
      (ofGrammar g).Spells (t :: s :: below) (γ ++ [x]) := by
  obtain ⟨items, hs, hr⟩ := h.represents
  obtain ⟨t, ht⟩ := exists_transition? hs (g.mem_nextSymbols.2 ⟨i, (hr i).2 hv, hx⟩)
  exact ⟨t, ht, h.push ht⟩

/-- A transition of the state on top goes over the symbol after the dot of a valid item. -/
theorem exists_valid (h : (ofGrammar g).Spells (s :: below) γ) {x : Symbol} {t : Nat}
    (ht : (ofGrammar g).transition? s x = some t) :
    ∃ i : Item, i.ValidFor g γ ∧ i.next? g = some x := by
  obtain ⟨items, hs, hx, _⟩ := transition?_iff.1 ht
  obtain ⟨i, hi, hn⟩ := g.mem_nextSymbols.1 hx
  exact ⟨i, (h.mem_iff hs).1 hi, hn⟩

/-- **Some item is valid for whatever a stack spells.** -/
theorem exists_validFor {stack : List Nat} (h : (ofGrammar g).Spells stack γ) :
    ∃ i : Item, i.ValidFor g γ := by
  cases h with
  | start => exact ⟨_, Item.validFor_nil g⟩
  | push h ht =>
    obtain ⟨i, hv, hx⟩ := h.exists_valid ht
    exact ⟨i.advance, hv.advance hx⟩

end Spells

end Automaton

end ShiftReduce
