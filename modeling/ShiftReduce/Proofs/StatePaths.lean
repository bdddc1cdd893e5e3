import ShiftReduce.Proofs.ViablePrefix
/-!
# States reached along strings

`Automaton.along?` goes from state 0 along a string, one transition for each symbol. In the automaton
of a grammar the states of this path are the stack that spells the string, so

* `along?_eq_some_iff` -- a state is reached along `γ` if it tops a stack that spells `γ`;
* `exists_spells` -- whatever some item is valid for is spelled by a stack;
* `exists_spells_of_items?`, `exists_represents` -- no state is left over: each tops a stack, and so
  holds the items valid for some string;
* `along?_exact` -- the path exists exactly if some item is valid for `γ`, and the state it ends in
  holds the items valid for `γ` and no other.
-/

namespace ShiftReduce

namespace Automaton

/-- The state reached from state 0 along a string. -/
def along? (a : Automaton) (γ : List Symbol) : Option Nat := γ.foldlM a.transition? 0

theorem along?_append_singleton (a : Automaton) (γ : List Symbol) (x : Symbol) :
    a.along? (γ ++ [x]) = (a.along? γ).bind fun s => a.transition? s x := by
  rw [along?, List.foldlM_append]
  show (a.along? γ).bind (fun s => [x].foldlM a.transition? s) = _
  simp only [List.foldlM_cons, List.foldlM_nil, bind_pure]

/-- **The state reached along a string tops the stack that spells it.** -/
theorem along?_eq_some_iff {a : Automaton} {γ : List Symbol} {s : Nat} :
    a.along? γ = some s ↔ ∃ below, a.Spells (s :: below) γ := by
  induction γ using List.reverseRecOn generalizing s with
  | nil =>
    constructor
    · intro h
      obtain rfl : 0 = s := Option.some.inj h
      exact ⟨[], .start⟩
    · intro ⟨below, h⟩
      rw [(List.cons.inj h.eq_of_nil).1]
      rfl
  | append_singleton γ x ih =>
    rw [along?_append_singleton, Option.bind_eq_some_iff]
    constructor
    · intro ⟨t, ht, hs⟩
      obtain ⟨below, h⟩ := ih.1 ht
      exact ⟨t :: below, h.push hs⟩
    · intro ⟨below, h⟩
      obtain ⟨t, s', below', hstack, ht, hs⟩ := h.inv_push
      obtain ⟨rfl, -⟩ := List.cons.inj hstack
      exact ⟨t, ih.2 ⟨below', ht⟩, hs⟩

end Automaton

variable {g : Grammar}

/-- A rule entered behind a symbol was pulled in by an item with its dot behind that symbol, and
    before the symbol that item was valid with the symbol next. -/
theorem Entered.exists_valid_before {δ γ : List Symbol} {x : Symbol} {j : Nat}
    (h : Entered g δ j) (hδ : δ = γ ++ [x]) :
    ∃ i : Item, i.ValidFor g γ ∧ i.next? g = some x := by
  induction h with
  | start => exact absurd hδ (by simp)
  | @enter δ η τ i j r s he hr hs hb ih =>
    cases η using List.reverseRecOn with
    | nil => exact ih ((List.append_nil δ).symm.trans hδ)
    | append_singleton η y =>
      rw [← List.append_assoc] at hδ
      obtain ⟨hγ, hx⟩ := List.append_inj' hδ rfl
      obtain rfl := hγ
      obtain rfl := List.singleton_inj.1 hx
      have hrhs : r.rhs = η ++ y :: (.nonterminal s.lhs :: τ) := by
        rw [hb, List.append_assoc]
        rfl
      exact ⟨_, Item.validFor_of_entered he hr hrhs⟩

/-- **A string that some item is valid for stays so without its last symbol**, and an item valid for
    the rest has that symbol next. -/
theorem Item.ValidFor.exists_before {γ : List Symbol} {x : Symbol} {i : Item}
    (h : i.ValidFor g (γ ++ [x])) : ∃ j : Item, j.ValidFor g γ ∧ j.next? g = some x := by
  obtain ⟨rule, dot⟩ := i
  cases dot with
  | succ dot => exact ⟨_, h.retreat⟩
  | zero =>
    obtain ⟨δ, r, he, _, _, hγ⟩ := h
    have hδ : δ = γ ++ [x] := by rw [hγ, List.take_zero, List.append_nil]
    exact he.exists_valid_before hδ

namespace Automaton

/-- **What some item is valid for is spelled by a stack.** -/
theorem exists_spells {γ : List Symbol} {i : Item} (h : i.ValidFor g γ) :
    ∃ stack, (ofGrammar g).Spells stack γ := by
  induction γ using List.reverseRecOn generalizing i with
  | nil => exact ⟨[0], .start⟩
  | append_singleton γ x ih =>
    obtain ⟨j, hj, hx⟩ := h.exists_before
    obtain ⟨stack, hs⟩ := ih hj
    obtain ⟨s, below, rfl⟩ := hs.exists_cons
    obtain ⟨t, _, hpush⟩ := hs.exists_push hj hx
    exact ⟨t :: s :: below, hpush⟩

/-- **Every state tops a stack that spells some string.** -/
theorem exists_spells_of_items? {s : Nat} {items : ItemSet}
    (h : (ofGrammar g).items? s = some items) :
    ∃ γ below, (ofGrammar g).Spells (s :: below) γ := by
  have hall : ∃ γ t below, (ofGrammar g).items? t = some items ∧
      (ofGrammar g).Spells (t :: below) γ := by
    refine items?_induction (P := fun items => ∃ γ t below, (ofGrammar g).items? t = some items ∧
      (ofGrammar g).Spells (t :: below) γ) ⟨[], 0, [], (ofGrammar_grown g).start, .start⟩ ?_ h
    rintro items x ⟨γ, t, below, ht, hspells⟩ hx
    obtain ⟨target, htarget⟩ := exists_transition? ht hx
    obtain ⟨items', ht', _, hgoto⟩ := transition?_iff.1 htarget
    obtain rfl : items = items' := Option.some.inj (ht.symm.trans ht')
    exact ⟨γ ++ [x], target, t :: below, hgoto, hspells.push htarget⟩
  obtain ⟨γ, t, below, ht, hspells⟩ := hall
  obtain rfl := Numbering.member?_inj ht h
  exact ⟨γ, below, hspells⟩

/-- **Every state holds the items valid for some string.** -/
theorem exists_represents {s : Nat} {items : ItemSet} (h : (ofGrammar g).items? s = some items) :
    ∃ γ, items.Represents g γ := by
  obtain ⟨γ, below, hspells⟩ := exists_spells_of_items? h
  exact ⟨γ, fun i => hspells.mem_iff h⟩

/-- **The automaton of a grammar is that of its valid items**: a state is reached along `γ` exactly
    if some item is valid for `γ`, and it holds exactly the items valid for `γ`. -/
theorem along?_exact (g : Grammar) (γ : List Symbol) :
    ((∃ s, (ofGrammar g).along? γ = some s) ↔ ∃ i : Item, i.ValidFor g γ) ∧
      ∀ s, (ofGrammar g).along? γ = some s →
        ∃ items, (ofGrammar g).items? s = some items ∧ ∀ i : Item, i ∈ items ↔ i.ValidFor g γ := by
  refine ⟨⟨fun ⟨s, hs⟩ => ?_, fun ⟨i, hi⟩ => ?_⟩, fun s hs => ?_⟩
  · obtain ⟨below, h⟩ := along?_eq_some_iff.1 hs
    exact h.exists_validFor
  · obtain ⟨stack, h⟩ := exists_spells hi
    obtain ⟨s, below, rfl⟩ := h.exists_cons
    exact ⟨s, along?_eq_some_iff.2 ⟨below, h⟩⟩
  · obtain ⟨below, h⟩ := along?_eq_some_iff.1 hs
    exact h.represents

end Automaton

end ShiftReduce
