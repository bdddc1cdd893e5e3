import ShiftReduce.Proofs.Collection
/-!
# The canonical collection

What the states of the automaton of a grammar are, taken together (`Automaton.ofGrammar_canonical`):

* `Grammar.closure_closure`, `Grammar.goto_eq_empty_iff` -- every state is closed, and nothing is
  reached over exactly the symbols that stand after no dot;
* `Automaton.IsRooted` -- the invariant of the discovery that orders the states: a state other than
  state 0 was found from one with a smaller number. A round gives transitions to a state that was
  there before and numbers the new states behind all old ones, so it keeps the invariant
  (`IsRooted.grow`).
-/

namespace ShiftReduce

/-! ## 1. Closed sets -/

namespace Grammar

variable {g : Grammar}

/-- Closing a closed set adds nothing. -/
theorem closure_closure (items : List Item) :
    g.closure (g.closure items).toList = g.closure items := by
  refine ItemSet.ext_mem fun i => ⟨fun hi => ?_, fun hi => g.mem_closure.2 (.inl hi)⟩
  refine closure_induction (P := fun i => i ∈ g.closure items) (fun j hj => hj) ?_ i hi
  exact fun j n k hj hn hk => closure_closed hj hn hk

theorem closure_ne_empty {items : List Item} (h : items ≠ []) : g.closure items ≠ ∅ := by
  obtain ⟨i, hi⟩ := List.exists_mem_of_ne_nil items h
  intro he
  have hm : i ∈ g.closure items := g.mem_closure.2 (.inl hi)
  rw [he] at hm
  exact absurd hm List.not_mem_nil

/-- **Something is reached over a symbol exactly if it stands after a dot.** -/
theorem goto_eq_empty_iff {items : ItemSet} {x : Symbol} :
    g.goto items x = ∅ ↔ ¬ x ∈ g.nextSymbols items := by
  constructor
  · intro h hx
    obtain ⟨i, hi, hn⟩ := g.mem_nextSymbols.1 hx
    have hk : i.advance ∈ g.kernel items x := g.mem_kernel.2 ⟨i, hi, hn, rfl⟩
    exact closure_ne_empty (List.ne_nil_of_mem hk) h
  · intro hx
    refine g.goto_eq_empty (List.eq_nil_iff_forall_not_mem.2 fun i hi => hx ?_)
    obtain ⟨j, hj, hn, _⟩ := g.mem_kernel.1 hi
    exact g.mem_nextSymbols.2 ⟨j, hj, hn⟩

end Grammar

namespace Automaton

variable {g : Grammar}

/-- **Every state is closed and holds an item.** -/
theorem closed_of_items? {s : Nat} {items : ItemSet} (h : (ofGrammar g).items? s = some items) :
    items ≠ ∅ ∧ g.closure items.toList = items := by
  refine items?_induction (P := fun items => items ≠ ∅ ∧ g.closure items.toList = items) ?_ ?_ h
  · exact ⟨Grammar.closure_ne_empty (List.cons_ne_nil _ _), Grammar.closure_closure _⟩
  · intro items x _ hx
    exact ⟨fun he => Grammar.goto_eq_empty_iff.1 he hx, Grammar.closure_closure _⟩

/-! ## 2. Where states are found from -/

/-- Every state but state 0 is the target of a transition of a state with a smaller number. -/
def IsRooted (a : Automaton) : Prop :=
  ∀ t, t ≠ 0 → t < a.size → ∃ s < t, ∃ x, a.transition? s x = some t

/-- A number given out in a round is found for one of its symbols. -/
theorem exists_lookup_of_le {moves : Std.TreeMap Symbol (List Item)} {xs : List Symbol}
    {states : Numbering ItemSet} {t : Nat} (hle : states.size ≤ t)
    (hlt : t < (targets g moves xs states).1.size) :
    ∃ x, (targets g moves xs states).2.lookup x = some t := by
  obtain ⟨s, hs⟩ : ∃ s, (targets g moves xs states).1.member? t = some s :=
    ⟨_, Array.getElem?_eq_getElem hlt⟩
  rcases member?_of_targets hs with hold | ⟨x, hx, rfl⟩
  · exact absurd (Numbering.lt_size_of_member? hold) (Nat.not_lt.2 hle)
  · obtain ⟨t', ht'⟩ := exists_lookup_targets hx
    have hm := (member?_of_lookup_targets ht').2
    exact ⟨x, ht'.trans (congrArg some (Numbering.member?_inj hm hs))⟩

/-- A round keeps the transitions there are. -/
theorem transition?_grow_of_some {items : ItemSet} {a : Automaton} {s t : Nat} {x : Symbol}
    (h : a.transition? s x = some t) : (grow g items a).transition? s x = some t := by
  obtain ⟨row, hrow, _⟩ := Option.bind_eq_some_iff.1 h
  have hs : s < a.transitions.size := (Array.getElem?_eq_some_iff.1 hrow).1
  exact (transition?_grow_of_ne (Nat.ne_of_lt hs)).trans h

/-- **A round finds its new states from the state that grows**, whose number is smaller. -/
theorem IsRooted.grow {a : Automaton} (h : IsRooted a) {items : ItemSet}
    (hi : a.items? a.transitions.size = some items) : IsRooted (Automaton.grow g items a) := by
  intro t h0 ht
  have hgrows : a.transitions.size < a.size := Numbering.lt_size_of_member? hi
  rcases Nat.lt_or_ge t a.size with hlt | hge
  · obtain ⟨s, hs, x, hx⟩ := h t h0 hlt
    exact ⟨s, hs, x, transition?_grow_of_some hx⟩
  · rw [grow_eq] at ht
    obtain ⟨x, hx⟩ := exists_lookup_of_le hge ht
    refine ⟨a.transitions.size, Nat.lt_of_lt_of_le hgrows hge, x, ?_⟩
    rw [transition?_grow_self, hx]

theorem isRooted_ofGrammar (g : Grammar) : IsRooted (ofGrammar g) := by
  refine growUpTo_induction (fun a items ha hi => ha.grow hi) _ fun t h0 ht => ?_
  have hsize : (Numbering.ofList [g.closure [⟨0, 0⟩]]).size = 1 := by
    rw [← Numbering.length_toList, Numbering.toList_ofList]
    rfl
  have hlt : t < 1 := hsize ▸ ht
  omega

/-! ## 3. The collection -/

/-- The transition of a state leads to the state with the items of the goto set. -/
theorem transition?_eq_find? {s : Nat} {items : ItemSet} (h : (ofGrammar g).items? s = some items)
    (x : Symbol) : (ofGrammar g).transition? s x = (ofGrammar g).find? (g.goto items x) := by
  refine Option.ext fun t => ?_
  rw [find?_eq_some_iff, transition?_iff]
  constructor
  · intro ⟨items', h', _, ht⟩
    obtain rfl : items = items' := Option.some.inj (h.symm.trans h')
    exact ht
  · intro ht
    have hne := (closed_of_items? ht).1
    exact ⟨items, h, Classical.not_not.1 (mt Grammar.goto_eq_empty_iff.2 hne), ht⟩

/-- There is no transition exactly where the goto set is empty. -/
theorem transition?_eq_none_iff {s : Nat} {items : ItemSet}
    (h : (ofGrammar g).items? s = some items) (x : Symbol) :
    (ofGrammar g).transition? s x = none ↔ g.goto items x = ∅ := by
  rw [Grammar.goto_eq_empty_iff]
  constructor
  · intro hn hx
    obtain ⟨t, ht⟩ := exists_transition? h hx
    rw [hn] at ht
    cases ht
  · intro hx
    refine Option.eq_none_iff_forall_ne_some.2 fun t ht => hx ?_
    obtain ⟨items', h', hx', _⟩ := transition?_iff.1 ht
    obtain rfl : items = items' := Option.some.inj (h.symm.trans h')
    exact hx'

/-- **The automaton of a grammar is its canonical collection.** State 0 is the closure of the initial
    item of rule 0. The states are closed, not empty and pairwise different, and the transition of a
    state on any symbol leads to the state with the items of the goto set, absent exactly when that
    set is empty. Each state has its transitions. Every state but state 0 is the target of a
    transition of a state with a smaller number. -/
theorem ofGrammar_canonical (g : Grammar) :
    (ofGrammar g).items? 0 = some (g.closure [⟨0, 0⟩]) ∧
    (∀ s items, (ofGrammar g).items? s = some items →
      items ≠ ∅ ∧ g.closure items.toList = items ∧
      (∀ t, (ofGrammar g).items? t = some items → t = s) ∧
      ∀ x, (ofGrammar g).transition? s x = (ofGrammar g).find? (g.goto items x) ∧
        ((ofGrammar g).transition? s x = none ↔ g.goto items x = ∅)) ∧
    (ofGrammar g).transitions.size = (ofGrammar g).size ∧
    ∀ t, t ≠ 0 → t < (ofGrammar g).size →
      ∃ s < t, ∃ x, (ofGrammar g).transition? s x = some t := by
  refine ⟨(ofGrammar_grown g).start, fun s items h => ?_, size_transitions g, isRooted_ofGrammar g⟩
  obtain ⟨hne, hclosed⟩ := closed_of_items? h
  exact ⟨hne, hclosed, fun t ht => Numbering.member?_inj ht h,
    fun x => ⟨transition?_eq_find? h x, transition?_eq_none_iff h x⟩⟩

end Automaton

end ShiftReduce
