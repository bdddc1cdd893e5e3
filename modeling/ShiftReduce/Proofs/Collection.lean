import Mathlib.Data.Finset.Powerset
import ShiftReduce.Automaton
import ShiftReduce.Proofs.ValidItems
/-!
# The canonical collection is complete

The discovery of states stops at a bound on its rounds. It never meets that bound: states are
distinct sets of items of the grammar, and there are not more of those (`size_le`). So every state
gets its transitions:

* `Grown` -- what holds of the automaton after every round of the discovery;
* `ofGrammar_grown`, `size_transitions` -- it holds at the end, where no state is left without
  transitions;
* `transition?_iff` -- a transition leads to the state of the goto set, and there is one for every
  symbol after a dot.
-/

namespace ShiftReduce

/-! ## 1. Numbering one thing more -/

namespace Numbering

variable {α : Type} [Ord α] {n : Numbering α}

theorem lt_size_of_member? {x : α} {i : Nat} (h : n.member? i = some x) : i < n.size :=
  lt_size_of_number? (number?_eq_some_iff.2 h)

/-- A number belongs to one thing only, and a thing has one number only. -/
theorem member?_inj {x : α} {i j : Nat} (hi : n.member? i = some x) (hj : n.member? j = some x) :
    i = j :=
  Option.some.inj ((number?_eq_some_iff.2 hi).symm.trans (number?_eq_some_iff.2 hj))

variable [Std.TransOrd α] [Std.LawfulEqOrd α]

/-- What has a number keeps it. -/
theorem member?_insert_of_member? {x y : α} {i : Nat} (h : n.member? i = some y) :
    (n.insert x).1.member? i = some y := by
  rw [member?_insert_of_lt (lt_size_of_member? h)]
  exact h

/-- What has a number had it before or is the thing inserted. -/
theorem member?_of_member?_insert {x y : α} {i : Nat} (h : (n.insert x).1.member? i = some y) :
    n.member? i = some y ∨ y = x := by
  cases hx : n.number? x with
  | some j =>
    rw [insert_of_number? hx] at h
    exact .inl h
  | none =>
    rw [member?, (members_insert_of_number? hx).1, Array.getElem?_push] at h
    split at h
    · exact .inr (Option.some.inj h).symm
    · exact .inl h

end Numbering

namespace Automaton

variable {g : Grammar}

/-! ## 2. One round -/

section Targets

variable {moves : Std.TreeMap Symbol (List Item)} {xs : List Symbol} {states : Numbering ItemSet}

theorem targets_cons (g : Grammar) (moves : Std.TreeMap Symbol (List Item)) (x : Symbol)
    (xs : List Symbol) (states : Numbering ItemSet) :
    targets g moves (x :: xs) states =
      let added := states.insert (g.closure (moves[x]?.getD []))
      ((targets g moves xs added.1).1, (x, added.2) :: (targets g moves xs added.1).2) := rfl

/-- The states numbered before keep their numbers. -/
theorem member?_targets {i : Nat} {s : ItemSet} (h : states.member? i = some s) :
    (targets g moves xs states).1.member? i = some s := by
  induction xs generalizing states with
  | nil => exact h
  | cons x xs ih =>
    rw [targets_cons]
    exact ih (Numbering.member?_insert_of_member? h)

/-- A state after the round was there before or is the target of one of the symbols. -/
theorem member?_of_targets {i : Nat} {s : ItemSet}
    (h : (targets g moves xs states).1.member? i = some s) :
    states.member? i = some s ∨ ∃ x ∈ xs, s = g.closure (moves[x]?.getD []) := by
  induction xs generalizing states with
  | nil => exact .inl h
  | cons x xs ih =>
    rw [targets_cons] at h
    rcases ih h with h | ⟨y, hy, hs⟩
    · rcases Numbering.member?_of_member?_insert h with h | hs
      · exact .inl h
      · exact .inr ⟨x, List.mem_cons_self, hs⟩
    · exact .inr ⟨y, List.mem_cons_of_mem x hy, hs⟩

/-- The number found for a symbol is that of its target. -/
theorem member?_of_lookup_targets {x : Symbol} {t : Nat}
    (h : (targets g moves xs states).2.lookup x = some t) :
    x ∈ xs ∧ (targets g moves xs states).1.member? t = some (g.closure (moves[x]?.getD [])) := by
  induction xs generalizing states with
  | nil => cases h
  | cons y ys ih =>
    rw [targets_cons, List.lookup_cons] at h
    rw [targets_cons]
    split at h
    · rename_i hxy
      obtain rfl : x = y := by simpa using hxy
      have ht := Option.some.inj h
      have hm := Numbering.member?_insert states (g.closure (moves[x]?.getD []))
      exact ⟨List.mem_cons_self, member?_targets (ht ▸ hm)⟩
    · obtain ⟨hm, ht⟩ := ih h
      exact ⟨List.mem_cons_of_mem y hm, ht⟩

/-- Every symbol of the round finds a number. -/
theorem exists_lookup_targets {x : Symbol} (h : x ∈ xs) :
    ∃ t, (targets g moves xs states).2.lookup x = some t := by
  induction xs generalizing states with
  | nil => cases h
  | cons y ys ih =>
    rw [targets_cons]
    by_cases hxy : x = y
    · subst hxy
      exact ⟨_, List.lookup_cons_self⟩
    · have hb : (x == y) = false := beq_eq_false_iff_ne.2 hxy
      obtain ⟨t, ht⟩ := ih ((List.mem_cons.1 h).resolve_left hxy)
      refine ⟨t, ?_⟩
      rw [List.lookup_cons, hb]
      exact ht

end Targets

theorem grow_eq (g : Grammar) (items : ItemSet) (a : Automaton) :
    grow g items a =
      ⟨(targets g (g.moves items.toList) (g.nextSymbols items) a.states).1,
        a.transitions.push
          (.ofList (targets g (g.moves items.toList) (g.nextSymbols items) a.states).2)⟩ := rfl

theorem size_transitions_grow (items : ItemSet) (a : Automaton) :
    (grow g items a).transitions.size = a.transitions.size + 1 := by
  rw [grow_eq]
  exact Array.size_push _

theorem items?_grow {items s : ItemSet} {a : Automaton} {i : Nat} (h : a.items? i = some s) :
    (grow g items a).items? i = some s := by
  rw [grow_eq]
  exact member?_targets h

theorem items?_of_grow {items s : ItemSet} {a : Automaton} {i : Nat}
    (h : (grow g items a).items? i = some s) :
    a.items? i = some s ∨ ∃ x ∈ g.nextSymbols items, s = g.goto items x := by
  rw [grow_eq] at h
  rcases member?_of_targets h with h | ⟨x, hx, hs⟩
  · exact .inl h
  · exact .inr ⟨x, hx, hs.trans (g.closure_moves items x)⟩

/-- The states before the one that grows keep their transitions. -/
theorem transition?_grow_of_ne {items : ItemSet} {a : Automaton} {s : Nat} {x : Symbol}
    (h : s ≠ a.transitions.size) : (grow g items a).transition? s x = a.transition? s x := by
  rw [grow_eq, transition?, transitions?, Array.getElem?_push, if_neg h]
  rfl

/-- The state that grows gets the transitions of the round. -/
theorem transition?_grow_self (items : ItemSet) (a : Automaton) (x : Symbol) :
    (grow g items a).transition? a.transitions.size x =
      (targets g (g.moves items.toList) (g.nextSymbols items) a.states).2.lookup x := by
  rw [grow_eq, transition?, transitions?, Array.getElem?_push, if_pos rfl]
  exact Directory.find?_ofList _ _

/-! ## 3. The invariant of the discovery -/

/-- What holds of the automaton while its states are discovered. -/
structure Grown (g : Grammar) (a : Automaton) : Prop where
  start : a.items? 0 = some (g.closure [⟨0, 0⟩])
  within : a.transitions.size ≤ a.size
  /-- A transition leads to the goto set. -/
  leads : ∀ s x t, a.transition? s x = some t →
    ∃ items, a.items? s = some items ∧ x ∈ g.nextSymbols items ∧
      a.items? t = some (g.goto items x)
  /-- A state with transitions has one for every symbol after a dot. -/
  total : ∀ s items x, s < a.transitions.size → a.items? s = some items →
    x ∈ g.nextSymbols items → ∃ t, a.transition? s x = some t
  /-- Every item has its dot inside a rule of the grammar. -/
  own : ∀ s items, a.items? s = some items → ∀ i ∈ items,
    ∃ r, g.rules[i.rule]? = some r ∧ i.dot ≤ r.rhs.length

theorem items?_initial {states : Numbering ItemSet} {s : ItemSet}
    (h : states = .ofList [s]) {i : Nat} {t : ItemSet}
    (ht : (⟨states, #[]⟩ : Automaton).items? i = some t) : t = s := by
  have hm : t ∈ Numbering.ofList [s] := Numbering.mem_iff_member?.2 ⟨i, h ▸ ht⟩
  exact List.mem_singleton.1 (Numbering.mem_ofList.1 hm)

/-- Closing keeps the dots inside the rules of the grammar. -/
theorem own_closure {items : List Item}
    (h : ∀ i ∈ items, ∃ r, g.rules[i.rule]? = some r ∧ i.dot ≤ r.rhs.length) :
    ∀ i ∈ g.closure items, ∃ r, g.rules[i.rule]? = some r ∧ i.dot ≤ r.rhs.length := by
  refine Grammar.closure_induction h fun i n j _ _ hj => ?_
  obtain ⟨r, hr, _⟩ := g.mem_rulesFor.1 hj
  exact ⟨r, hr, Nat.zero_le _⟩

theorem own_goto {items : ItemSet} {x : Symbol} :
    ∀ i ∈ g.goto items x, ∃ r, g.rules[i.rule]? = some r ∧ i.dot ≤ r.rhs.length := by
  refine own_closure fun i hi => ?_
  obtain ⟨j, _, hx, rfl⟩ := g.mem_kernel.1 hi
  obtain ⟨r, hr, hget⟩ := Item.next?_eq_some_iff.1 hx
  exact ⟨r, hr, (List.getElem?_eq_some_iff.1 hget).1⟩

theorem grown_initial (g : Grammar) : Grown g ⟨.ofList [g.closure [⟨0, 0⟩]], #[]⟩ where
  start := by
    have hm : g.closure [⟨0, 0⟩] ∈ Numbering.ofList [g.closure [⟨0, 0⟩]] :=
      Numbering.mem_ofList.2 (List.mem_singleton.2 rfl)
    have hl : (Numbering.ofList [g.closure [⟨0, 0⟩]]).toList = [g.closure [⟨0, 0⟩]] := by
      rw [Numbering.toList_ofList]
      rfl
    rw [items?, ← Numbering.getElem?_toList, hl]
    rfl
  within := Nat.zero_le _
  leads s x t h := by simp [transition?, transitions?] at h
  total s items x h := absurd h (Nat.not_lt_zero s)
  own s items h := by
    obtain rfl := items?_initial rfl h
    refine own_closure fun i hi => ?_
    obtain rfl := List.mem_singleton.1 hi
    exact ⟨_, g.rule_zero, Nat.zero_le _⟩

/-- **A round keeps the invariant.** -/
theorem Grown.grow {a : Automaton} (h : Grown g a) {items : ItemSet}
    (hi : a.items? a.transitions.size = some items) : Grown g (Automaton.grow g items a) where
  start := items?_grow h.start
  within := by
    rw [size_transitions_grow]
    exact Numbering.lt_size_of_member? (items?_grow hi)
  leads s x t ht := by
    by_cases hs : s = a.transitions.size
    · subst hs
      rw [transition?_grow_self] at ht
      obtain ⟨hx, hm⟩ := member?_of_lookup_targets ht
      rw [g.closure_moves] at hm
      exact ⟨items, items?_grow hi, hx, hm⟩
    · rw [transition?_grow_of_ne hs] at ht
      obtain ⟨old, ho, hx, hm⟩ := h.leads s x t ht
      exact ⟨old, items?_grow ho, hx, items?_grow hm⟩
  total s old x hlt ho hx := by
    rw [size_transitions_grow] at hlt
    by_cases hs : s = a.transitions.size
    · subst hs
      obtain rfl : items = old := Option.some.inj ((items?_grow hi).symm.trans ho)
      rw [transition?_grow_self]
      exact exists_lookup_targets hx
    · have hlt' : s < a.transitions.size := by omega
      obtain ⟨old', ho'⟩ : ∃ old', a.items? s = some old' :=
        ⟨_, Array.getElem?_eq_getElem (Nat.lt_of_lt_of_le hlt' h.within)⟩
      obtain rfl : old' = old := Option.some.inj ((items?_grow ho').symm.trans ho)
      rw [transition?_grow_of_ne hs]
      exact h.total s old' x hlt' ho' hx
  own s old ho := by
    rcases items?_of_grow ho with ho | ⟨x, _, rfl⟩
    · exact h.own s old ho
    · exact own_goto

/-- The rounds keep the invariant, and they end at their bound or when no state is pending. -/
theorem Grown.growUpTo (bound : Nat) {a : Automaton} (h : Grown g a) :
    Grown g (Automaton.growUpTo g bound a) ∧
      ((Automaton.growUpTo g bound a).transitions.size = a.transitions.size + bound ∨
        (Automaton.growUpTo g bound a).items? (Automaton.growUpTo g bound a).transitions.size =
          none) := by
  induction bound generalizing a with
  | zero => exact ⟨h, .inl rfl⟩
  | succ bound ih =>
    unfold Automaton.growUpTo
    split
    · rename_i items hi
      obtain ⟨hg, hend⟩ := ih (h.grow hi)
      rw [size_transitions_grow] at hend
      exact ⟨hg, hend.imp_left fun e => by omega⟩
    · rename_i hn
      exact ⟨h, .inr hn⟩

/-- **What every round keeps holds when the rounds end.** -/
theorem growUpTo_induction {P : Automaton → Prop}
    (hs : ∀ a items, P a → a.items? a.transitions.size = some items → P (Automaton.grow g items a))
    (bound : Nat) {a : Automaton} (h : P a) : P (Automaton.growUpTo g bound a) := by
  induction bound generalizing a with
  | zero => exact h
  | succ bound ih =>
    unfold Automaton.growUpTo
    split
    · rename_i items hi
      exact ih (hs a items h hi)
    · exact h

/-- **What holds of the first state and is passed on over every symbol after a dot holds of every
    state.** -/
theorem items?_induction {P : ItemSet → Prop} (h0 : P (g.closure [⟨0, 0⟩]))
    (hs : ∀ items x, P items → x ∈ g.nextSymbols items → P (g.goto items x)) {s : Nat}
    {items : ItemSet} (h : (ofGrammar g).items? s = some items) : P items := by
  refine growUpTo_induction (P := fun a => ∀ s items, a.items? s = some items → P items)
    (fun a old ha hold s items hi => ?_) _ (fun s items hi => ?_) s items h
  · rcases items?_of_grow hi with hi | ⟨x, hx, rfl⟩
    · exact ha s items hi
    · exact hs old x (ha _ old hold) hx
  · rw [items?_initial rfl hi]
    exact h0

/-! ## 4. The bound is not met -/

end Automaton

/-- Every item of the grammar: every place of a dot in every rule. -/
def Grammar.allItems (g : Grammar) : List Item :=
  g.numbered.flatMap fun p => (List.range (p.1.rhs.length + 1)).map fun d => ⟨p.2, d⟩

theorem Grammar.mem_allItems {g : Grammar} {i : Item} :
    i ∈ g.allItems ↔ ∃ r, g.rules[i.rule]? = some r ∧ i.dot ≤ r.rhs.length := by
  obtain ⟨rule, dot⟩ := i
  simp only [allItems, List.mem_flatMap, List.mem_map, List.mem_range, Prod.exists,
    Grammar.mem_numbered, Item.mk.injEq, Nat.lt_succ_iff]
  constructor
  · rintro ⟨r, j, hr, d, hd, rfl, rfl⟩
    exact ⟨r, hr, hd⟩
  · intro ⟨r, hr, hd⟩
    exact ⟨r, rule, hr, dot, hd, rfl, rfl⟩

theorem Grammar.length_allItems (g : Grammar) : g.allItems.length = g.itemCount := by
  have h : ∀ (rs : List Rule) (k : Nat),
      ((rs.zipIdx k).flatMap fun p =>
        (List.range (p.1.rhs.length + 1)).map fun d => (⟨p.2, d⟩ : Item)).length =
      rs.foldr (fun r count => r.rhs.length + 1 + count) 0 := by
    intro rs
    induction rs with
    | nil => intro k; rfl
    | cons r rs ih =>
      intro k
      rw [List.zipIdx_cons, List.flatMap_cons, List.length_append, ih, List.length_map,
        List.length_range, List.foldr_cons]
  exact h g.rules.toList 0

namespace Automaton

variable {g : Grammar}

/-- **There are at most as many states as sets of items.** -/
theorem Grown.size_le {a : Automaton} (h : Grown g a) : a.size ≤ 2 ^ g.itemCount := by
  let members : ItemSet → Finset Item := fun s => s.toList.toFinset
  have hinj : Function.Injective members := by
    intro s t hst
    have hst : s.toList.toFinset = t.toList.toFinset := hst
    refine ItemSet.ext_mem fun i => ?_
    rw [ItemSet.mem_def, ItemSet.mem_def, ← List.mem_toFinset, hst, List.mem_toFinset]
  have hnodup : (a.states.toList.map members).Nodup := a.states.nodup_toList.map hinj
  have hsub : (a.states.toList.map members).toFinset ⊆ g.allItems.toFinset.powerset := by
    intro u hu
    obtain ⟨s, hs, rfl⟩ := List.mem_map.1 (List.mem_toFinset.1 hu)
    obtain ⟨k, hk⟩ := Numbering.mem_iff_member?.1 (Numbering.mem_def.2 hs)
    refine Finset.mem_powerset.2 fun i hi => List.mem_toFinset.2 ?_
    exact Grammar.mem_allItems.2 (h.own k s hk i (List.mem_toFinset.1 hi))
  have hcard := Finset.card_le_card hsub
  rw [Finset.card_powerset, List.toFinset_card_of_nodup hnodup, List.length_map,
    Numbering.length_toList] at hcard
  have hitems : g.allItems.toFinset.card ≤ g.itemCount :=
    g.length_allItems ▸ List.toFinset_card_le g.allItems
  exact Nat.le_trans hcard (Nat.pow_le_pow_right (by decide) hitems)

theorem ofGrammar_grown (g : Grammar) : Grown g (ofGrammar g) :=
  ((grown_initial g).growUpTo _).1

/-- **Every state has its transitions.** -/
theorem size_transitions (g : Grammar) : (ofGrammar g).transitions.size = (ofGrammar g).size := by
  have hg := ofGrammar_grown g
  have hle := hg.size_le
  have hwithin := hg.within
  rcases ((grown_initial g).growUpTo (Nat.pow 2 g.itemCount)).2 with hend | hend
  · have hall : (ofGrammar g).transitions.size = 0 + 2 ^ g.itemCount := hend
    omega
  · have hnone : (ofGrammar g).states.members[(ofGrammar g).transitions.size]? = none := hend
    have hsize := Array.getElem?_eq_none_iff.1 hnone
    exact Nat.le_antisymm hwithin hsize

/-- **The transition of a state on `x` leads to the state of its goto set**, and there is one
    exactly when `x` stands after a dot. -/
theorem transition?_iff {s t : Nat} {x : Symbol} :
    (ofGrammar g).transition? s x = some t ↔
      ∃ items, (ofGrammar g).items? s = some items ∧ x ∈ g.nextSymbols items ∧
        (ofGrammar g).items? t = some (g.goto items x) := by
  have hg := ofGrammar_grown g
  constructor
  · exact hg.leads s x t
  · intro ⟨items, hs, hx, ht⟩
    have hlt : s < (ofGrammar g).transitions.size :=
      size_transitions g ▸ Numbering.lt_size_of_member? hs
    obtain ⟨t', ht'⟩ := hg.total s items x hlt hs hx
    obtain ⟨items', hs', _, hm⟩ := hg.leads s x t' ht'
    obtain rfl : items = items' := Option.some.inj (hs.symm.trans hs')
    rw [ht', Numbering.member?_inj hm ht]

theorem exists_transition? {s : Nat} {items : ItemSet} {x : Symbol}
    (hs : (ofGrammar g).items? s = some items) (hx : x ∈ g.nextSymbols items) :
    ∃ t, (ofGrammar g).transition? s x = some t := by
  have hlt : s < (ofGrammar g).transitions.size :=
    size_transitions g ▸ Numbering.lt_size_of_member? hs
  exact (ofGrammar_grown g).total s items x hlt hs hx

end Automaton

end ShiftReduce
