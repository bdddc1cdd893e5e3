import Mathlib.Logic.Relation
import ShiftReduce.Proofs.CanonicalCollection
/-!
# Closing is a closure operator

Which items a closure holds is said by chains of nonterminals, each of which opens a rule of the one
before (`Grammar.LeadsTo`, `Grammar.mem_closure_iff`). A chain begins at one of the given items, so
nothing depends on how these items are listed, and items that are closed together pull in what they
pull in apart (`Grammar.closure_append`). The same holds of going over a symbol, which moves each
item by itself and closes what was moved (`Grammar.goto_union`). That the closure is the least closed
set comes from its induction principle (`Grammar.leastClosed_closure`).
-/

namespace ShiftReduce

/-! ## 1. Sets of items -/

namespace ItemSet

/-- The items of either set. -/
instance : Union ItemSet where
  union s t := ofList (s.toList ++ t.toList)

instance : HasSubset ItemSet where
  Subset s t := ∀ i ∈ s, i ∈ t

theorem mem_union {s t : ItemSet} {i : Item} : i ∈ s ∪ t ↔ i ∈ s ∨ i ∈ t :=
  mem_ofList.trans List.mem_append

end ItemSet

/-! ## 2. What a closure holds -/

namespace Grammar

variable {g : Grammar} {I J : List Item} {i : Item} {m n : Nonterminal}

/-- A rule of `m` opens with `n`. -/
def OpensWith (g : Grammar) (m n : Nonterminal) : Prop :=
  ∃ r ∈ g.rules.toList, r.lhs = m ∧ r.leading? = some n

/-- The item is the initial item of a rule to which a chain leads: a nonterminal after a dot of `I`
    comes first, the left-hand side of the rule comes last, and each opens a rule of the one
    before. -/
def LeadsTo (g : Grammar) (I : List Item) (i : Item) : Prop :=
  i.dot = 0 ∧ ∃ j ∈ I, ∃ m r, j.next? g = some (.nonterminal m) ∧ g.rules[i.rule]? = some r ∧
    Relation.ReflTransGen g.OpensWith m r.lhs

/-- With the item in front of a nonterminal the set holds the initial items of its rules. -/
def IsClosed (g : Grammar) (s : ItemSet) : Prop :=
  ∀ i ∈ s, ∀ n, i.next? g = some (.nonterminal n) → ∀ k ∈ g.rulesFor n, (⟨k, 0⟩ : Item) ∈ s

/-- Of the closed sets that hold the items of `I` this is the least. -/
structure IsLeastClosed (g : Grammar) (I : List Item) (s : ItemSet) : Prop where
  holds : ∀ i ∈ I, i ∈ s
  closed : g.IsClosed s
  least : ∀ t : ItemSet, (∀ i ∈ I, i ∈ t) → g.IsClosed t → s ⊆ t

theorem opensWith_iff :
    g.OpensWith m n ↔ ∃ k ∈ g.rulesFor m, Item.next? g ⟨k, 0⟩ = some (.nonterminal n) := by
  have hfirst : ∀ r : Rule, r.leading? = some n ↔ r.rhs[0]? = some (.nonterminal n) := by
    intro r
    rw [Rule.leading?, ← List.head?_eq_getElem?, Option.bind_eq_some_iff]
    simp
  constructor
  · rintro ⟨r, hr, hm, hn⟩
    obtain ⟨k, hk⟩ := mem_rules_iff.1 hr
    exact ⟨k, mem_rulesFor.2 ⟨r, hk, hm⟩, Item.next?_eq_some_iff.2 ⟨r, hk, (hfirst r).1 hn⟩⟩
  · rintro ⟨k, hk, hn⟩
    obtain ⟨r, hr, hm⟩ := mem_rulesFor.1 hk
    obtain ⟨r', hr', hx⟩ := Item.next?_eq_some_iff.1 hn
    obtain rfl : r = r' := Option.some.inj (hr.symm.trans hr')
    exact ⟨r, mem_rules hr, hm, (hfirst r).2 hx⟩

/-- A nonterminal is pulled in exactly if a chain leads to it from a wanted one. -/
theorem pulls_iff {wanted : List Nonterminal} :
    g.Pulls wanted n ↔ ∃ m ∈ wanted, Relation.ReflTransGen g.OpensWith m n := by
  constructor
  · intro h
    induction h with
    | wanted h => exact ⟨_, h, .refl⟩
    | opens _ hk hx ih =>
      obtain ⟨m, hm, hchain⟩ := ih
      exact ⟨m, hm, hchain.tail (opensWith_iff.2 ⟨_, hk, hx⟩)⟩
  · rintro ⟨m, hm, hchain⟩
    induction hchain with
    | refl => exact .wanted hm
    | tail _ hstep ih =>
      obtain ⟨k, hk, hx⟩ := opensWith_iff.1 hstep
      exact .opens ih hk hx

/-- **A closure holds the given items and those to which chains lead.** -/
theorem mem_closure_iff : i ∈ g.closure I ↔ i ∈ I ∨ g.LeadsTo I i := by
  rw [mem_closure]
  refine or_congr_right (and_congr_right fun _ => ?_)
  constructor
  · rintro ⟨n, hn, hi⟩
    obtain ⟨m, hm, hchain⟩ := pulls_iff.1 hn
    obtain ⟨j, hj, hx⟩ := g.mem_nextNonterminals.1 hm
    obtain ⟨r, hr, rfl⟩ := mem_rulesFor.1 hi
    exact ⟨j, hj, m, r, hx, hr, hchain⟩
  · rintro ⟨j, hj, m, r, hx, hr, hchain⟩
    exact ⟨r.lhs, pulls_iff.2 ⟨m, g.mem_nextNonterminals.2 ⟨j, hj, hx⟩, hchain⟩,
      mem_rulesFor.2 ⟨r, hr, rfl⟩⟩

theorem leadsTo_append : g.LeadsTo (I ++ J) i ↔ g.LeadsTo I i ∨ g.LeadsTo J i := by
  simp only [LeadsTo, List.mem_append, or_and_right, exists_or, and_or_left]

theorem LeadsTo.mono (h : g.LeadsTo I i) (hIJ : I ⊆ J) : g.LeadsTo J i := by
  obtain ⟨hd, j, hj, hrest⟩ := h
  exact ⟨hd, j, hIJ hj, hrest⟩

theorem LeadsTo.isOf (h : g.LeadsTo I i) : i.IsOf g := by
  obtain ⟨-, -, -, -, r, -, hr, -⟩ := h
  exact (Array.getElem?_eq_some_iff.1 hr).1

/-! ## 3. Closing -/

theorem closure_mono (h : I ⊆ J) : g.closure I ⊆ g.closure J :=
  fun _ hi => mem_closure_iff.2 ((mem_closure_iff.1 hi).imp (fun hi => h hi) fun hi => hi.mono h)

/-- Neither the order of the items nor their repetitions count. -/
theorem closure_congr (h : ∀ i, i ∈ I ↔ i ∈ J) : g.closure I = g.closure J :=
  ItemSet.ext_mem fun i =>
    ⟨closure_mono (fun i => (h i).1) i, closure_mono (fun i => (h i).2) i⟩

/-- **Items closed together are closed apart.** -/
theorem closure_append : g.closure (I ++ J) = g.closure I ∪ g.closure J := by
  refine ItemSet.ext_mem fun i => ?_
  rw [ItemSet.mem_union, mem_closure_iff, mem_closure_iff, mem_closure_iff, List.mem_append,
    leadsTo_append]
  exact or_or_or_comm

/-- **The closure is the least closed set that holds the items.** -/
theorem leastClosed_closure : g.IsLeastClosed I (g.closure I) where
  holds _ hi := mem_closure_iff.2 (.inl hi)
  closed _ hi _ hn _ hk := closure_closed hi hn hk
  least _ ht hclosed := closure_induction ht fun i n k hi hn hk => hclosed i hi n hn k hk

/-- The closure of items of the grammar holds items of the grammar. -/
theorem isOf_of_mem_closure (h : ∀ i ∈ I, i.IsOf g) (hi : i ∈ g.closure I) : i.IsOf g :=
  (mem_closure_iff.1 hi).elim (h i) LeadsTo.isOf

theorem closure?_eq (h : ∀ i ∈ I, i.IsOf g) : g.closure? I = some (g.closure I) :=
  if_pos h

/-! ## 4. Going over a symbol -/

variable {s t : ItemSet} {x : Symbol}

/-- The items of two sets are moved set by set. -/
theorem mem_kernel_union : i ∈ g.kernel (s ∪ t) x ↔ i ∈ g.kernel s x ++ g.kernel t x := by
  simp only [List.mem_append, mem_kernel, ItemSet.mem_union, or_and_right, exists_or]

/-- **Two sets go over a symbol together as they do apart.** -/
theorem goto_union : g.goto (s ∪ t) x = g.goto s x ∪ g.goto t x :=
  (closure_congr fun _ => mem_kernel_union).trans closure_append

theorem goto?_eq (h : ∀ i ∈ s, i.IsOf g) : g.goto? s x = some (g.goto s x) :=
  if_pos h

/-- **Closing is a closure operator.** Items of the grammar, in any order and with repetitions, have a
    closure: these items and the initial items to which chains lead, which together are the least
    closed set that holds the items. It is the same for the same items, is closed, grows with the
    items, and closing two lists in one, like going over a symbol from two sets in one, is doing so
    from each. -/
theorem closure?_operator (hI : ∀ i ∈ I, i.IsOf g) (hJ : ∀ i ∈ J, i.IsOf g) (x : Symbol) :
    ∃ s t u v, g.closure? I = some s ∧ g.closure? J = some t ∧
      (∀ i, i ∈ s ↔ i ∈ I ∨ g.LeadsTo I i) ∧ g.IsLeastClosed I s ∧
      ((∀ i, i ∈ I ↔ i ∈ J) → s = t) ∧ g.closure? s.toList = some s ∧ (I ⊆ J → s ⊆ t) ∧
      g.closure? (I ++ J) = some (s ∪ t) ∧
      g.goto? (.ofList I) x = some u ∧ g.goto? (.ofList J) x = some v ∧
      g.goto? (.ofList I ∪ .ofList J) x = some (u ∪ v) := by
  have hboth : ∀ i ∈ I ++ J, i.IsOf g := fun i hi => (List.mem_append.1 hi).elim (hI i) (hJ i)
  have hsets : ∀ i ∈ ItemSet.ofList I ∪ .ofList J, i.IsOf g := by
    intro i hi
    rcases ItemSet.mem_union.1 hi with hi | hi
    · exact hI i (ItemSet.mem_ofList.1 hi)
    · exact hJ i (ItemSet.mem_ofList.1 hi)
  refine ⟨g.closure I, g.closure J, g.goto (.ofList I) x, g.goto (.ofList J) x, closure?_eq hI,
    closure?_eq hJ, fun i => mem_closure_iff, leastClosed_closure, closure_congr, ?_, closure_mono,
    ?_, goto?_eq fun i hi => hI i (ItemSet.mem_ofList.1 hi),
    goto?_eq fun i hi => hJ i (ItemSet.mem_ofList.1 hi), ?_⟩
  · rw [closure?_eq fun i hi => isOf_of_mem_closure hI hi, closure_closure]
  · rw [closure?_eq hboth, closure_append]
  · rw [goto?_eq hsets, goto_union]

end Grammar

/-- `A -> B x` and `B -> A y | C | `, where `A` and `B` open each other's rules and `C` has none. -/
def circular : Grammar where
  rules := #[⟨0, [.nonterminal 1]⟩,
    ⟨1, [.nonterminal 2, .terminal 0]⟩,
    ⟨2, [.nonterminal 1, .terminal 1]⟩,
    ⟨2, [.nonterminal 3]⟩,
    ⟨2, []⟩]
  augmentedStart := 0
  start := 1
  rule_zero := rfl
  no_defect := by decide

/-- A given item is listed twice, another has its dot beyond the end of its rule, and the chain from
    `B` comes back to `B`. -/
theorem circular_closure : ∃ s t, circular.closure? [⟨2, 0⟩, ⟨1, 0⟩, ⟨2, 0⟩] = some s ∧
    circular.closure? [⟨4, 7⟩, ⟨3, 0⟩] = some t ∧
    s.toList = [⟨1, 0⟩, ⟨2, 0⟩, ⟨3, 0⟩, ⟨4, 0⟩] ∧ circular.LeadsTo [⟨2, 0⟩, ⟨1, 0⟩, ⟨2, 0⟩] ⟨2, 0⟩ ∧
    circular.closure? ([⟨2, 0⟩, ⟨1, 0⟩, ⟨2, 0⟩] ++ [⟨4, 7⟩, ⟨3, 0⟩]) = some (s ∪ t) := by
  have hI : ∀ i ∈ [(⟨2, 0⟩ : Item), ⟨1, 0⟩, ⟨2, 0⟩], i.IsOf circular := by decide
  have hJ : ∀ i ∈ [(⟨4, 7⟩ : Item), ⟨3, 0⟩], i.IsOf circular := by decide
  obtain ⟨s, t, -, -, hs, ht, -, -, -, -, -, hst, -⟩ := Grammar.closure?_operator hI hJ (.nonterminal 1)
  have hvalue : (circular.closure? [⟨2, 0⟩, ⟨1, 0⟩, ⟨2, 0⟩]).map ItemSet.toList =
      some [⟨1, 0⟩, ⟨2, 0⟩, ⟨3, 0⟩, ⟨4, 0⟩] := by decide +kernel
  have hchain : Relation.ReflTransGen circular.OpensWith 2 2 :=
    .tail (.tail .refl ⟨⟨2, [.nonterminal 1, .terminal 1]⟩, by decide, rfl, rfl⟩)
      ⟨⟨1, [.nonterminal 2, .terminal 0]⟩, by decide, rfl, rfl⟩
  have hnext : Item.next? circular ⟨1, 0⟩ = some (.nonterminal 2) := by decide +kernel
  rw [hs] at hvalue
  exact ⟨s, t, hs, ht, Option.some.inj hvalue, ⟨rfl, ⟨1, 0⟩, by decide, 2, _, hnext, rfl, hchain⟩, hst⟩

end ShiftReduce
