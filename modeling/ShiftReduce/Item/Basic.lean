import ShiftReduce.Grammar
import Std.Data.TreeSet.Lemmas
/-!
# Items and item sets

An item is a rule with a dot at some place of its right-hand side. Item sets are kept as strictly
increasing lists, ordered by rule and then by dot, so two sets with the same members are equal
(`ItemSet.ext_mem`).
-/

namespace ShiftReduce

/-! ## 1. Items -/

/-- A rule with a dot before the symbol at place `dot` of its right-hand side. -/
structure Item where
  rule : Nat
  dot : Nat
  deriving DecidableEq, Repr

namespace Item

/-- Rules first, then dots. -/
instance : LT Item where
  lt a b := a.rule < b.rule ∨ (a.rule = b.rule ∧ a.dot < b.dot)

instance : LE Item where
  le a b := ¬ b < a

instance (a b : Item) : Decidable (a < b) :=
  inferInstanceAs (Decidable (a.rule < b.rule ∨ (a.rule = b.rule ∧ a.dot < b.dot)))

instance (a b : Item) : Decidable (a ≤ b) :=
  inferInstanceAs (Decidable (¬ b < a))

theorem lt_iff {a b : Item} :
    a < b ↔ a.rule < b.rule ∨ (a.rule = b.rule ∧ a.dot < b.dot) := Iff.rfl

theorem lt_irrefl (a : Item) : ¬ a < a := by
  simp only [lt_iff]; omega

theorem lt_trans {a b c : Item} (hab : a < b) (hbc : b < c) : a < c := by
  simp only [lt_iff] at *; omega

/-- The order as a comparison. -/
instance : Ord Item := ⟨compareLex (compareOn Item.rule) (compareOn Item.dot)⟩

instance : Std.TransOrd Item :=
  inferInstanceAs (Std.TransCmp (compareLex (compareOn Item.rule) (compareOn Item.dot)))

instance : Std.LawfulEqOrd Item where
  eq_of_compare {a b} h := by
    obtain ⟨hr, hd⟩ := Ordering.then_eq_eq.1 h
    cases a with
    | mk r d =>
      cases b with
      | mk r' d' =>
        obtain rfl : r = r' := Nat.compare_eq_eq.1 hr
        obtain rfl : d = d' := Nat.compare_eq_eq.1 hd
        rfl

theorem compare_eq_lt {a b : Item} : compare a b = .lt ↔ a < b := by
  have h : compare a b = (compare a.rule b.rule).then (compare a.dot b.dot) := rfl
  rw [h, Ordering.then_eq_lt, Nat.compare_eq_lt, Nat.compare_eq_eq, Nat.compare_eq_lt, lt_iff]

/-- Items in increasing order, repetitions kept. -/
def sort (items : List Item) : List Item :=
  items.mergeSort (· ≤ ·)

/-- The item with its dot one place further. -/
def advance (i : Item) : Item := ⟨i.rule, i.dot + 1⟩

/-- The rule of the item is a rule of the grammar. -/
def IsOf (g : Grammar) (i : Item) : Prop := i.rule < g.rules.size

instance (g : Grammar) (i : Item) : Decidable (i.IsOf g) :=
  inferInstanceAs (Decidable (i.rule < g.rules.size))

/-- The item, if its rule is a rule of the grammar. -/
def checked? (g : Grammar) (i : Item) : Option Item := if i.IsOf g then some i else none

/-- The symbol after the dot. There is none at or beyond the end of the right-hand side. -/
def next? (g : Grammar) (i : Item) : Option Symbol := g.symbolAt? i.rule i.dot

/-- The dot stands exactly at the end of the right-hand side. -/
def isComplete (g : Grammar) (i : Item) : Bool :=
  (g.rhsLength? i.rule).any fun length => i.dot == length

theorem next?_eq_some_iff {g : Grammar} {i : Item} {x : Symbol} :
    i.next? g = some x ↔ ∃ r, g.rules[i.rule]? = some r ∧ r.rhs[i.dot]? = some x := by
  rw [next?, g.symbolAt?_eq, Option.bind_eq_some_iff]

theorem isComplete_iff {g : Grammar} {i : Item} :
    i.isComplete g = true ↔ ∃ r, g.rules[i.rule]? = some r ∧ i.dot = r.rhs.length := by
  rw [isComplete, g.rhsLength?_eq]
  cases g.rules[i.rule]? with
  | none => simp
  | some r => simp

/-- With its dot inside its rule an item is complete when no symbol stands behind the dot. -/
theorem isComplete_iff_next? {g : Grammar} {i : Item} {r : Rule} (hr : g.rules[i.rule]? = some r)
    (hle : i.dot ≤ r.rhs.length) : i.isComplete g = true ↔ i.next? g = none := by
  rw [isComplete_iff, next?, g.symbolAt?_eq, hr, Option.bind_some, List.getElem?_eq_none_iff]
  constructor
  · intro ⟨r', hr', hd⟩
    obtain rfl := Option.some.inj hr'
    exact Nat.le_of_eq hd.symm
  · exact fun hge => ⟨r, rfl, Nat.le_antisymm hle hge⟩

end Item

/-- How many items a grammar has: one for each place of a dot in each rule. -/
def Grammar.itemCount (g : Grammar) : Nat :=
  g.rules.toList.foldr (fun r count => r.rhs.length + 1 + count) 0

/-! ## 2. Item sets -/

/-- A finite set of items. -/
structure ItemSet where
  toList : List Item
  sorted : toList.Pairwise (· < ·)
  deriving DecidableEq

namespace ItemSet

instance : EmptyCollection ItemSet := ⟨⟨[], .nil⟩⟩

instance : Membership Item ItemSet where
  mem s i := i ∈ s.toList

instance (i : Item) (s : ItemSet) : Decidable (i ∈ s) :=
  inferInstanceAs (Decidable (i ∈ s.toList))

theorem mem_def {i : Item} {s : ItemSet} : i ∈ s ↔ i ∈ s.toList := Iff.rfl

def isEmpty (s : ItemSet) : Bool := s.toList.isEmpty

/-- The items of a search tree come in increasing order. -/
theorem pairwise_toList (s : Std.TreeSet Item) : s.toList.Pairwise (· < ·) := by
  have h : s.toList.Pairwise fun a b => compare a b = .lt := Std.TreeSet.ordered_toList
  exact h.imp Item.compare_eq_lt.1

/-- The set of the items of a list, in any order and with repetitions. -/
def ofList (items : List Item) : ItemSet :=
  ⟨(Std.TreeSet.ofList items).toList, pairwise_toList _⟩

@[simp] theorem mem_ofList {i : Item} {items : List Item} : i ∈ ofList items ↔ i ∈ items := by
  rw [mem_def, ofList, Std.TreeSet.mem_toList, Std.TreeSet.mem_ofList, List.contains_iff_mem]

/-- Increasing lists with the same members are equal. -/
theorem pairwise_ext : ∀ {l m : List Item}, l.Pairwise (· < ·) → m.Pairwise (· < ·) →
    (∀ i, i ∈ l ↔ i ∈ m) → l = m
  | [], [], _, _, _ => rfl
  | [], y :: _, _, _, h => absurd ((h y).2 (by simp)) (by simp)
  | x :: _, [], _, _, h => absurd ((h x).1 (by simp)) (by simp)
  | x :: xs, y :: ys, hl, hm, h => by
    rw [List.pairwise_cons] at hl hm
    have hxy : x = y := by
      rcases List.mem_cons.1 ((h x).1 (by simp)) with hx | hx
      · exact hx
      · rcases List.mem_cons.1 ((h y).2 (by simp)) with hy | hy
        · exact hy.symm
        · exact absurd (Item.lt_trans (hl.1 y hy) (hm.1 x hx)) (Item.lt_irrefl x)
    subst hxy
    congr 1
    refine pairwise_ext hl.2 hm.2 fun i => ?_
    constructor
    · intro hi
      rcases List.mem_cons.1 ((h i).1 (List.mem_cons_of_mem _ hi)) with he | hi'
      · exact absurd (hl.1 i hi) (he ▸ Item.lt_irrefl i)
      · exact hi'
    · intro hi
      rcases List.mem_cons.1 ((h i).2 (List.mem_cons_of_mem _ hi)) with he | hi'
      · exact absurd (hm.1 i hi) (he ▸ Item.lt_irrefl i)
      · exact hi'

/-- Item sets are ordered by their lists. -/
instance : Ord ItemSet := ⟨compareOn toList⟩

instance : Std.TransOrd ItemSet := inferInstanceAs (Std.TransCmp (compareOn toList))

instance : Std.LawfulEqOrd ItemSet where
  eq_of_compare {s t} h := by
    have e : s.toList = t.toList := Std.LawfulEqOrd.eq_of_compare h
    cases s with
    | mk l hl =>
      cases t with
      | mk m hm =>
        cases e
        rfl

/-- **Two item sets with the same members are equal.** -/
theorem ext_mem {s t : ItemSet} (h : ∀ i, i ∈ s ↔ i ∈ t) : s = t := by
  cases s with
  | mk l hl =>
    cases t with
    | mk m hm =>
      have e : l = m := pairwise_ext hl hm h
      subst e
      rfl

end ItemSet

end ShiftReduce
