import ShiftReduce.Item.Basic
/-!
# Closure and goto

`closure` adds to a list of items the initial item of every rule that a nonterminal after a dot can
pull in, directly or through the nonterminals that open rules pulled in before (`mem_closure`).
`goto` moves the dot over one symbol and closes the result. Both have a checked form that refuses
items whose rule is not in the grammar.
-/

namespace ShiftReduce

/-! ## 1. What nonterminals pull in -/

/-- The initial items of rules. -/
def initialItems (rules : List Nat) : List Item := rules.map fun i => ⟨i, 0⟩

theorem mem_initialItems {rules : List Nat} {i : Item} :
    i ∈ initialItems rules ↔ i.dot = 0 ∧ i.rule ∈ rules := by
  cases i with
  | mk r d =>
    simp only [initialItems, List.mem_map, Item.mk.injEq]
    constructor
    · rintro ⟨j, hj, rfl, rfl⟩
      exact ⟨rfl, hj⟩
    · rintro ⟨rfl, hj⟩
      exact ⟨r, hj, rfl, rfl⟩

theorem size_erase_lt {pending : Std.TreeMap Nonterminal (List Nat)} {n : Nonterminal}
    {rules : List Nat} (h : pending[n]? = some rules) :
    (pending.erase n).size < pending.size := by
  have hc : pending.contains n = true := by
    rw [Std.TreeMap.contains_iff_mem, Std.TreeMap.mem_iff_isSome_getElem?, h]
    rfl
  have hs := Std.TreeMap.isEmpty_eq_false_of_contains hc
  rw [Std.TreeMap.isEmpty_eq_size_eq_zero, beq_eq_false_iff_ne] at hs
  rw [Std.TreeMap.size_erase, if_pos hc]
  omega

namespace Grammar

variable (g : Grammar)

/-- The nonterminals after the dots of a list of items. -/
def nextNonterminals (items : List Item) : List Nonterminal :=
  items.filterMap fun i => (i.next? g).bind Symbol.nonterminal?

theorem mem_nextNonterminals {items : List Item} {n : Nonterminal} :
    n ∈ g.nextNonterminals items ↔ ∃ i ∈ items, i.next? g = some (.nonterminal n) := by
  simp [nextNonterminals, Option.bind_eq_some_iff]

/-- Takes the wanted nonterminals one by one. One whose rules are still pending hands them over,
    and the nonterminals that open them are wanted next. At most `bound` nonterminals hand over
    their rules. -/
def expandUpTo : Nat → Std.TreeMap Nonterminal (List Nat) → List Nonterminal → List Item
  | 0, _, _ => []
  | bound + 1, pending, wanted =>
    match wanted.dropWhile fun n => !pending.contains n with
    | [] => []
    | n :: wanted =>
      let handed := initialItems (pending.getD n [])
      handed ++ expandUpTo bound (pending.erase n) (g.nextNonterminals handed ++ wanted)

/-- All that the wanted nonterminals pull in. No nonterminal hands over its rules twice, so the
    bound is never met. -/
def expand (pending : Std.TreeMap Nonterminal (List Nat)) (wanted : List Nonterminal) :
    List Item :=
  g.expandUpTo pending.size pending wanted

/-- A nonterminal without pending rules is passed over. -/
theorem expandUpTo_of_none {bound : Nat} {pending : Std.TreeMap Nonterminal (List Nat)}
    {n : Nonterminal} {wanted : List Nonterminal} (h : pending[n]? = none) :
    g.expandUpTo bound pending (n :: wanted) = g.expandUpTo bound pending wanted := by
  cases bound with
  | zero => rfl
  | succ bound =>
    have hc : pending.contains n = false := by
      rw [← Std.TreeMap.isSome_getElem?_eq_contains, h]
      rfl
    simp [expandUpTo, hc]

/-- Pending rules come first, then what they open. -/
theorem expandUpTo_of_some {bound : Nat} {pending : Std.TreeMap Nonterminal (List Nat)}
    {n : Nonterminal} {wanted : List Nonterminal} {rules : List Nat}
    (h : pending[n]? = some rules) :
    g.expandUpTo (bound + 1) pending (n :: wanted) =
      initialItems rules ++ g.expandUpTo bound (pending.erase n)
        (g.nextNonterminals (initialItems rules) ++ wanted) := by
  have hc : pending.contains n = true := by
    rw [← Std.TreeMap.isSome_getElem?_eq_contains, h]
    rfl
  have hd : pending.getD n [] = rules := by
    rw [Std.TreeMap.getD_eq_getD_getElem?, h]
    rfl
  simp [expandUpTo, hc, hd]

/-- `n` is wanted, or it opens a rule of a nonterminal that is pulled in. -/
inductive Pulls (wanted : List Nonterminal) : Nonterminal → Prop where
  | wanted {n : Nonterminal} (h : n ∈ wanted) : Pulls wanted n
  | opens {m n : Nonterminal} {i : Nat} (h : Pulls wanted m) (hi : i ∈ g.rulesFor m)
      (hn : Item.next? g ⟨i, 0⟩ = some (.nonterminal n)) : Pulls wanted n

/-- Only rules of nonterminals that are pulled in are handed over. -/
theorem pulls_of_mem_expandUpTo {wanted : List Nonterminal} {bound : Nat}
    {pending : Std.TreeMap Nonterminal (List Nat)} {ws : List Nonterminal} {i : Item}
    (hp : ∀ n rules, pending[n]? = some rules → g.rulesFor n = rules)
    (hw : ∀ n ∈ ws, g.Pulls wanted n) (h : i ∈ g.expandUpTo bound pending ws) :
    ∃ n, g.Pulls wanted n ∧ i ∈ initialItems (g.rulesFor n) := by
  induction bound generalizing pending ws with
  | zero => cases h
  | succ bound ih =>
    induction ws with
    | nil => cases h
    | cons n ws ihw =>
      cases hr : pending[n]? with
      | none =>
        rw [g.expandUpTo_of_none hr] at h
        exact ihw (fun m hm => hw m (List.mem_cons_of_mem _ hm)) h
      | some rules =>
        have hn := hw n List.mem_cons_self
        have hrules := hp n rules hr
        rw [g.expandUpTo_of_some hr] at h
        rcases List.mem_append.1 h with h | h
        · exact ⟨n, hn, hrules ▸ h⟩
        · refine ih (fun m rules' hm => ?_) (fun m hm => ?_) h
          · rw [Std.TreeMap.getElem?_erase] at hm
            split at hm
            · cases hm
            · exact hp m rules' hm
          · rcases List.mem_append.1 hm with hm | hm
            · obtain ⟨j, hj, hnext⟩ := (g.mem_nextNonterminals).1 hm
              obtain ⟨hd, hj⟩ := mem_initialItems.1 hj
              obtain ⟨r, d⟩ := j
              obtain rfl : d = 0 := hd
              exact .opens hn (hrules ▸ hj) hnext
            · exact hw m (List.mem_cons_of_mem _ hm)

/-- Pending rules are handed over when their nonterminal is wanted or stands after the dot of an
    item handed over. -/
theorem mem_expandUpTo_of_pending {bound : Nat} {pending : Std.TreeMap Nonterminal (List Nat)}
    {ws : List Nonterminal} {n : Nonterminal} {rules : List Nat} (hb : pending.size ≤ bound)
    (hr : pending[n]? = some rules)
    (hn : n ∈ ws ∨ n ∈ g.nextNonterminals (g.expandUpTo bound pending ws)) :
    ∀ i ∈ initialItems rules, i ∈ g.expandUpTo bound pending ws := by
  induction bound generalizing pending ws with
  | zero => exact absurd (size_erase_lt hr) (by omega)
  | succ bound ih =>
    induction ws with
    | nil =>
      rcases hn with hn | hn
      · cases hn
      · cases hn
    | cons m ws ihw =>
      cases hm : pending[m]? with
      | none =>
        rw [g.expandUpTo_of_none hm] at hn ⊢
        refine ihw ?_
        rcases hn with hn | hn
        · rcases List.mem_cons.1 hn with rfl | hn
          · rw [hm] at hr
            cases hr
          · exact .inl hn
        · exact .inr hn
      | some rules' =>
        have hs := size_erase_lt hm
        rw [g.expandUpTo_of_some hm] at hn ⊢
        by_cases he : m = n
        · subst he
          obtain rfl : rules' = rules := Option.some.inj (hm.symm.trans hr)
          exact fun i hi => List.mem_append_left _ hi
        · have hr' : (pending.erase m)[n]? = some rules := by
            rw [Std.TreeMap.getElem?_erase, if_neg fun e => he (Std.LawfulEqOrd.eq_of_compare e)]
            exact hr
          refine fun i hi => List.mem_append_right _ (ih (by omega) hr' ?_ i hi)
          rcases hn with hn | hn
          · rcases List.mem_cons.1 hn with hn | hn
            · exact absurd hn.symm he
            · exact .inl (List.mem_append_right _ hn)
          · rw [nextNonterminals, List.filterMap_append] at hn
            rcases List.mem_append.1 hn with hn | hn
            · exact .inl (List.mem_append_left _ hn)
            · exact .inr hn

/-- **The rules handed over are those of the nonterminals pulled in.** -/
theorem mem_expand {wanted : List Nonterminal} {i : Item} :
    i ∈ g.expand g.alternatives wanted ↔
      i.dot = 0 ∧ ∃ n, g.Pulls wanted n ∧ i.rule ∈ g.rulesFor n := by
  have hcover : ∀ n, (n ∈ wanted ∨ n ∈ g.nextNonterminals (g.expand g.alternatives wanted)) →
      ∀ j ∈ initialItems (g.rulesFor n), j ∈ g.expand g.alternatives wanted := by
    intro n h
    cases hr : g.alternatives[n]? with
    | none => simp [rulesFor, hr, initialItems]
    | some rules =>
      have e : g.rulesFor n = rules := by simp [rulesFor, hr]
      exact e ▸ g.mem_expandUpTo_of_pending (Nat.le_refl _) hr h
  have hall : ∀ n, g.Pulls wanted n →
      ∀ j ∈ initialItems (g.rulesFor n), j ∈ g.expand g.alternatives wanted := by
    intro n hn
    induction hn with
    | wanted h => exact hcover _ (.inl h)
    | @opens m n i _ hi hnext ih =>
      have hj := ih ⟨i, 0⟩ (mem_initialItems.2 ⟨rfl, hi⟩)
      exact hcover _ (.inr (g.mem_nextNonterminals.2 ⟨_, hj, hnext⟩))
  constructor
  · intro h
    obtain ⟨n, hn, hi⟩ := g.pulls_of_mem_expandUpTo (fun n rules hr => by simp [rulesFor, hr])
      (fun n hn => .wanted hn) h
    obtain ⟨hd, hr⟩ := mem_initialItems.1 hi
    exact ⟨hd, n, hn, hr⟩
  · rintro ⟨hd, n, hn, hr⟩
    exact hall n hn i (mem_initialItems.2 ⟨hd, hr⟩)

/-! ## 2. Closure -/

/-- The items together with the initial item of every rule they pull in. -/
def closure (items : List Item) : ItemSet :=
  .ofList (items ++ g.expand g.alternatives (g.nextNonterminals items))

/-- **The closure holds the items and the initial items of all rules they pull in.** -/
theorem mem_closure {items : List Item} {i : Item} :
    i ∈ g.closure items ↔ i ∈ items ∨
      i.dot = 0 ∧ ∃ n, g.Pulls (g.nextNonterminals items) n ∧ i.rule ∈ g.rulesFor n := by
  rw [closure, ItemSet.mem_ofList, List.mem_append, mem_expand]

theorem not_pulls_nil {n : Nonterminal} : ¬ g.Pulls [] n := by
  intro h
  induction h with
  | wanted h => cases h
  | opens _ _ _ ih => exact ih

/-- The closure of items of the grammar; nothing if one of them has a foreign rule. -/
def closure? (items : List Item) : Option ItemSet :=
  if ∀ i ∈ items, i.IsOf g then some (g.closure items) else none

/-! ## 3. Goto -/

/-- The items with `x` after the dot, moved over it. -/
def kernel (items : ItemSet) (x : Symbol) : List Item :=
  (items.toList.filter fun i => i.next? g == some x).map Item.advance

/-- The closure of the items moved over `x`; empty when no item has `x` after its dot. -/
def goto (items : ItemSet) (x : Symbol) : ItemSet :=
  g.closure (g.kernel items x)

/-- `goto` on items of the grammar; nothing if one of them has a foreign rule. -/
def goto? (items : ItemSet) (x : Symbol) : Option ItemSet :=
  if ∀ i ∈ items.toList, i.IsOf g then some (g.goto items x) else none

/-- `goto?` over the symbols of a string, from left to right. -/
def gotoAlong? (items : ItemSet) (xs : List Symbol) : Option ItemSet :=
  xs.foldlM g.goto? items

/-- The symbols after the dots, each once, in item order. -/
def nextSymbols (items : ItemSet) : List Symbol :=
  (Numbering.ofList (items.toList.filterMap fun i => i.next? g)).toList

theorem mem_kernel {items : ItemSet} {x : Symbol} {i : Item} :
    i ∈ g.kernel items x ↔ ∃ j ∈ items, j.next? g = some x ∧ j.advance = i := by
  simp only [kernel, List.mem_map, List.mem_filter, beq_iff_eq, and_assoc]
  exact Iff.rfl

/-- Nothing is reached over a symbol that stands after no dot. -/
theorem goto_eq_empty {items : ItemSet} {x : Symbol} (h : g.kernel items x = []) :
    g.goto items x = ∅ := by
  apply ItemSet.ext_mem
  intro i
  rw [goto, h, mem_closure]
  simp [nextNonterminals, not_pulls_nil, ItemSet.mem_def, EmptyCollection.emptyCollection]

/-- The items of a list moved over the symbols after their dots, sorted by these symbols. -/
def moves (items : List Item) : Std.TreeMap Symbol (List Item) :=
  items.foldr (fun i m =>
    match i.next? g with
    | some x => m.alter x fun is => some (i.advance :: is.getD [])
    | none => m) ∅

theorem getD_moves (items : List Item) (x : Symbol) :
    (g.moves items)[x]?.getD [] =
      (items.filter fun i => i.next? g == some x).map Item.advance := by
  induction items with
  | nil => simp [moves]
  | cons i is ih =>
    cases h : i.next? g with
    | none =>
      have hm : g.moves (i :: is) = g.moves is := by simp [moves, h]
      rw [hm, ih]
      simp [h]
    | some y =>
      have hm : g.moves (i :: is) =
          (g.moves is).alter y fun is => some (i.advance :: is.getD []) := by simp [moves, h]
      rw [hm, Std.TreeMap.getElem?_alter]
      by_cases hxy : y = x
      · subst hxy
        simp [h, ih]
      · rw [if_neg fun e => hxy (Std.LawfulEqOrd.eq_of_compare e), ih]
        simp [h, hxy]

/-- **Closing the moved items of one symbol is going over it.** -/
theorem closure_moves (items : ItemSet) (x : Symbol) :
    g.closure ((g.moves items.toList)[x]?.getD []) = g.goto items x :=
  congrArg g.closure (g.getD_moves items.toList x)

theorem mem_nextSymbols {items : ItemSet} {x : Symbol} :
    x ∈ g.nextSymbols items ↔ ∃ i ∈ items, i.next? g = some x := by
  rw [nextSymbols, ← Numbering.mem_def, Numbering.mem_ofList, List.mem_filterMap]
  exact Iff.rfl

end Grammar

end ShiftReduce
