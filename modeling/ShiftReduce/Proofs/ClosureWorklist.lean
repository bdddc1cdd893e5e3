import ShiftReduce.Proofs.ClosureOperator
import ShiftReduce.Proofs.Turns
/-!
# Closing by a worklist

`Grammar.closure` hands over the rules of each nonterminal at once. Item by item the same set is found
by a worklist: every item waits once, and when its turn comes the initial items of the rules of the
nonterminal after its dot are offered. An item is taken only if it is new, so besides the given items
none but the initial items of the grammar ever wait, each at most once (`Worklist.room_offer_le`). The
loop therefore ends, and then the closure has been found (`Worklist.exists_endsIn_closure`).
-/

namespace ShiftReduce

/-- The items found and, of these, the ones that still wait for their turn, the next one in front. -/
structure Worklist where
  found : ItemSet
  waiting : List Item

namespace Worklist

/-- A new item is found and waits. -/
def offer (w : Worklist) (i : Item) : Worklist :=
  if i ∈ w.found then w else ⟨.ofList (i :: w.found.toList), i :: w.waiting⟩

/-- The worklist to which the items have been offered in order. -/
def ofList (items : List Item) : Worklist := items.foldl offer ⟨∅, []⟩

/-- The initial items of the rules of the nonterminal after the dot. -/
def opened (g : Grammar) (i : Item) : List Item :=
  match i.next? g with
  | some (.nonterminal n) => initialItems (g.rulesFor n)
  | _ => []

/-- The next item has its turn. -/
def next? (g : Grammar) : Worklist → Option Worklist
  | ⟨_, []⟩ => none
  | ⟨found, i :: waiting⟩ => some ((opened g i).foldl offer ⟨found, waiting⟩)

variable {g : Grammar} {w : Worklist} {items is : List Item} {i j : Item}

theorem mem_opened : j ∈ opened g i ↔
    ∃ n, i.next? g = some (.nonterminal n) ∧ ∃ k ∈ g.rulesFor n, j = ⟨k, 0⟩ := by
  unfold opened
  split
  · rename_i n hn
    rw [hn, mem_initialItems]
    obtain ⟨rule, dot⟩ := j
    simp [and_comm]
  · rename_i hne
    exact ⟨fun h => absurd h List.not_mem_nil, fun ⟨n, hn, _⟩ => absurd hn (hne n)⟩

/-! ## 1. What offering does -/

theorem mem_found_offer : j ∈ (w.offer i).found ↔ j = i ∨ j ∈ w.found := by
  unfold offer
  split
  · rename_i hi
    exact ⟨.inr, fun h => h.elim (fun e => e ▸ hi) id⟩
  · rw [ItemSet.mem_ofList, List.mem_cons, ItemSet.mem_def]

theorem mem_found_foldl : j ∈ (is.foldl offer w).found ↔ j ∈ is ∨ j ∈ w.found := by
  induction is generalizing w with
  | nil => simp
  | cons i is ih =>
    rw [List.foldl_cons, ih, mem_found_offer, List.mem_cons, or_left_comm, or_assoc]

theorem mem_waiting_offer :
    j ∈ (w.offer i).waiting ↔ (j = i ∧ i ∉ w.found) ∨ j ∈ w.waiting := by
  unfold offer
  split
  · rename_i hi
    exact ⟨.inr, fun h => h.resolve_left fun hnew => hnew.2 hi⟩
  · rename_i hi
    rw [List.mem_cons, and_iff_left hi]

/-- Of the items offered those wait that are new. -/
theorem mem_waiting_foldl :
    j ∈ (is.foldl offer w).waiting ↔ (j ∈ is ∧ j ∉ w.found) ∨ j ∈ w.waiting := by
  induction is generalizing w with
  | nil => simp
  | cons i is ih =>
    rw [List.foldl_cons, ih, mem_waiting_offer, mem_found_offer, List.mem_cons]
    by_cases hj : j = i
    · subst hj
      simp
    · simp [hj]

/-! ## 2. Room for new items -/

/-- Every initial item of the grammar. -/
def candidates (g : Grammar) : List Item := initialItems (List.range g.rules.size)

theorem opened_subset (g : Grammar) (i : Item) : ∀ j ∈ opened g i, j ∈ candidates g := by
  intro j hj
  obtain ⟨n, _, k, hk, rfl⟩ := mem_opened.1 hj
  obtain ⟨r, hr, _⟩ := g.mem_rulesFor.1 hk
  exact mem_initialItems.2 ⟨rfl, List.mem_range.2 (Array.getElem?_eq_some_iff.1 hr).1⟩

/-- The items that wait, and the initial items that can still come to wait. -/
def room (g : Grammar) (w : Worklist) : Nat :=
  w.waiting.length + (candidates g).countP fun i => decide (i ∉ w.found)

/-- An initial item comes to wait only by ceasing to be one that can. -/
theorem room_offer_le (hi : i ∈ candidates g) : room g (w.offer i) ≤ room g w := by
  by_cases hfound : i ∈ w.found
  · rw [offer, if_pos hfound]
  · have hlt : ((candidates g).countP fun j => decide (j ∉ (w.offer i).found)) <
        (candidates g).countP fun j => decide (j ∉ w.found) := by
      refine countP_lt_countP (fun j hj => ?_) hi (decide_eq_true hfound) ?_
      · have hj := of_decide_eq_true hj
        exact decide_eq_true fun h => hj (mem_found_offer.2 (.inr h))
      · simp [mem_found_offer]
    have hwait : (w.offer i).waiting.length = w.waiting.length + 1 := by
      rw [offer, if_neg hfound]
      rfl
    unfold room
    omega

theorem room_foldl_le (h : ∀ i ∈ is, i ∈ candidates g) : room g (is.foldl offer w) ≤ room g w := by
  induction is generalizing w with
  | nil => exact Nat.le_refl _
  | cons i is ih =>
    obtain ⟨hi, his⟩ := List.forall_mem_cons.1 h
    exact Nat.le_trans (ih his) (room_offer_le hi)

/-- **A turn uses up room**, since the item that has its turn waits no more. -/
theorem room_next?_lt {w u : Worklist} (h : w.next? g = some u) : room g u < room g w := by
  obtain ⟨found, waiting⟩ := w
  cases waiting with
  | nil => cases h
  | cons i waiting =>
    cases h
    refine Nat.lt_of_le_of_lt (room_foldl_le (opened_subset g i)) ?_
    exact Nat.add_lt_add_right (Nat.lt_succ_self waiting.length) _

theorem length_waiting_foldl_le : (is.foldl offer w).waiting.length ≤ w.waiting.length + is.length := by
  induction is generalizing w with
  | nil => exact Nat.le_refl _
  | cons i is ih =>
    have hoffer : (w.offer i).waiting.length ≤ w.waiting.length + 1 := by
      unfold offer
      split
      · exact Nat.le_succ _
      · exact Nat.le_refl _
    have hrest : ((i :: is).foldl offer w).waiting.length ≤ (w.offer i).waiting.length + is.length :=
      ih
    rw [List.length_cons]
    omega

theorem room_ofList_le (g : Grammar) (items : List Item) :
    room g (ofList items) ≤ items.length + g.rules.size := by
  have hwait : (ofList items).waiting.length ≤ 0 + items.length :=
    length_waiting_foldl_le (w := ⟨∅, []⟩)
  have hcount := List.countP_le_length (p := fun i => decide (i ∉ (ofList items).found))
    (l := candidates g)
  have hlen : (candidates g).length = g.rules.size := by
    rw [candidates, initialItems, List.length_map, List.length_range]
  unfold room
  omega

/-! ## 3. What is found -/

/-- What holds of the worklist after every turn, closing `items`. -/
structure Closing (g : Grammar) (items : List Item) (w : Worklist) : Prop where
  holds : ∀ i ∈ items, i ∈ w.found
  within : ∀ i ∈ w.found, i ∈ g.closure items
  waits : ∀ i ∈ w.waiting, i ∈ w.found
  /-- What an item opens is found when the item waits no more. -/
  opens : ∀ i ∈ w.found, i ∈ w.waiting ∨ ∀ j ∈ opened g i, j ∈ w.found

theorem closing_ofList (g : Grammar) (items : List Item) : Closing g items (ofList items) where
  holds i hi := mem_found_foldl.2 (.inl hi)
  within i hi := by
    rcases mem_found_foldl.1 hi with hi | hi
    · exact g.leastClosed_closure.holds i hi
    · exact absurd hi List.not_mem_nil
  waits i hi := by
    rcases mem_waiting_foldl.1 hi with hi | hi
    · exact mem_found_foldl.2 (.inl hi.1)
    · exact absurd hi List.not_mem_nil
  opens i hi := by
    rcases mem_found_foldl.1 hi with hi | hi
    · exact .inl (mem_waiting_foldl.2 (.inl ⟨hi, List.not_mem_nil⟩))
    · exact absurd hi List.not_mem_nil

/-- **A turn keeps the invariant**: the item that has had its turn is the only one of which it has to be
    shown that what it opens is found, and that has just been offered. -/
theorem Closing.next? {u : Worklist} (h : Closing g items w) (hu : w.next? g = some u) :
    Closing g items u := by
  obtain ⟨found, waiting⟩ := w
  cases waiting with
  | nil => cases hu
  | cons i waiting =>
    cases hu
    have hi : i ∈ found := h.waits i List.mem_cons_self
    refine ⟨fun j hj => ?_, fun j hj => ?_, fun j hj => ?_, fun j hj => ?_⟩
    · exact mem_found_foldl.2 (.inr (h.holds j hj))
    · rcases mem_found_foldl.1 hj with hj | hj
      · obtain ⟨n, hn, k, hk, rfl⟩ := mem_opened.1 hj
        exact g.leastClosed_closure.closed i (h.within i hi) n hn k hk
      · exact h.within j hj
    · rcases mem_waiting_foldl.1 hj with hj | hj
      · exact mem_found_foldl.2 (.inl hj.1)
      · exact mem_found_foldl.2 (.inr (h.waits j (List.mem_cons_of_mem i hj)))
    · by_cases hold : j ∈ found
      · rcases h.opens j hold with hwait | hopens
        · rcases List.mem_cons.1 hwait with rfl | hwait
          · exact .inr fun k hk => mem_found_foldl.2 (.inl hk)
          · exact .inl (mem_waiting_foldl.2 (.inr hwait))
        · exact .inr fun k hk => mem_found_foldl.2 (.inr (hopens k hk))
      · have hnew : j ∈ opened g i := (mem_found_foldl.1 hj).resolve_right hold
        exact .inl (mem_waiting_foldl.2 (.inl ⟨hnew, hold⟩))

/-- When nothing waits the closure has been found. -/
theorem Closing.found_eq (h : Closing g items w) (hw : w.waiting = []) : w.found = g.closure items := by
  refine ItemSet.ext_mem fun i => ⟨h.within i, ?_⟩
  refine g.leastClosed_closure.least w.found h.holds (fun j hj n hn k hk => ?_) i
  have hopens := (h.opens j hj).resolve_left fun hwait => absurd (hw ▸ hwait) List.not_mem_nil
  exact hopens _ (mem_opened.2 ⟨n, hn, k, hk, rfl⟩)

/-- **The worklist runs empty, and then it has found the closure.** There are no more turns than items
    given and rules. -/
theorem exists_endsIn_closure (g : Grammar) (items : List Item) :
    ∃ k ≤ items.length + g.rules.size, ∃ w,
      EndsIn (next? g) k (ofList items) w ∧ w.found = g.closure items := by
  obtain ⟨k, hk, w, hend⟩ := exists_endsIn (fun _ _ h => room_next?_lt h) (ofList items)
  have hclosing : Closing g items w :=
    hend.invariant (fun _ _ h hu => h.next? hu) (closing_ofList g items)
  have hempty : w.waiting = [] := by
    have hnone := hend.next_eq_none
    obtain ⟨found, waiting⟩ := w
    cases waiting with
    | nil => rfl
    | cons i waiting => cases hnone
  exact ⟨k, Nat.le_trans hk (room_ofList_le g items), w, hend, hclosing.found_eq hempty⟩

end Worklist

end ShiftReduce
