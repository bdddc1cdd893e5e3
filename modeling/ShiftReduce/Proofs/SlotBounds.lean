import ShiftReduce.Proofs.FollowSets
import ShiftReduce.Proofs.Proposals
/-!
# Lookahead slots lose nothing

Sets of slots are stored in whole blocks, so most of them have room for more slots than there are
symbols. A member in a slot without a symbol would be lost where a set is listed by its symbols, and
could not be asked for. There is none:

* `Slots.exists_symbol?_iff` -- the slots with a symbol are those below the number of slots;
* `SetTable.Bounded` -- every member of every set lies below that number. FIRST and FOLLOW tables
  start so, and what an inclusion adds comes from sets that are so (`bounded_firstSets`,
  `bounded_followSets`);
* `Slots.map_slot?_symbolsOf` -- so the symbols listed are those of the members, one for one.
-/

namespace ShiftReduce

/-! ## 1. Slots and symbols -/

namespace Slots

variable {t : Slots} {i : Nat}

/-- **The slots with a symbol are those below the number of slots.** -/
theorem exists_symbol?_iff : (∃ x, t.symbol? i = some x) ↔ i < t.size := by
  constructor
  · intro ⟨x, hx⟩
    exact lt_size (slot?_eq_some_iff.2 hx)
  · intro hi
    match i with
    | 0 => exact ⟨.epsilon, rfl⟩
    | 1 => exact ⟨.endOfInput, rfl⟩
    | i + 2 =>
      have hlt : i < t.terminals.members.size := Nat.lt_of_add_lt_add_right hi
      have hm : t.terminals.member? i = some t.terminals.members[i] := Array.getElem?_eq_getElem hlt
      exact ⟨_, congrArg (Option.map Symbol.terminal) hm⟩

/-- **No member is lost**: if all have symbols, the slots of the symbols listed are the members. -/
theorem map_slot?_symbolsOf {s : SlotSet t.blocks} (h : ∀ i, s.contains i = true → i < t.size) :
    (t.symbolsOf s).map t.slot? = s.members.map some := by
  have hall : ∀ i ∈ s.members, (t.symbol? i).map t.slot? = some (some i) := by
    intro i hi
    obtain ⟨x, hx⟩ := exists_symbol?_iff.2 (h i (SlotSet.mem_members.1 hi))
    rw [hx, Option.map_some, slot?_eq_some_iff.2 hx]
  rw [symbolsOf, List.map_filterMap, List.filterMap_congr hall]
  exact congrFun List.filterMap_eq_map' _

end Slots

/-! ## 2. The tables of lookahead sets -/

section

variable {t : Slots} {T : SetTable t} {xs : List Symbol} {rules : List Rule} {start : Nonterminal}
  {i : Nat}

namespace SetTable

/-- Every member of every set has a symbol. -/
def Bounded (T : SetTable t) : Prop := Within (fun _ i => i < t.size) T

/-- The set of a string has `ε` and what the sets of its symbols have. -/
theorem Bounded.firstOf (h : T.Bounded) (hi : (T.firstOf xs).contains i = true) : i < t.size := by
  induction xs with
  | nil =>
    rw [contains_firstOf_nil.1 hi]
    exact Slots.lt_size (x := .epsilon) rfl
  | cons x xs ih =>
    rcases contains_firstOf_cons.1 hi with ⟨_, hx⟩ | ⟨_, hrest⟩
    · exact h x i hx
    · exact ih hrest

/-- **FIRST tables have no member without a symbol.** -/
theorem bounded_firstSets (rules : List Rule) (t : Slots) : (firstSets rules t).Bounded :=
  firstSets_least (fun _ _ hx _ => Slots.lt_size (Slots.slot?_eq_some_iff.2 hx))
    fun _ _ _ hT _ hi => Bounded.firstOf hT hi

/-- **FOLLOW tables have none** if the table has none that tells them how strings begin. -/
theorem Bounded.followSets (h : T.Bounded) (rules : List Rule) (start : Nonterminal) :
    (followSets rules start T).Bounded := by
  refine followSets_least (Slots.lt_size (x := .endOfInput) rfl) fun r _ η τ n _ i _ hi => ?_
  rcases hi with hi | ⟨_, hi⟩
  · exact h.firstOf hi
  · exact hi

/-- The tables there are: FIRST tables of lists of rules, and FOLLOW tables of lists of rules and start
    symbols over tables there are. -/
inductive IsLookahead : SetTable t → Prop where
  | first (rules : List Rule) : IsLookahead (firstSets rules t)
  | follow (rules : List Rule) (start : Nonterminal) {T : SetTable t} (h : IsLookahead T) :
      IsLookahead (followSets rules start T)

theorem IsLookahead.bounded (h : T.IsLookahead) : T.Bounded := by
  induction h with
  | first rules => exact bounded_firstSets rules t
  | follow rules start _ ih => exact ih.followSets rules start

end SetTable

/-- **Lookahead slots lose nothing.** Slots and symbols are inverse to each other, on all slots below
    their number and on the two marks and the listed terminals. In a FIRST or FOLLOW table no member
    of a set lies beyond. The list of members of a key has exactly the symbols that the set of the key
    answers to, each once and in slot order, with one symbol for each member, and no symbol is asked
    for beyond the blocks. -/
theorem slots_lose_nothing (t : Slots) :
    (∀ i, (∃ x, t.symbol? i = some x) ↔ i < t.size) ∧
    (∀ x, (∃ i, t.slot? x = some i) ↔
      x = .epsilon ∨ x = .endOfInput ∨ ∃ id ∈ t.terminals, x = .terminal id) ∧
    (∀ x i, t.slot? x = some i ↔ t.symbol? i = some x) ∧
    ∀ T : SetTable t, T.IsLookahead → ∀ x ∈ T.keys,
      (∀ i, (T.set x).contains i = true → i < t.size) ∧
      ∃ ms, T.members? x = some ms ∧ (∀ m, m ∈ ms ↔ T.contains x m = true) ∧ ms.Nodup ∧
        ms.Pairwise t.Before ∧ ms.map t.slot? = (T.set x).members.map some ∧
        ∀ m i, t.slot? m = some i → (T.set x).contains? i = some (T.contains x m) := by
  refine ⟨fun i => Slots.exists_symbol?_iff, fun x => Slots.exists_slot?_iff,
    fun x i => Slots.slot?_eq_some_iff, fun T hT x hx => ?_⟩
  have hbound : ∀ i, (T.set x).contains i = true → i < t.size := hT.bounded x
  have hordered : (t.symbolsOf (T.set x)).Pairwise t.Before :=
    Slots.pairwise_before (SlotSet.members_pairwise _)
  have hmembers : T.members? x = some (t.symbolsOf (T.set x)) := by
    obtain ⟨ms, hms⟩ := SetTable.exists_members?_iff.2 hx
    obtain ⟨s, hs, _⟩ := Option.map_eq_some_iff.1 hms
    rw [SetTable.members?, SetTable.set, hs, Option.map_some, Option.getD_some]
  refine ⟨hbound, _, hmembers, fun m => SetTable.mem_symbolsOf_set, hordered.imp Slots.Before.ne,
    hordered, Slots.map_slot?_symbolsOf hbound, fun m i hm => ?_⟩
  rw [SlotSet.contains?, if_pos (Slots.lt_blocks hm), SetTable.contains, hm, Option.any_some]

end

end ShiftReduce
