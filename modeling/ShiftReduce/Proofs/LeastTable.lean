import ShiftReduce.Lookahead.SetTable
/-!
# Saturation finds the least table

`SetTable.saturate` is stated by its rounds. What it computes does not depend on them: the result
is the least table above the first one that fulfils all inclusions.

* `holds_saturate` -- every inclusion holds in the result;
* `has_saturate` -- what the first table has, the result has;
* `saturate_least` -- what the inclusions cannot lead out of holds of all that the result has.
-/

namespace ShiftReduce

variable {t : Slots}

/-! ## 1. Symbols and slots -/

theorem Slots.lt_size {x : Symbol} {i : Nat} (h : t.slot? x = some i) : i < t.size := by
  cases x with
  | terminal id =>
    obtain ⟨j, hj, rfl⟩ := Option.map_eq_some_iff.1 h
    exact Nat.add_lt_add_right (Numbering.lt_size_of_number? hj) 2
  | nonterminal id => cases h
  | endOfInput =>
    cases h
    exact Nat.lt_add_left _ (by decide)
  | epsilon =>
    cases h
    exact Nat.lt_add_left _ (by decide)

/-- The blocks of a set have room for every slot. -/
theorem Slots.lt_blocks {x : Symbol} {i : Nat} (h : t.slot? x = some i) : i < 64 * t.blocks :=
  Nat.lt_of_lt_of_le (Slots.lt_size h) (SlotSet.le_mul_blocksFor t.size)

theorem Slots.mem_symbolsOf {s : SlotSet t.blocks} {x : Symbol} :
    x ∈ t.symbolsOf s ↔ ∃ i, t.slot? x = some i ∧ s.contains i = true := by
  rw [Slots.symbolsOf, List.mem_filterMap]
  constructor
  · intro ⟨i, hi, hx⟩
    exact ⟨i, Slots.slot?_eq_some_iff.2 hx, SlotSet.mem_members.1 hi⟩
  · intro ⟨i, hx, hi⟩
    exact ⟨i, SlotSet.mem_members.2 hi, Slots.slot?_eq_some_iff.1 hx⟩

namespace SetTable

/-- Slot `i` is in the set of `x`. -/
def Has (T : SetTable t) (x : Symbol) (i : Nat) : Prop := (T.set x).contains i = true

theorem contains_iff {T : SetTable t} {x m : Symbol} :
    T.contains x m = true ↔ ∃ i, t.slot? m = some i ∧ T.Has x i := by
  rw [contains, Option.any_eq_true]
  exact Iff.rfl

theorem mem_symbolsOf_set {T : SetTable t} {x m : Symbol} :
    m ∈ t.symbolsOf (T.set x) ↔ T.contains x m = true :=
  Slots.mem_symbolsOf.trans contains_iff.symm

/-- The keys have a list of members, and nothing else has. -/
theorem exists_members?_iff {T : SetTable t} {x : Symbol} :
    (∃ ms, T.members? x = some ms) ↔ x ∈ T.keys := by
  rw [← Option.isSome_iff_exists, members?, Option.isSome_map, ← Option.ne_none_iff_isSome,
    ne_eq, set?_eq_none_iff, Decidable.not_not]

theorem has_ofKeys {keys : Numbering Symbol} {f : Symbol → SlotSet t.blocks} {x : Symbol}
    {i : Nat} : (ofKeys keys f).Has x i ↔ x ∈ keys ∧ (f x).contains i = true := by
  unfold Has
  rw [set, set?_ofKeys]
  by_cases hx : x ∈ keys
  · simp [hx]
  · simp [hx]

/-! ## 2. One inclusion -/

theorem has_absorb {T : SetTable t} {x y : Symbol} {s : SlotSet t.blocks} {i : Nat} :
    (T.absorb x s).Has y i ↔ T.Has y i ∨ (x = y ∧ y ∈ T.keys ∧ s.contains i = true) := by
  unfold Has
  rw [set, set?_absorb, set]
  by_cases hxy : x = y
  · subst hxy
    cases hx : T.set? x with
    | none =>
      have hk : ¬ x ∈ T.keys := set?_eq_none_iff.1 hx
      simp [hk]
    | some u =>
      have hk : x ∈ T.keys := Classical.byContradiction fun hk => by
        rw [set?_eq_none_iff.2 hk] at hx
        cases hx
      simp [hk]
  · simp [hxy]

/-- The inclusion holds: its target, if it is a key, has all that the source computes. -/
def Holds (T : SetTable t) (c : Inclusion t) : Prop :=
  c.target ∈ T.keys → ∀ i, (c.source T).contains i = true → T.Has c.target i

theorem has_enforce_of_has {T : SetTable t} {c : Inclusion t} {x : Symbol} {i : Nat}
    (h : T.Has x i) : (T.enforce c).Has x i :=
  has_absorb.2 (.inl h)

/-- An inclusion that changes nothing holds. -/
theorem holds_of_enforce {T : SetTable t} {c : Inclusion t} (h : T.enforce c = T) : T.Holds c := by
  intro hk i hi
  have he : (T.enforce c).Has c.target i := has_absorb.2 (.inr ⟨rfl, hk, hi⟩)
  rw [h] at he
  exact he

/-! ## 3. Rounds -/

theorem has_round {cs : List (Inclusion t)} {T : SetTable t} {x : Symbol} {i : Nat}
    (h : T.Has x i) : (round cs T).Has x i := by
  induction cs generalizing T with
  | nil => exact h
  | cons c cs ih => exact ih (has_enforce_of_has h)

/-- A round that changes nothing enforces nothing. -/
theorem holds_of_round {cs : List (Inclusion t)} {T : SetTable t} (h : round cs T = T) :
    ∀ c ∈ cs, T.Holds c := by
  induction cs generalizing T with
  | nil => exact fun c hc => absurd hc List.not_mem_nil
  | cons d ds ih =>
    -- the room left shrinks from inclusion to inclusion, so none of them took any
    have hle := room_round_le ds (T.enforce d)
    have hround : (round ds (T.enforce d)).room = T.room := congrArg room h
    have hd : T.enforce d = T :=
      absorb_eq_of_room (Nat.le_antisymm (room_absorb_le _ _ _) (hround ▸ hle))
    intro c hc
    rcases List.mem_cons.1 hc with rfl | hc
    · exact holds_of_enforce hd
    · have hr : round ds (T.enforce d) = T := h
      rw [hd] at hr
      exact ih hr c hc

/-! ## 4. Saturation -/

variable {cs : List (Inclusion t)}

theorem keys_saturate (cs : List (Inclusion t)) (T : SetTable t) :
    (saturate cs T).keys = T.keys := by
  fun_induction saturate cs T with
  | case1 T h => rfl
  | case2 T h ih => exact ih.trans (keys_round cs T)

/-- **Every inclusion holds in the saturated table.** -/
theorem holds_saturate (T : SetTable t) : ∀ c ∈ cs, (saturate cs T).Holds c :=
  holds_of_round (round_saturate cs T)

/-- Saturation only adds. -/
theorem has_saturate {T : SetTable t} {x : Symbol} {i : Nat} (h : T.Has x i) :
    (saturate cs T).Has x i := by
  fun_induction saturate cs T with
  | case1 T hs => exact h
  | case2 T hs ih => exact ih (has_round h)

/-- All that the table has satisfies `P`. -/
def Within (P : Symbol → Nat → Prop) (T : SetTable t) : Prop := ∀ x i, T.Has x i → P x i

theorem within_round {P : Symbol → Nat → Prop}
    (hc : ∀ c ∈ cs, ∀ T : SetTable t, Within P T → ∀ i, (c.source T).contains i = true →
      P c.target i) {T : SetTable t} (h : Within P T) : Within P (round cs T) := by
  induction cs generalizing T with
  | nil => exact h
  | cons c cs ih =>
    refine ih (fun d hd => hc d (List.mem_cons_of_mem c hd)) fun x i hx => ?_
    rcases has_absorb.1 hx with hx | ⟨rfl, _, hi⟩
    · exact h x i hx
    · exact hc c List.mem_cons_self T h i hi

/-- **The saturated table is the least one**: what the inclusions cannot lead out of holds of all
    that it has. -/
theorem saturate_least {P : Symbol → Nat → Prop}
    (hc : ∀ c ∈ cs, ∀ T : SetTable t, Within P T → ∀ i, (c.source T).contains i = true →
      P c.target i) {T : SetTable t} (h : Within P T) : Within P (saturate cs T) := by
  fun_induction saturate cs T with
  | case1 T hs => exact h
  | case2 T hs ih => exact ih (within_round hc h)

/-- Rounds forwards and backwards go over the same inclusions. -/
theorem mem_forth_and_back {c : Inclusion t} : c ∈ cs ++ cs.reverse ↔ c ∈ cs := by
  rw [List.mem_append, List.mem_reverse, or_self]

end SetTable

end ShiftReduce
