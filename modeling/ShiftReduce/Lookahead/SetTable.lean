import ShiftReduce.Lookahead.Slots
/-!
# Tables of lookahead sets

A table gives every symbol of a fixed list of keys a set of slots. An inclusion asks that the set
of its target hold whatever it computes from the table; `saturate` enlarges a table, round by
round, until every inclusion of a list holds (`round_saturate`). It ends because a round that
changes the table leaves fewer free numbers below the full sets (`room_round_lt`).
-/

namespace ShiftReduce

/-- Keys in a fixed order, each with a set of slots. -/
structure SetTable (t : Slots) where
  keys : Numbering Symbol
  sets : Array (SlotSet t.blocks)
  size_eq : sets.size = keys.size

namespace SetTable

variable {t : Slots}

/-! ## 1. Reading -/

/-- The table with these keys in which the set of `x` is `f x`. -/
def ofKeys (keys : Numbering Symbol) (f : Symbol → SlotSet t.blocks) : SetTable t :=
  ⟨keys, keys.members.map f, Array.size_map⟩

/-- The keys in order. -/
def symbols (T : SetTable t) : List Symbol := T.keys.toList

/-- The set of a key. -/
def set? (T : SetTable t) (x : Symbol) : Option (SlotSet t.blocks) :=
  (T.keys.number? x).bind fun i => T.sets[i]?

/-- The set of a symbol, empty when it is no key. -/
def set (T : SetTable t) (x : Symbol) : SlotSet t.blocks := (T.set? x).getD ∅

/-- The members of the set of a key, in slot order. -/
def members? (T : SetTable t) (x : Symbol) : Option (List Symbol) := (T.set? x).map t.symbolsOf

/-- `m` has a slot and lies in the set of `x`. -/
def contains (T : SetTable t) (x m : Symbol) : Bool :=
  (t.slot? m).any (T.set x).contains

/-- Exactly the keys have a set. -/
theorem set?_eq_none_iff {T : SetTable t} {x : Symbol} : T.set? x = none ↔ ¬ x ∈ T.keys := by
  rw [← Numbering.number?_eq_none_iff]
  cases h : T.keys.number? x with
  | none => simp [set?, h]
  | some i =>
    have hi : i < T.sets.size := T.size_eq ▸ Numbering.lt_size_of_number? h
    simp [set?, h, hi]

@[simp] theorem set?_ofKeys (keys : Numbering Symbol) (f : Symbol → SlotSet t.blocks)
    (x : Symbol) : (ofKeys keys f).set? x = if x ∈ keys then some (f x) else none := by
  cases h : keys.number? x with
  | none => rw [if_neg (Numbering.number?_eq_none_iff.1 h)]; simp [set?, ofKeys, h]
  | some i =>
    have hm : keys.members[i]? = some x := Numbering.number?_eq_some_iff.1 h
    rw [if_pos (Numbering.mem_iff_number?.2 ⟨i, h⟩)]
    simp [set?, ofKeys, h, hm]

/-! ## 2. Enlarging -/

/-- Adds a set to the set of one key. -/
def absorb (T : SetTable t) (x : Symbol) (s : SlotSet t.blocks) : SetTable t :=
  match T.keys.number? x with
  | none => T
  | some i => ⟨T.keys, T.sets.modify i (·.union s), Array.size_modify.trans T.size_eq⟩

@[simp] theorem keys_absorb (T : SetTable t) (x : Symbol) (s : SlotSet t.blocks) :
    (T.absorb x s).keys = T.keys := by
  unfold absorb
  split <;> rfl

/-- Only the set of the key itself is enlarged. -/
theorem set?_absorb (T : SetTable t) (x y : Symbol) (s : SlotSet t.blocks) :
    (T.absorb x s).set? y = if x = y then (T.set? y).map (·.union s) else T.set? y := by
  unfold absorb
  split
  · rename_i h
    split
    · rename_i e
      subst e
      simp [set?, h]
    · rfl
  · rename_i i h
    cases hy : T.keys.number? y with
    | none => simp [set?, hy]
    | some j =>
      have hij : x = y ↔ i = j := by
        constructor
        · rintro rfl
          exact Option.some.inj (h.symm.trans hy)
        · rintro rfl
          have hx := Numbering.number?_eq_some_iff.1 h
          exact Option.some.inj (hx.symm.trans (Numbering.number?_eq_some_iff.1 hy))
      simp [set?, hy, hij, Array.getElem?_modify]

/-- Asks that the set of `target` hold all of `source`, which may look at the table. -/
structure Inclusion (t : Slots) where
  target : Symbol
  source : SetTable t → SlotSet t.blocks

/-- Enforces one inclusion. -/
def enforce (T : SetTable t) (c : Inclusion t) : SetTable t :=
  T.absorb c.target (c.source T)

/-- Enforces every inclusion of a list once, in order. -/
def round (cs : List (Inclusion t)) (T : SetTable t) : SetTable t :=
  cs.foldl enforce T

theorem keys_round (cs : List (Inclusion t)) (T : SetTable t) : (round cs T).keys = T.keys := by
  induction cs generalizing T with
  | nil => rfl
  | cons c cs ih => exact (ih (T.enforce c)).trans (keys_absorb _ _ _)

/-- Tables of the same keys with the same sets are equal. -/
theorem ext_sets {T U : SetTable t} (hk : T.keys = U.keys) (hs : T.sets = U.sets) : T = U := by
  cases T
  cases U
  cases hk
  cases hs
  rfl

/-- How far a list of sets is from full: the slots that are missing, read as a number, summed. -/
def roomOf (sets : List (SlotSet t.blocks)) : Nat :=
  sets.foldr (fun s n => (~~~ s.bits).toNat + n) 0

/-- How far the sets of a table are from full. -/
def room (T : SetTable t) : Nat := roomOf T.sets.toList

/-! ## 3. A round that changes something takes up room -/

theorem toNat_union_le (s u : SlotSet t.blocks) : s.bits.toNat ≤ (s.union u).bits.toNat := by
  simp only [SlotSet.union, BitVec.toNat_or]
  exact Nat.left_le_or

theorem union_eq_of_toNat {s u : SlotSet t.blocks}
    (h : (s.union u).bits.toNat = s.bits.toNat) : s.union u = s := by
  cases s with
  | mk x => exact congrArg SlotSet.mk (BitVec.eq_of_toNat_eq h)

theorem roomOf_cons (s : SlotSet t.blocks) (l : List (SlotSet t.blocks)) :
    roomOf (s :: l) = (~~~ s.bits).toNat + roomOf l := rfl

/-- Adding to a set takes up room, unless it adds nothing. -/
theorem roomOf_modify (u : SlotSet t.blocks) (i : Nat) (l : List (SlotSet t.blocks)) :
    roomOf (l.modify i (·.union u)) ≤ roomOf l ∧
      (roomOf (l.modify i (·.union u)) = roomOf l → l.modify i (·.union u) = l) := by
  induction l generalizing i with
  | nil => cases i <;> exact ⟨Nat.le_refl _, fun _ => rfl⟩
  | cons s l ih =>
    cases i with
    | zero =>
      have hle := toNat_union_le s u
      have hlt := (s.union u).bits.isLt
      rw [List.modify_zero_cons, roomOf_cons, roomOf_cons, BitVec.toNat_not, BitVec.toNat_not]
      refine ⟨by omega, fun h => ?_⟩
      have hu : s.union u = s := union_eq_of_toNat (by omega)
      rw [hu]
    | succ i =>
      obtain ⟨ihle, iheq⟩ := ih i
      rw [List.modify_succ_cons, roomOf_cons, roomOf_cons]
      refine ⟨by omega, fun h => ?_⟩
      rw [iheq (by omega)]

theorem room_absorb (T : SetTable t) (x : Symbol) (s : SlotSet t.blocks) :
    (T.absorb x s).room ≤ T.room ∧ ((T.absorb x s).room = T.room → T.absorb x s = T) := by
  have hk := keys_absorb T x s
  unfold absorb at hk ⊢
  split
  · exact ⟨Nat.le_refl _, fun _ => rfl⟩
  · rename_i i _
    have hm := roomOf_modify s i T.sets.toList
    rw [← Array.toList_modify] at hm
    exact ⟨hm.1, fun h => ext_sets rfl (Array.toList_inj.1 (hm.2 h))⟩

theorem room_absorb_le (T : SetTable t) (x : Symbol) (s : SlotSet t.blocks) :
    (T.absorb x s).room ≤ T.room :=
  (room_absorb T x s).1

theorem absorb_eq_of_room {T : SetTable t} {x : Symbol} {s : SlotSet t.blocks}
    (h : (T.absorb x s).room = T.room) : T.absorb x s = T :=
  (room_absorb T x s).2 h

theorem room_round_le (cs : List (Inclusion t)) (T : SetTable t) : (round cs T).room ≤ T.room := by
  induction cs generalizing T with
  | nil => exact Nat.le_refl _
  | cons c cs ih => exact Nat.le_trans (ih (T.enforce c)) (room_absorb_le _ _ _)

theorem room_round_lt {cs : List (Inclusion t)} {T : SetTable t} (h : round cs T ≠ T) :
    (round cs T).room < T.room := by
  induction cs generalizing T with
  | nil => exact absurd rfl h
  | cons c cs ih =>
    by_cases he : T.enforce c = T
    · have hr : round (c :: cs) T = round cs T := congrArg (round cs) he
      rw [hr] at h ⊢
      exact ih h
    · have hlt : (T.enforce c).room < T.room :=
        Nat.lt_of_le_of_ne (room_absorb_le _ _ _) fun e => he (absorb_eq_of_room e)
      exact Nat.lt_of_le_of_lt (room_round_le cs (T.enforce c)) hlt

theorem round_eq_of_sets {cs : List (Inclusion t)} {T : SetTable t}
    (h : (round cs T).sets = T.sets) : round cs T = T :=
  ext_sets (keys_round cs T) h

/-! ## 4. Saturation -/

/-- Runs rounds until one changes nothing. -/
def saturate (cs : List (Inclusion t)) (T : SetTable t) : SetTable t :=
  if (round cs T).sets = T.sets then T else saturate cs (round cs T)
termination_by T.room
decreasing_by exact room_round_lt fun e => by simp_all

/-- **A saturated table is left alone by a further round.** -/
theorem round_saturate (cs : List (Inclusion t)) (T : SetTable t) :
    round cs (saturate cs T) = saturate cs T := by
  fun_induction saturate cs T with
  | case1 T h => exact round_eq_of_sets h
  | case2 T h ih => exact ih

end SetTable

end ShiftReduce
