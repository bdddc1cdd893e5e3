/-!
# Sets of slots

A set of small numbers, stored as whole blocks of 64 bits: `SlotSet b` holds slots below `64 * b`.
Membership is a bit test (`contains_insert`, `contains_union`, `contains_unionWithout`), and two
sets of one block count are equal exactly when they have the same members (`ext_contains`). The
checked forms answer nothing when a slot lies beyond the blocks.
-/

namespace ShiftReduce

/-- Slots below `64 * blocks`, one bit each. -/
structure SlotSet (blocks : Nat) where
  bits : BitVec (64 * blocks)
  deriving DecidableEq

namespace SlotSet

variable {b c : Nat}

/-! ## 1. Operations -/

/-- How many blocks hold `size` slots. -/
def blocksFor (size : Nat) : Nat := (size + 63) / 64

theorem le_mul_blocksFor (size : Nat) : size ≤ 64 * blocksFor size := by
  simp only [blocksFor]; omega

instance : EmptyCollection (SlotSet b) := ⟨⟨0⟩⟩

def contains (s : SlotSet b) (i : Nat) : Bool := s.bits.getLsbD i

/-- Adds a slot; one beyond the blocks is left out. -/
def insert (s : SlotSet b) (i : Nat) : SlotSet b :=
  if i < 64 * b then ⟨s.bits ||| BitVec.twoPow (64 * b) i⟩ else s

def singleton (i : Nat) : SlotSet b := insert ∅ i

def union (s t : SlotSet b) : SlotSet b := ⟨s.bits ||| t.bits⟩

/-- Takes a slot out. -/
def erase (s : SlotSet b) (i : Nat) : SlotSet b :=
  if i < 64 * b then ⟨s.bits &&& ~~~ BitVec.twoPow (64 * b) i⟩ else s

/-- Adds every member of `t` but `i`, which stays if it was there before. -/
def unionWithout (s t : SlotSet b) (i : Nat) : SlotSet b := s.union (t.erase i)

/-- The members below `64 * c`, in `c` blocks. -/
def resize (c : Nat) (s : SlotSet b) : SlotSet c := ⟨s.bits.setWidth (64 * c)⟩

/-- The places of the ones among the low `width` bits of `n`, in increasing order and counted from
    `base`. A half without a one is passed over. -/
def onesFrom (base width n : Nat) : List Nat :=
  if n = 0 then []
  else if width ≤ 1 then [base]
  else
    let half := width / 2
    let high := n >>> half
    onesFrom base half (n - high <<< half) ++ onesFrom (base + half) (width - half) high
termination_by width

/-- The members in increasing order. -/
def members (s : SlotSet b) : List Nat := onesFrom 0 (64 * b) s.bits.toNat

/-- Written form: the members between braces. -/
def text (s : SlotSet b) : String :=
  "\x7b" ++ ", ".intercalate (s.members.map toString) ++ "\x7d"

/-- Equality across block counts: as many blocks, and the same members. -/
def same (s : SlotSet b) (t : SlotSet c) : Bool := b == c && s.resize c == t

/-! ## 2. Members -/

theorem ext_contains {s t : SlotSet b} (h : ∀ i, s.contains i = t.contains i) : s = t := by
  cases s with
  | mk x =>
    cases t with
    | mk y => exact congrArg mk (BitVec.eq_of_getLsbD_eq fun i _ => h i)

theorem lt_of_contains {s : SlotSet b} {i : Nat} (h : s.contains i = true) : i < 64 * b :=
  BitVec.lt_of_getLsbD h

@[simp] theorem contains_empty (i : Nat) : (∅ : SlotSet b).contains i = false :=
  BitVec.getLsbD_zero

@[simp] theorem contains_insert (s : SlotSet b) (i j : Nat) :
    (s.insert i).contains j = (s.contains j || (decide (i < 64 * b) && decide (i = j))) := by
  by_cases h : i < 64 * b
  · simp [insert, contains, h, BitVec.getLsbD_twoPow]
  · simp [insert, contains, h]

@[simp] theorem contains_singleton (i j : Nat) :
    (singleton i : SlotSet b).contains j = (decide (i < 64 * b) && decide (i = j)) := by
  simp [singleton]

@[simp] theorem contains_union (s t : SlotSet b) (i : Nat) :
    (s.union t).contains i = (s.contains i || t.contains i) := by
  simp [union, contains]

@[simp] theorem contains_erase (s : SlotSet b) (i j : Nat) :
    (s.erase i).contains j = (s.contains j && decide (i ≠ j)) := by
  by_cases hj : j < 64 * b
  · by_cases hi : i < 64 * b
    · by_cases h : i = j
      · subst h; simp [erase, contains, hj]
      · simp [erase, contains, hj, hi, h, Ne.symm h]
    · have h : i ≠ j := fun e => hi (e ▸ hj)
      simp [erase, hi, h]
  · have hout : ∀ u : SlotSet b, u.contains j = false := by
      intro u
      cases hc : u.contains j with
      | false => rfl
      | true => exact absurd (lt_of_contains hc) hj
    simp [hout]

@[simp] theorem contains_unionWithout (s t : SlotSet b) (i j : Nat) :
    (s.unionWithout t i).contains j = (s.contains j || (t.contains j && decide (i ≠ j))) := by
  simp [unionWithout]

@[simp] theorem contains_resize (s : SlotSet b) (i : Nat) :
    (s.resize c).contains i = (decide (i < 64 * c) && s.contains i) := by
  simp [resize, contains, BitVec.getLsbD_setWidth]

/-- Taking the high part away leaves the low bits. -/
theorem testBit_low (n k i : Nat) :
    (n - n >>> k <<< k).testBit i = (decide (i < k) && n.testBit i) := by
  rw [Nat.shiftRight_eq_div_pow, Nat.shiftLeft_eq, ← Nat.mod_eq_sub_div_mul,
    Nat.testBit_mod_two_pow]

theorem lt_of_testBit_low {n k i : Nat} (h : (n - n >>> k <<< k).testBit i = true) : i < k := by
  rw [testBit_low, Bool.and_eq_true, decide_eq_true_eq] at h
  exact h.1

theorem lt_of_testBit_high {n width k i : Nat} (hn : ∀ j, n.testBit j = true → j < width)
    (h : (n >>> k).testBit i = true) : i < width - k := by
  rw [Nat.testBit_shiftRight] at h
  have hlt := hn _ h
  omega

/-- The places found are those of the ones. -/
theorem mem_onesFrom {base width n i : Nat} (hn : ∀ j, n.testBit j = true → j < width) :
    i ∈ onesFrom base width n ↔ base ≤ i ∧ n.testBit (i - base) = true := by
  fun_induction onesFrom base width n with
  | case1 base width => simp
  | case2 base width n h hw =>
    obtain ⟨j, hj⟩ := Nat.exists_testBit_of_ne_zero h
    obtain rfl : j = 0 := by
      have hlt := hn j hj
      omega
    rw [List.mem_singleton]
    constructor
    · rintro rfl
      exact ⟨Nat.le_refl _, by rwa [Nat.sub_self]⟩
    · rintro ⟨hle, hi⟩
      have hlt := hn _ hi
      omega
  | case3 base width n h hw half high ih1 ih2 =>
    rw [List.mem_append, ih1 fun _ => lt_of_testBit_low, ih2 fun _ => lt_of_testBit_high hn,
      testBit_low, Nat.testBit_shiftRight, Bool.and_eq_true, decide_eq_true_eq]
    constructor
    · rintro (⟨hle, -, hi⟩ | ⟨hle, hi⟩)
      · exact ⟨hle, hi⟩
      · refine ⟨by omega, ?_⟩
        rwa [show half + (i - (base + half)) = i - base by omega] at hi
    · rintro ⟨hle, hi⟩
      by_cases hm : i - base < half
      · exact .inl ⟨hle, hm, hi⟩
      · refine .inr ⟨by omega, ?_⟩
        rwa [show half + (i - (base + half)) = i - base by omega]

/-- The places come in strictly increasing order. -/
theorem onesFrom_pairwise {base width n : Nat} (hn : ∀ j, n.testBit j = true → j < width) :
    (onesFrom base width n).Pairwise (· < ·) := by
  fun_induction onesFrom base width n with
  | case1 base width => exact .nil
  | case2 base width n h hw => exact List.pairwise_singleton _ _
  | case3 base width n h hw half high ih1 ih2 =>
    refine List.pairwise_append.2 ⟨ih1 fun _ => lt_of_testBit_low,
      ih2 fun _ => lt_of_testBit_high hn, fun i hi j hj => ?_⟩
    obtain ⟨hi, hb⟩ := (mem_onesFrom fun _ => lt_of_testBit_low).1 hi
    have hlt := lt_of_testBit_low hb
    have hle := ((mem_onesFrom fun _ => lt_of_testBit_high hn).1 hj).1
    omega

@[simp] theorem mem_members {s : SlotSet b} {i : Nat} : i ∈ s.members ↔ s.contains i = true := by
  rw [members, mem_onesFrom fun _ => lt_of_contains]
  simp [contains, BitVec.getLsbD]

/-- The members come in strictly increasing order. -/
theorem members_pairwise (s : SlotSet b) : s.members.Pairwise (· < ·) :=
  onesFrom_pairwise fun _ => lt_of_contains

/-! ## 3. Checked operations

Each answers nothing where a slot or a block is missing, and else the new set together with whether
it differs from the old one. -/

/-- Adds a slot that the blocks can hold. -/
def insert? (s : SlotSet b) (i : Nat) : Option (SlotSet b × Bool) :=
  if i < 64 * b then some (s.insert i, s.insert i != s) else none

/-- Membership of a slot that the blocks can hold. -/
def contains? (s : SlotSet b) (i : Nat) : Option Bool :=
  if i < 64 * b then some (s.contains i) else none

/-- Adds the members of a set of at least as many blocks; those beyond the own blocks are left
    out. -/
def union? (s : SlotSet b) (t : SlotSet c) : Option (SlotSet b × Bool) :=
  if b ≤ c then some (s.union (t.resize b), s.union (t.resize b) != s) else none

/-- `union?` with one slot left out. -/
def unionWithout? (s : SlotSet b) (t : SlotSet c) (i : Nat) : Option (SlotSet b × Bool) :=
  if b ≤ c then some (s.unionWithout (t.resize b) i, s.unionWithout (t.resize b) i != s) else none

end SlotSet

end ShiftReduce
