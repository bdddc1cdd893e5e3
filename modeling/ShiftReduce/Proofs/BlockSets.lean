import ShiftReduce.Lookahead.SlotSet
/-!
# Sets of slots in blocks

How a set of slots is laid out: blocks of 64 bits, slot `i` being bit `i % 64` of block `i / 64`. A slot
is put in and asked for by its mask in its block, two sets are united block by block, and a cursor
finds the members: it stands at a place of a block, masks off what is below, counts the zeros in front
of the next one, and goes on to the next block when there is none.

* `BlockSet.bit` -- the bits of the blocks in a row, which the operations are described by;
* `Block.firstFrom?_eq_some`, `BlockSet.next?_eq_some` -- the cursor finds the next member and passes
  over none;
* `BlockSet.mem_membersFrom`, `BlockSet.pairwise_membersFrom` -- so a walk meets all members from its
  start on, in order.
-/

namespace ShiftReduce

/-! ## 1. Blocks -/

/-- 64 slots, one bit each. -/
abbrev Block := BitVec 64

namespace Block

/-- The bit of a slot in its block. -/
def mask (i : Nat) : Block := 1#64 <<< (i % 64)

/-- The bits below a place. -/
def below (place : Nat) : Block := (1#64 <<< place) - 1#64

theorem getLsbD_mask (i j : Nat) : (mask i).getLsbD j = decide (i % 64 = j) := by
  have hlt : i % 64 < 64 := Nat.mod_lt i (by decide)
  rw [mask, ← BitVec.twoPow_eq, BitVec.getLsbD_twoPow, decide_eq_true hlt, Bool.true_and]

theorem getLsbD_below {place : Nat} (h : place < 64) (j : Nat) :
    (below place).getLsbD j = decide (j < place) := by
  have hpow : 2 ^ place < 2 ^ 64 := Nat.pow_lt_pow_right (by decide) h
  have hone : 1 ≤ 2 ^ place := Nat.one_le_two_pow
  have hval : (below place).toNat = 2 ^ place - 1 := by
    rw [below, BitVec.toNat_sub, ← BitVec.twoPow_eq, BitVec.toNat_twoPow, Nat.mod_eq_of_lt hpow]
    show (2 ^ 64 - 1 + 2 ^ place) % 2 ^ 64 = 2 ^ place - 1
    omega
  rw [BitVec.getLsbD, hval, Nat.testBit_two_pow_sub_one]

/-- A slot is asked for by its mask. -/
theorem and_mask_ne_zero (x : Block) (i : Nat) : (x &&& mask i != 0#64) = x.getLsbD (i % 64) := by
  have hbit : ∀ j, (x &&& mask i).getLsbD j = (x.getLsbD j && decide (i % 64 = j)) := fun j => by
    rw [BitVec.getLsbD_and, getLsbD_mask]
  cases hx : x.getLsbD (i % 64) with
  | true =>
    refine bne_iff_ne.2 fun h0 => ?_
    have hone := hbit (i % 64)
    rw [h0, hx] at hone
    simp at hone
  | false =>
    have h0 : x &&& mask i = 0#64 := by
      refine BitVec.eq_of_getLsbD_eq fun j _ => ?_
      rw [hbit j, BitVec.getLsbD_zero]
      by_cases hj : i % 64 = j
      · rw [← hj, hx, Bool.false_and]
      · rw [decide_eq_false hj, Bool.and_false]
    rw [h0]
    rfl

/-- The place of the first one at `place` or behind it. -/
def firstFrom? (x : Block) (place : Nat) : Option Nat :=
  if place < 64 then
    let found := (x &&& ~~~ below place).ctz.toNat
    if found < 64 then some found else none
  else none

variable {x : Block} {place j : Nat}

theorem getLsbD_above (h : place < 64) (j : Nat) :
    (x &&& ~~~ below place).getLsbD j = (decide (place ≤ j) && x.getLsbD j) := by
  by_cases hj : j < 64
  · rw [BitVec.getLsbD_and, BitVec.getLsbD_not, getLsbD_below h, decide_eq_true hj, Bool.true_and,
      ← decide_not, Bool.and_comm]
    simp only [Nat.not_lt]
  · rw [BitVec.getLsbD_of_ge _ _ (Nat.le_of_not_lt hj), BitVec.getLsbD_of_ge _ _ (Nat.le_of_not_lt hj),
      Bool.and_false]

/-- **What is found is a one, and all before it are zeros.** -/
theorem firstFrom?_eq_some (h : x.firstFrom? place = some j) :
    place ≤ j ∧ j < 64 ∧ x.getLsbD j = true ∧
      ∀ k, place ≤ k → k < j → x.getLsbD k = false := by
  unfold firstFrom? at h
  split at h
  · rename_i hplace
    obtain ⟨hlt, hfound⟩ := Option.ite_none_right_eq_some.1 h
    obtain rfl := Option.some.inj hfound
    have hne : x &&& ~~~ below place ≠ 0#64 := by
      rw [← BitVec.ctz_lt_iff_ne_zero]
      exact hlt
    have hone := BitVec.getLsbD_true_ctz_of_ne_zero hne
    rw [getLsbD_above hplace, Bool.and_eq_true, decide_eq_true_eq] at hone
    refine ⟨hone.1, hlt, hone.2, fun k hk hkj => ?_⟩
    have hzero := BitVec.getLsbD_false_of_lt_ctz hkj
    rw [getLsbD_above hplace, decide_eq_true hk, Bool.true_and] at hzero
    exact hzero
  · cases h

/-- **When nothing is found there are zeros only.** -/
theorem firstFrom?_eq_none (h : x.firstFrom? place = none) :
    ∀ k, place ≤ k → x.getLsbD k = false := by
  intro k hk
  unfold firstFrom? at h
  split at h
  · rename_i hplace
    have hnot : ¬ (x &&& ~~~ below place).ctz < 64#64 := fun hlt => by
      have hfound : (x &&& ~~~ below place).ctz.toNat < 64 := hlt
      simp [hfound] at h
    have hzero : x &&& ~~~ below place = 0#64 :=
      Classical.not_not.1 fun hne => hnot (BitVec.ctz_lt_iff_ne_zero.2 hne)
    have hbit := getLsbD_above (x := x) hplace k
    rw [hzero, decide_eq_true hk, Bool.true_and, BitVec.getLsbD_zero] at hbit
    exact hbit.symm
  · rename_i hplace
    exact BitVec.getLsbD_of_ge x k (by omega)

end Block

/-! ## 2. Sets -/

/-- Slots below 64 times the number of blocks. -/
@[ext]
structure BlockSet where
  blocks : List Block
  deriving DecidableEq

namespace BlockSet

/-- The bit of a slot; one beyond the blocks has none. -/
def bit (s : BlockSet) (i : Nat) : Bool := (s.blocks[i / 64]?).any fun x => x.getLsbD (i % 64)

/-- The empty set with room for `size` slots. -/
def new (size : Nat) : BlockSet := ⟨List.replicate (SlotSet.blocksFor size) 0#64⟩

def clear (s : BlockSet) : BlockSet := ⟨s.blocks.map fun _ => 0#64⟩

/-- Adds a slot, and tells whether its block has changed; nothing for a slot beyond the blocks. -/
def insert? (s : BlockSet) (i : Nat) : Option (BlockSet × Bool) :=
  (s.blocks[i / 64]?).map fun old =>
    (⟨s.blocks.set (i / 64) (old ||| Block.mask i)⟩, old != old ||| Block.mask i)

/-- Asks for a slot; nothing for one beyond the blocks. -/
def contains? (s : BlockSet) (i : Nat) : Option Bool :=
  (s.blocks[i / 64]?).map fun x => x &&& Block.mask i != 0#64

/-- Adds to every block of the first list what `part` leaves of the block of the second in its place,
    the places counted from `k`, and tells whether a block has changed; nothing if the second list is
    too short. -/
def merge? (part : Nat → Block → Block) : Nat → List Block → List Block → Option (List Block × Bool)
  | _, [], _ => some ([], false)
  | _, _ :: _, [] => none
  | k, x :: xs, y :: ys =>
    (merge? part (k + 1) xs ys).map fun rest =>
      ((x ||| part k y) :: rest.1, x != x ||| part k y || rest.2)

/-- Adds the members of another set. -/
def union? (s t : BlockSet) : Option (BlockSet × Bool) :=
  (merge? (fun _ y => y) 0 s.blocks t.blocks).map fun r => (⟨r.1⟩, r.2)

/-- What is left of block `k` without a slot: in the block of the slot it is masked off. -/
def leaveOut (i k : Nat) (y : Block) : Block :=
  if k = i / 64 then y &&& ~~~ Block.mask i else y

/-- Adds the members of another set but one slot. -/
def unionWithout? (s t : BlockSet) (i : Nat) : Option (BlockSet × Bool) :=
  (merge? (leaveOut i) 0 s.blocks t.blocks).map fun r => (⟨r.1⟩, r.2)

variable {s t : BlockSet} {i j : Nat}

theorem bit_of_getElem? {x : Block} (h : s.blocks[i / 64]? = some x) : s.bit i = x.getLsbD (i % 64) := by
  rw [bit, h, Option.any_some]

theorem bit_of_le (h : s.blocks.length ≤ i / 64) : s.bit i = false := by
  rw [bit, List.getElem?_eq_none h, Option.any_none]

theorem lt_of_bit (h : s.bit i = true) : i < 64 * s.blocks.length := by
  refine Classical.byContradiction fun hge => ?_
  rw [bit_of_le (by omega)] at h
  cases h

/-- The bits of a block, counted over all blocks. -/
theorem bit_mul_add {k j : Nat} (hk : k < s.blocks.length) (hj : j < 64) :
    s.bit (64 * k + j) = s.blocks[k].getLsbD j := by
  have hdiv : (64 * k + j) / 64 = k := by omega
  have hmod : (64 * k + j) % 64 = j := by omega
  rw [bit, hdiv, hmod, List.getElem?_eq_getElem hk, Option.any_some]

/-- **Blocks are told apart by their bits.** -/
theorem ext_bit (hlen : s.blocks.length = t.blocks.length) (h : ∀ i, s.bit i = t.bit i) : s = t := by
  refine BlockSet.ext ?_
  refine List.ext_getElem hlen fun k hk hk' => BitVec.eq_of_getLsbD_eq fun j hj => ?_
  rw [← bit_mul_add hk hj, ← bit_mul_add hk' hj]
  exact h _

@[simp] theorem length_new (size : Nat) : (new size).blocks.length = SlotSet.blocksFor size :=
  List.length_replicate

@[simp] theorem bit_new (size i : Nat) : (new size).bit i = false := by
  rw [bit, new, List.getElem?_replicate]
  split
  · exact BitVec.getLsbD_zero
  · rfl

@[simp] theorem length_clear (s : BlockSet) : s.clear.blocks.length = s.blocks.length :=
  List.length_map _

@[simp] theorem bit_clear (s : BlockSet) (i : Nat) : s.clear.bit i = false := by
  rw [bit, clear, List.getElem?_map]
  cases s.blocks[i / 64]? with
  | none => rfl
  | some x => exact BitVec.getLsbD_zero

theorem contains?_eq (h : i < 64 * s.blocks.length) : s.contains? i = some (s.bit i) := by
  have hx : s.blocks[i / 64]? = some s.blocks[i / 64] := List.getElem?_eq_getElem (by omega)
  rw [contains?, hx, Option.map_some, Block.and_mask_ne_zero, bit_of_getElem? hx]

/-- **Adding a slot** sets its bit, and is told as a change exactly if it is one. -/
theorem exists_insert? (h : i < 64 * s.blocks.length) :
    ∃ s' changed, s.insert? i = some (s', changed) ∧ s'.blocks.length = s.blocks.length ∧
      (∀ j, s'.bit j = (s.bit j || decide (i = j))) ∧ (changed = true ↔ s' ≠ s) := by
  have hk : i / 64 < s.blocks.length := by omega
  have hx : s.blocks[i / 64]? = some s.blocks[i / 64] := List.getElem?_eq_getElem hk
  refine ⟨_, _, by rw [insert?, hx, Option.map_some], List.length_set, fun j => ?_, ?_⟩
  · by_cases hij : i / 64 = j / 64
    · have hbits : decide (i % 64 = j % 64) = decide (i = j) := decide_eq_decide.2 (by omega)
      simp only [bit]
      rw [← hij, List.getElem?_set_self hk, hx, Option.any_some, Option.any_some, BitVec.getLsbD_or,
        Block.getLsbD_mask, hbits]
    · have hne : i ≠ j := fun e => hij (congrArg (· / 64) e)
      rw [bit, List.getElem?_set_ne hij, decide_eq_false hne, Bool.or_false]
      rfl
  · rw [bne_iff_ne]
    refine not_congr ⟨fun he => ?_, fun he => ?_⟩
    · rw [← he, List.set_getElem_self]
    · have hblock := congrArg (fun u : BlockSet => u.blocks[i / 64]?) he
      simp only [List.getElem?_set_self hk, hx, Option.some.injEq] at hblock
      exact hblock.symm

/-- What merging does to each block, and when it is told as a change. -/
theorem exists_merge? {part : Nat → Block → Block} {k : Nat} {xs ys : List Block}
    (h : xs.length ≤ ys.length) :
    ∃ zs changed, merge? part k xs ys = some (zs, changed) ∧ zs.length = xs.length ∧
      (∀ (j : Nat) (x y : Block), xs[j]? = some x → ys[j]? = some y →
        zs[j]? = some (x ||| part (k + j) y)) ∧ (changed = true ↔ zs ≠ xs) := by
  induction xs generalizing k ys with
  | nil => exact ⟨[], false, rfl, rfl, fun j x y hx => by simp at hx, by simp⟩
  | cons x xs ih =>
    cases ys with
    | nil => exact absurd h (by simp)
    | cons y ys =>
      obtain ⟨zs, changed, hmerge, hlen, hget, hchanged⟩ := ih (k := k + 1) (Nat.le_of_succ_le_succ h)
      refine ⟨_, _, by rw [merge?, hmerge, Option.map_some], congrArg (· + 1) hlen,
        fun j x' y' hx hy => ?_, ?_⟩
      · cases j with
        | zero =>
          obtain rfl := Option.some.inj hx
          obtain rfl := Option.some.inj hy
          rfl
        | succ j =>
          have hj := hget j x' y' hx hy
          rw [Nat.add_right_comm] at hj
          exact hj
      · rw [Bool.or_eq_true, bne_iff_ne, hchanged, ne_eq, ne_eq, ne_eq, List.cons.injEq,
          Decidable.not_and_iff_or_not, eq_comm]

/-- The bits of a merged set: its own, and what is left of the bits of the other. -/
theorem bit_merge? (part : Nat → Block → Block) (keep : Nat → Bool)
    (h : s.blocks.length = t.blocks.length)
    (hpart : ∀ i y, (part (i / 64) y).getLsbD (i % 64) = (y.getLsbD (i % 64) && keep i)) :
    ∃ zs changed, merge? part 0 s.blocks t.blocks = some (zs, changed) ∧
      zs.length = s.blocks.length ∧
      (∀ i, bit ⟨zs⟩ i = (s.bit i || (t.bit i && keep i))) ∧ (changed = true ↔ zs ≠ s.blocks) := by
  obtain ⟨zs, changed, hmerge, hlen, hget, hchanged⟩ := exists_merge? (k := 0) (Nat.le_of_eq h)
  refine ⟨zs, changed, hmerge, hlen, fun i => ?_, hchanged⟩
  by_cases hi : i / 64 < s.blocks.length
  · have hi' : i / 64 < t.blocks.length := h ▸ hi
    have hx : s.blocks[i / 64]? = some s.blocks[i / 64] := List.getElem?_eq_getElem hi
    have hy : t.blocks[i / 64]? = some t.blocks[i / 64] := List.getElem?_eq_getElem hi'
    have hz := hget _ _ _ hx hy
    rw [Nat.zero_add] at hz
    rw [bit_of_getElem? (s := ⟨zs⟩) hz, bit_of_getElem? hx, bit_of_getElem? hy, BitVec.getLsbD_or, hpart]
  · have hle := Nat.le_of_not_lt hi
    rw [bit_of_le (s := ⟨zs⟩) (hlen ▸ hle), bit_of_le hle, bit_of_le (h ▸ hle), Bool.false_and,
      Bool.or_false]

/-- **Uniting** sets of one size adds the bits of the second, and is told as a change exactly if it is
one. -/
theorem exists_union? (h : s.blocks.length = t.blocks.length) :
    ∃ s' changed, s.union? t = some (s', changed) ∧ s'.blocks.length = s.blocks.length ∧
      (∀ j, s'.bit j = (s.bit j || t.bit j)) ∧ (changed = true ↔ s' ≠ s) := by
  obtain ⟨zs, changed, hmerge, hlen, hbit, hchanged⟩ :=
    bit_merge? (fun _ y => y) (fun _ => true) h fun i y => (Bool.and_true _).symm
  refine ⟨⟨zs⟩, changed, by rw [union?, hmerge, Option.map_some], hlen, fun j => ?_, ?_⟩
  · rw [hbit, Bool.and_true]
  · rw [hchanged, ne_eq, ne_eq, BlockSet.ext_iff]

theorem getLsbD_leaveOut (i j : Nat) (y : Block) :
    (leaveOut i (j / 64) y).getLsbD (j % 64) = (y.getLsbD (j % 64) && decide (i ≠ j)) := by
  have hj : j % 64 < 64 := Nat.mod_lt j (by decide)
  by_cases hblock : j / 64 = i / 64
  · have hbits : decide (i % 64 = j % 64) = decide (i = j) := decide_eq_decide.2 (by omega)
    rw [leaveOut, if_pos hblock, BitVec.getLsbD_and, BitVec.getLsbD_not, Block.getLsbD_mask, hbits,
      decide_eq_true hj, Bool.true_and, decide_not]
  · have hne : i ≠ j := fun e => hblock (congrArg (· / 64) e.symm)
    rw [leaveOut, if_neg hblock, decide_eq_true hne, Bool.and_true]

/-- **Uniting with one slot left out** leaves out the slot of the second set only. -/
theorem exists_unionWithout? (h : s.blocks.length = t.blocks.length) (i : Nat) :
    ∃ s' changed, s.unionWithout? t i = some (s', changed) ∧ s'.blocks.length = s.blocks.length ∧
      (∀ j, s'.bit j = (s.bit j || (t.bit j && decide (i ≠ j)))) ∧ (changed = true ↔ s' ≠ s) := by
  obtain ⟨zs, changed, hmerge, hlen, hbit, hchanged⟩ :=
    bit_merge? (leaveOut i) (fun j => decide (i ≠ j)) h (getLsbD_leaveOut i)
  refine ⟨⟨zs⟩, changed, by rw [unionWithout?, hmerge, Option.map_some], hlen, hbit, ?_⟩
  rw [hchanged, ne_eq, ne_eq, BlockSet.ext_iff]

/-! ## 3. Walking -/

/-- Where a walk stands: at a bit of a block, or behind its last one. -/
structure Cursor where
  index : Nat
  bit : Nat
  bit_le : bit ≤ 64

namespace Cursor

def start : Cursor := ⟨0, 0, Nat.zero_le _⟩

/-- The first slot that is not behind the cursor. -/
def slot (c : Cursor) : Nat := 64 * c.index + c.bit

end Cursor

/-- The first member that is not behind the cursor, and the cursor just behind it. -/
def next? (s : BlockSet) (c : Cursor) : Option (Nat × Cursor) :=
  if hc : c.index < s.blocks.length then
    match h : s.blocks[c.index].firstFrom? c.bit with
    | some j => some (64 * c.index + j, ⟨c.index, j + 1, (Block.firstFrom?_eq_some h).2.1⟩)
    | none => s.next? ⟨c.index + 1, 0, Nat.zero_le _⟩
  else none
termination_by s.blocks.length - c.index

variable {c d : Cursor}

/-- The rest of a block, slot by slot. -/
theorem bit_false_of_block (hc : c.index < s.blocks.length) {j : Nat} (hj : j ≤ 64)
    (h : ∀ k, c.bit ≤ k → k < j → s.blocks[c.index].getLsbD k = false) {k : Nat}
    (hle : c.slot ≤ k) (hlt : k < 64 * c.index + j) : s.bit k = false := by
  have hslot : 64 * c.index + c.bit ≤ k := hle
  obtain ⟨m, rfl⟩ : ∃ m, k = 64 * c.index + m := ⟨k - 64 * c.index, by omega⟩
  rw [bit_mul_add hc (by omega)]
  exact h m (by omega) (by omega)

/-- A block in which nothing is found has nothing behind the cursor. -/
theorem bit_false_of_none (hc : c.index < s.blocks.length)
    (hnone : s.blocks[c.index].firstFrom? c.bit = none) {k : Nat} (hle : c.slot ≤ k)
    (hlt : k < 64 * c.index + 64) : s.bit k = false :=
  bit_false_of_block hc (Nat.le_refl 64) (fun m hm _ => Block.firstFrom?_eq_none hnone m hm) hle hlt

/-- **The cursor stops just behind the next member, and passes over none.** -/
theorem next?_eq_some (h : s.next? c = some (i, d)) :
    c.slot ≤ i ∧ s.bit i = true ∧ d.slot = i + 1 ∧
      ∀ k, c.slot ≤ k → k < i → s.bit k = false := by
  fun_induction next? s c with
  | case1 c hc j hfound =>
    obtain ⟨rfl, rfl⟩ := Prod.mk.inj (Option.some.inj h)
    obtain ⟨hle, hlt, hone, hzero⟩ := Block.firstFrom?_eq_some hfound
    refine ⟨Nat.add_le_add_left hle _, (bit_mul_add hc hlt).trans hone, rfl, fun k hk hki => ?_⟩
    exact bit_false_of_block hc (Nat.le_of_lt hlt) hzero hk hki
  | case2 c hc hfound ih =>
    obtain ⟨hle, hone, hd, hzero⟩ := ih h
    -- the walk hops to the next block, and what it passes over is the rest of this one
    have hstart : 64 * (c.index + 1) + 0 ≤ i := hle
    have hslot : c.slot ≤ 64 * c.index + 64 := Nat.add_le_add_left c.bit_le _
    refine ⟨by omega, hone, hd, fun k hk hki => ?_⟩
    by_cases hin : k < 64 * c.index + 64
    · exact bit_false_of_none hc hfound hk hin
    · exact hzero k (show 64 * (c.index + 1) + 0 ≤ k by omega) hki
  | case3 c hc => cases h

/-- **The cursor stops for good when no member is left.** -/
theorem next?_eq_none (h : s.next? c = none) : ∀ k, c.slot ≤ k → s.bit k = false := by
  intro k hk
  fun_induction next? s c with
  | case1 c hc j hfound => cases h
  | case2 c hc hfound ih =>
    by_cases hin : k < 64 * c.index + 64
    · exact bit_false_of_none hc hfound hk hin
    · exact ih h (show 64 * (c.index + 1) + 0 ≤ k by omega)
  | case3 c hc =>
    have hslot : 64 * c.index + c.bit ≤ k := hk
    exact bit_of_le (by omega)

/-- What a walk meets. -/
def membersFrom (s : BlockSet) (c : Cursor) : List Nat :=
  match _hnext : s.next? c with
  | none => []
  | some (i, d) => i :: s.membersFrom d
termination_by 64 * s.blocks.length - c.slot
decreasing_by
  obtain ⟨hle, hone, hd, -⟩ := next?_eq_some _hnext
  have hlt := lt_of_bit hone
  omega

/-- The members, met from the start on. -/
def members (s : BlockSet) : List Nat := s.membersFrom .start

/-- **A walk meets every member from its start on, and nothing else.** -/
theorem mem_membersFrom : i ∈ s.membersFrom c ↔ c.slot ≤ i ∧ s.bit i = true := by
  fun_induction membersFrom s c with
  | case1 c hnone =>
    refine ⟨fun hi => by simp at hi, fun ⟨hle, hone⟩ => ?_⟩
    rw [next?_eq_none hnone i hle] at hone
    cases hone
  | case2 c m d hsome ih =>
    obtain ⟨hle, hone, hd, hzero⟩ := next?_eq_some hsome
    rw [List.mem_cons, ih]
    refine ⟨fun hi => ?_, fun ⟨hci, hi⟩ => ?_⟩
    · rcases hi with rfl | ⟨hdi, hi⟩
      · exact ⟨hle, hone⟩
      · exact ⟨by omega, hi⟩
    · rcases Nat.lt_trichotomy i m with hlt | rfl | hlt
      · rw [hzero i hci hlt] at hi
        cases hi
      · exact .inl rfl
      · exact .inr ⟨by omega, hi⟩

/-- **A walk meets the members in increasing order.** -/
theorem pairwise_membersFrom (s : BlockSet) (c : Cursor) :
    (s.membersFrom c).Pairwise (· < ·) := by
  fun_induction membersFrom s c with
  | case1 c hnone => exact .nil
  | case2 c m d hsome ih =>
    have hd := (next?_eq_some hsome).2.2.1
    refine List.pairwise_cons.2 ⟨fun i hi => ?_, ih⟩
    have hle := (mem_membersFrom.1 hi).1
    omega

theorem mem_members : i ∈ s.members ↔ s.bit i = true := by
  rw [members, mem_membersFrom]
  exact and_iff_right (Nat.zero_le i)

example : (members ⟨[0#64, 1#64 <<< 63, 0#64, 1#64]⟩) = [127, 192] := by decide +kernel

end BlockSet

end ShiftReduce
