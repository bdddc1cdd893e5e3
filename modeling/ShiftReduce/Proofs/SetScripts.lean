import Mathlib.Data.Finset.Erase
import Mathlib.Data.Finset.Filter
import Mathlib.Data.Finset.Lattice.Lemmas
import Mathlib.Data.Finset.Range
import Mathlib.Logic.Function.Basic
import ShiftReduce.Proofs.BlockSets
/-!
# Scripts of set commands

A store holds sets of slots by number, and a script makes, fills, empties and unites them. Whatever the
sets are stored as, the script does to them what it does to finite sets of numbers, and the changes it is
told of are changes of those.

* `SlotStorage` -- what a way to store sets can do, and `SlotStorage.Lawful` -- what one has to do;
* `lawful_slotSets`, `lawful_blockSets` -- the sets in one row of bits and those in blocks do it;
* `SlotStorage.Lawful.exists_answer?` -- one command; `SlotStorage.Lawful.mirrors_run?` -- a script;
* `SlotStorage.Lawful.run?_agree` -- so two ways to store sets cannot be told apart;
* `scripts_refine` -- and both follow every script that keeps to one number of blocks.
-/

namespace ShiftReduce

/-! ## 1. Storage -/

/-- A way to store sets of slots, and its operations. -/
structure SlotStorage (σ : Type) where
  blocks : σ → Nat
  bit : σ → Nat → Bool
  new : Nat → σ
  insert? : σ → Nat → Option (σ × Bool)
  clear : σ → σ
  union? : σ → σ → Option (σ × Bool)
  unionWithout? : σ → σ → Nat → Option (σ × Bool)
  contains? : σ → Nat → Option Bool
  members : σ → List Nat
  same : σ → σ → Bool

/-- An answer together with the number of blocks of its set. -/
def withBlocks {b : Nat} (r : SlotSet b × Bool) : ((b : Nat) × SlotSet b) × Bool := (⟨b, r.1⟩, r.2)

/-- Sets in one row of bits. -/
def slotSets : SlotStorage ((b : Nat) × SlotSet b) where
  blocks s := s.1
  bit s := s.2.contains
  new size := ⟨SlotSet.blocksFor size, ∅⟩
  insert? s i := (s.2.insert? i).map withBlocks
  clear s := ⟨s.1, ∅⟩
  union? s t := (s.2.union? t.2).map withBlocks
  unionWithout? s t i := (s.2.unionWithout? t.2 i).map withBlocks
  contains? s := s.2.contains?
  members s := s.2.members
  same s t := s.2.same t.2

/-- Sets in blocks. -/
def blockSets : SlotStorage BlockSet where
  blocks s := s.blocks.length
  bit := BlockSet.bit
  new := BlockSet.new
  insert? := BlockSet.insert?
  clear := BlockSet.clear
  union? := BlockSet.union?
  unionWithout? := BlockSet.unionWithout?
  contains? := BlockSet.contains?
  members := BlockSet.members
  same s t := decide (s = t)

namespace SlotStorage

variable {σ : Type} {O : SlotStorage σ}

/-- The finite set a stored one stands for. -/
def set (O : SlotStorage σ) (s : σ) : Finset Nat :=
  (Finset.range (64 * O.blocks s)).filter fun i => O.bit s i = true

/-- One set is another one and the slots that are added, and it is told whether they differ. -/
structure Grown (O : SlotStorage σ) (s : σ) (added : Nat → Bool) (r : σ × Bool) : Prop where
  blocks : O.blocks r.1 = O.blocks s
  bit : ∀ j, O.bit r.1 j = (O.bit s j || added j)
  changed : r.2 = true ↔ r.1 ≠ s

/-- What each operation does to the bits; those that read a slot or another set may ask for the blocks to
    be there. -/
structure Lawful (O : SlotStorage σ) : Prop where
  ext : ∀ s t, O.blocks s = O.blocks t → (∀ i, O.bit s i = O.bit t i) → s = t
  lt_of_bit : ∀ s i, O.bit s i = true → i < 64 * O.blocks s
  new : ∀ size, O.blocks (O.new size) = SlotSet.blocksFor size ∧ ∀ i, O.bit (O.new size) i = false
  insert? : ∀ s i, i < 64 * O.blocks s →
    ∃ r, O.insert? s i = some r ∧ O.Grown s (fun j => decide (i = j)) r
  clear : ∀ s, O.blocks (O.clear s) = O.blocks s ∧ ∀ i, O.bit (O.clear s) i = false
  union? : ∀ s t, O.blocks s = O.blocks t → ∃ r, O.union? s t = some r ∧ O.Grown s (O.bit t) r
  unionWithout? : ∀ s t i, O.blocks s = O.blocks t →
    ∃ r, O.unionWithout? s t i = some r ∧ O.Grown s (fun j => O.bit t j && decide (i ≠ j)) r
  contains? : ∀ s i, i < 64 * O.blocks s → O.contains? s i = some (O.bit s i)
  pairwise_members : ∀ s, (O.members s).Pairwise (· < ·)
  mem_members : ∀ s i, i ∈ O.members s ↔ O.bit s i = true
  same : ∀ s t, O.blocks s = O.blocks t → (O.same s t = true ↔ s = t)

end SlotStorage

theorem SlotSet.resize_self {b : Nat} (s : SlotSet b) : s.resize b = s := by
  refine SlotSet.ext_contains fun i => ?_
  rw [SlotSet.contains_resize]
  cases hi : s.contains i with
  | false => exact Bool.and_false _
  | true => rw [decide_eq_true (SlotSet.lt_of_contains hi), Bool.true_and]

theorem grown_slotSets {b : Nat} {s s' : SlotSet b} {added : Nat → Bool}
    (h : ∀ j, s'.contains j = (s.contains j || added j)) :
    slotSets.Grown ⟨b, s⟩ added (⟨b, s'⟩, s' != s) where
  blocks := rfl
  bit := h
  changed := by simp

theorem lawful_slotSets : slotSets.Lawful where
  ext := by
    intro ⟨b, s⟩ ⟨c, t⟩ hb h
    obtain rfl : b = c := hb
    exact congrArg (Sigma.mk b) (SlotSet.ext_contains h)
  lt_of_bit _ _ := SlotSet.lt_of_contains
  new _ := ⟨rfl, SlotSet.contains_empty⟩
  insert? := by
    intro ⟨b, s⟩ i hi
    have hi : i < 64 * b := hi
    have hanswer : s.insert? i = some (s.insert i, s.insert i != s) := if_pos hi
    refine ⟨_, congrArg (Option.map withBlocks) hanswer, grown_slotSets fun j => ?_⟩
    rw [SlotSet.contains_insert, decide_eq_true hi, Bool.true_and]
  clear _ := ⟨rfl, SlotSet.contains_empty⟩
  union? := by
    intro ⟨b, s⟩ ⟨c, t⟩ hb
    obtain rfl : b = c := hb
    have hanswer : s.union? t = some (s.union t, s.union t != s) := by
      rw [SlotSet.union?, if_pos (Nat.le_refl b), SlotSet.resize_self]
    exact ⟨_, congrArg (Option.map withBlocks) hanswer,
      grown_slotSets fun j => SlotSet.contains_union s t j⟩
  unionWithout? := by
    intro ⟨b, s⟩ ⟨c, t⟩ i hb
    obtain rfl : b = c := hb
    have hanswer : s.unionWithout? t i = some (s.unionWithout t i, s.unionWithout t i != s) := by
      rw [SlotSet.unionWithout?, if_pos (Nat.le_refl b), SlotSet.resize_self]
    exact ⟨_, congrArg (Option.map withBlocks) hanswer,
      grown_slotSets fun j => SlotSet.contains_unionWithout s t i j⟩
  contains? _ _ hi := if_pos hi
  pairwise_members s := s.2.members_pairwise
  mem_members _ _ := SlotSet.mem_members
  same := by
    intro ⟨b, s⟩ ⟨c, t⟩ hb
    obtain rfl : b = c := hb
    show s.same t = true ↔ _
    rw [SlotSet.same, SlotSet.resize_self]
    simp

theorem lawful_blockSets : blockSets.Lawful where
  ext _ _ := BlockSet.ext_bit
  lt_of_bit _ _ := BlockSet.lt_of_bit
  new size := ⟨BlockSet.length_new size, BlockSet.bit_new size⟩
  insert? _ _ hi := by
    obtain ⟨s', changed, h, hlen, hbit, hchanged⟩ := BlockSet.exists_insert? hi
    exact ⟨(s', changed), h, hlen, hbit, hchanged⟩
  clear s := ⟨BlockSet.length_clear s, BlockSet.bit_clear s⟩
  union? _ _ hb := by
    obtain ⟨s', changed, h, hlen, hbit, hchanged⟩ := BlockSet.exists_union? hb
    exact ⟨(s', changed), h, hlen, hbit, hchanged⟩
  unionWithout? _ _ i hb := by
    obtain ⟨s', changed, h, hlen, hbit, hchanged⟩ := BlockSet.exists_unionWithout? hb i
    exact ⟨(s', changed), h, hlen, hbit, hchanged⟩
  contains? _ _ := BlockSet.contains?_eq
  pairwise_members s := s.pairwise_membersFrom .start
  mem_members _ _ := BlockSet.mem_members
  same _ _ _ := decide_eq_true_iff

/-! ## 2. Stored sets and finite ones -/

namespace SlotStorage.Lawful

variable {σ : Type} {O : SlotStorage σ} {s t : σ} {r : σ × Bool} {i : Nat}

theorem mem_set (hO : O.Lawful) : i ∈ O.set s ↔ O.bit s i = true := by
  rw [SlotStorage.set, Finset.mem_filter, Finset.mem_range]
  exact and_iff_right_of_imp (hO.lt_of_bit s i)

/-- **A stored set is the finite set it stands for**, as long as the blocks are as many. -/
theorem set_inj (hO : O.Lawful) (hb : O.blocks s = O.blocks t) : O.set s = O.set t ↔ s = t := by
  refine ⟨fun h => hO.ext s t hb fun i => ?_, congrArg O.set⟩
  rw [Bool.eq_iff_iff, ← hO.mem_set, ← hO.mem_set, h]

theorem set_of_empty (hO : O.Lawful) (h : ∀ i, O.bit s i = false) : O.set s = ∅ := by
  refine Finset.eq_empty_of_forall_notMem fun i hi => ?_
  rw [hO.mem_set, h] at hi
  cases hi

/-- **A grown set** stands for the union with what is added, and it is told whether that is another set
than before. -/
theorem of_grown (hO : O.Lawful) {added : Nat → Bool} (h : O.Grown s added r) {A : Finset Nat}
    (hA : ∀ i, i ∈ A ↔ added i = true) :
    O.set r.1 = O.set s ∪ A ∧ r.2 = decide (O.set s ∪ A ≠ O.set s) := by
  have hset : O.set r.1 = O.set s ∪ A := by
    ext i
    rw [hO.mem_set, h.bit, Bool.or_eq_true, Finset.mem_union, hO.mem_set, hA]
  refine ⟨hset, ?_⟩
  rw [Bool.eq_iff_iff, h.changed, decide_eq_true_iff, ← hset]
  exact not_congr (hO.set_inj h.blocks).symm

end SlotStorage.Lawful

/-! ## 3. Scripts -/

/-- A command to the sets of a store, which are known by their numbers. -/
inductive SetCommand where
  | new (target size : Nat)
  | fromSlot (target size slot : Nat)
  | insert (target slot : Nat)
  | clear (target : Nat)
  | union (target source : Nat)
  | unionWithout (target source slot : Nat)

namespace SetCommand

/-- The set a command is about. -/
def target : SetCommand → Nat
  | .new k _ | .fromSlot k _ _ | .insert k _ | .clear k | .union k _ | .unionWithout k _ _ => k

/-- What a command makes of its set, as a finite one. -/
def value (sets : Nat → Finset Nat) : SetCommand → Finset Nat
  | .new _ _ => ∅
  | .fromSlot _ _ i => {i}
  | .insert k i => sets k ∪ {i}
  | .clear _ => ∅
  | .union k l => sets k ∪ sets l
  | .unionWithout k l i => sets k ∪ (sets l).erase i

/-- What a command tells: the growing ones, whether their set has changed. -/
def flag (sets : Nat → Finset Nat) (c : SetCommand) : Option Bool :=
  match c with
  | .insert k _ | .union k _ | .unionWithout k _ _ => some (decide (c.value sets ≠ sets k))
  | .new _ _ | .fromSlot _ _ _ | .clear _ => none

/-- A command keeps to `b` blocks: what is made has as many, and what is put in has its place there. -/
def Fits (b : Nat) : SetCommand → Prop
  | .new _ size => SlotSet.blocksFor size = b
  | .fromSlot _ size i => SlotSet.blocksFor size = b ∧ i < 64 * b
  | .insert _ i => i < 64 * b
  | .clear _ | .union _ _ | .unionWithout _ _ _ => True

instance (b : Nat) : DecidablePred (Fits b)
  | .new _ size => inferInstanceAs (Decidable (SlotSet.blocksFor size = b))
  | .fromSlot _ size i => inferInstanceAs (Decidable (SlotSet.blocksFor size = b ∧ i < 64 * b))
  | .insert _ i => inferInstanceAs (Decidable (i < 64 * b))
  | .clear _ | .union _ _ | .unionWithout _ _ _ => inferInstanceAs (Decidable True)

/-- A script on finite sets: the sets it leaves, and what it has told. -/
def run (sets : Nat → Finset Nat) : List SetCommand → (Nat → Finset Nat) × List (Option Bool)
  | [] => (sets, [])
  | c :: script =>
    let rest := run (Function.update sets c.target (c.value sets)) script
    (rest.1, c.flag sets :: rest.2)

end SetCommand

namespace SlotStorage

variable {σ : Type} {O : SlotStorage σ}

/-- What a command makes of its set, and what it tells. -/
def answer? (O : SlotStorage σ) (sets : Nat → σ) : SetCommand → Option (σ × Option Bool)
  | .new _ size => some (O.new size, none)
  | .fromSlot _ size i => (O.insert? (O.new size) i).map fun r => (r.1, none)
  | .insert k i => (O.insert? (sets k) i).map fun r => (r.1, some r.2)
  | .clear k => some (O.clear (sets k), none)
  | .union k l => (O.union? (sets k) (sets l)).map fun r => (r.1, some r.2)
  | .unionWithout k l i => (O.unionWithout? (sets k) (sets l) i).map fun r => (r.1, some r.2)

/-- A script on stored sets; nothing when a command has no answer. -/
def run? (O : SlotStorage σ) (sets : Nat → σ) :
    List SetCommand → Option ((Nat → σ) × List (Option Bool))
  | [] => some (sets, [])
  | c :: script => do
    let (s, told) ← O.answer? sets c
    let (sets', rest) ← O.run? (Function.update sets c.target s) script
    return (sets', told :: rest)

/-- Stored sets of `b` blocks are finite sets, whichever way they are read: asked for a slot, listed, or
    compared. -/
structure Mirrors (O : SlotStorage σ) (b : Nat) (sets : Nat → σ) (model : Nat → Finset Nat) : Prop where
  blocks : ∀ k, O.blocks (sets k) = b
  set : ∀ k, O.set (sets k) = model k
  contains? : ∀ k i, i < 64 * b → O.contains? (sets k) i = some (decide (i ∈ model k))
  pairwise_members : ∀ k, (O.members (sets k)).Pairwise (· < ·)
  mem_members : ∀ k i, i ∈ O.members (sets k) ↔ i ∈ model k
  same : ∀ k l, O.same (sets k) (sets l) = true ↔ model k = model l

/-- From any sets of `b` blocks the script runs as on the finite sets they stand for. -/
def Follows (O : SlotStorage σ) (b : Nat) (script : List SetCommand) : Prop :=
  ∀ sets : Nat → σ, (∀ k, O.blocks (sets k) = b) →
    ∃ sets', O.run? sets script = some (sets', (SetCommand.run (O.set ∘ sets) script).2) ∧
      O.Mirrors b sets' (SetCommand.run (O.set ∘ sets) script).1

namespace Lawful

variable {b : Nat} {sets : Nat → σ}

theorem mirrors (hO : O.Lawful) (hb : ∀ k, O.blocks (sets k) = b) :
    O.Mirrors b sets (O.set ∘ sets) where
  blocks := hb
  set _ := rfl
  contains? k i hi := by
    rw [hO.contains? (sets k) i (by rw [hb k]; exact hi), Option.some.injEq, Bool.eq_iff_iff,
      decide_eq_true_iff]
    exact hO.mem_set.symm
  pairwise_members k := hO.pairwise_members (sets k)
  mem_members k i := (hO.mem_members (sets k) i).trans hO.mem_set.symm
  same k l := by
    have hkl : O.blocks (sets k) = O.blocks (sets l) := (hb k).trans (hb l).symm
    exact (hO.same _ _ hkl).trans (hO.set_inj hkl).symm

/-- **One command** that keeps to the blocks has an answer, which stands for what it makes of the finite
set. -/
theorem exists_answer? (hO : O.Lawful) (hb : ∀ k, O.blocks (sets k) = b) {c : SetCommand}
    (hc : c.Fits b) :
    ∃ s, O.answer? sets c = some (s, c.flag (O.set ∘ sets)) ∧ O.blocks s = b ∧
      O.set s = c.value (O.set ∘ sets) := by
  cases c with
  | new k size =>
    obtain ⟨hblocks, hbit⟩ := hO.new size
    exact ⟨O.new size, rfl, hblocks.trans hc, hO.set_of_empty hbit⟩
  | fromSlot k size i =>
    obtain ⟨hsize, hi⟩ := hc
    obtain ⟨hblocks, hbit⟩ := hO.new size
    obtain ⟨r, hr, hgrown⟩ := hO.insert? (O.new size) i (by rw [hblocks, hsize]; exact hi)
    obtain ⟨hset, -⟩ := hO.of_grown hgrown (A := {i}) fun j => by simp [eq_comm]
    rw [hO.set_of_empty hbit, Finset.empty_union] at hset
    exact ⟨r.1, by rw [answer?, hr]; rfl, hgrown.blocks.trans (hblocks.trans hsize), hset⟩
  | insert k i =>
    obtain ⟨r, hr, hgrown⟩ := hO.insert? (sets k) i (by rw [hb k]; exact hc)
    obtain ⟨hset, htold⟩ := hO.of_grown hgrown (A := {i}) fun j => by simp [eq_comm]
    exact ⟨r.1, by rw [answer?, hr, Option.map_some, htold]; rfl, hgrown.blocks.trans (hb k), hset⟩
  | clear k =>
    obtain ⟨hblocks, hbit⟩ := hO.clear (sets k)
    exact ⟨O.clear (sets k), rfl, hblocks.trans (hb k), hO.set_of_empty hbit⟩
  | union k l =>
    obtain ⟨r, hr, hgrown⟩ := hO.union? (sets k) (sets l) ((hb k).trans (hb l).symm)
    obtain ⟨hset, htold⟩ := hO.of_grown hgrown fun j => hO.mem_set
    exact ⟨r.1, by rw [answer?, hr, Option.map_some, htold]; rfl, hgrown.blocks.trans (hb k), hset⟩
  | unionWithout k l i =>
    obtain ⟨r, hr, hgrown⟩ := hO.unionWithout? (sets k) (sets l) i ((hb k).trans (hb l).symm)
    have hleft : ∀ j, j ∈ (O.set (sets l)).erase i ↔ (O.bit (sets l) j && decide (i ≠ j)) = true :=
      fun j => by
        rw [Finset.mem_erase, hO.mem_set, Bool.and_eq_true, decide_eq_true_iff, and_comm, ne_comm]
    obtain ⟨hset, htold⟩ := hO.of_grown hgrown hleft
    exact ⟨r.1, by rw [answer?, hr, Option.map_some, htold]; rfl, hgrown.blocks.trans (hb k), hset⟩

/-- **A script** that keeps to the blocks runs, and the sets it leaves are the finite ones. -/
theorem mirrors_run? (hO : O.Lawful) {script : List SetCommand} (hfit : ∀ c ∈ script, c.Fits b)
    (hb : ∀ k, O.blocks (sets k) = b) :
    ∃ sets', O.run? sets script = some (sets', (SetCommand.run (O.set ∘ sets) script).2) ∧
      O.Mirrors b sets' (SetCommand.run (O.set ∘ sets) script).1 := by
  induction script generalizing sets with
  | nil => exact ⟨sets, rfl, hO.mirrors hb⟩
  | cons c script ih =>
    obtain ⟨s, hanswer, hs, hvalue⟩ := hO.exists_answer? hb (hfit c List.mem_cons_self)
    have hb' : ∀ k, O.blocks (Function.update sets c.target s k) = b := fun k => by
      by_cases hk : k = c.target
      · rw [hk, Function.update_self, hs]
      · rw [Function.update_of_ne hk, hb k]
    obtain ⟨sets', hrun, hmirrors⟩ := ih (fun d hd => hfit d (List.mem_cons_of_mem c hd)) hb'
    rw [Function.comp_update, hvalue] at hrun hmirrors
    refine ⟨sets', ?_, hmirrors⟩
    simp only [run?, hanswer, hrun, Option.bind_eq_bind, Option.bind_some]
    rfl

/-- **Two ways to store the same finite sets cannot be told apart**: a script that keeps to the blocks
tells the same on both and leaves sets with the same members. -/
theorem run?_agree (hO : O.Lawful) {τ : Type} {P : SlotStorage τ} (hP : P.Lawful) {others : Nat → τ}
    {script : List SetCommand} (hfit : ∀ c ∈ script, c.Fits b) (hb : ∀ k, O.blocks (sets k) = b)
    (hb' : ∀ k, P.blocks (others k) = b) (hset : O.set ∘ sets = P.set ∘ others) :
    ∃ sets' others' told, O.run? sets script = some (sets', told) ∧
      P.run? others script = some (others', told) ∧
      ∀ k, O.members (sets' k) = P.members (others' k) := by
  obtain ⟨sets', hrun, hmirrors⟩ := hO.mirrors_run? hfit hb
  obtain ⟨others', hrun', hmirrors'⟩ := hP.mirrors_run? hfit hb'
  rw [← hset] at hrun' hmirrors'
  refine ⟨sets', others', _, hrun, hrun', fun k => ?_⟩
  have hl := hmirrors.pairwise_members k
  have hr := hmirrors'.pairwise_members k
  have hmem : ∀ i, i ∈ O.members (sets' k) ↔ i ∈ P.members (others' k) := fun i =>
    (hmirrors.mem_members k i).trans (hmirrors'.mem_members k i).symm
  exact ((List.perm_ext_iff_of_nodup (hl.imp Nat.ne_of_lt) (hr.imp Nat.ne_of_lt)).2 hmem).eq_of_pairwise
    (fun i j _ _ hij hji => absurd hij (Nat.lt_asymm hji)) hl hr

end Lawful

end SlotStorage

/-- **Scripts on stored sets are scripts on finite sets.** If every command of a script keeps to `b`
blocks, then from any store of sets of `b` blocks the script runs; the sets it leaves are those of the
same script on finite sets, and the changes told are the changes of these. -/
theorem scripts_refine {b : Nat} {script : List SetCommand} (hfit : ∀ c ∈ script, c.Fits b) :
    slotSets.Follows b script ∧ blockSets.Follows b script :=
  ⟨fun _ hb => lawful_slotSets.mirrors_run? hfit hb, fun _ hb => lawful_blockSets.mirrors_run? hfit hb⟩

/-- Two sets of 70 slots, filled at the edges of their blocks. -/
def edgeScript : List SetCommand :=
  [.new 0 70, .fromSlot 1 70 63, .insert 0 64, .insert 0 127, .union 0 1, .insert 1 0,
    .unionWithout 0 1 0, .clear 1]

theorem scripts_refine_edgeScript :
    (∀ c ∈ edgeScript, c.Fits 2) ∧ slotSets.Follows 2 edgeScript ∧ blockSets.Follows 2 edgeScript :=
  ⟨by decide, scripts_refine (by decide)⟩

end ShiftReduce
