import Mathlib.Algebra.Order.BigOperators.Group.List
import Mathlib.Algebra.Order.Ring.Nat
import ShiftReduce.Proofs.FollowSets
import ShiftReduce.Proofs.HiddenRecursion
import ShiftReduce.Proofs.Turns
/-!
# Rounds that come to rest

The nullable nonterminals, FIRST and FOLLOW can all be found by the plainest of loops: go over the
rules in order, note whether anything has changed, and begin again if so. These loops end on every
list of rules, because a round that changes something takes in a left-hand side that was missing, or a
slot that was missing from one of the sets. They end with what the library computes in its own order:

* `exists_endsIn_nullable` -- with the nonterminals of `nullable`, after at most one round more than
  there are rules;
* `SetTable.exists_endsIn_saturate` -- with the saturated table, if the inclusions ask the more the
  more a table has;
* `exists_endsIn_firstSets`, `exists_endsIn_followSets` -- so with FIRST and FOLLOW, after at most one
  round more than there are slots in all the sets together.
-/

namespace ShiftReduce

/-! ## 1. Nonterminals that vanish -/

/-- Takes in the left-hand side of a rule of which the right-hand side vanishes, if it is new. -/
def Rule.takeIn (r : Rule) (found : Std.TreeSet Nonterminal) : Std.TreeSet Nonterminal × Bool :=
  if r.isErasedBy found = true ∧ ¬ found.contains r.lhs = true then (found.insert r.lhs, true)
  else (found, false)

section

variable {rules : List Rule} {r : Rule} {found : Std.TreeSet Nonterminal}

/-- All that a rule can do: take in its left-hand side, which is new, or nothing, because it does not
    vanish or the left-hand side is in. -/
theorem Rule.takeIn_cases (r : Rule) (found : Std.TreeSet Nonterminal) :
    (r.isErasedBy found = true ∧ ¬ found.contains r.lhs = true ∧
      r.takeIn found = (found.insert r.lhs, true)) ∨
    ((r.isErasedBy found = true → found.contains r.lhs = true) ∧ r.takeIn found = (found, false)) := by
  unfold Rule.takeIn
  split
  · rename_i h
    exact .inl ⟨h.1, h.2, rfl⟩
  · rename_i h
    exact .inr ⟨fun hr => Classical.byContradiction fun hnew => h ⟨hr, hnew⟩, rfl⟩

theorem contains_takeIn {n : Nonterminal} (h : (r.takeIn found).1.contains n = true) :
    found.contains n = true ∨ (r.isErasedBy found = true ∧ n = r.lhs) := by
  rcases r.takeIn_cases found with ⟨hr, -, heq⟩ | ⟨-, heq⟩
  · rw [heq, Std.TreeSet.contains_insert, Bool.or_eq_true, beq_iff_eq, compare_eq_iff_eq] at h
    exact h.symm.imp id fun e => ⟨hr, e.symm⟩
  · rw [heq] at h
    exact .inl h

/-- Taking in uses up the rules of which the left-hand side has not been taken in. -/
theorem usesRoom_takeIn (hr : r ∈ rules) :
    UsesRoom (fun found => rules.countP fun q => !found.contains q.lhs) r.takeIn where
  less found h := by
    rcases r.takeIn_cases found with ⟨-, hnew, heq⟩ | ⟨-, heq⟩
    · rw [heq]
      refine countP_lt_countP (fun q hq => ?_) hr (by simp [hnew]) (by simp)
      simp only [Std.TreeSet.contains_insert, Bool.not_or, Bool.and_eq_true] at hq
      exact hq.2
    · rw [heq] at h
      cases h
  same found h := by
    rcases r.takeIn_cases found with ⟨-, -, heq⟩ | ⟨-, heq⟩
    · rw [heq] at h
      cases h
    · rw [heq]

/-- A rule that takes in nothing has its left-hand side in or does not vanish. -/
theorem contains_lhs_of_takeIn (h : r.takeIn found = (found, false)) (hr : r.isErasedBy found = true) :
    found.contains r.lhs = true := by
  rcases r.takeIn_cases found with ⟨-, -, heq⟩ | ⟨hin, -⟩
  · rw [heq] at h
    cases (Prod.ext_iff.1 h).2
  · exact hin hr

/-- **Taking in, round after round, ends with the nonterminals of `nullable`.** -/
theorem exists_endsIn_nullable (rules : List Rule) : ∃ k ≤ rules.length + 1, ∃ found,
    EndsIn (whileChanging (sweep Rule.takeIn rules)) k (∅, true) (found, false) ∧
      ∀ n, found.contains n = (nullable rules).contains n := by
  have hsound : ∀ r ∈ rules, ∀ found : Std.TreeSet Nonterminal,
      (∀ n, found.contains n = true → Rewrites rules [.nonterminal n] []) →
        ∀ n, (r.takeIn found).1.contains n = true → Rewrites rules [.nonterminal n] [] := by
    intro r hr found hfound n hn
    rcases contains_takeIn hn with hn | ⟨hvanish, rfl⟩
    · exact hfound n hn
    · exact rewrites_nil_of_isErasedBy hr hfound hvanish
  obtain ⟨k, hk, found, hend, hfound, hrest⟩ :=
    exists_endsIn_sweep (fun r hr => usesRoom_takeIn hr) hsound (s := ∅) fun n hn => by simp at hn
  refine ⟨k, Nat.le_trans hk (Nat.succ_le_succ List.countP_le_length), found, hend, fun n => ?_⟩
  rw [Bool.eq_iff_iff, contains_nullable_iff]
  refine ⟨hfound n, fun hn => ?_⟩
  exact isErasedBy_of_rewrites (fun r hr => contains_lhs_of_takeIn (hrest r hr)) hn _
    (List.mem_singleton_self _)

end

/-! ## 2. Missing slots -/

namespace SlotSet

variable {b : Nat} {s u : SlotSet b}

/-- How many slots of the blocks are no members. -/
def missing (s : SlotSet b) : Nat := (List.range (64 * b)).countP fun i => !s.contains i

theorem missing_le (s : SlotSet b) : s.missing ≤ 64 * b := by
  have hle := List.countP_le_length (p := fun i => !s.contains i) (l := List.range (64 * b))
  rwa [List.length_range] at hle

/-- **A set that grows takes in a slot that was missing.** -/
theorem missing_union_lt (h : s.union u ≠ s) : (s.union u).missing < s.missing := by
  obtain ⟨i, hi⟩ : ∃ i, (s.union u).contains i ≠ s.contains i :=
    not_forall.1 fun hall => h (ext_contains hall)
  obtain ⟨hu, hs⟩ : u.contains i = true ∧ s.contains i = false := by simpa using hi
  refine countP_lt_countP (fun j hj => ?_) (List.mem_range.2 (lt_of_contains hu)) (by simp [hs])
    (by simp [hu])
  rw [contains_union, Bool.not_or, Bool.and_eq_true] at hj
  exact hj.1

end SlotSet

namespace SetTable

variable {t : Slots} {T U : SetTable t} {c : Inclusion t} {cs : List (Inclusion t)}

/-- How many slots are missing from the sets of the keys. -/
def missing (T : SetTable t) : Nat := (T.symbols.map fun x => (T.set x).missing).sum

theorem missing_le (T : SetTable t) : T.missing ≤ T.keys.size * (64 * t.blocks) := by
  have hle := List.sum_le_card_nsmul (T.symbols.map fun x => (T.set x).missing) (64 * t.blocks)
    fun n hn => by
      obtain ⟨x, _, rfl⟩ := List.mem_map.1 hn
      exact SlotSet.missing_le _
  rwa [List.length_map, symbols, Numbering.length_toList, nsmul_eq_mul, Nat.cast_id] at hle

/-- Tables of the same keys that have the same are equal. -/
theorem ext_has (hk : T.keys = U.keys) (h : ∀ x i, T.Has x i ↔ U.Has x i) : T = U := by
  have hget : ∀ (V : SetTable t) (x : Symbol) (i : Nat) (hi : i < V.sets.size),
      V.keys.number? x = some i → V.set x = V.sets[i] := by
    intro V x i hi hx
    rw [set, set?, hx, Option.bind_some, Array.getElem?_eq_getElem hi, Option.getD_some]
  refine ext_sets hk (Array.ext (by rw [T.size_eq, U.size_eq, hk]) fun i hi hi' => ?_)
  have hlt : i < T.keys.members.size := Nat.lt_of_lt_of_eq hi T.size_eq
  have hmember : T.keys.member? i = some T.keys.members[i] := Array.getElem?_eq_getElem hlt
  have hx := Numbering.number?_eq_some_iff.2 hmember
  have hx' : U.keys.number? T.keys.members[i] = some i := by rw [← hk, hx]
  rw [← hget T _ i hi hx, ← hget U _ i hi' hx']
  exact SlotSet.ext_contains fun j => Bool.eq_iff_iff.2 (h _ j)

/-- Enforces an inclusion, and tells whether the set of its target has grown. -/
def enforceTelling (c : Inclusion t) (T : SetTable t) : SetTable t × Bool :=
  (T.enforce c, (T.set? c.target).any fun s => s.union (c.source T) != s)

theorem set_enforce_of_ne {x : Symbol} (h : c.target ≠ x) : (T.enforce c).set x = T.set x := by
  rw [set, enforce, set?_absorb, if_neg h, set]

theorem set_enforce_target (h : c.target ∈ T.keys) :
    (T.enforce c).set c.target = (T.set c.target).union (c.source T) := by
  obtain ⟨s, hs⟩ : ∃ s, T.set? c.target = some s :=
    Option.ne_none_iff_exists'.1 fun hnone => set?_eq_none_iff.1 hnone h
  rw [set, enforce, set?_absorb, if_pos rfl, set, hs]
  rfl

/-- An inclusion grows the set of its target, a key, or it holds already. -/
theorem enforceTelling_snd_iff : (enforceTelling c T).2 = true ↔
    c.target ∈ T.keys ∧ (T.set c.target).union (c.source T) ≠ T.set c.target := by
  unfold enforceTelling set
  cases hs : T.set? c.target with
  | none => simp [set?_eq_none_iff.1 hs]
  | some s =>
    have hk : c.target ∈ T.keys := Classical.byContradiction fun hk => by
      rw [set?_eq_none_iff.2 hk] at hs
      cases hs
    simp [hk]

/-- **Enforcing uses up missing slots.** -/
theorem usesRoom_enforceTelling (c : Inclusion t) : UsesRoom missing (enforceTelling c) where
  less T h := by
    obtain ⟨hk, hgrown⟩ := enforceTelling_snd_iff.1 h
    have hlt : ((T.enforce c).set c.target).missing < (T.set c.target).missing := by
      rw [set_enforce_target hk]
      exact SlotSet.missing_union_lt hgrown
    show ((T.enforce c).symbols.map _).sum < _
    rw [symbols, enforce, keys_absorb]
    refine List.sum_lt_sum _ _ (fun x _ => ?_) ⟨c.target, hk, hlt⟩
    by_cases hx : c.target = x
    · subst hx
      exact Nat.le_of_lt hlt
    · exact Nat.le_of_eq (congrArg SlotSet.missing (set_enforce_of_ne hx))
  same T h := by
    have hsame : c.target ∈ T.keys → (T.set c.target).union (c.source T) = T.set c.target := by
      intro hk
      refine Classical.byContradiction fun hgrown => ?_
      rw [enforceTelling_snd_iff.2 ⟨hk, hgrown⟩] at h
      cases h
    refine ext_has (keys_absorb _ _ _) fun x i => ⟨fun hx => ?_, has_enforce_of_has⟩
    rcases has_absorb.1 hx with hx | ⟨rfl, hk, hi⟩
    · exact hx
    · rw [Has, ← hsame hk, SlotSet.contains_union, hi, Bool.or_true]

/-! ## 3. Saturation by plain rounds -/

/-- The more a table has, the more the inclusion asks of it. -/
def Inclusion.IsMonotone (c : Inclusion t) : Prop :=
  ∀ T U : SetTable t, Within U.Has T → ∀ i, (c.source T).contains i = true →
    (c.source U).contains i = true

/-- A table in which monotone inclusions hold has all that they lead to from what it has. -/
theorem within_saturate (hmono : ∀ c ∈ cs, c.IsMonotone) (htarget : ∀ c ∈ cs, c.target ∈ U.keys)
    (hholds : ∀ c ∈ cs, U.Holds c) (hT : Within U.Has T) : Within U.Has (saturate cs T) :=
  saturate_least (fun c hc V hV i hi =>
    hholds c hc (htarget c hc) i (hmono c hc V U hV i hi)) hT

/-- Of the same keys, `V` has what `T` has and `U` has what `V` has. -/
structure Between (T U V : SetTable t) : Prop where
  keys : V.keys = T.keys
  above : Within V.Has T
  below : Within U.Has V

/-- Enforcing a monotone inclusion does not lead out of a table in which it holds. -/
theorem Between.enforce {V : SetTable t} (h : Between T U V) (hmono : c.IsMonotone)
    (hholds : U.Holds c) (htarget : c.target ∈ U.keys) : Between T U (V.enforce c) where
  keys := (keys_absorb _ _ _).trans h.keys
  above x i hx := has_enforce_of_has (h.above x i hx)
  below x i hx := by
    rcases has_absorb.1 hx with hx | ⟨rfl, _, hi⟩
    · exact h.below x i hx
    · exact hholds htarget i (hmono V U h.below i hi)

/-- **Rounds over monotone inclusions come to rest with the saturated table**, whatever the order in
    which that was found. -/
theorem exists_endsIn_saturate (hmono : ∀ c ∈ cs, c.IsMonotone)
    (htarget : ∀ c ∈ cs, c.target ∈ T.keys) : ∃ k ≤ T.keys.size * (64 * t.blocks) + 1,
      EndsIn (whileChanging (sweep enforceTelling cs)) k (T, true)
        (saturate (cs ++ cs.reverse) T, false) := by
  have hkeys : (saturate (cs ++ cs.reverse) T).keys = T.keys := keys_saturate _ T
  have hkeep : ∀ c ∈ cs, ∀ V, Between T (saturate (cs ++ cs.reverse) T) V →
      Between T (saturate (cs ++ cs.reverse) T) (enforceTelling c V).1 := fun c hc V hV =>
    hV.enforce (hmono c hc) (holds_saturate T c (mem_forth_and_back.2 hc))
      (hkeys.symm ▸ htarget c hc)
  obtain ⟨k, hk, V, hend, hV, hrest⟩ :=
    exists_endsIn_sweep (fun c _ => usesRoom_enforceTelling c) hkeep
      ⟨rfl, fun _ _ hx => hx, fun _ _ => has_saturate⟩
  -- at rest all inclusions hold, so the saturated table has no more
  have hle : Within V.Has (saturate (cs ++ cs.reverse) T) :=
    within_saturate (fun c hc => hmono c (mem_forth_and_back.1 hc))
      (fun c hc => hV.keys.symm ▸ htarget c (mem_forth_and_back.1 hc))
      (fun c hc => holds_of_enforce (congrArg Prod.fst (hrest c (mem_forth_and_back.1 hc)))) hV.above
  have heq : V = saturate (cs ++ cs.reverse) T :=
    ext_has (hV.keys.trans hkeys.symm) fun x i => ⟨hV.below x i, hle x i⟩
  exact ⟨k, Nat.le_trans hk (Nat.succ_le_succ T.missing_le), heq ▸ hend⟩

end SetTable

/-! ## 4. FIRST and FOLLOW -/

section

open SetTable

variable {t : Slots} {T U : SetTable t}

/-- The more a table has, the more it has for a string. -/
theorem contains_firstOf_mono (h : Within U.Has T) {xs : List Symbol} {i : Nat}
    (hi : (T.firstOf xs).contains i = true) : (U.firstOf xs).contains i = true := by
  induction xs with
  | nil => exact hi
  | cons x xs ih =>
    refine contains_firstOf_cons.2 ?_
    rcases contains_firstOf_cons.1 hi with ⟨h0, hx⟩ | ⟨h0, hrest⟩
    · exact .inl ⟨h0, h x i hx⟩
    · exact .inr ⟨h x 0 h0, ih hrest⟩

theorem isMonotone_followInclusion (lhs n : Nonterminal) (rest : SlotSet t.blocks) :
    (followInclusion lhs n rest).IsMonotone := by
  intro T U h i hi
  obtain ⟨h0, hi⟩ := contains_source_followInclusion.1 hi
  exact contains_source_followInclusion.2 ⟨h0, hi.imp_right fun hlhs => ⟨hlhs.1, h _ i hlhs.2⟩⟩

/-- **FIRST ends**, on every list of rules. -/
theorem exists_endsIn_firstSets (rules : List Rule) (t : Slots) :
    ∃ k ≤ (firstKeys rules t).size * (64 * t.blocks) + 1,
      EndsIn (whileChanging (sweep enforceTelling (rules.map (Rule.firstInclusion t)))) k
        (firstBase rules t, true) (firstSets rules t, false) := by
  refine exists_endsIn_saturate (T := firstBase rules t) (fun c hc => ?_) fun c hc => ?_
  · obtain ⟨r, _, rfl⟩ := List.mem_map.1 hc
    exact fun T U h i hi => contains_firstOf_mono h hi
  · obtain ⟨r, hr, rfl⟩ := List.mem_map.1 hc
    have hkey := mem_keys_firstSets (t := t) (mem_nonterminalsOf.2 ⟨r, hr, .inl rfl⟩)
    rwa [firstSets, keys_saturate] at hkey

/-- **FOLLOW ends**, on every list of rules and with every table that tells it how strings begin. -/
theorem exists_endsIn_followSets (rules : List Rule) (start : Nonterminal) (first : SetTable t) :
    ∃ k ≤ (followKeys rules start).size * (64 * t.blocks) + 1,
      EndsIn (whileChanging (sweep enforceTelling (rules.flatMap (Rule.followInclusions first)))) k
        (followBase rules start t, true) (followSets rules start first, false) := by
  refine exists_endsIn_saturate (T := followBase rules start t) (fun c hc => ?_) fun c hc => ?_
  · obtain ⟨r, _, hc⟩ := List.mem_flatMap.1 hc
    obtain ⟨n, τ, _, rfl⟩ := Rule.mem_followInclusions.1 hc
    exact isMonotone_followInclusion _ _ _
  · obtain ⟨r, hr, hc⟩ := List.mem_flatMap.1 hc
    obtain ⟨n, τ, hocc, rfl⟩ := Rule.mem_followInclusions.1 hc
    obtain ⟨η, hn⟩ := mem_occurrences.1 hocc
    have hmem : n ∈ nonterminalsOf rules :=
      mem_nonterminalsOf.2 ⟨r, hr, .inr (hn ▸ List.mem_append_right η List.mem_cons_self)⟩
    have hkey : .nonterminal n ∈ (followSets rules start first).keys :=
      mem_keys_followSets.2 ⟨n, rfl, .inl hmem⟩
    rwa [followSets, keys_saturate] at hkey

end

end ShiftReduce
