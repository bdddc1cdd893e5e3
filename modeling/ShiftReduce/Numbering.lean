import Std.Data.TreeMap.Lemmas
/-!
# Numberings

A numbering counts things from 0 in the order in which they were first met. The things stand in an
array, so the thing of a number is at hand, and a search tree leads back from a thing to its
number; the two are inverse to each other (`number?_eq_some_iff`). A list is numbered by its first
appearances (`toList_ofList`).
-/

namespace ShiftReduce

/-- Things numbered from 0, each once. -/
structure Numbering (α : Type) [Ord α] where
  members : Array α
  numbers : Std.TreeMap α Nat
  numbers_iff : ∀ (x : α) (i : Nat), numbers[x]? = some i ↔ members[i]? = some x

namespace Numbering

variable {α : Type} [Ord α]

/-! ## 1. Looking up -/

def size (n : Numbering α) : Nat := n.members.size

/-- The things in the order of their numbers. -/
def toList (n : Numbering α) : List α := n.members.toList

/-- The thing of a number. -/
def member? (n : Numbering α) (i : Nat) : Option α := n.members[i]?

/-- The number of a thing. -/
def number? (n : Numbering α) (x : α) : Option Nat := n.numbers[x]?

instance : Membership α (Numbering α) where
  mem n x := x ∈ n.toList

/-- **Number and thing are inverse to each other.** -/
theorem number?_eq_some_iff {n : Numbering α} {x : α} {i : Nat} :
    n.number? x = some i ↔ n.member? i = some x :=
  n.numbers_iff x i

theorem mem_def {n : Numbering α} {x : α} : x ∈ n ↔ x ∈ n.toList := Iff.rfl

theorem getElem?_toList {n : Numbering α} {i : Nat} : n.toList[i]? = n.member? i := by
  simp [toList, member?]

@[simp] theorem length_toList (n : Numbering α) : n.toList.length = n.size := by
  simp [toList, size]

theorem mem_iff_member? {n : Numbering α} {x : α} : x ∈ n ↔ ∃ i, n.member? i = some x := by
  simp [mem_def, List.mem_iff_getElem?, getElem?_toList]

theorem mem_iff_number? {n : Numbering α} {x : α} : x ∈ n ↔ ∃ i, n.number? x = some i := by
  simp [mem_iff_member?, number?_eq_some_iff]

theorem number?_eq_none_iff {n : Numbering α} {x : α} : n.number? x = none ↔ ¬ x ∈ n := by
  rw [mem_iff_number?, Option.eq_none_iff_forall_ne_some]
  exact ⟨fun h ⟨i, hi⟩ => h i hi, fun h i hi => h ⟨i, hi⟩⟩

def contains (n : Numbering α) (x : α) : Bool := (n.number? x).isSome

@[simp] theorem contains_iff_mem {n : Numbering α} {x : α} : n.contains x = true ↔ x ∈ n := by
  rw [contains, Option.isSome_iff_exists, mem_iff_number?]

instance (x : α) (n : Numbering α) : Decidable (x ∈ n) :=
  decidable_of_iff (n.contains x = true) contains_iff_mem

theorem lt_size_of_number? {n : Numbering α} {x : α} {i : Nat} (h : n.number? x = some i) :
    i < n.size :=
  (Array.getElem?_eq_some_iff.1 (number?_eq_some_iff.1 h)).1

/-- Nothing has two numbers. -/
theorem nodup_toList (n : Numbering α) : n.toList.Nodup := by
  have hn : ∀ (i : Nat) (h : i < n.toList.length), n.number? n.toList[i] = some i := fun i h =>
    number?_eq_some_iff.2 (getElem?_toList.symm.trans (List.getElem?_eq_getElem h))
  refine List.pairwise_iff_getElem.2 fun i j hi hj hlt he => ?_
  exact absurd (Option.some.inj ((hn i hi).symm.trans (he ▸ hn j hj))) (Nat.ne_of_lt hlt)

/-! ## 2. Numbering more -/

variable [Std.TransOrd α]

instance : EmptyCollection (Numbering α) := ⟨⟨#[], ∅, by simp⟩⟩

@[simp] theorem toList_empty : (∅ : Numbering α).toList = [] := rfl

variable [Std.LawfulEqOrd α]

/-- What a new thing does to numbers and things. -/
theorem numbers_iff_push {members : Array α} {numbers : Std.TreeMap α Nat}
    (h : ∀ (x : α) (i : Nat), numbers[x]? = some i ↔ members[i]? = some x) {y : α} (hy : numbers[y]? = none)
    (x : α) (i : Nat) :
    (numbers.insert y members.size)[x]? = some i ↔ (members.push y)[i]? = some x := by
  rw [Std.TreeMap.getElem?_insert, Array.getElem?_push]
  by_cases hx : y = x
  · subst hx
    rw [if_pos Std.ReflCmp.compare_self]
    by_cases hi : i = members.size
    · simp [hi]
    · rw [if_neg hi, ← h, hy]
      simp [Ne.symm hi]
  · rw [if_neg fun e => hx (Std.LawfulEqOrd.eq_of_compare e), h]
    by_cases hi : i = members.size
    · simp [hi, hx]
    · rw [if_neg hi]

/-- Gives a thing the next number if it has none, and tells its number. -/
def insert (n : Numbering α) (x : α) : Numbering α × Nat :=
  let next := n.members.size
  match hx : n.numbers[x]? with
  | some i => (n, i)
  | none => (⟨n.members.push x, n.numbers.insert x next, numbers_iff_push n.numbers_iff hx⟩, next)

theorem insert_of_number? {n : Numbering α} {x : α} {i : Nat} (h : n.number? x = some i) :
    n.insert x = (n, i) := by
  unfold insert
  simp only [number?] at h
  split
  · rename_i j hj
    rw [h] at hj
    cases hj
    rfl
  · rename_i hj
    rw [h] at hj
    cases hj

theorem members_insert_of_number? {n : Numbering α} {x : α} (h : n.number? x = none) :
    (n.insert x).1.members = n.members.push x ∧ (n.insert x).2 = n.size := by
  unfold insert
  simp only [number?] at h
  split
  · rename_i j hj
    rw [h] at hj
    cases hj
  · exact ⟨rfl, rfl⟩

/-- The number told is the number of the thing. -/
theorem member?_insert (n : Numbering α) (x : α) :
    (n.insert x).1.member? (n.insert x).2 = some x := by
  cases h : n.number? x with
  | some i => rw [insert_of_number? h]; exact number?_eq_some_iff.1 h
  | none =>
    obtain ⟨hm, hi⟩ := members_insert_of_number? h
    rw [member?, hm, hi]
    simp [size]

/-- The numbers given out before stay as they are. -/
theorem member?_insert_of_lt {n : Numbering α} {x : α} {i : Nat} (h : i < n.size) :
    (n.insert x).1.member? i = n.member? i := by
  cases hx : n.number? x with
  | some j => rw [insert_of_number? hx]
  | none =>
    rw [member?, (members_insert_of_number? hx).1, Array.getElem?_push]
    exact if_neg (Nat.ne_of_lt h)

/-- A new thing stands at the end. -/
theorem toList_insert [DecidableEq α] (n : Numbering α) (x : α) :
    (n.insert x).1.toList = if x ∈ n.toList then n.toList else n.toList ++ [x] := by
  cases h : n.number? x with
  | some i => rw [insert_of_number? h, if_pos (mem_def.1 (mem_iff_number?.2 ⟨i, h⟩))]
  | none =>
    rw [if_neg fun hm => number?_eq_none_iff.1 h (mem_def.2 hm), toList,
      (members_insert_of_number? h).1]
    simp [toList]

/-! ## 3. Numbering a list -/

/-- Numbers the things of a list by first appearance. -/
def ofList (l : List α) : Numbering α :=
  l.foldl (fun n x => (n.insert x).1) ∅

theorem toList_foldl_insert [DecidableEq α] (l : List α) (n : Numbering α) :
    (l.foldl (fun n x => (n.insert x).1) n).toList =
      List.eraseDupsBy.loop (· == ·) l n.toList.reverse := by
  induction l generalizing n with
  | nil => simp [List.eraseDupsBy.loop]
  | cons x xs ih =>
    have ha : n.toList.reverse.any (fun y => x == y) = decide (x ∈ n.toList) := by
      simp [List.any_beq]
    rw [List.foldl_cons, ih, toList_insert, List.eraseDupsBy.loop, ha]
    by_cases h : x ∈ n.toList
    · simp [h]
    · simp [h]

/-- **The numbers of a list follow its first appearances.** -/
theorem toList_ofList [DecidableEq α] (l : List α) : (ofList l).toList = l.eraseDups := by
  rw [ofList, toList_foldl_insert]
  rfl

/-- Numbering more is numbering what is new among it, in order. -/
theorem foldl_insert_eq [DecidableEq α] (l : List α) (n : Numbering α) :
    ∃ new, l.foldl (fun n x => (n.insert x).1) n = new.foldl (fun n x => (n.insert x).1) n ∧
      (l.foldl (fun n x => (n.insert x).1) n).toList = n.toList ++ new := by
  induction l generalizing n with
  | nil => exact ⟨[], rfl, (List.append_nil _).symm⟩
  | cons x xs ih =>
    obtain ⟨new, hfold, hlist⟩ := ih (n.insert x).1
    cases h : n.number? x with
    | some i =>
      have hn : (n.insert x).1 = n := by rw [insert_of_number? h]
      rw [hn] at hfold hlist
      rw [List.foldl_cons, hn]
      exact ⟨new, hfold, hlist⟩
    | none =>
      refine ⟨x :: new, hfold, ?_⟩
      rw [List.foldl_cons, hlist, toList_insert,
        if_neg fun hx => number?_eq_none_iff.1 h (mem_def.2 hx), List.append_assoc]
      rfl

/-- **The things of a numbered list, numbered again, are numbered as they were.** -/
theorem ofList_toList_ofList [DecidableEq α] (l : List α) : ofList (ofList l).toList = ofList l := by
  obtain ⟨new, hfold, hlist⟩ := foldl_insert_eq l ∅
  rw [toList_empty, List.nil_append] at hlist
  rw [ofList, ofList, hlist, hfold]

@[simp] theorem mem_ofList [DecidableEq α] {l : List α} {x : α} : x ∈ ofList l ↔ x ∈ l := by
  rw [mem_def, toList_ofList, List.mem_eraseDups]

end Numbering

end ShiftReduce
