import ShiftReduce.Numbering
/-!
# Directories

A directory is a list of entries, each a key with a value, of which the first entry of a key
counts. A search tree beside the list finds it (`find?_ofList`), and `firsts` lists the entries
that count.
-/

namespace ShiftReduce

/-- What is found in a list of entries is one of them. -/
theorem mem_of_lookup {α β : Type} [DecidableEq α] {l : List (α × β)} {k : α} {v : β}
    (h : l.lookup k = some v) : (k, v) ∈ l := by
  obtain ⟨l₁, l₂, rfl, _⟩ := List.lookup_eq_some_iff.1 h
  exact List.mem_append_right l₁ List.mem_cons_self

/-- The key of an entry is found. -/
theorem exists_lookup_of_mem {α β : Type} [DecidableEq α] {l : List (α × β)} {k : α} {v : β}
    (h : (k, v) ∈ l) : ∃ u, l.lookup k = some u := by
  cases hl : l.lookup k with
  | some u => exact ⟨u, rfl⟩
  | none =>
    have hne := List.lookup_eq_none_iff.1 hl (k, v) h
    simp at hne

/-- Keys with values, in order; the first value of a key counts. -/
structure Directory (α β : Type) [Ord α] [DecidableEq α] where
  entries : List (α × β)
  index : Std.TreeMap α β
  index_eq : ∀ k : α, index[k]? = entries.lookup k

namespace Directory

variable {α β : Type} [Ord α] [DecidableEq α]

/-- The first value of a key. -/
def find? (d : Directory α β) (k : α) : Option β := d.index[k]?

theorem find?_eq (d : Directory α β) (k : α) : d.find? k = d.entries.lookup k :=
  d.index_eq k

variable [Std.TransOrd α] [Std.LawfulEqOrd α]

theorem getElem?_foldr_insert (l : List (α × β)) (k : α) :
    (l.foldr (fun p m => m.insert p.1 p.2) (∅ : Std.TreeMap α β))[k]? = l.lookup k := by
  induction l with
  | nil => simp
  | cons p l ih =>
    rw [List.foldr_cons, Std.TreeMap.getElem?_insert, ih, List.lookup_cons]
    by_cases h : p.1 = k
    · simp [h]
    · have hk : (k == p.1) = false := beq_eq_false_iff_ne.2 (Ne.symm h)
      rw [if_neg fun e => h (Std.LawfulEqOrd.eq_of_compare e), hk]

/-- The directory of a list of entries. -/
def ofList (l : List (α × β)) : Directory α β :=
  ⟨l, l.foldr (fun p m => m.insert p.1 p.2) ∅, getElem?_foldr_insert l⟩

/-- **The first entry of a key is found.** -/
theorem find?_ofList (l : List (α × β)) (k : α) : (ofList l).find? k = l.lookup k :=
  getElem?_foldr_insert l k

/-- Every key once, in order of first appearance, with its first value. -/
def firsts (d : Directory α β) : List (α × β) :=
  (Numbering.ofList (d.entries.map Prod.fst)).toList.filterMap fun k =>
    (d.find? k).map fun v => (k, v)

theorem lookup_filterMap (f : α → Option β) (ks : List α) (k : α) :
    (ks.filterMap fun k => (f k).map fun v => (k, v)).lookup k = if k ∈ ks then f k else none := by
  induction ks with
  | nil => rfl
  | cons j ks ih =>
    by_cases h : k = j
    · subst h
      cases hf : f k with
      | none => simp [hf, ih]
      | some v => simp [hf]
    · have hk : (k == j) = false := beq_eq_false_iff_ne.2 h
      cases hf : f j with
      | none => simp [hf, ih, h]
      | some v => simp [hf, ih, h, hk, List.lookup_cons]

/-- The entries that count are those that are found. -/
theorem lookup_firsts (d : Directory α β) (k : α) : d.firsts.lookup k = d.find? k := by
  rw [firsts, lookup_filterMap]
  split
  · rfl
  · rename_i h
    refine (d.find?_eq k).symm ▸ (List.lookup_eq_none_iff.2 fun p hp => ?_).symm
    have hk : k ≠ p.1 := fun e => h (Numbering.mem_ofList.2 (List.mem_map.2 ⟨p, hp, e.symm⟩))
    simpa using hk

end Directory

end ShiftReduce
