import ShiftReduce.Proofs.FirstSets
import ShiftReduce.Proofs.Tails
/-!
# FIRST of the rewritten rules

FIRST is read off rules whose immediate left recursion was eliminated. For the strings of the
grammar itself this makes no difference (`Elimination.IsOf.mem_firstSymbols_first`): the table is
closed under the rules of the grammar (`Elimination.IsOf.closed_first`) and has nothing too much for
its symbols (`Elimination.IsOf.soundFor_first`), although the rewritten rules have further
nonterminals, the tails.
-/

namespace ShiftReduce

open SetTable

variable {g : Grammar} {e : Elimination}

/-! ## 1. Nothing is missing -/

namespace Elimination.IsOf

/-- A left-hand side of a rewritten rule has the set of the right-hand side. -/
theorem has_of_rewritten (h : e.IsOf g) {q : Rule} (hq : g.Rewritten q) {i : Nat}
    (hi : (e.first.firstOf q.rhs).contains i = true) : e.first.Has (.nonterminal q.lhs) i :=
  closed_firstSets e.rules e.slots q (h.mem_rules_iff.2 hq) i hi

/-- A tail can vanish. -/
theorem has_tail_zero (h : e.IsOf g) {n tail : Nonterminal} (ht : g.tails.lookup n = some tail) :
    e.first.Has (.nonterminal tail) 0 := by
  obtain ⟨r, hl, _⟩ := Grammar.exists_loop ht
  exact h.has_of_rewritten (.stop hl) (contains_firstOf_nil.2 rfl)

/-- A tail begins as what follows the left recursion. -/
theorem has_tail (h : e.IsOf g) {r : Rule} {tail : Nonterminal} (hl : g.IsLoop r tail) {i : Nat}
    (hi : (e.first.firstOf r.rhs.tail).contains i = true) :
    e.first.Has (.nonterminal tail) i := by
  by_cases h0 : i = 0
  · rw [h0]
    exact h.has_tail_zero hl.lookup_eq
  · exact h.has_of_rewritten (.loop hl) (contains_firstOf_append.2 (.inl ⟨h0, hi⟩))

/-- A rewritten nonterminal that can vanish has a right-hand side without left recursion that can
    vanish. -/
theorem exists_vanishing (h : e.IsOf g) {n tail : Nonterminal}
    (ht : g.tails.lookup n = some tail) (h0 : e.first.Has (.nonterminal n) 0) :
    ∃ s ∈ g.rules.toList, s.lhs = n ∧ ¬ s.isSelfRecursive = true ∧
      (e.first.firstOf s.rhs).contains 0 = true := by
  obtain ⟨m, hm, ho⟩ := soundFor_firstSets e.rules e.slots (.nonterminal n) 0 h0
  cases hm
  rcases ho.vanishes.head with hc | ⟨q, hq, rfl, hv⟩
  · cases hc
  · obtain ⟨s, hs, hn, hself, hrhs⟩ := (h.mem_rules_iff.1 hq).exists_of_tail ht
    rw [hrhs] at hv
    exact ⟨s, hs, hn, hself, firstOf_of_rewrites (closed_firstSets e.rules e.slots)
      hv.of_append_nil.1 (contains_firstOf_nil.2 rfl)⟩

/-- **The table is closed under the rules of the grammar itself.** -/
theorem closed_first (h : e.IsOf g) : e.first.Closed g.rules.toList := by
  intro r hr i hi
  cases ht : g.tails.lookup r.lhs with
  | none => exact h.has_of_rewritten (.keep hr ht) hi
  | some tail =>
    by_cases hs : r.isSelfRecursive = true
    · have hl : g.IsLoop r tail := ⟨hr, ht, hs⟩
      rw [hl.rhs_eq] at hi
      rcases contains_firstOf_cons.1 hi with ⟨_, hi⟩ | ⟨h0, hi⟩
      · exact hi
      · obtain ⟨s, hsr, hn, hself, hv⟩ := h.exists_vanishing ht h0
        rw [← hn] at ht ⊢
        exact h.has_of_rewritten (.extend hsr ht hself) (contains_firstOf_append.2
          (.inr ⟨hv, contains_firstOf_singleton.2 (h.has_tail hl hi)⟩))
    · refine h.has_of_rewritten (.extend hr ht hs) ?_
      by_cases h0 : i = 0
      · subst h0
        exact contains_firstOf_append.2
          (.inr ⟨hi, contains_firstOf_singleton.2 (h.has_tail_zero ht)⟩)
      · exact contains_firstOf_append.2 (.inl ⟨h0, hi⟩)

end Elimination.IsOf

/-! ## 2. Nothing is too much -/

/-- What a slot in the set of a symbol tells about the grammar: an old symbol can begin with the
    symbol of the slot, and what precedes a tail on the right of its own left recursion can. -/
structure Accounted (g : Grammar) (t : Slots) (x : Symbol) (i : Nat) : Prop where
  old : g.IsOld x → ∃ m, t.symbol? i = some m ∧ Opens g.rules.toList [x] m
  tail : ∀ r ∈ g.rules.toList, r.isSelfRecursive = true → ∀ tail,
    g.tails.lookup r.lhs = some tail → x = .nonterminal tail →
      i = 0 ∨ ∃ m, t.symbol? i = some m ∧ Opens g.rules.toList r.rhs.tail m

theorem accounted_self {t : Slots} {x : Symbol} {i : Nat} (hi : t.symbol? i = some x)
    (hx : x ≠ .epsilon) : Accounted g t x i where
  old _ := ⟨x, hi, .self hx⟩
  tail r _ _ tail _ htail := by
    subst htail
    have hs := Slots.slot?_eq_some_iff.2 hi
    cases hs

namespace Elimination.IsOf

variable {T : SetTable e.slots} {i : Nat} {r : Rule} {tail : Nonterminal}

/-- An old nonterminal is accounted for by what it can begin with. -/
theorem accounted_lhs (hr : r ∈ g.rules.toList)
    (h : ∃ m, e.slots.symbol? i = some m ∧ Opens g.rules.toList [.nonterminal r.lhs] m) :
    Accounted g e.slots (.nonterminal r.lhs) i where
  old _ := h
  tail s _ _ tail ht htail := by
    refine absurd (Grammar.isOld_lhs hr) ?_
    rw [htail]
    exact Grammar.not_isOld_tail ht

/-- A tail is accounted for by what its self-recursive rule says, the only one it has. -/
theorem accounted_tail (h : e.IsOf g) (hl : g.IsLoop r tail)
    (hi : i = 0 ∨ ∃ m, e.slots.symbol? i = some m ∧ Opens g.rules.toList r.rhs.tail m) :
    Accounted g e.slots (.nonterminal tail) i where
  old hold := absurd hold (Grammar.not_isOld_tail hl.lookup_eq)
  tail s hs hself tail' ht' hn := by
    cases hn
    rwa [h.loop_unique ⟨hs, ht', hself⟩ hl]

theorem soundFor_of_within (hT : Within (Accounted g e.slots) T) {xs : List Symbol}
    (hx : ∀ x ∈ xs, g.IsOld x) : ∀ x ∈ xs, T.SoundFor g.rules.toList x :=
  fun x hm i hi => (hT x i hi).old (hx x hm)

/-- The right-hand side of a rule of the grammar keeps the account. -/
theorem opens_lhs (hT : Within (Accounted g e.slots) T) (hr : r ∈ g.rules.toList)
    (hi : (T.firstOf r.rhs).contains i = true) :
    ∃ m, e.slots.symbol? i = some m ∧ Opens g.rules.toList [.nonterminal r.lhs] m := by
  obtain ⟨m, hm, ho⟩ :=
    opens_of_firstOf (soundFor_of_within hT fun x hx => Grammar.isOld_of_mem_rhs hr hx) hi
  exact ⟨m, hm, .of_rewrites (.of_mem hr) ho⟩

/-- What a tail begins with, a left-hand side that can vanish begins with too: the tail stands for
    the left recursion taken once more. -/
theorem opens_lhs_of_tail (hT : Within (Accounted g e.slots) T) (hl : g.IsLoop r tail)
    (hv : Rewrites g.rules.toList [.nonterminal r.lhs] []) (hi : T.Has (.nonterminal tail) i) :
    ∃ m, e.slots.symbol? i = some m ∧ Opens g.rules.toList [.nonterminal r.lhs] m := by
  rcases (hT _ i hi).tail r hl.mem hl.self tail hl.lookup_eq rfl with rfl | ⟨m, hm, ho⟩
  · exact ⟨.epsilon, rfl, .vanish hv⟩
  · have hstep := Rewrites.of_mem hl.mem
    rw [hl.rhs_eq] at hstep
    exact ⟨m, hm, .of_rewrites hstep (.append_right hv ho)⟩

/-- **A rewritten rule keeps the account.** -/
theorem accounted_of_rewritten (h : e.IsOf g) (hT : Within (Accounted g e.slots) T) {q : Rule}
    (hq : g.Rewritten q) (hi : (T.firstOf q.rhs).contains i = true) :
    Accounted g e.slots (.nonterminal q.lhs) i := by
  cases hq with
  | keep hr _ => exact accounted_lhs hr (opens_lhs hT hr hi)
  | @extend r tail hr ht hs =>
    refine accounted_lhs (r := r) hr ?_
    rcases contains_firstOf_append.1 hi with ⟨_, hi⟩ | ⟨hv, hi⟩
    · exact opens_lhs (r := r) hT hr hi
    · obtain ⟨s, hl, hn⟩ := Grammar.exists_loop ht
      obtain ⟨_, hm, ho⟩ := opens_lhs hT hr hv
      cases hm
      rw [← hn] at ho ⊢
      exact opens_lhs_of_tail hT hl ho.vanishes (contains_firstOf_singleton.1 hi)
  | @loop r tail hl =>
    refine h.accounted_tail hl ?_
    rcases contains_firstOf_append.1 hi with ⟨_, hi⟩ | ⟨_, hi⟩
    · exact .inr (opens_of_firstOf (soundFor_of_within hT fun x hx => hl.isOld_of_mem hx) hi)
    · exact (hT _ i (contains_firstOf_singleton.1 hi)).tail r hl.mem hl.self tail hl.lookup_eq rfl
  | stop hl => exact h.accounted_tail hl (.inl (contains_firstOf_nil.1 hi))

/-- All that the table has is accounted for. -/
theorem within_accounted (h : e.IsOf g) : Within (Accounted g e.slots) e.first :=
  firstSets_least (fun _ _ hi hx => accounted_self hi hx) fun _ hq _ hT _ hi =>
    h.accounted_of_rewritten hT (h.mem_rules_iff.1 hq) hi

/-- **The table has nothing too much for the symbols of the grammar.** -/
theorem soundFor_first (h : e.IsOf g) {x : Symbol} (hx : g.IsOld x) :
    e.first.SoundFor g.rules.toList x :=
  fun i hi => (h.within_accounted x i hi).old hx

/-- **A tail can vanish, and else it begins as what follows the left recursion.** -/
theorem has_tail_iff (h : e.IsOf g) (hl : g.IsLoop r tail) : e.first.Has (.nonterminal tail) i ↔
    i = 0 ∨ (e.first.firstOf r.rhs.tail).contains i = true := by
  constructor
  · intro hi
    refine ((h.within_accounted _ i hi).tail r hl.mem hl.self tail hl.lookup_eq rfl).imp_right ?_
    exact (contains_firstOf_iff h.closed_first (fun _ _ hs hm => has_firstSets_self hs hm)
      fun _ hx => h.soundFor_first (hl.isOld_of_mem hx)).2
  · rintro (rfl | hi)
    · exact h.has_tail_zero hl.lookup_eq
    · exact h.has_tail hl hi

/-- **Elimination leaves FIRST as it is**: read off the rewritten rules, the set of a string of the
    grammar is exact for the grammar. -/
theorem mem_firstSymbols_first (h : e.IsOf g) {α : List Symbol} (hα : ∀ x ∈ α, g.IsOld x)
    {m : Symbol} : m ∈ e.first.firstSymbols α ↔
      (∃ i, e.slots.slot? m = some i) ∧ Opens g.rules.toList α m :=
  mem_firstSymbols_iff h.closed_first (fun _ _ hs hm => has_firstSets_self hs hm)
    fun x hx => h.soundFor_first (hα x hx)

end Elimination.IsOf

end ShiftReduce
