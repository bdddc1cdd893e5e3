import ShiftReduce.Proofs.TableLookaheads
/-!
# FOLLOW of the rewritten rules

FOLLOW over the rewritten rules may miss what FOLLOW over the rules of the grammar has, and what it
misses is known: with the left recursion `A -> A α` the first symbols of `α` stand behind an `A` of
the grammar, while in the rewritten rules they stand behind the other right-hand sides of `A`.

* `IsOf.within_follow` -- nothing else is missing, if every nonterminal with a left recursion has
  another right-hand side as well; without one, what follows it is not handed on to its tail;
* `IsOf.within_follow_rewritten` -- nothing is too much;
* `TableBuild.follow_iff_rewritten` -- so the FOLLOW sets of the tables are those of the rewritten
  rules with what the left recursions add.
-/

namespace ShiftReduce

open SetTable

variable {g : Grammar} {e : Elimination} {r q : Rule} {n tail start : Nonterminal}
  {η τ : List Symbol} {i : Nat}

namespace Elimination.IsOf

/-! ## 1. Behind a symbol in front of a tail -/

/-- A string in front of a tail begins as it does itself and, if it can vanish, as what follows the
    left recursion. It vanishes with the tail when it vanishes. -/
theorem contains_firstOf_tail (h : e.IsOf g) (hl : g.IsLoop r tail) :
    (e.first.firstOf (τ ++ [.nonterminal tail])).contains i = true ↔
      (e.first.firstOf τ).contains i = true ∨ ((e.first.firstOf τ).contains 0 = true ∧
        (e.first.firstOf r.rhs.tail).contains i = true) := by
  rw [contains_firstOf_append, contains_firstOf_singleton, h.has_tail_iff hl]
  by_cases h0 : i = 0
  · subst h0
    simp +contextual
  · simp [h0]

/-- In front of a tail a nonterminal has what stands behind it otherwise, and what follows the left
    recursion if the string between can vanish. -/
theorem has_follow_in_front (h : e.IsOf g) (hl : g.IsLoop r tail) (hq : g.Rewritten q)
    (hrhs : q.rhs = (η ++ .nonterminal n :: τ) ++ [.nonterminal tail]) (h0 : i ≠ 0)
    (hi : (e.first.firstOf τ).contains i = true ∨ ((e.first.firstOf τ).contains 0 = true ∧
      ((followSets e.rules start e.first).Has (.nonterminal q.lhs) i ∨
        (e.first.firstOf r.rhs.tail).contains i = true))) :
    (followSets e.rules start e.first).Has (.nonterminal n) i := by
  have hsplit : q.rhs = η ++ .nonterminal n :: (τ ++ [.nonterminal tail]) := by
    rw [hrhs, List.append_assoc, List.cons_append]
  refine has_followSets_occurrence (h.mem_rules_iff.2 hq) hsplit h0 ?_
  rw [h.contains_firstOf_tail hl, h.contains_firstOf_tail hl]
  rcases hi with hi | ⟨hv, hi | hi⟩
  · exact .inl (.inl hi)
  · exact .inr ⟨.inl hv, hi⟩
  · exact .inl (.inr ⟨hv, hi⟩)

/-- What stands behind a nonterminal stands behind its tail, if the nonterminal has a right-hand side
    without left recursion. -/
theorem has_follow_tail (h : e.IsOf g) (hl : g.IsLoop r tail) {s : Rule} (hs : s ∈ g.rules.toList)
    (hlhs : s.lhs = r.lhs) (hself : ¬ s.isSelfRecursive = true) (h0 : i ≠ 0)
    (hi : (followSets e.rules start e.first).Has (.nonterminal r.lhs) i) :
    (followSets e.rules start e.first).Has (.nonterminal tail) i := by
  have hq : g.Rewritten ⟨s.lhs, s.rhs ++ [.nonterminal tail]⟩ :=
    .extend hs (hlhs ▸ hl.lookup_eq) hself
  refine has_followSets_occurrence (h.mem_rules_iff.2 hq) rfl h0 (.inr ⟨?_, hlhs ▸ hi⟩)
  exact contains_firstOf_nil.2 rfl

/-! ## 2. What is missing -/

end Elimination.IsOf

/-- Every nonterminal with a left recursion has a right-hand side without one. -/
def Grammar.RecursionsEnd (g : Grammar) : Prop :=
  ∀ r ∈ g.rules.toList, r.isSelfRecursive = true →
    ∃ s ∈ g.rules.toList, s.lhs = r.lhs ∧ ¬ s.isSelfRecursive = true

instance (g : Grammar) : Decidable g.RecursionsEnd :=
  inferInstanceAs (Decidable (∀ r ∈ g.rules.toList, r.isSelfRecursive = true →
    ∃ s ∈ g.rules.toList, s.lhs = r.lhs ∧ ¬ s.isSelfRecursive = true))

namespace Elimination

/-- What the left recursion of a nonterminal lets stand behind it. -/
def Adds (e : Elimination) (g : Grammar) (x : Symbol) (i : Nat) : Prop :=
  ∃ r tail, g.IsLoop r tail ∧ x = .nonterminal r.lhs ∧ i ≠ 0 ∧
    (e.first.firstOf r.rhs.tail).contains i = true

theorem IsOf.adds_iff (h : e.IsOf g) (hl : g.IsLoop r tail) : e.Adds g (.nonterminal r.lhs) i ↔
    i ≠ 0 ∧ (e.first.firstOf r.rhs.tail).contains i = true := by
  refine ⟨fun ⟨s, _, hs, hn, hi⟩ => ?_, fun hi => ⟨r, tail, hl, rfl, hi⟩⟩
  rwa [h.self_unique hl.mem hs.mem (Symbol.nonterminal.inj hn) hl.self hs.self]

/-- Only a nonterminal with a tail has something added. -/
theorem not_adds_of_lookup (ht : g.tails.lookup n = none) : ¬ e.Adds g (.nonterminal n) i := by
  rintro ⟨r, tail, hl, hn, _⟩
  have hsome := hl.lookup_eq
  rw [← Symbol.nonterminal.inj hn, ht] at hsome
  cases hsome

/-- **Nothing but what the left recursions add is missing.** -/
theorem IsOf.within_follow (h : e.IsOf g) (hend : g.RecursionsEnd) :
    Within (fun x i => (followSets e.rules start e.first).Has x i ∨ e.Adds g x i)
      (followSets g.rules.toList start e.first) := by
  refine followSets_least (.inl has_followSets_start) fun r hr η τ n hn i h0 hi => ?_
  cases ht : g.tails.lookup r.lhs with
  | none =>
    refine .inl (has_followSets_occurrence (h.mem_rules_iff.2 (.keep hr ht)) hn h0 ?_)
    exact hi.imp_right fun ⟨hv, hi⟩ => ⟨hv, hi.resolve_right (not_adds_of_lookup ht)⟩
  | some tail =>
    obtain ⟨s, hl, hlhs⟩ := Grammar.exists_loop ht
    have hadds : e.Adds g (.nonterminal r.lhs) i → (e.first.firstOf s.rhs.tail).contains i = true :=
      fun ha => ((h.adds_iff hl).1 (hlhs ▸ ha)).2
    by_cases hs : r.isSelfRecursive = true
    · obtain rfl := h.self_unique hr hl.mem hlhs.symm hs hl.self
      cases η with
      | nil =>
        -- the left recursion itself
        obtain ⟨hx, hτ⟩ := List.cons.inj (hl.rhs_eq.symm.trans hn)
        rw [← hx]
        rcases hi with hi | ⟨_, hi⟩
        · exact .inr ((h.adds_iff hl).2 ⟨h0, hτ ▸ hi⟩)
        · exact hi
      | cons x η =>
        have hrest : r.rhs.tail = η ++ .nonterminal n :: τ := congrArg List.tail hn
        obtain ⟨s, hsr, hslhs, hself⟩ := hend r hr hs
        refine .inl (h.has_follow_in_front hl (.loop hl) (congrArg (· ++ _) hrest) h0 ?_)
        exact hi.imp_right fun ⟨hv, hi⟩ =>
          ⟨hv, hi.imp (h.has_follow_tail hl hsr hslhs hself h0) hadds⟩
    · refine .inl (h.has_follow_in_front hl (.extend hr ht hs) (congrArg (· ++ _) hn) h0 ?_)
      exact hi.imp_right fun ⟨hv, hi⟩ => ⟨hv, hi.imp_right hadds⟩

/-! ## 3. What is too much -/

/-- What follows the left recursion stands behind its nonterminal. -/
theorem has_follow_of_loop (hl : g.IsLoop r tail) (h0 : i ≠ 0)
    (hi : (e.first.firstOf r.rhs.tail).contains i = true) :
    (followSets g.rules.toList start e.first).Has (.nonterminal r.lhs) i :=
  has_followSets_occurrence (η := []) hl.mem hl.rhs_eq h0 (.inl hi)

/-- What stands behind a symbol in front of a tail stands behind it in the rules of the grammar. -/
theorem IsOf.has_follow_of_in_front (h : e.IsOf g) (hl : g.IsLoop r tail) {s : Rule}
    (hs : s ∈ g.rules.toList) (hlhs : s.lhs = r.lhs) (hn : s.rhs = η ++ .nonterminal n :: τ)
    (h0 : i ≠ 0) (hi : (e.first.firstOf (τ ++ [.nonterminal tail])).contains i = true ∨
      ((e.first.firstOf (τ ++ [.nonterminal tail])).contains 0 = true ∧
        (followSets g.rules.toList start e.first).Has (.nonterminal r.lhs) i)) :
    (followSets g.rules.toList start e.first).Has (.nonterminal n) i := by
  refine has_followSets_occurrence hs hn h0 ?_
  rw [h.contains_firstOf_tail hl, h.contains_firstOf_tail hl] at hi
  rw [hlhs]
  rcases hi with (hi | ⟨hv, hi⟩) | ⟨hv, hi⟩
  · exact .inl hi
  · exact .inr ⟨hv, has_follow_of_loop hl h0 hi⟩
  · exact .inr ⟨hv.elim id And.left, hi⟩

/-- What may stand behind a symbol of the rewritten rules: behind one of the grammar what stands
    behind it there, behind a tail what stands behind its nonterminal. -/
structure Stands (e : Elimination) (g : Grammar) (start : Nonterminal) (x : Symbol) (i : Nat) :
    Prop where
  old : g.IsOld x → (followSets g.rules.toList start e.first).Has x i
  tail : ∀ r tail, g.IsLoop r tail → x = .nonterminal tail →
    (followSets g.rules.toList start e.first).Has (.nonterminal r.lhs) i

theorem stands_of_old (hx : g.IsOld (.nonterminal n))
    (hi : (followSets g.rules.toList start e.first).Has (.nonterminal n) i) :
    e.Stands g start (.nonterminal n) i where
  old _ := hi
  tail _ _ hl hn := absurd (hn ▸ hx) (Grammar.not_isOld_tail hl.lookup_eq)

theorem IsOf.stands_tail (h : e.IsOf g) (hl : g.IsLoop r tail)
    (hi : (followSets g.rules.toList start e.first).Has (.nonterminal r.lhs) i) :
    e.Stands g start (.nonterminal tail) i where
  old hx := absurd hx (Grammar.not_isOld_tail hl.lookup_eq)
  tail s _ hs hn := by
    cases hn
    rwa [h.loop_unique hs hl]

/-- **Nothing in FOLLOW of the rewritten rules is too much.** -/
theorem IsOf.within_follow_rewritten (h : e.IsOf g) (hstart : g.IsOld (.nonterminal start)) :
    Within (e.Stands g start) (followSets e.rules start e.first) := by
  refine followSets_least (stands_of_old hstart has_followSets_start)
    fun q hq η τ n hn i h0 hi => ?_
  cases h.mem_rules_iff.1 hq with
  | keep hr _ =>
    have hmem : .nonterminal n ∈ q.rhs := hn ▸ List.mem_append_right η List.mem_cons_self
    refine stands_of_old (Grammar.isOld_of_mem_rhs hr hmem) (has_followSets_occurrence hr hn h0 ?_)
    exact hi.imp_right fun ⟨hv, hi⟩ => ⟨hv, hi.old (Grammar.isOld_lhs hr)⟩
  | @extend r tail hr ht _ =>
    obtain ⟨s, hl, hlhs⟩ := Grammar.exists_loop ht
    rcases occurrence_in_front hn with ⟨ρ, hρ, rfl⟩ | ⟨rfl, rfl, _⟩
    · have hmem : .nonterminal n ∈ r.rhs := hρ ▸ List.mem_append_right η List.mem_cons_self
      refine stands_of_old (Grammar.isOld_of_mem_rhs hr hmem)
        (h.has_follow_of_in_front hl hr hlhs.symm hρ h0 ?_)
      exact hi.imp_right fun ⟨hv, hi⟩ => ⟨hv, hlhs ▸ hi.old (Grammar.isOld_lhs (r := r) hr)⟩
    · rcases hi with hi | ⟨_, hi⟩
      · exact absurd (contains_firstOf_nil.1 hi) h0
      · exact h.stands_tail hl (hlhs ▸ hi.old (Grammar.isOld_lhs (r := r) hr))
  | @loop r tail hl =>
    rcases occurrence_in_front hn with ⟨ρ, hρ, rfl⟩ | ⟨rfl, rfl, _⟩
    · have hmem : .nonterminal n ∈ r.rhs.tail := hρ ▸ List.mem_append_right η List.mem_cons_self
      have hrhs : r.rhs = (.nonterminal r.lhs :: η) ++ .nonterminal n :: ρ :=
        hl.rhs_eq.trans (congrArg _ hρ)
      refine stands_of_old (hl.isOld_of_mem hmem)
        (h.has_follow_of_in_front hl hl.mem rfl hrhs h0 ?_)
      exact hi.imp_right fun ⟨hv, hi⟩ => ⟨hv, hi.tail r tail hl rfl⟩
    · rcases hi with hi | ⟨_, hi⟩
      · exact absurd (contains_firstOf_nil.1 hi) h0
      · exact hi
  | stop _ => simp at hn

/-! ## 4. Both together -/

/-- FOLLOW over the rules of the grammar is FOLLOW over the rewritten rules with what the left
    recursions add. -/
theorem IsOf.has_follow_iff (h : e.IsOf g) (hend : g.RecursionsEnd)
    (hstart : g.IsOld (.nonterminal start)) (hn : g.IsOld (.nonterminal n)) :
    (followSets g.rules.toList start e.first).Has (.nonterminal n) i ↔
      (followSets e.rules start e.first).Has (.nonterminal n) i ∨ e.Adds g (.nonterminal n) i := by
  refine ⟨h.within_follow hend _ i, fun hi => ?_⟩
  rcases hi with hi | ⟨r, tail, hl, hnr, h0, hi⟩
  · exact (h.within_follow_rewritten hstart _ i hi).old hn
  · rw [hnr]
    exact has_follow_of_loop hl h0 hi

/-- What the left recursion adds, as symbols: the first symbols of what follows it, but `ε`. -/
theorem exists_adds_iff {m : Symbol} :
    (∃ i, e.slots.slot? m = some i ∧ e.Adds g (.nonterminal n) i) ↔
      ∃ α, (⟨n, .nonterminal n :: α⟩ : Rule) ∈ g.rules.toList ∧ m ≠ .epsilon ∧
        m ∈ e.first.firstSymbols α := by
  constructor
  · rintro ⟨i, hs, r, tail, hl, hn, h0, hi⟩
    obtain rfl := Symbol.nonterminal.inj hn
    have hm := Slots.slot?_eq_some_iff.1 hs
    exact ⟨r.rhs.tail, hl.rhs_eq ▸ hl.mem, ne_epsilon_of_symbol? hm h0,
      Slots.mem_symbolsOf.2 ⟨i, hs, hi⟩⟩
  · rintro ⟨α, hr, hm, hα⟩
    obtain ⟨i, hs, hi⟩ := Slots.mem_symbolsOf.1 hα
    obtain ⟨tail, hl⟩ := Grammar.exists_tail hr (Rule.isSelfRecursive_iff.2 ⟨α, rfl⟩)
    refine ⟨i, hs, _, tail, hl, rfl, fun h0 => hm ?_, hi⟩
    exact Slots.slot?_eq_zero_iff.1 (h0 ▸ hs)

end Elimination

/-- **FOLLOW of the tables and FOLLOW of the rewritten rules**: if every nonterminal with a left
    recursion has a right-hand side without one, the tables of the grammar let stand behind a
    nonterminal what the rewritten rules do, and, if it has a left recursion, what can begin the string
    behind that. -/
theorem TableBuild.follow_iff_rewritten (he : Elimination.ofGrammar g = .ok e)
    (hend : g.RecursionsEnd) : ∃ b, TableBuild.ofGrammar g = .ok b ∧
      ∀ n ∈ g.nonterminals, ∀ m, b.tables.follow.contains (.nonterminal n) m = true ↔
        e.follow.contains (.nonterminal n) m = true ∨
          ∃ α, (⟨n, .nonterminal n :: α⟩ : Rule) ∈ g.rules.toList ∧ m ≠ .epsilon ∧
            m ∈ e.first.firstSymbols α := by
  refine ⟨_, ofGrammar_eq he, fun n hn m => ?_⟩
  have hstart : g.IsOld (.nonterminal g.augmentedStart) :=
    Grammar.isOld_lhs (Grammar.mem_rules g.rule_zero)
  have hiff := fun i => (Elimination.isOf he).has_follow_iff (i := i) hend hstart
    (Grammar.isOld_nonterminal hn)
  show (followSets g.rules.toList g.augmentedStart e.first).contains (.nonterminal n) m = true ↔ _
  rw [← Elimination.exists_adds_iff, contains_iff, contains_iff, Elimination.follow,
    Elimination.start_eq he, ← exists_or]
  refine exists_congr fun i => ?_
  rw [hiff, and_or_left]

/-- A tally stands in front of semicolons, which only its left recursion puts there: FOLLOW of the
    rewritten rules misses them, and FOLLOW of the tables has them. -/
theorem tallies_follow_rewritten :
    Elimination.ofGrammar tallies = .ok talliesElimination ∧ tallies.RecursionsEnd ∧
      talliesElimination.follow.contains (.nonterminal 1) (.terminal 0) = false ∧
      ∃ b, TableBuild.ofGrammar tallies = .ok b ∧
        b.tables.follow.contains (.nonterminal 1) (.terminal 0) = true ∧
        b.tables.follow.contains (.nonterminal 1) (.terminal 1) = false := by
  have hend : tallies.RecursionsEnd := by decide
  obtain ⟨b, hb, hiff⟩ := TableBuild.follow_iff_rewritten ofGrammar_tallies hend
  have hn : 1 ∈ tallies.nonterminals := by decide +kernel
  have hmissed : talliesElimination.follow.contains (.nonterminal 1) (.terminal 0) = false := by
    decide +kernel
  refine ⟨ofGrammar_tallies, hend, hmissed, b, hb, (hiff 1 hn _).2 (.inr ?_), ?_⟩
  · exact ⟨[.terminal 0, .nonterminal 2], by decide, by decide, by decide +kernel⟩
  · refine Bool.eq_false_iff.2 fun h => ?_
    rcases (hiff 1 hn _).1 h with h | ⟨α, hα, _, h⟩
    · have hno : talliesElimination.follow.contains (.nonterminal 1) (.terminal 1) = false := by
        decide +kernel
      rw [hno] at h
      cases h
    · obtain rfl : α = [.terminal 0, .nonterminal 2] := by
        simpa [tallies] using hα
      have hno : (.terminal 1) ∉
          talliesElimination.first.firstSymbols [.terminal 0, .nonterminal 2] := by
        decide +kernel
      exact hno h

end ShiftReduce
