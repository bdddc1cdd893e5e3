import Mathlib.Order.Bounds.Defs
import ShiftReduce.Proofs.EliminatedFirst
import ShiftReduce.Proofs.TableCells
/-!
# FOLLOW sets are exact

For any list of rules and any FIRST table `followSets` lists the least family of sets that the rules
ask for (`followSets_isLeast`).

`Grammar.Follows` says without tables what can stand behind a nonterminal: a terminal that does so
in something that a nonterminal becomes, and `$` if the augmented start symbol becomes a string that
ends in the nonterminal. The FOLLOW sets of the tables hold exactly this (`TableBuild.follows_iff`),
although their FIRST sets come from the rewritten rules.
-/

namespace ShiftReduce

/-- What can stand behind a nonterminal. -/
inductive Grammar.Follows (g : Grammar) (n : Nonterminal) : Symbol → Prop where
  | terminal {m : Nonterminal} {front back : List Symbol} {id : Terminal}
      (h : Rewrites g.rules.toList [.nonterminal m]
        (front ++ .nonterminal n :: .terminal id :: back)) : Follows g n (.terminal id)
  | endOfInput {front : List Symbol}
      (h : Rewrites g.rules.toList [.nonterminal g.augmentedStart]
        (front ++ [.nonterminal n])) : Follows g n .endOfInput

/-- No right-hand side holds `$`. -/
theorem Grammar.endOfInput_not_mem_rhs {g : Grammar} {r : Rule} (hr : r ∈ g.rules.toList) :
    .endOfInput ∉ r.rhs := by
  intro hx
  obtain ⟨i, hi⟩ := Grammar.mem_rules_iff.1 hr
  rcases g.mem_rhs hi hx with ⟨id, h⟩ | ⟨n, h, _⟩
  · cases h
  · cases h

/-- What stands behind a nonterminal stands behind the last symbol of its right-hand side, as far
    as the symbols between can vanish. -/
theorem Grammar.Follows.of_rhs {g : Grammar} {r : Rule} (hr : r ∈ g.rules.toList) {n : Nonterminal}
    {η τ : List Symbol} (hn : r.rhs = η ++ .nonterminal n :: τ) (hτ : Rewrites g.rules.toList τ [])
    {x : Symbol} (h : g.Follows r.lhs x) : g.Follows n x := by
  have hstep : Rewrites g.rules.toList [.nonterminal r.lhs] (η ++ [.nonterminal n]) := by
    have hv := hτ.context (η ++ [.nonterminal n]) []
    rw [List.append_nil, List.append_nil, List.append_nil, List.append_assoc] at hv
    exact (Rewrites.of_mem hr).trans (hn ▸ hv)
  cases h with
  | @terminal m front back id h =>
    have hs := hstep.context front (.terminal id :: back)
    simp only [List.append_assoc, List.cons_append, List.nil_append] at hs
    rw [← List.append_assoc] at hs
    exact .terminal (h.trans hs)
  | @endOfInput front h =>
    have hs := hstep.context front []
    rw [List.append_nil, List.append_nil, ← List.append_assoc] at hs
    exact .endOfInput (h.trans hs)

/-! ## 1. What the table asks for -/

section

open SetTable

variable {t : Slots} {rules : List Rule} {start : Nonterminal} {first : SetTable t}

/-- The keys are the nonterminals of the rules and the start symbol. -/
theorem mem_keys_followSets {x : Symbol} : x ∈ (followSets rules start first).keys ↔
    ∃ n, x = .nonterminal n ∧ (n ∈ nonterminalsOf rules ∨ n = start) := by
  rw [followSets, keys_saturate]
  show x ∈ followKeys rules start ↔ _
  rw [followKeys, Numbering.mem_ofList, List.mem_map]
  simp only [List.mem_append, List.mem_singleton, and_comm, eq_comm]

/-- `$` follows the start symbol. -/
theorem has_followSets_start : (followSets rules start first).Has (.nonterminal start) 1 := by
  refine has_saturate (has_ofKeys.2 ⟨?_, ?_⟩)
  · rw [followKeys, Numbering.mem_ofList]
    exact List.mem_map_of_mem (List.mem_append_right _ List.mem_cons_self)
  · rw [if_pos rfl, SlotSet.contains_singleton]
    simp [Slots.lt_blocks (t := t) (x := .endOfInput) rfl]

theorem contains_source_followInclusion {lhs n : Nonterminal} {rest : SlotSet t.blocks}
    {T : SetTable t} {i : Nat} :
    ((followInclusion lhs n rest).source T).contains i = true ↔
      i ≠ 0 ∧ (rest.contains i = true ∨ (rest.contains 0 = true ∧ T.Has (.nonterminal lhs) i)) := by
  have hne : 0 ≠ i ↔ i ≠ 0 := ne_comm
  unfold followInclusion Has
  rw [SlotSet.contains_erase]
  cases h0 : rest.contains 0 with
  | true => simp [hne, and_comm]
  | false => simp [hne, and_comm]

/-- An occurrence of a nonterminal in a right-hand side hands on what the string after it opens
    with and, if that can vanish, what follows the left-hand side. -/
theorem has_followSets_occurrence {r : Rule} (hr : r ∈ rules) {n : Nonterminal}
    {η τ : List Symbol} (hn : r.rhs = η ++ .nonterminal n :: τ) {i : Nat} (h0 : i ≠ 0)
    (hi : (first.firstOf τ).contains i = true ∨ ((first.firstOf τ).contains 0 = true ∧
      (followSets rules start first).Has (.nonterminal r.lhs) i)) :
    (followSets rules start first).Has (.nonterminal n) i := by
  have hc : followInclusion r.lhs n (first.firstOf τ) ∈
      rules.flatMap (Rule.followInclusions first) :=
    List.mem_flatMap.2 ⟨r, hr, Rule.mem_followInclusions.2
      ⟨n, τ, mem_occurrences.2 ⟨η, hn⟩, rfl⟩⟩
  have hk : n ∈ nonterminalsOf rules := by
    refine mem_nonterminalsOf.2 ⟨r, hr, .inr ?_⟩
    rw [hn]
    exact List.mem_append_right η List.mem_cons_self
  exact holds_saturate (followBase rules start t) _ (mem_forth_and_back.2 hc)
    (mem_keys_followSets.2 ⟨n, rfl, .inl hk⟩) i (contains_source_followInclusion.2 ⟨h0, hi⟩)

/-- What the start symbol has at first and the occurrences hand on holds of all that the table
    has. -/
theorem followSets_least {P : Symbol → Nat → Prop} (hstart : P (.nonterminal start) 1)
    (hrule : ∀ r ∈ rules, ∀ (η τ : List Symbol) (n : Nonterminal),
      r.rhs = η ++ .nonterminal n :: τ → ∀ i, i ≠ 0 →
        (first.firstOf τ).contains i = true ∨
          ((first.firstOf τ).contains 0 = true ∧ P (.nonterminal r.lhs) i) →
        P (.nonterminal n) i) :
    Within P (followSets rules start first) := by
  refine saturate_least (fun c hc T hT i hi => ?_) fun x i hx => ?_
  · obtain ⟨r, hr, hc⟩ := List.mem_flatMap.1 (mem_forth_and_back.1 hc)
    obtain ⟨n, τ, hocc, rfl⟩ := Rule.mem_followInclusions.1 hc
    obtain ⟨η, hn⟩ := mem_occurrences.1 hocc
    obtain ⟨h0, hi⟩ := contains_source_followInclusion.1 hi
    refine hrule r hr η τ n hn i h0 ?_
    rcases hi with hi | ⟨hv, hi⟩
    · exact .inl hi
    · exact .inr ⟨hv, hT _ i hi⟩
  · obtain ⟨_, hi⟩ := has_ofKeys.1 hx
    by_cases hs : x = .nonterminal start
    · rw [if_pos hs, SlotSet.contains_singleton, Bool.and_eq_true, decide_eq_true_eq,
        decide_eq_true_eq] at hi
      rw [hs, ← hi.2]
      exact hstart
    · rw [if_neg hs, SlotSet.contains_empty] at hi
      cases hi

/-- No set holds `ε`. -/
theorem ne_zero_of_has_followSets {x : Symbol} {i : Nat}
    (h : (followSets rules start first).Has x i) : i ≠ 0 :=
  followSets_least (P := fun _ i => i ≠ 0) Nat.one_ne_zero (fun _ _ _ _ _ _ _ h0 _ => h0) x i h

/-! ## 2. The least family -/

/-- What the rules ask of a family of sets, one for each nonterminal: `$` follows the start symbol,
    and wherever a rule has a nonterminal on its right, what the string after it begins with follows
    that nonterminal and, if the string can vanish by the table, all that follows the left-hand
    side. -/
structure FollowFamily (rules : List Rule) (start : Nonterminal) (first : SetTable t)
    (F : Nonterminal → Set Symbol) : Prop where
  start_mem : .endOfInput ∈ F start
  opens : ∀ r ∈ rules, ∀ η n τ, r.rhs = η ++ .nonterminal n :: τ →
    ∀ m ∈ first.firstSymbols τ, m ≠ .epsilon → m ∈ F n
  passes : ∀ r ∈ rules, ∀ η n τ, r.rhs = η ++ .nonterminal n :: τ →
    .epsilon ∈ first.firstSymbols τ → F r.lhs ⊆ F n

/-- The family of sets that a table lists. -/
def SetTable.listed (T : SetTable t) (n : Nonterminal) : Set Symbol :=
  {m | ∃ ms, T.members? (.nonterminal n) = some ms ∧ m ∈ ms}

theorem mem_listed {T : SetTable t} {n : Nonterminal} {m : Symbol} :
    m ∈ T.listed n ↔ ∃ i, t.slot? m = some i ∧ T.Has (.nonterminal n) i := by
  rw [← contains_iff, ← mem_symbolsOf_set]
  show (∃ ms, T.members? (.nonterminal n) = some ms ∧ m ∈ ms) ↔ _
  rw [SetTable.members?, SetTable.set]
  cases T.set? (.nonterminal n) with
  | none =>
    rw [Option.getD_none, Slots.mem_symbolsOf]
    simp
  | some s => simp

/-- What the table lists is what the rules ask for. -/
theorem followFamily_listed (rules : List Rule) (start : Nonterminal) (first : SetTable t) :
    FollowFamily rules start first (followSets rules start first).listed where
  start_mem := mem_listed.2 ⟨1, rfl, has_followSets_start⟩
  opens r hr η n τ hn m hm hne := by
    obtain ⟨i, hs, hi⟩ := Slots.mem_symbolsOf.1 hm
    have h0 : i ≠ 0 := fun h0 => hne (Slots.slot?_eq_zero_iff.1 (h0 ▸ hs))
    exact mem_listed.2 ⟨i, hs, has_followSets_occurrence hr hn h0 (.inl hi)⟩
  passes r hr η n τ hn hv m hm := by
    obtain ⟨i, hs, hi⟩ := mem_listed.1 hm
    obtain ⟨_, hzero, hv⟩ := Slots.mem_symbolsOf.1 hv
    cases hzero
    exact mem_listed.2 ⟨i, hs,
      has_followSets_occurrence hr hn (ne_zero_of_has_followSets hi) (.inr ⟨hv, hi⟩)⟩

/-- Whatever the rules ask for has all that the table lists. -/
theorem FollowFamily.listed_le {F : Nonterminal → Set Symbol}
    (h : FollowFamily rules start first F) : (followSets rules start first).listed ≤ F := by
  have hall : Within (fun x i => ∃ n, x = .nonterminal n ∧ ∀ m, t.symbol? i = some m → m ∈ F n)
      (followSets rules start first) := by
    refine followSets_least ⟨start, rfl, fun m hm => ?_⟩ fun r hr η τ n hn i h0 hi =>
      ⟨n, rfl, fun m hm => ?_⟩
    · cases hm
      exact h.start_mem
    · rcases hi with hi | ⟨hv, n', hn', hi⟩
      · exact h.opens r hr η n τ hn m
          (Slots.mem_symbolsOf.2 ⟨i, Slots.slot?_eq_some_iff.2 hm, hi⟩) (ne_epsilon_of_symbol? hm h0)
      · cases hn'
        exact h.passes r hr η n τ hn (Slots.mem_symbolsOf.2 ⟨0, rfl, hv⟩) (hi m hm)
  intro n m hm
  obtain ⟨i, hs, hi⟩ := mem_listed.1 hm
  obtain ⟨n', hn', hF⟩ := hall _ i hi
  cases hn'
  exact hF m (Slots.slot?_eq_some_iff.1 hs)

/-- **FOLLOW is the least solution**, for any rules, start symbol and FIRST table: the table lists the
    least family of sets that the rules ask for. It has a set for the nonterminals of the rules and
    for the start symbol, for nothing else, and `ε` is in none. -/
theorem followSets_isLeast (rules : List Rule) (start : Nonterminal) (first : SetTable t) :
    IsLeast {F | FollowFamily rules start first F} (followSets rules start first).listed ∧
    (∀ x, (∃ ms, (followSets rules start first).members? x = some ms) ↔
      ∃ n, x = .nonterminal n ∧ (n ∈ nonterminalsOf rules ∨ n = start)) ∧
    ∀ n, .epsilon ∉ (followSets rules start first).listed n := by
  refine ⟨⟨followFamily_listed rules start first, fun F hF => hF.listed_le⟩,
    fun x => exists_members?_iff.trans mem_keys_followSets, fun n h => ?_⟩
  obtain ⟨_, hs, hi⟩ := mem_listed.1 h
  cases hs
  exact ne_zero_of_has_followSets hi rfl

/-! ## 3. Nothing is missing -/

/-- Every nonterminal of `γ` has what the string after it opens with and, if that can vanish, what
    follows `m`. -/
def Covered (follow first : SetTable t) (m : Nonterminal) (γ : List Symbol) : Prop :=
  ∀ front n rest, γ = front ++ .nonterminal n :: rest → ∀ i, i ≠ 0 →
    (first.firstOf rest).contains i = true ∨
      ((first.firstOf rest).contains 0 = true ∧ follow.Has (.nonterminal m) i) →
    follow.Has (.nonterminal n) i

theorem covered_self (follow first : SetTable t) (m : Nonterminal) :
    Covered follow first m [.nonterminal m] := by
  intro front n rest hγ i h0 hi
  cases front with
  | nil =>
    cases hγ
    rcases hi with hi | ⟨_, hi⟩
    · exact absurd (contains_firstOf_nil.1 hi) h0
    · exact hi
  | cons y ys => simp at hγ

/-- **A replacement leaves every nonterminal covered.** -/
theorem Covered.step (hc : first.Closed rules) {m : Nonterminal} {α β : List Symbol}
    (h : Covered (followSets rules start first) first m α) (s : RewritesOnce rules α β) :
    Covered (followSets rules start first) first m β := by
  cases s with
  | replace f b r hr =>
    have hlhs := h f r.lhs b rfl
    intro front n rest hβ i h0 hi
    rcases exists_of_append_eq hβ with ⟨p, hfr, rfl⟩ | ⟨p, rfl, rfl⟩
    · rcases exists_of_append_eq hfr with ⟨q, rfl, rfl⟩ | ⟨q, rfl, hrhs⟩
      · -- the nonterminal stands before the replaced one
        have hrest : Rewrites rules (q ++ .nonterminal r.lhs :: b) (q ++ r.rhs ++ b) :=
          .single (.replace q b r hr)
        refine h front n (q ++ .nonterminal r.lhs :: b) (by simp) i h0 ?_
        rcases hi with hi | ⟨hv, hi⟩
        · exact .inl (firstOf_of_rewrites hc hrest hi)
        · exact .inr ⟨firstOf_of_rewrites hc hrest hv, hi⟩
      · -- the nonterminal is one of the right-hand side
        refine has_followSets_occurrence hr hrhs h0 ?_
        rcases hi with hi | ⟨hv, hi⟩
        · rcases contains_firstOf_append.1 hi with ⟨_, hi⟩ | ⟨hv, hi⟩
          · exact .inl hi
          · exact .inr ⟨hv, hlhs i h0 (.inl hi)⟩
        · rcases contains_firstOf_append.1 hv with ⟨h00, _⟩ | ⟨hp, hb⟩
          · exact absurd rfl h00
          · exact .inr ⟨hp, hlhs i h0 (.inr ⟨hb, hi⟩)⟩
    · -- the nonterminal stands behind the replaced one
      exact h (f ++ .nonterminal r.lhs :: p) n rest (by simp) i h0 hi

theorem covered_of_rewrites (hc : first.Closed rules) {m : Nonterminal} {γ : List Symbol}
    (h : Rewrites rules [.nonterminal m] γ) :
    Covered (followSets rules start first) first m γ := by
  induction h with
  | refl => exact covered_self _ _ m
  | tail _ s ih => exact ih.step hc s

end

/-! ## 4. The tables of a grammar -/

namespace TableBuild

variable {g : Grammar} {b : TableBuild}

/-- **What can follow a nonterminal is in its FOLLOW set.** -/
theorem follows_of_follows (hb : ofGrammar g = .ok b) {n : Nonterminal} {x : Symbol}
    (h : g.Follows n x) : b.tables.Follows n x := by
  obtain ⟨e, he, rfl⟩ := exists_elimination hb
  have he := Elimination.isOf he
  cases h with
  | @terminal m front back id h =>
    have hid : id ∈ g.terminals := by
      rcases h.mem_or_mem_rhs (x := .terminal id) (by simp) with hm | hm
      · cases List.mem_singleton.1 hm
      · exact mem_terminalsOf.2 hm
    obtain ⟨i, hs⟩ : ∃ i, e.slots.slot? (.terminal id) = some i := by
      rw [he.slots_eq]
      exact Slots.exists_slot?_iff.2 (.inr (.inr ⟨id, Numbering.mem_ofList.2 hid, rfl⟩))
    have h0 : i ≠ 0 := by
      intro h0
      cases Slots.slot?_eq_zero_iff.1 (h0 ▸ hs)
    refine SetTable.contains_iff.2 ⟨i, hs, ?_⟩
    refine covered_of_rewrites he.closed_first h front n _ rfl i h0 (.inl ?_)
    exact SetTable.contains_firstOf_cons.2 (.inl ⟨h0, has_firstSets_self hs (by simp)⟩)
  | @endOfInput front h =>
    refine SetTable.contains_iff.2 ⟨1, rfl, ?_⟩
    refine covered_of_rewrites he.closed_first h front n [] rfl 1 Nat.one_ne_zero (.inr ⟨?_, ?_⟩)
    · exact SetTable.contains_firstOf_nil.2 rfl
    · exact has_followSets_start

/-- A symbol with a slot that the string behind a nonterminal can begin with can follow it. -/
theorem follows_of_opens {t : Slots} {r : Rule} (hr : r ∈ g.rules.toList) {n : Nonterminal}
    {η τ : List Symbol} (hn : r.rhs = η ++ .nonterminal n :: τ) {x : Symbol}
    (ho : Opens g.rules.toList τ x) (hx : x ≠ .epsilon) {i : Nat} (hs : t.slot? x = some i) :
    g.Follows n x := by
  obtain ⟨rest, hτ⟩ := ho.exists_rewrites hx
  have hstep : Rewrites g.rules.toList [.nonterminal r.lhs]
      (η ++ .nonterminal n :: x :: rest) := by
    have hcontext := hτ.context (η ++ [.nonterminal n]) []
    rw [List.append_nil, List.append_nil, List.append_assoc, List.append_assoc] at hcontext
    exact (Rewrites.of_mem hr).trans (hn ▸ hcontext)
  cases x with
  | terminal id => exact .terminal hstep
  | nonterminal id => cases hs
  | epsilon => exact absurd rfl hx
  | endOfInput =>
    rcases hstep.mem_or_mem_rhs (x := .endOfInput) (by simp) with hmem | ⟨q, hq, hmem⟩
    · cases List.mem_singleton.1 hmem
    · exact absurd hmem (Grammar.endOfInput_not_mem_rhs hq)

/-- **What is in the FOLLOW set of a nonterminal can follow it.** -/
theorem follows_of_tables (hb : ofGrammar g = .ok b) {n : Nonterminal} {x : Symbol}
    (h : b.tables.Follows n x) : g.Follows n x := by
  obtain ⟨e, he, rfl⟩ := exists_elimination hb
  have he := Elimination.isOf he
  obtain ⟨i, hs, hi⟩ := SetTable.contains_iff.1 h
  have hstart : Rewrites g.rules.toList [.nonterminal g.augmentedStart]
      ([] ++ [.nonterminal g.augmentedStart]) := .refl
  have hall : SetTable.Within
      (fun x i => ∃ n m, x = .nonterminal n ∧ e.slots.symbol? i = some m ∧ g.Follows n m)
      (followSets g.rules.toList g.augmentedStart e.first) := by
    refine followSets_least ⟨_, _, rfl, rfl, .endOfInput hstart⟩
      (fun r hr η τ n hn i h0 hi => ?_)
    have hsound : ∀ x ∈ τ, e.first.SoundFor g.rules.toList x := by
      intro x hx
      refine he.soundFor_first (Grammar.isOld_of_mem_rhs hr ?_)
      rw [hn]
      exact List.mem_append_right η (List.mem_cons_of_mem _ hx)
    rcases hi with hi | ⟨hv, n', m, hn', hm, hf⟩
    · obtain ⟨m, hm, ho⟩ := SetTable.opens_of_firstOf hsound hi
      have hne := SetTable.ne_epsilon_of_symbol? hm h0
      exact ⟨n, m, rfl, hm, follows_of_opens hr hn ho hne (Slots.slot?_eq_some_iff.2 hm)⟩
    · cases hn'
      obtain ⟨_, he', ho⟩ := SetTable.opens_of_firstOf hsound hv
      cases he'
      exact ⟨n, m, rfl, hm, hf.of_rhs hr hn ho.vanishes⟩
  obtain ⟨n', m, hn', hm, hf⟩ := hall _ i hi
  cases hn'
  rwa [Option.some.inj ((Slots.slot?_eq_some_iff.1 hs).symm.trans hm)]

/-- **The FOLLOW sets of the tables are exact.** -/
theorem follows_iff (hb : ofGrammar g = .ok b) {n : Nonterminal} {x : Symbol} :
    b.tables.Follows n x ↔ g.Follows n x :=
  ⟨follows_of_tables hb, follows_of_follows hb⟩

end TableBuild

end ShiftReduce
