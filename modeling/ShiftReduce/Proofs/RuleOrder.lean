import Mathlib.Logic.Equiv.Basic
import ShiftReduce.Proofs.FollowSets
import ShiftReduce.Proofs.HiddenRecursion
import ShiftReduce.Proofs.Renumbering
/-!
# Grammars with their rules in another order

The rules of a grammar are numbered by their place, so another order is another numbering
(`Grammar.Reorders`); rule 0 keeps its place. What a grammar generates does not depend on it, nor
what follows what, nor whether its left recursion can be eliminated, and the items valid for a
string are the same items with other numbers:

* `Grammar.exists_reorders` -- rules pass the checks in every order that leaves rule 0 in front;
* `Reorders.validFor_iff` -- the valid items of a string;
* `Reorders.follows_iff` -- what stands behind a nonterminal;
* `Reorders.exists_elimination` -- the elimination of left recursion. Here it matters how often a
  rule stands in the list, so the order is first seen to be a permutation (`Reorders.perm`).

All of this is shown in one direction; the other is the same for the order taken back
(`Reorders.symm`).
-/

namespace ShiftReduce

/-- More rules derive more. -/
theorem Rewrites.of_subset {rules rules' : List Rule} (h : ∀ r ∈ rules, r ∈ rules')
    {α β : List Symbol} (hr : Rewrites rules α β) : Rewrites rules' α β := by
  induction hr with
  | refl => exact .refl
  | tail _ s ih =>
    cases s with
    | replace front back r hmem => exact .tail ih (.replace front back r (h r hmem))

/-- What the checks ask of a symbol does not depend on the number of its rule. -/
theorem Symbol.defect?_congr {a : Nonterminal} {i j : Nat} {x : Symbol}
    (h : x.defect? a i = none) : x.defect? a j = none := by
  cases x with
  | terminal t => rfl
  | nonterminal n => simpa [defect?] using h
  | endOfInput => cases h
  | epsilon => cases h

/-- What the checks ask of a rule depends on its number only as far as that is 0. -/
theorem Rule.defect?_congr {a : Nonterminal} {i j : Nat} (hij : i = 0 ↔ j = 0) {r : Rule}
    (h : r.defect? a i = none) : r.defect? a j = none := by
  unfold defect? at h ⊢
  split at h
  · cases h
  · rename_i hlhs
    rw [if_neg fun hj => hlhs ⟨fun hi => hj.1 (hij.1 hi), hj.2⟩]
    exact List.findSome?_eq_none_iff.2 fun x hx =>
      Symbol.defect?_congr (List.findSome?_eq_none_iff.1 h x hx)

namespace Grammar

/-- The rules of `g'` are those of `g` in another order, rule `i` now with the number `σ i`. Rule 0
    keeps its place. -/
structure Reorders (σ : Equiv.Perm Nat) (g g' : Grammar) : Prop where
  zero : σ 0 = 0
  rule : ∀ i : Nat, g'.rules[σ i]? = g.rules[i]?

/-- **Rules pass the checks in every order that leaves rule 0 in front.** -/
theorem exists_reorders {g : Grammar} {σ : Equiv.Perm Nat} (hzero : σ 0 = 0) {rules : List Rule}
    (h : ∀ i : Nat, rules[σ i]? = g.rules[i]?) :
    ∃ g', Grammar.ofRules rules = .ok g' ∧ Reorders σ g g' := by
  have hfirst : rules[0]? = some ⟨g.augmentedStart, [.nonterminal g.start]⟩ := by
    rw [← hzero, h, g.rule_zero]
  have hdefects : firstDefect? g.augmentedStart rules = none := by
    refine firstDefect?_eq_none_iff.2 fun j r hr => ?_
    have hr' : g.rules[σ.symm j]? = some r := by rw [← h, Equiv.apply_symm_apply, hr]
    refine Rule.defect?_congr ?_ (defect?_eq_none hr')
    rw [Equiv.symm_apply_eq, hzero]
  refine ⟨{
    rules := rules.toArray
    augmentedStart := g.augmentedStart
    start := g.start
    rule_zero := by simpa using hfirst
    no_defect := hdefects }, ofRules_eq_ok_iff.2 rfl, hzero, fun i => ?_⟩
  simpa using h i

namespace Reorders

variable {σ : Equiv.Perm Nat} {g g' : Grammar} {γ : List Symbol} {i : Item}

/-! ## 1. The same rules -/

theorem symm (h : Reorders σ g g') : Reorders σ.symm g' g where
  zero := by rw [Equiv.symm_apply_eq, h.zero]
  rule i := by rw [← h.rule, Equiv.apply_symm_apply]

theorem mem_of_mem (h : Reorders σ g g') {r : Rule} (hr : r ∈ g.rules.toList) :
    r ∈ g'.rules.toList := by
  obtain ⟨i, hi⟩ := mem_rules_iff.1 hr
  exact mem_rules (h.rule i ▸ hi)

theorem mem_iff (h : Reorders σ g g') {r : Rule} : r ∈ g'.rules.toList ↔ r ∈ g.rules.toList :=
  ⟨h.symm.mem_of_mem, h.mem_of_mem⟩

theorem augmentedStart_eq (h : Reorders σ g g') : g'.augmentedStart = g.augmentedStart := by
  have hfirst := h.rule 0
  rw [h.zero, g.rule_zero, g'.rule_zero] at hfirst
  exact congrArg Rule.lhs (Option.some.inj hfirst)

/-- **The rules are a permutation**: none is more or less often there. -/
theorem perm (h : Reorders σ g g') : g.rules.toList.Perm g'.rules.toList := by
  have hnodup : ∀ g : Grammar, g.numbered.Nodup := fun g => by
    refine List.Nodup.of_map Prod.snd ?_
    rw [numbered, List.zipIdx_map_snd]
    exact List.nodup_range'
  have hinj : Function.Injective fun p : Rule × Nat => (p.1, σ p.2) := fun p q hpq =>
    Prod.ext (Prod.mk.inj hpq).1 (σ.injective (Prod.mk.inj hpq).2)
  have hnumbered : (g.numbered.map fun p => (p.1, σ p.2)).Perm g'.numbered := by
    refine (List.perm_ext_iff_of_nodup ((hnodup g).map hinj) (hnodup g')).2 fun p => ?_
    obtain ⟨r, j⟩ := p
    rw [mem_numbered, List.mem_map]
    constructor
    · rintro ⟨⟨r', i⟩, hr, he⟩
      obtain ⟨rfl, rfl⟩ := Prod.mk.inj he
      rw [h.rule]
      exact mem_numbered.1 hr
    · intro hr
      refine ⟨(r, σ.symm j), mem_numbered.2 (h.symm.rule j ▸ hr), ?_⟩
      simp
  have hfst := hnumbered.map Prod.fst
  rw [List.map_map, numbered, numbered, List.zipIdx_map_fst] at hfst
  exact List.zipIdx_map_fst 0 g.rules.toList ▸ hfst

/-! ## 2. The same valid items -/

theorem entered (h : Reorders σ g g') {δ : List Symbol} {i : Nat} (he : Entered g δ i) :
    Entered g' δ (σ i) := by
  induction he with
  | start =>
    rw [h.zero]
    exact .start
  | enter _ hr hs hb ih => exact .enter ih (h.rule _ ▸ hr) (h.rule _ ▸ hs) hb

theorem validFor (h : Reorders σ g g') (hv : i.ValidFor g γ) :
    (i.renumber σ).ValidFor g' γ := by
  obtain ⟨δ, r, he, hr, hle, hγ⟩ := hv
  exact ⟨δ, r, h.entered he, h.rule _ ▸ hr, hle, hγ⟩

/-- **The items valid for a string are the same with other numbers.** -/
theorem validFor_iff (h : Reorders σ g g') : (i.renumber σ).ValidFor g' γ ↔ i.ValidFor g γ := by
  refine ⟨fun hv => ?_, h.validFor⟩
  have hback := h.symm.validFor hv
  rwa [Item.renumber, Item.renumber, Equiv.symm_apply_apply] at hback

theorem next?_eq (h : Reorders σ g g') (i : Item) : (i.renumber σ).next? g' = i.next? g := by
  rw [Item.next?, Item.next?, symbolAt?_eq, symbolAt?_eq, Item.renumber, h.rule]

/-! ## 3. The same FOLLOW sets -/

theorem rewrites (h : Reorders σ g g') {α β : List Symbol}
    (hr : Rewrites g.rules.toList α β) : Rewrites g'.rules.toList α β :=
  hr.of_subset fun _ => h.mem_of_mem

theorem rewrites_iff (h : Reorders σ g g') {α β : List Symbol} :
    Rewrites g'.rules.toList α β ↔ Rewrites g.rules.toList α β :=
  ⟨h.symm.rewrites, h.rewrites⟩

theorem follows (h : Reorders σ g g') {n : Nonterminal} {x : Symbol} (hf : g.Follows n x) :
    g'.Follows n x := by
  cases hf with
  | terminal hr => exact .terminal (h.rewrites hr)
  | endOfInput hr => exact .endOfInput (h.augmentedStart_eq ▸ h.rewrites hr)

/-- **The tables have the same FOLLOW sets.** -/
theorem follows_iff (h : Reorders σ g g') {b b' : TableBuild} (hb : TableBuild.ofGrammar g = .ok b)
    (hb' : TableBuild.ofGrammar g' = .ok b') {n : Nonterminal} {x : Symbol} :
    b'.tables.Follows n x ↔ b.tables.Follows n x := by
  rw [TableBuild.follows_iff hb, TableBuild.follows_iff hb']
  exact ⟨h.symm.follows, h.follows⟩

/-! ## 4. The same left recursion -/

theorem reachesLeft_iff (h : Reorders σ g g') {n m : Nonterminal} :
    g'.ReachesLeft n m ↔ g.ReachesLeft n m := by
  simp only [ReachesLeft, LeftOccurrence, h.mem_iff, h.rewrites_iff]

theorem hasHiddenCycle_iff (h : Reorders σ g g') : g'.HasHiddenCycle ↔ g.HasHiddenCycle := by
  have hreaches : g'.ReachesLeft = g.ReachesLeft :=
    funext fun _ => funext fun _ => propext h.reachesLeft_iff
  rw [HasHiddenCycle, HasHiddenCycle, hreaches]

theorem keepsRecursion_iff (h : Reorders σ g g') {n : Nonterminal} :
    g'.KeepsRecursion n ↔ g.KeepsRecursion n := by
  have hperm : (g.selfRecursiveRules n).Perm (g'.selfRecursiveRules n) := by
    rw [selfRecursiveRules, selfRecursiveRules, rulesOf_eq, rulesOf_eq]
    exact (h.perm.filter _).filter _
  rw [KeepsRecursion, KeepsRecursion, ← List.perm_singleton, ← List.perm_singleton,
    hperm.congr_left, hperm.length_eq]

/-- **Left recursion that can be eliminated in one order of the rules can be in the other.** -/
theorem exists_elimination (h : Reorders σ g g') (he : ∃ e, Elimination.ofGrammar g = .ok e) :
    ∃ e', Elimination.ofGrammar g' = .ok e' := by
  rw [Elimination.exists_iff] at he ⊢
  simp only [h.hasHiddenCycle_iff, h.keepsRecursion_iff]
  exact he

end Reorders

end Grammar

end ShiftReduce
