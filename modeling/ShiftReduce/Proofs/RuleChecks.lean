import Mathlib.Order.Bounds.Defs
import ShiftReduce.Proofs.Proposals
/-!
# Which lists of rules are grammars

`Grammar.ofRules` checks a list of rules and keeps what it finds on the way. Here the checks are said
one by one, and what is kept is said by the list alone:

* `CheckPoint` -- the points of the checks in their order: the list, the shape of rule 0, then rule by
  rule the left-hand side before the symbols from left to right;
* `FaultAt` -- what is wrong with a list of rules at one of these points, and `IsFirstFault`, the fault
  with no other before it;
* `isFirstFault_of_ofRules`, `IsFirstFault.unique` -- the error is the first fault, and there is one
  first fault only;
* `IsAugmented` -- the lists without a fault (`exists_ofRules_iff`);
* `Grammar.Indexes` -- what a grammar says of a list of rules: the rules of each nonterminal, the place
  of a rule, the symbols in order of first appearance, the nonterminals without rules
  (`Grammar.indexes_toList`).
-/

namespace ShiftReduce

/-! ## 1. First appearances in lists -/

section Lists

variable {α β : Type}

/-- What is found first in a list has a place, and nothing is found before that place. -/
theorem exists_first_of_findSome? {f : α → Option β} {l : List α} {b : β}
    (h : l.findSome? f = some b) :
    ∃ (i : Nat) (a : α), l[i]? = some a ∧ f a = some b ∧
      ∀ (j : Nat) (c : α), j < i → l[j]? = some c → f c = none := by
  obtain ⟨front, a, back, rfl, ha, hfront⟩ := List.findSome?_eq_some_iff.1 h
  refine ⟨front.length, a, by simp, ha, fun j c hj hc => hfront c ?_⟩
  rw [List.getElem?_append_left hj] at hc
  exact List.mem_of_getElem? hc

/-- The first place that satisfies a test is the least one. -/
theorem findIdx?_eq_some_iff_isLeast {p : α → Bool} {l : List α} {i : Nat} :
    l.findIdx? p = some i ↔ IsLeast {j | ∃ a, l[j]? = some a ∧ p a = true} i := by
  rw [List.findIdx?_eq_some_iff_getElem]
  constructor
  · intro ⟨hi, hp, hbefore⟩
    refine ⟨⟨l[i], List.getElem?_eq_getElem hi, hp⟩, fun j ⟨a, ha, hpa⟩ => ?_⟩
    obtain ⟨hj, rfl⟩ := List.getElem?_eq_some_iff.1 ha
    exact Nat.le_of_not_lt fun hlt => hbefore j hlt hpa
  · intro ⟨⟨a, ha, hp⟩, hleast⟩
    obtain ⟨hi, rfl⟩ := List.getElem?_eq_some_iff.1 ha
    refine ⟨hi, hp, fun j hj hpj => ?_⟩
    have hle := hleast ⟨_, List.getElem?_eq_getElem (Nat.lt_trans hj hi), hpj⟩
    omega

variable [DecidableEq α]

/-- The members of a list, each once, in the order in which they first appear. -/
structure ListsFirsts (appearances firsts : List α) : Prop where
  mem_iff : ∀ x, x ∈ firsts ↔ x ∈ appearances
  nodup : firsts.Nodup
  ordered : firsts.Pairwise fun x y => appearances.idxOf x < appearances.idxOf y

/-- Leaving out repetitions keeps the order of first appearance. -/
theorem pairwise_eraseDups (l : List α) :
    l.eraseDups.Pairwise fun x y => l.idxOf x < l.idxOf y := by
  induction l using List.reverseRecOn with
  | nil => exact .nil
  | append_singleton l a ih =>
    have hold : ∀ x ∈ l, (l ++ [a]).idxOf x = l.idxOf x := fun x hx => List.idxOf_append_of_mem hx
    rw [List.eraseDups_append]
    refine List.pairwise_append.2 ⟨ih.imp_of_mem fun hx hy hlt => ?_, ?_, fun x hx y hy => ?_⟩
    · rw [hold _ (List.mem_eraseDups.1 hx), hold _ (List.mem_eraseDups.1 hy)]
      exact hlt
    · by_cases ha : a ∈ l
      · simp [List.removeAll, ha]
      · simp [List.removeAll, ha, List.eraseDups_cons]
    · have hx : x ∈ l := List.mem_eraseDups.1 hx
      have hy : y ∈ [a].removeAll l := List.mem_eraseDups.1 hy
      obtain ⟨hya, hyl⟩ : y = a ∧ y ∉ l := by simpa [List.removeAll] using hy
      subst hya
      rw [hold x hx, List.idxOf_append_of_notMem hyl]
      have hlt := List.idxOf_lt_length_of_mem hx
      omega

/-- **A numbered list lists its first appearances.** -/
theorem listsFirsts_ofList [Ord α] [Std.TransOrd α] [Std.LawfulEqOrd α] (l : List α) :
    ListsFirsts l (Numbering.ofList l).toList where
  mem_iff _ := Numbering.mem_def.symm.trans Numbering.mem_ofList
  nodup := Numbering.nodup_toList _
  ordered := by
    rw [Numbering.toList_ofList]
    exact pairwise_eraseDups l

end Lists

/-! ## 2. Faults -/

/-- A point of the checks: the list, the shape of rule 0, the left-hand side of a rule, or the symbol at
    a place of its right-hand side. -/
inductive CheckPoint where
  | list
  | augmentingRule
  | lhs (rule : Nat)
  | rhs (rule place : Nat)

/-- The order of the checks. -/
def CheckPoint.Before : CheckPoint → CheckPoint → Prop
  | .list, .list => False
  | .list, _ => True
  | .augmentingRule, .lhs _ => True
  | .augmentingRule, .rhs _ _ => True
  | .augmentingRule, _ => False
  | .lhs i, .lhs j => i < j
  | .lhs i, .rhs j _ => i ≤ j
  | .lhs _, _ => False
  | .rhs i _, .lhs j => i < j
  | .rhs i k, .rhs j l => i < j ∨ (i = j ∧ k < l)
  | .rhs _ _, _ => False

/-- Of two points one comes first. -/
theorem CheckPoint.before_or_eq_or_after (p q : CheckPoint) : p.Before q ∨ p = q ∨ q.Before p := by
  cases p with
  | list => cases q <;> simp [Before]
  | augmentingRule => cases q <;> simp [Before]
  | lhs i => cases q <;> simp [Before] <;> omega
  | rhs i k => cases q <;> simp [Before] <;> omega

/-- What is wrong with a list of rules at a point of the checks. -/
inductive FaultAt (rules : List Rule) : CheckPoint → GrammarError → Prop where
  | noRules (h : rules = []) : FaultAt rules .list .noRules
  | shape {zero : Rule} (hzero : rules[0]? = some zero) (h : ∀ n, zero.rhs ≠ [.nonterminal n]) :
      FaultAt rules .augmentingRule .badAugmentingRule
  | redefined {zero r : Rule} {i : Nat} (hzero : rules[0]? = some zero) (hr : rules[i]? = some r)
      (hi : i ≠ 0) (h : r.lhs = zero.lhs) : FaultAt rules (.lhs i) (.startRedefined i)
  | referenced {zero r : Rule} {i k : Nat} (hzero : rules[0]? = some zero)
      (hr : rules[i]? = some r) (h : r.rhs[k]? = some (.nonterminal zero.lhs)) :
      FaultAt rules (.rhs i k) (.startReferenced i)
  | reserved {r : Rule} {i k : Nat} {x : Symbol} (hr : rules[i]? = some r)
      (hx : r.rhs[k]? = some x) (h : x = .endOfInput ∨ x = .epsilon) :
      FaultAt rules (.rhs i k) (.reservedSymbol i x)

/-- The fault has no other before it. -/
def IsFirstFault (rules : List Rule) (e : GrammarError) : Prop :=
  ∃ p, FaultAt rules p e ∧ ∀ q e', FaultAt rules q e' → ¬ q.Before p

variable {rules : List Rule} {e e' : GrammarError} {p : CheckPoint}

/-- At one point one thing is wrong. -/
theorem FaultAt.unique (h : FaultAt rules p e) (h' : FaultAt rules p e') : e = e' := by
  cases h with
  | noRules _ => cases h'; rfl
  | shape _ _ => cases h'; rfl
  | redefined _ _ _ _ => cases h'; rfl
  | referenced _ hr hx =>
    cases h' with
    | referenced _ _ _ => rfl
    | reserved hr' hx' hmark =>
      obtain rfl := Option.some.inj (hr.symm.trans hr')
      obtain rfl := Option.some.inj (hx.symm.trans hx')
      simp at hmark
  | reserved hr hx hmark =>
    cases h' with
    | referenced _ hr' hx' =>
      obtain rfl := Option.some.inj (hr.symm.trans hr')
      obtain rfl := Option.some.inj (hx.symm.trans hx')
      simp at hmark
    | reserved hr' hx' _ =>
      obtain rfl := Option.some.inj (hr.symm.trans hr')
      obtain rfl := Option.some.inj (hx.symm.trans hx')
      rfl

/-- **There is one first fault only.** -/
theorem IsFirstFault.unique (h : IsFirstFault rules e) (h' : IsFirstFault rules e') : e = e' := by
  obtain ⟨p, hp, hfirst⟩ := h
  obtain ⟨q, hq, hfirst'⟩ := h'
  rcases p.before_or_eq_or_after q with hlt | rfl | hlt
  · exact absurd hlt (hfirst' p e hp)
  · exact hp.unique hq
  · exact absurd hlt (hfirst q e' hq)

/-! ## 3. What the checks find -/

theorem Symbol.defect?_eq_some_iff {augmented : Nonterminal} {i : Nat} {x : Symbol} :
    x.defect? augmented i = some e ↔
      (x = .nonterminal augmented ∧ e = .startReferenced i) ∨
        ((x = .endOfInput ∨ x = .epsilon) ∧ e = .reservedSymbol i x) := by
  cases x with
  | terminal t => simp [defect?]
  | nonterminal n => simp [defect?, eq_comm]
  | endOfInput => simp [defect?, eq_comm]
  | epsilon => simp [defect?, eq_comm]

section

variable {zero : Rule}

/-- A symbol that fails its check is a fault at its place. -/
theorem faultAt_of_symbol (hzero : rules[0]? = some zero) {i k : Nat} {r : Rule} {x : Symbol}
    (hr : rules[i]? = some r) (hx : r.rhs[k]? = some x) (h : x.defect? zero.lhs i = some e) :
    FaultAt rules (.rhs i k) e := by
  rcases Symbol.defect?_eq_some_iff.1 h with ⟨rfl, rfl⟩ | ⟨hmark, rfl⟩
  · exact .referenced hzero hr hx
  · exact .reserved hr hx hmark

/-- Where rule 0 has its shape, a fault lies in a rule: it redefines the augmented start symbol, or a
    symbol on its right fails its check. -/
theorem FaultAt.exists_rule (hzero : rules[0]? = some zero) {start : Nonterminal}
    (hshape : zero.rhs = [.nonterminal start]) (h : FaultAt rules p e) :
    (∃ i r, p = .lhs i ∧ rules[i]? = some r ∧ i ≠ 0 ∧ r.lhs = zero.lhs) ∨
      ∃ i k r x, p = .rhs i k ∧ rules[i]? = some r ∧ r.rhs[k]? = some x ∧
        x.defect? zero.lhs i = some e := by
  cases h with
  | noRules h =>
    rw [h] at hzero
    cases hzero
  | shape hzero' h =>
    obtain rfl := Option.some.inj (hzero.symm.trans hzero')
    exact absurd hshape (h start)
  | redefined hzero' hr hi hl =>
    obtain rfl := Option.some.inj (hzero.symm.trans hzero')
    exact .inl ⟨_, _, rfl, hr, hi, hl⟩
  | referenced hzero' hr hx =>
    obtain rfl := Option.some.inj (hzero.symm.trans hzero')
    exact .inr ⟨_, _, _, _, rfl, hr, hx, Symbol.defect?_eq_some_iff.2 (.inl ⟨rfl, rfl⟩)⟩
  | reserved hr hx hmark =>
    exact .inr ⟨_, _, _, _, rfl, hr, hx, Symbol.defect?_eq_some_iff.2 (.inr ⟨hmark, rfl⟩)⟩

/-- In a rule that passes its checks no left-hand side and no symbol fails one. -/
theorem Rule.defect?_eq_none_iff {augmented : Nonterminal} {i : Nat} {r : Rule} :
    r.defect? augmented i = none ↔ ¬ (i ≠ 0 ∧ r.lhs = augmented) ∧
      ∀ (k : Nat) (x : Symbol), r.rhs[k]? = some x → x.defect? augmented i = none := by
  unfold defect?
  split
  · rename_i h
    simp [h]
  · rename_i h
    rw [List.findSome?_eq_none_iff]
    constructor
    · intro hall
      exact ⟨h, fun k x hx => hall x (List.mem_of_getElem? hx)⟩
    · intro ⟨_, hall⟩ x hx
      obtain ⟨k, hk⟩ := List.mem_iff_getElem?.1 hx
      exact hall k x hk

/-- A rule that fails a check fails its first one at a point of this rule, and none before. -/
theorem Rule.exists_fault_of_defect? (hzero : rules[0]? = some zero) {i : Nat} {r : Rule}
    (hr : rules[i]? = some r) (h : r.defect? zero.lhs i = some e) :
    (FaultAt rules (.lhs i) e) ∨
      ¬ (i ≠ 0 ∧ r.lhs = zero.lhs) ∧ ∃ k, FaultAt rules (.rhs i k) e ∧
        ∀ (l : Nat) (x : Symbol), l < k → r.rhs[l]? = some x → x.defect? zero.lhs i = none := by
  unfold defect? at h
  split at h
  · rename_i hl
    obtain rfl := Option.some.inj h
    exact .inl (.redefined hzero hr hl.1 hl.2)
  · rename_i hl
    obtain ⟨k, x, hx, hdefect, hbefore⟩ := exists_first_of_findSome? h
    exact .inr ⟨hl, k, faultAt_of_symbol hzero hr hx hdefect, hbefore⟩

/-- What the checks of the rules find first is the defect of a rule, and no rule before has one. -/
theorem exists_defect_of_firstDefect? {augmented : Nonterminal}
    (h : firstDefect? augmented rules = some e) :
    ∃ i r, rules[i]? = some r ∧ r.defect? augmented i = some e ∧
      ∀ (j : Nat) (s : Rule), j < i → rules[j]? = some s → s.defect? augmented j = none := by
  obtain ⟨i, ⟨r, i'⟩, hp, hdefect, hbefore⟩ := exists_first_of_findSome? h
  obtain ⟨hr, rfl⟩ : rules[i]? = some r ∧ i = i' := by simpa [List.getElem?_zipIdx] using hp
  refine ⟨i, r, hr, hdefect, fun j s hj hs => hbefore j (s, j) hj ?_⟩
  simp [List.getElem?_zipIdx, hs]

/-- **What the checks of the rules find is the first fault**, if rule 0 has its shape. -/
theorem isFirstFault_of_firstDefect? (hzero : rules[0]? = some zero) {start : Nonterminal}
    (hshape : zero.rhs = [.nonterminal start]) (h : firstDefect? zero.lhs rules = some e) :
    IsFirstFault rules e := by
  obtain ⟨i, r, hr, hdefect, hbefore⟩ := exists_defect_of_firstDefect? h
  have hearlier : ∀ j s, j < i → rules[j]? = some s → ¬ (j ≠ 0 ∧ s.lhs = zero.lhs) ∧
      ∀ (k : Nat) (x : Symbol), s.rhs[k]? = some x → x.defect? zero.lhs j = none :=
    fun j s hj hs => Rule.defect?_eq_none_iff.1 (hbefore j s hj hs)
  rcases Rule.exists_fault_of_defect? hzero hr hdefect with hl | ⟨hl, k, hk, hleft⟩
  · refine ⟨.lhs i, hl, fun q e' hq hlt => ?_⟩
    rcases hq.exists_rule hzero hshape with ⟨j, s, rfl, hs, hj, hs'⟩ | ⟨j, l, s, x, rfl, hs, hx, hx'⟩
    · exact (hearlier j s hlt hs).1 ⟨hj, hs'⟩
    · exact absurd ((hearlier j s hlt hs).2 l x hx) (by simp [hx'])
  · refine ⟨.rhs i k, hk, fun q e' hq hlt => ?_⟩
    rcases hq.exists_rule hzero hshape with ⟨j, s, rfl, hs, hj, hs'⟩ | ⟨j, l, s, x, rfl, hs, hx, hx'⟩
    · rcases Nat.lt_or_eq_of_le (show j ≤ i from hlt) with hlt | rfl
      · exact (hearlier j s hlt hs).1 ⟨hj, hs'⟩
      · obtain rfl := Option.some.inj (hr.symm.trans hs)
        exact hl ⟨hj, hs'⟩
    · rcases (show j < i ∨ (j = i ∧ l < k) from hlt) with hji | ⟨rfl, hlk⟩
      · exact absurd ((hearlier j s hji hs).2 l x hx) (by simp [hx'])
      · obtain rfl := Option.some.inj (hr.symm.trans hs)
        exact absurd (hleft l x hlk hx) (by simp [hx'])

end

/-- **The error of a list of rules is its first fault.** -/
theorem isFirstFault_of_ofRules (h : Grammar.ofRules rules = .error e) : IsFirstFault rules e := by
  unfold Grammar.ofRules at h
  split at h
  · obtain rfl := Except.error.inj h
    refine ⟨.list, .noRules rfl, fun q e' _ hlt => ?_⟩
    cases q <;> exact hlt
  · rename_i augmented start rest
    split at h
    · rename_i e' hdefect
      obtain rfl := Except.error.inj h
      exact isFirstFault_of_firstDefect? List.getElem?_cons_zero rfl hdefect
    · cases h
  · rename_i zero rest hshape
    obtain rfl := Except.error.inj h
    have hne : ∀ n, zero.rhs ≠ [.nonterminal n] := by
      intro n hn
      exact hshape zero.lhs n (by rw [← hn])
    refine ⟨.augmentingRule, .shape List.getElem?_cons_zero hne, fun q e' hq hlt => ?_⟩
    cases hq with
    | noRules hnil => cases hnil
    | shape _ _ => exact hlt
    | redefined _ _ _ _ => exact hlt
    | referenced _ _ _ => exact hlt
    | reserved _ _ _ => exact hlt

/-! ## 4. Lists without a fault -/

/-- Rule 0 rewrites a nonterminal to one nonterminal. The nonterminal that it rewrites is on the left of
    no other rule and on the right of none, and neither mark is on the right of any. -/
def IsAugmented (rules : List Rule) : Prop :=
  ∃ augmented start, rules[0]? = some ⟨augmented, [.nonterminal start]⟩ ∧
    (∀ (i : Nat) (r : Rule), rules[i]? = some r → i ≠ 0 → r.lhs ≠ augmented) ∧
    ∀ r ∈ rules, .nonterminal augmented ∉ r.rhs ∧ .endOfInput ∉ r.rhs ∧ .epsilon ∉ r.rhs

/-- In such a list nothing is wrong at any point. -/
theorem IsAugmented.not_faultAt (h : IsAugmented rules) : ¬ FaultAt rules p e := by
  obtain ⟨augmented, start, hzero, hlhs, hrhs⟩ := h
  intro hp
  rcases hp.exists_rule hzero rfl with ⟨i, r, _, hr, hi, hl⟩ | ⟨i, k, r, x, _, hr, hx, hdefect⟩
  · exact hlhs i r hr hi hl
  · obtain ⟨hstart, hend, hempty⟩ := hrhs r (List.mem_of_getElem? hr)
    have hmem : x ∈ r.rhs := List.mem_of_getElem? hx
    rcases Symbol.defect?_eq_some_iff.1 hdefect with ⟨rfl, _⟩ | ⟨rfl | rfl, _⟩
    · exact hstart hmem
    · exact hend hmem
    · exact hempty hmem

theorem Grammar.isAugmented (g : Grammar) : IsAugmented g.rules.toList := by
  refine ⟨g.augmentedStart, g.start, by rw [Array.getElem?_toList, g.rule_zero],
    fun i r hr hi => lhs_ne_augmentedStart (by rwa [Array.getElem?_toList] at hr) hi, fun r hr => ?_⟩
  obtain ⟨i, hi⟩ := mem_rules_iff.1 hr
  refine ⟨fun hm => ?_, fun hm => ?_, fun hm => ?_⟩
  · obtain ⟨t, ht⟩ | ⟨n, hn, hne⟩ := mem_rhs hi hm
    · cases ht
    · exact hne (Symbol.nonterminal.inj hn).symm
  · obtain ⟨t, ht⟩ | ⟨n, hn, _⟩ := mem_rhs hi hm
    · cases ht
    · cases hn
  · obtain ⟨t, ht⟩ | ⟨n, hn, _⟩ := mem_rhs hi hm
    · cases ht
    · cases hn

/-- **The lists of rules that are grammars.** -/
theorem exists_ofRules_iff : (∃ g, Grammar.ofRules rules = .ok g) ↔ IsAugmented rules := by
  constructor
  · intro ⟨g, hg⟩
    exact Grammar.ofRules_eq_ok_iff.1 hg ▸ g.isAugmented
  · intro h
    cases hg : Grammar.ofRules rules with
    | ok g => exact ⟨g, rfl⟩
    | error e =>
      obtain ⟨p, hp, _⟩ := isFirstFault_of_ofRules hg
      exact absurd hp h.not_faultAt

theorem ofRules_eq_error_iff : Grammar.ofRules rules = .error e ↔ IsFirstFault rules e := by
  constructor
  · exact isFirstFault_of_ofRules
  · intro h
    cases hg : Grammar.ofRules rules with
    | ok g =>
      obtain ⟨p, hp, _⟩ := h
      exact absurd hp (exists_ofRules_iff.1 ⟨g, hg⟩).not_faultAt
    | error e' => rw [(isFirstFault_of_ofRules hg).unique h]

/-! ## 5. What a grammar keeps beside its rules -/

/-- The nonterminals on the right of the rules, rule by rule from left to right. -/
def referencesOf (rules : List Rule) : List Nonterminal :=
  rules.flatMap fun r => r.rhs.filterMap Symbol.nonterminal?

/-- What the grammar says of its rules is what the list says. -/
structure Grammar.Indexes (g : Grammar) (rules : List Rule) : Prop where
  rules_eq : g.rules.toList = rules
  /-- The rules of a nonterminal, in order. -/
  rulesFor : ∀ n, (g.rulesFor n).Pairwise (· < ·) ∧
    ∀ i, i ∈ g.rulesFor n ↔ ∃ r, rules[i]? = some r ∧ r.lhs = n
  /-- The first place of a rule. -/
  findRule? : ∀ lhs rhs,
    (∀ i, g.findRule? lhs rhs = some i ↔ IsLeast {j | rules[j]? = some ⟨lhs, rhs⟩} i) ∧
      (g.findRule? lhs rhs = none ↔ ⟨lhs, rhs⟩ ∉ rules)
  terminals : ListsFirsts (rules.flatMap Rule.terminals) g.terminals
  nonterminals : ListsFirsts (rules.flatMap Rule.nonterminals) g.nonterminals
  /-- A nonterminal without a rule, with the first rule that refers to it. -/
  mem_undefined : ∀ n i, (n, i) ∈ g.undefinedNonterminals ↔ (∀ r ∈ rules, r.lhs ≠ n) ∧
    IsLeast {j | ∃ r, rules[j]? = some r ∧ .nonterminal n ∈ r.rhs} i
  nodup_undefined : (g.undefinedNonterminals.map Prod.fst).Nodup
  ordered_undefined : g.undefinedNonterminals.Pairwise fun p q =>
    (referencesOf rules).idxOf p.1 < (referencesOf rules).idxOf q.1

namespace Grammar

variable {g : Grammar} {n : Nonterminal} {i : Nat}

theorem pairwise_rulesFor (g : Grammar) (n : Nonterminal) : (g.rulesFor n).Pairwise (· < ·) := by
  rw [rulesFor_eq, numbered]
  refine List.Pairwise.sublist (List.filter_sublist.map Prod.snd) ?_
  rw [List.zipIdx_map_snd]
  exact List.pairwise_lt_range'

/-- The first rule with these two sides. -/
theorem isLeast_findRule? {lhs : Nonterminal} {rhs : List Symbol} :
    g.findRule? lhs rhs = some i ↔ IsLeast {j | g.rules.toList[j]? = some ⟨lhs, rhs⟩} i := by
  have hset : {j : Nat | g.rules.toList[j]? = some ⟨lhs, rhs⟩} =
      {j : Nat | ∃ r, g.rules.toList[j]? = some r ∧ (r == ⟨lhs, rhs⟩) = true} := by
    refine Set.ext fun j => ?_
    simp
  rw [hset]
  exact findIdx?_eq_some_iff_isLeast

/-- The first rule that refers to a nonterminal. -/
theorem isLeast_firstReference? :
    g.firstReference? n = some i ↔
      IsLeast {j | ∃ r, g.rules.toList[j]? = some r ∧ .nonterminal n ∈ r.rhs} i := by
  have hset : {j : Nat | ∃ r, g.rules.toList[j]? = some r ∧ Symbol.nonterminal n ∈ r.rhs} =
      {j : Nat | ∃ r, g.rules.toList[j]? = some r ∧ r.rhs.contains (.nonterminal n) = true} := by
    simp only [List.contains_iff_mem]
  rw [hset]
  exact findIdx?_eq_some_iff_isLeast

theorem not_isDefined_iff : (!g.isDefined n) = true ↔ ∀ r ∈ g.rules.toList, r.lhs ≠ n := by
  rw [Bool.not_eq_true', Bool.eq_false_iff, ne_eq, isDefined_iff]
  simp

/-- **A nonterminal is listed with a rule if no rule rewrites it and this is the first rule that refers
    to it.** -/
theorem mem_undefinedNonterminals : (n, i) ∈ g.undefinedNonterminals ↔
    (∀ r ∈ g.rules.toList, r.lhs ≠ n) ∧
      IsLeast {j | ∃ r, g.rules.toList[j]? = some r ∧ .nonterminal n ∈ r.rhs} i := by
  have hmem : (n, i) ∈ g.undefinedNonterminals ↔
      n ∈ g.nonterminals ∧ (!g.isDefined n) = true ∧ g.firstReference? n = some i := by
    simp only [undefinedNonterminals, List.mem_filterMap, List.mem_filter, Option.map_eq_some_iff,
      Prod.mk.injEq]
    constructor
    · intro ⟨m, ⟨hm, hdef⟩, k, hk, hmn, hki⟩
      subst hmn hki
      exact ⟨hm, hdef, hk⟩
    · intro ⟨hn, hdef, hi⟩
      exact ⟨n, ⟨hn, hdef⟩, i, hi, rfl, rfl⟩
  rw [hmem, not_isDefined_iff, isLeast_firstReference?]
  constructor
  · exact fun h => h.2
  · intro h
    obtain ⟨r, hr, hn⟩ := h.2.1
    exact ⟨mem_nonterminalsOf.2 ⟨r, List.mem_of_getElem? hr, .inr hn⟩, h⟩

/-- A nonterminal without a rule stands on the right of rules only. -/
theorem filter_nonterminals (g : Grammar) :
    (g.rules.toList.flatMap Rule.nonterminals).filter (fun n => !g.isDefined n) =
      (referencesOf g.rules.toList).filter fun n => !g.isDefined n := by
  rw [referencesOf, List.filter_flatMap, List.filter_flatMap]
  refine List.flatMap_congr fun r hr => ?_
  have hlhs : (!g.isDefined r.lhs) = false := by
    rw [Bool.not_eq_false']
    exact isDefined_iff.2 ⟨r, Array.mem_toList_iff.1 hr, rfl⟩
  rw [Rule.nonterminals, List.filter_cons, hlhs]
  rfl

/-- **The nonterminals without rules are listed in order of first reference.** -/
theorem map_fst_undefinedNonterminals (g : Grammar) :
    g.undefinedNonterminals.map Prod.fst =
      (referencesOf g.rules.toList).eraseDups.filter fun n => !g.isDefined n := by
  have hall : ∀ n ∈ g.nonterminals.filter (fun n => !g.isDefined n),
      ((g.firstReference? n).map fun i => (n, i)).map Prod.fst = some n := by
    intro n hn
    obtain ⟨hn, hdef⟩ := List.mem_filter.1 hn
    obtain ⟨r, hr, rfl | hnr⟩ := mem_nonterminalsOf.1 hn
    · exact absurd rfl (not_isDefined_iff.1 hdef r hr)
    · cases hi : g.firstReference? n with
      | some i => rfl
      | none =>
        have hnone := List.findIdx?_eq_none_iff.1 hi r hr
        rw [List.contains_iff_mem.2 hnr] at hnone
        cases hnone
  rw [undefinedNonterminals, List.map_filterMap, List.filterMap_congr hall, List.filterMap_some,
    nonterminals, nonterminalsOf, Numbering.toList_ofList, filter_eraseDups, filter_nonterminals,
    filter_eraseDups]

/-- **A grammar says of its rules what their list says.** -/
theorem indexes_toList (g : Grammar) : g.Indexes g.rules.toList where
  rules_eq := rfl
  rulesFor n := ⟨g.pairwise_rulesFor n, fun i => by
    rw [mem_rulesFor]
    simp only [Array.getElem?_toList]⟩
  findRule? lhs rhs := ⟨fun i => isLeast_findRule?, List.idxOf?_eq_none_iff⟩
  terminals := listsFirsts_ofList _
  nonterminals := listsFirsts_ofList _
  mem_undefined n i := mem_undefinedNonterminals
  nodup_undefined := by
    rw [map_fst_undefinedNonterminals, ← Numbering.toList_ofList]
    exact (Numbering.nodup_toList _).filter _
  ordered_undefined := by
    have h := (pairwise_eraseDups (referencesOf g.rules.toList)).filter fun n => !g.isDefined n
    rw [← map_fst_undefinedNonterminals, List.pairwise_map] at h
    exact h

end Grammar

/-- **The verdict on a list of rules.** A list is read as a grammar exactly if it is augmented, and else
    its first fault is the error. The grammar has these rules, and what it keeps beside them is what the
    list says. -/
theorem ofRules_verdict (rules : List Rule) :
    ((∃ g, Grammar.ofRules rules = .ok g) ↔ IsAugmented rules) ∧
      (∀ e, Grammar.ofRules rules = .error e ↔ IsFirstFault rules e) ∧
      ∀ g, Grammar.ofRules rules = .ok g → g.Indexes rules := by
  refine ⟨exists_ofRules_iff, fun e => ofRules_eq_error_iff, fun g hg => ?_⟩
  exact Grammar.ofRules_eq_ok_iff.1 hg ▸ g.indexes_toList

/-- Rule 0 refers to its own left-hand side, and that comes before what is wrong with rule 1. -/
example : Grammar.ofRules [⟨0, [.nonterminal 0]⟩, ⟨0, [.endOfInput]⟩] = .error (.startReferenced 0) := rfl

end ShiftReduce
