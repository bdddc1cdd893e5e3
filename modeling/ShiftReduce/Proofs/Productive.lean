import ShiftReduce.Proofs.Completeness
/-!
# Productive grammars

In a productive grammar every nonterminal derives a terminal string. Then whatever some item is
valid for opens a sentence: each terminal string that it becomes is the beginning of a terminal
string derived from the start symbol (`Item.ValidFor.exists_sentence`). Without productivity an item
that is valid for `γ` still says that the augmented start symbol becomes something that opens with
`γ` (`Item.ValidFor.exists_rewrites`).
-/

namespace ShiftReduce

variable {g : Grammar}

/-! ## 1. Strings over the grammar -/

/-- The string holds terminals and nonterminals of the grammar only. -/
def Grammar.Over (g : Grammar) (α : List Symbol) : Prop :=
  ∀ x ∈ α, x.isTerminal = true ∨ ∃ n ∈ g.nonterminals, x = .nonterminal n

namespace Grammar

theorem over_rhs {r : Rule} (hr : r ∈ g.rules.toList) : g.Over r.rhs := by
  intro x hx
  obtain ⟨i, hi⟩ := mem_rules_iff.1 hr
  rcases g.mem_rhs hi hx with ⟨id, rfl⟩ | ⟨n, rfl, _⟩
  · exact .inl rfl
  · exact .inr ⟨n, mem_nonterminalsOf.2 ⟨r, hr, .inr hx⟩, rfl⟩

theorem over_augmentedStart (g : Grammar) : g.Over [.nonterminal g.augmentedStart] := by
  intro x hx
  have hmem : g.augmentedStart ∈ g.nonterminals :=
    mem_nonterminalsOf.2 ⟨_, mem_rules g.rule_zero, .inl rfl⟩
  exact .inr ⟨_, hmem, List.mem_singleton.1 hx⟩

/-- **What a string over the grammar becomes is over the grammar.** -/
theorem Over.rewrites {α β : List Symbol} (hα : g.Over α) (h : Rewrites g.rules.toList α β) :
    g.Over β := by
  intro x hx
  rcases h.mem_or_mem_rhs hx with hx | ⟨r, hr, hx⟩
  · exact hα x hx
  · exact over_rhs hr x hx

/-! ## 2. Productive grammars -/

/-- Every nonterminal of the grammar derives a terminal string. -/
def Productive (g : Grammar) : Prop :=
  ∀ n ∈ g.nonterminals,
    ∃ w, (∀ x ∈ w, x.isTerminal = true) ∧ Rewrites g.rules.toList [.nonterminal n] w

/-- **In a productive grammar every string over it derives a terminal string.** -/
theorem Productive.exists_terminals (h : g.Productive) {α : List Symbol} (hα : g.Over α) :
    ∃ w, (∀ x ∈ w, x.isTerminal = true) ∧ Rewrites g.rules.toList α w := by
  induction α with
  | nil => exact ⟨[], fun x hx => absurd hx List.not_mem_nil, .refl⟩
  | cons x α ih =>
    obtain ⟨w, hw, hrw⟩ := ih fun y hy => hα y (List.mem_cons_of_mem x hy)
    rcases hα x List.mem_cons_self with hx | ⟨n, hn, rfl⟩
    · exact ⟨x :: w, List.forall_mem_cons.2 ⟨hx, hw⟩, Rewrites.append (.refl (α := [x])) hrw⟩
    · obtain ⟨u, hu, hru⟩ := h n hn
      exact ⟨u ++ w, List.forall_mem_append.2 ⟨hu, hw⟩, hru.append hrw⟩

/-- **What opens a derived string opens one that is terminal behind it.** -/
theorem Productive.exists_terminals_behind (h : g.Productive) {α β γ : List Symbol}
    (hα : g.Over α) (hd : Rewrites g.rules.toList α (β ++ γ)) :
    ∃ w, (∀ x ∈ w, x.isTerminal = true) ∧ Rewrites g.rules.toList α (β ++ w) := by
  have hγ : g.Over γ := fun x hx => hα.rewrites hd x (List.mem_append_right β hx)
  obtain ⟨w, hw, hγw⟩ := h.exists_terminals hγ
  exact ⟨w, hw, hd.trans (.append .refl hγw)⟩

/-- A terminal string that the augmented start symbol derives is derived from the start symbol. -/
theorem rewrites_start {w : List Symbol} (hw : ∀ x ∈ w, x.isTerminal = true)
    (h : Rewrites g.rules.toList [.nonterminal g.augmentedStart] w) :
    Rewrites g.rules.toList [.nonterminal g.start] w := by
  rcases h.head with rfl | ⟨r, hr, hlhs, hrhs⟩
  · cases hw _ List.mem_cons_self
  · obtain ⟨i, hi⟩ := mem_rules_iff.1 hr
    by_cases h0 : i = 0
    · subst h0
      obtain rfl : r = _ := Option.some.inj (hi.symm.trans g.rule_zero)
      exact hrhs
    · exact absurd hlhs (g.lhs_ne_augmentedStart hi h0)

end Grammar

/-! ## 3. Viable prefixes open sentences -/

/-- The augmented start symbol becomes something that opens with what stands in front of an entered
    rule and its left-hand side. -/
theorem Entered.exists_rewrites {δ : List Symbol} {i : Nat} (h : Entered g δ i) {r : Rule}
    (hr : g.rules[i]? = some r) :
    ∃ τ, Rewrites g.rules.toList [.nonterminal g.augmentedStart]
      (δ ++ .nonterminal r.lhs :: τ) := by
  induction h generalizing r with
  | start =>
    obtain rfl : r = _ := Option.some.inj (hr.symm.trans g.rule_zero)
    exact ⟨[], .refl⟩
  | @enter δ η τ i j q s _ hq hs hb ih =>
    obtain rfl : r = s := Option.some.inj (hr.symm.trans hs)
    obtain ⟨ρ, hρ⟩ := ih hq
    refine ⟨τ ++ ρ, ?_⟩
    have hstep := RewritesOnce.replace δ ρ q (Grammar.mem_rules hq)
    rw [hb] at hstep
    simpa using Rewrites.tail hρ hstep

/-- **The augmented start symbol becomes something that opens with whatever an item is valid
    for.** -/
theorem Item.ValidFor.exists_rewrites {γ : List Symbol} {i : Item} (h : i.ValidFor g γ) :
    ∃ τ, Rewrites g.rules.toList [.nonterminal g.augmentedStart] (γ ++ τ) := by
  obtain ⟨δ, r, he, hr, _, rfl⟩ := h
  obtain ⟨τ, hτ⟩ := he.exists_rewrites hr
  refine ⟨r.rhs.drop i.dot ++ τ, ?_⟩
  have hstep := Rewrites.tail hτ (.replace δ τ r (Grammar.mem_rules hr))
  rwa [← List.take_append_drop i.dot r.rhs, ← List.append_assoc, List.append_assoc] at hstep

/-- **In a productive grammar the terminal strings of a viable prefix open sentences.** -/
theorem Item.ValidFor.exists_sentence (hprod : g.Productive) {γ u : List Symbol} {i : Item}
    (h : i.ValidFor g γ) (hγ : Rewrites g.rules.toList γ u) (hu : ∀ x ∈ u, x.isTerminal = true) :
    ∃ v, (∀ x ∈ v, x.isTerminal = true) ∧
      Rewrites g.rules.toList [.nonterminal g.start] (u ++ v) := by
  obtain ⟨τ, hτ⟩ := h.exists_rewrites
  obtain ⟨v, hv, hγv⟩ := hprod.exists_terminals_behind g.over_augmentedStart hτ
  exact ⟨v, hv, Grammar.rewrites_start (List.forall_mem_append.2 ⟨hu, hv⟩)
    (hγv.trans (.append hγ .refl))⟩

/-! ## 4. Sums -/

/-- In `sums` both nonterminals derive `n`. -/
theorem productive_sums : sums.Productive := by
  have hn : Rewrites sums.rules.toList [.nonterminal 1] [.terminal 1] :=
    .of_mem (r := ⟨1, [.terminal 1]⟩) (by decide)
  have hs : Rewrites sums.rules.toList [.nonterminal 0] [.nonterminal 1] :=
    .of_mem (r := ⟨0, [.nonterminal 1]⟩) (by decide)
  have hall : ∀ n ∈ sums.nonterminals, n = 0 ∨ n = 1 := by decide +kernel
  intro n hmem
  rcases hall n hmem with rfl | rfl
  · exact ⟨[.terminal 1], by decide, hs.trans hn⟩
  · exact ⟨[.terminal 1], by decide, hn⟩

end ShiftReduce
