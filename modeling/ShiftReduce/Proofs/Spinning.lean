import ShiftReduce.Proofs.Spans
/-!
# Parsers that spin

A rule `A -> A α` whose `α` can vanish lets a machine reduce `α` from nothing and then the rule, and
stand where it stood. `SpinsAt` says when a parser gets there: the rule has been entered and its
left-hand side read at some position of the input. A parser that gets there never finishes
(`run_of_spins`).
-/

namespace ShiftReduce

/-- At position `n` of the input a self-recursive rule whose rest can vanish has been entered, and
    its left-hand side has been read. -/
inductive SpinsAt (g : Grammar) (input : List Symbol) (n : Nat) : Prop where
  | intro {i : Nat} {A : Nonterminal} {α δ : List Symbol}
      (hr : g.rules[i]? = some ⟨A, .nonterminal A :: α⟩) (hα : Rewrites g.rules.toList α [])
      (he : Entered g δ i) (hs : Spans g input (δ ++ [.nonterminal A]) 0 n) : SpinsAt g input n

variable {g : Grammar} {b : TableBuild} {input : List Symbol}

/-! ## 1. Getting there -/

/-- **A machine without conflicts reads what is spanned in front of an entered rule**, from the
    start on. -/
theorem moves_of_entered (hb : TableBuild.ofGrammar g = .ok b) (hdiag : b.diagnostics = [])
    {δ : List Symbol} {i : Nat} (he : Entered g δ i) {r : Rule} (hr : g.rules[i]? = some r)
    {η ζ : List Symbol} (hrhs : r.rhs = η ++ ζ) {e : Nat} (hs : Spans g input (δ ++ η) 0 e) :
    ∃ ms c, (Machine.mk g b.tables).Moves (.initial input) ms c ∧
      c.StandsAt g input (δ ++ η) e := by
  induction he generalizing r η ζ e with
  | start =>
    exact moves_of_spans hb hdiag (η := []) hs .start hr hrhs (standsAt_initial g input)
  | @enter δ η' τ i j q s he hq hs' hbody ih =>
    obtain rfl : r = s := Option.some.inj (hr.symm.trans hs')
    obtain ⟨d, hfront, hown⟩ := hs.exists_append
    obtain ⟨ms, c, hm, hc⟩ := ih hq hbody hfront
    obtain ⟨ns, c', hm', hc'⟩ := moves_of_spans hb hdiag (η := []) hown
      (.enter he hq hs' hbody) hs' hrhs (by rwa [List.append_nil])
    rw [List.append_nil] at hc'
    exact ⟨ms ++ ns, c', hm.trans hm', hc'⟩

/-! ## 2. Going round -/

/-- What can vanish spans nothing at a position whose symbol can follow each of its
    nonterminals. -/
theorem spans_of_vanishing {α : List Symbol} (h : Rewrites g.rules.toList α []) {a : Nat}
    (hf : ∀ η n τ, α = η ++ .nonterminal n :: τ → g.Follows n (lookaheadAt input a)) :
    Spans g input α a a := by
  have hy := rewrites_iff_yields.1 h
  clear h
  generalize hw : ([] : List Symbol) = w at hy
  induction hy with
  | nil => exact .nil a
  | keep x _ _ => cases hw
  | @unfold r xs u v hr hu hv ihu ihv =>
    obtain ⟨rfl, rfl⟩ := List.append_eq_nil_iff.1 hw.symm
    have hlhs := hf [] r.lhs xs rfl
    refine .nonterminal hr (ihu ?_ rfl) hlhs (ihv ?_ rfl)
    · intro η n τ hn
      have hsplit := hu.rewrites
      rw [hn] at hsplit
      exact hlhs.of_rhs hr hn (Rewrites.of_append_nil (α := [_]) hsplit.of_append_nil.2).2
    · intro η n τ hn
      exact hf (.nonterminal r.lhs :: η) n τ (by rw [hn, List.cons_append])

/-- The last symbol of what spans the input up to a position can be followed by what stands
    there. -/
theorem Spans.follows {α : List Symbol} {n : Nonterminal} {a e : Nat}
    (h : Spans g input (α ++ [.nonterminal n]) a e) : g.Follows n (lookaheadAt input e) := by
  obtain ⟨d, _, hn⟩ := h.exists_append
  cases hn with
  | nonterminal hr hd hf hnil =>
    cases hnil
    exact hf

/-- **A machine that gets there goes round**: it makes moves that lead back to where it stands. -/
theorem exists_round (hb : TableBuild.ofGrammar g = .ok b) (hdiag : b.diagnostics = []) {n : Nat}
    (h : SpinsAt g input n) :
    ∃ ms c ns, (Machine.mk g b.tables).Moves (.initial input) ms c ∧ ns ≠ [] ∧
      (Machine.mk g b.tables).Moves c ns c := by
  obtain @⟨i, A, α, δ, hr, hα, he, hs⟩ := h
  have hmem : (⟨A, .nonterminal A :: α⟩ : Rule) ∈ g.rules.toList :=
    Grammar.mem_rules hr
  obtain ⟨ms, c, hm, hc⟩ := moves_of_entered hb hdiag he hr (η := [.nonterminal A]) rfl hs
  have hloop : Spans g input α n n := by
    refine spans_of_vanishing hα fun η m τ hτ => ?_
    have hvanish : Rewrites g.rules.toList (η ++ ([.nonterminal m] ++ τ)) [] := hτ ▸ hα
    exact hs.follows.of_rhs hmem (η := .nonterminal A :: η) (by rw [hτ]; rfl)
      hvanish.of_append_nil.2.of_append_nil.2
  obtain ⟨ns, c₁, hm₁, hc₁⟩ := moves_of_spans hb hdiag hloop (η := [.nonterminal A]) (ζ := [])
    he hr (by simp) hc
  have h0 : i ≠ 0 := Grammar.ne_zero_of_mem_rhs hr hr List.mem_cons_self
  rw [List.append_assoc] at hc₁
  obtain ⟨target, c₂, hstep, hc₂⟩ := hc₁.exists_reduce hb hdiag hr he h0 hs.follows
  rw [hc₂.unique hc] at hstep
  exact ⟨ms, c, ns ++ [.reduce i target], hm, by simp, hm₁.trans (.single hstep)⟩

/-- Going round often enough makes any number of moves. -/
theorem exists_moves_of_round {m : Machine} {c : Config} {ns : List Move} (hne : ns ≠ [])
    (h : m.Moves c ns c) (k : Nat) : ∃ ms, m.Moves c ms c ∧ k ≤ ms.length := by
  induction k with
  | zero => exact ⟨[], .refl c, Nat.le_refl 0⟩
  | succ k ih =>
    obtain ⟨ms, hm, hk⟩ := ih
    refine ⟨ns ++ ms, h.trans hm, ?_⟩
    have hpos := List.length_pos_of_ne_nil hne
    rw [List.length_append]
    omega

/-- **A machine that gets there exceeds every bound.** -/
theorem run_of_spins (hb : TableBuild.ofGrammar g = .ok b) (hdiag : b.diagnostics = []) {n : Nat}
    (h : SpinsAt g input n) (bound : Nat) :
    (Machine.mk g b.tables).run bound input = .error (.boundExceeded bound) := by
  obtain ⟨ms, c, ns, hm, hne, hround⟩ := exists_round hb hdiag h
  obtain ⟨ls, hl, hk⟩ := exists_moves_of_round hne hround bound
  refine Machine.run_of_exceeds (hm.trans hl) ?_
  rw [List.length_append]
  omega

end ShiftReduce
