import ShiftReduce.Proofs.Productive
import ShiftReduce.Proofs.SeenInput
/-!
# Errors are found as early as possible

A parser for a productive grammar rejects at the first symbol with which no sentence goes on
(`parse_rejected_earliest`). What was read before opens a sentence, since the stack spells a viable
prefix that becomes it. And no sentence goes on with the rejected symbol: the run over that sentence
would have seen the same lookaheads and rejected as well (`not_rewrites_of_rejected`), though parsers
accept every sentence.
-/

namespace ShiftReduce

variable {g : Grammar} {b : TableBuild} {input : List Symbol} {ms : List Move} {c : Config}

/-! ## 1. What was read opens a sentence -/

/-- **What a machine has read opens a sentence**, in a productive grammar. -/
theorem exists_sentence_of_moves (hb : TableBuild.ofGrammar g = .ok b) (hprod : g.Productive)
    (hm : (Machine.mk g b.tables).Moves (.initial input) ms c) :
    c.position ≤ input.length ∧ ∃ v, (∀ x ∈ input.take c.position ++ v, x.isTerminal = true) ∧
      Rewrites g.rules.toList [.nonterminal g.start] (input.take c.position ++ v) := by
  obtain ⟨γ, h⟩ := exists_accounts hb hm
  obtain ⟨i, hv⟩ := h.stands.spells.exists_validFor
  have hread := (h.derives [] fun x hx => absurd hx List.not_mem_nil).rewrites
  rw [List.append_nil, List.append_nil] at hread
  obtain ⟨v, hvt, hs⟩ := hv.exists_sentence hprod hread h.terminals
  exact ⟨h.position_le, v, List.forall_mem_append.2 ⟨h.terminals, hvt⟩, hs⟩

/-! ## 2. No sentence goes on -/

/-- **No sentence shows the lookaheads of a rejected input**: the run over it would be rejected. -/
theorem not_rewrites_of_rejected (hb : TableBuild.ofGrammar g = .ok b) (hdiag : b.diagnostics = [])
    (hm : (Machine.mk g b.tables).Moves (.initial input) ms c)
    (hs : (Machine.mk g b.tables).step c = .reject) {w : List Symbol}
    (hw : ∀ x ∈ w, x.isTerminal = true)
    (hseen : ∀ a ≤ c.position, lookaheadAt w a = lookaheadAt input a) :
    ¬ Rewrites g.rules.toList [.nonterminal g.start] w := by
  intro hd
  obtain ⟨is, hi⟩ := (rewrites_iff_yields.1 hd).exists_yieldsBy
  obtain ⟨m, r, hrun, hacc, _⟩ := exists_run_of_yieldsBy hb hdiag hi hw
  have haccepts := hrun (max m ms.length + 1) (Nat.lt_succ_of_le (Nat.le_max_left _ _))
  rw [Machine.run_eq_of_seen hm (.reject hs) hseen
    (Nat.lt_succ_of_le (Nat.le_max_right _ _))] at haccepts
  rw [← Except.ok.inj haccepts] at hacc
  cases hacc

/-- **No sentence goes on with the rejected symbol** behind what was read. -/
theorem not_rewrites_append_of_rejected (hb : TableBuild.ofGrammar g = .ok b)
    (hdiag : b.diagnostics = []) (hm : (Machine.mk g b.tables).Moves (.initial input) ms c)
    (hs : (Machine.mk g b.tables).step c = .reject) {v : List Symbol}
    (hv : ∀ x ∈ v, x.isTerminal = true) (hhead : v.head?.getD .endOfInput = c.lookahead) :
    ¬ Rewrites g.rules.toList [.nonterminal g.start] (input.take c.position ++ v) := by
  obtain ⟨γ, h⟩ := exists_accounts hb hm
  exact not_rewrites_of_rejected hb hdiag hm hs (List.forall_mem_append.2 ⟨h.terminals, hv⟩)
    (lookaheadAt_take_append h.position_le (hhead.trans hm.lookahead_eq))

/-! ## 3. Parsers -/

/-- **Parsers of productive grammars report errors at the earliest position**: what stands before
    the rejected symbol opens a sentence, nothing that is derived goes on with that symbol if it is
    a terminal, and if it is the end, what stands before it is not derived. -/
theorem parse_rejected_earliest {p : Parser} (hp : Parser.build g = .ok p) (hprod : g.Productive)
    {k : Nat} {r : Run} (hr : p.parse k input = .ok r) {state n : Nat} {a : Symbol}
    (ho : r.outcome = .rejected state a n) :
    (n ≤ input.length ∧ ∃ v, (∀ x ∈ input.take n ++ v, x.isTerminal = true) ∧
      Rewrites g.rules.toList [.nonterminal g.start] (input.take n ++ v)) ∧
    (a.isTerminal = true → ∀ v,
      ¬ Rewrites g.rules.toList [.nonterminal g.start] (input.take n ++ a :: v)) ∧
    (a = .endOfInput → ¬ Rewrites g.rules.toList [.nonterminal g.start] (input.take n)) := by
  obtain rfl := Parser.grammar_of_build hp
  obtain ⟨ms, c, hm, _, hf⟩ := Machine.exists_moves_of_run hr
  cases hf with
  | accept hs => cases ho
  | reject hs =>
    cases ho
    refine ⟨exists_sentence_of_moves p.own_tables hprod hm, fun hterm v hv => ?_, fun hend => ?_⟩
    · -- what goes on becomes terminal, so that there is a sentence to run over
      rw [List.append_cons] at hv
      obtain ⟨w, hw, hgoes⟩ := hprod.exists_terminals_behind
        (Grammar.over_rhs (Grammar.mem_rules p.grammar.rule_zero)) hv
      rw [List.append_assoc, List.singleton_append] at hgoes
      exact not_rewrites_append_of_rejected p.own_tables rfl hm hs
        (List.forall_mem_cons.2 ⟨hterm, hw⟩) rfl hgoes
    · rw [← List.append_nil (input.take c.position)]
      exact not_rewrites_append_of_rejected p.own_tables rfl hm hs
        (fun x hx => absurd hx List.not_mem_nil) hend.symm

/-- The input `n + +` is rejected at its second `+`: `n +` opens a sum, but no sum begins with
    `n + +`. -/
theorem sums_rejected_earliest :
    sumsParser.parse 4 [.terminal 1, .terminal 0, .terminal 0] =
        .ok ⟨.rejected 3 (.terminal 0) 2, [.shift 2 0, .reduce 2 1, .shift 3 1]⟩ ∧
      (∃ v, Rewrites sums.rules.toList [.nonterminal 1] ([.terminal 1, .terminal 0] ++ v)) ∧
      ∀ v, ¬ Rewrites sums.rules.toList [.nonterminal 1]
        ([.terminal 1, .terminal 0] ++ .terminal 0 :: v) := by
  have hrun : sumsParser.parse 4 [.terminal 1, .terminal 0, .terminal 0] =
      .ok ⟨.rejected 3 (.terminal 0) 2, [.shift 2 0, .reduce 2 1, .shift 3 1]⟩ :=
    eq_ok_of_toOption (by decide +kernel)
  obtain ⟨⟨_, v, _, hv⟩, hnone, _⟩ :=
    parse_rejected_earliest build_sums productive_sums hrun rfl
  exact ⟨hrun, ⟨v, hv⟩, hnone rfl⟩

end ShiftReduce
