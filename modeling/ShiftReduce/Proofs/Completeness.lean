import ShiftReduce.Proofs.Soundness
import ShiftReduce.Proofs.Spans
/-!
# Completeness of parsers

A parser accepts every terminal string that its grammar derives from the start symbol, with one
shift for each terminal (`parse_complete`). A derivation of the string spans the input
(`spans_of_yields`), and a machine without conflicts reads what is spanned (`moves_of_spans`).
-/

namespace ShiftReduce

variable {g : Grammar} {input : List Symbol}

/-! ## 1. Derivations span the input -/

/-- What stands behind a nonterminal in something that the augmented start symbol becomes can follow
    it. -/
theorem follows_of_context {front rest tail : List Symbol} {n : Nonterminal}
    (h : Rewrites g.rules.toList [.nonterminal g.augmentedStart]
      (front ++ .nonterminal n :: rest))
    (hrest : ∀ x ∈ rest, x.isTerminal = true) (htail : tail.head?.getD .endOfInput = .endOfInput) :
    g.Follows n ((rest ++ tail).head?.getD .endOfInput) := by
  cases rest with
  | nil =>
    rw [List.nil_append, htail]
    exact .endOfInput h
  | cons x rest =>
    obtain ⟨id, rfl⟩ := Symbol.isTerminal_iff.1 (hrest x List.mem_cons_self)
    exact .terminal h

/-- **A derivation spans the input**: if `α` yields the terminals `u` of the input from `a` on, in a
    string that the augmented start symbol becomes, then it spans them, by the same rules. -/
theorem spansBy_of_yieldsBy {is : List Nat} {α u : List Symbol} (h : YieldsBy g.rules is α u)
    (hu : ∀ x ∈ u, x.isTerminal = true) {front rest tail : List Symbol} {a : Nat}
    (hrest : ∀ x ∈ rest, x.isTerminal = true) (htail : tail.head?.getD .endOfInput = .endOfInput)
    (hin : input.drop a = u ++ (rest ++ tail))
    (hctx : Rewrites g.rules.toList [.nonterminal g.augmentedStart] (front ++ α ++ rest)) :
    SpansBy g input is α a (a + u.length) := by
  induction h generalizing front rest a with
  | nil => exact .nil a
  | @keep is xs v x _ ih =>
    obtain ⟨hx, hv⟩ := List.forall_mem_cons.1 hu
    obtain ⟨id, rfl⟩ := Symbol.isTerminal_iff.1 hx
    have hget : input[a]? = some (.terminal id) := by
      rw [← List.head?_drop, hin]
      rfl
    have hdrop : input.drop (a + 1) = v ++ (rest ++ tail) := by
      rw [← List.tail_drop, hin]
      rfl
    have hnext : Rewrites g.rules.toList [.nonterminal g.augmentedStart]
        (front ++ [.terminal id] ++ xs ++ rest) := by simpa using hctx
    have hs := ih hv hrest hdrop hnext
    rw [List.length_cons, Nat.add_comm v.length, ← Nat.add_assoc]
    exact .terminal hget hs
  | @unfold i r is js xs u v hr _ hv ihu ihv =>
    obtain ⟨hut, hvt⟩ := List.forall_mem_append.1 hu
    have hrestv : ∀ x ∈ v ++ rest, x.isTerminal = true :=
      List.forall_mem_append.2 ⟨hvt, hrest⟩
    -- the rest of the string is unfolded first, so that terminals stand behind the nonterminal
    have hleft : Rewrites g.rules.toList [.nonterminal g.augmentedStart]
        (front ++ .nonterminal r.lhs :: (v ++ rest)) := by
      have hstep := hv.yields.rewrites.context (front ++ [.nonterminal r.lhs]) rest
      simp only [List.append_assoc, List.cons_append, List.nil_append] at hstep hctx
      exact hctx.trans hstep
    have hbody : Rewrites g.rules.toList [.nonterminal g.augmentedStart]
        (front ++ r.rhs ++ (v ++ rest)) :=
      .tail hleft (.replace front (v ++ rest) r (Grammar.mem_rules hr))
    have hinu : input.drop a = u ++ (v ++ rest ++ tail) := by
      rw [hin]
      simp only [List.append_assoc]
    have hdrop : input.drop (a + u.length) = v ++ (rest ++ tail) := by
      rw [← List.drop_drop, hin, List.append_assoc, List.drop_left]
    have hfollow : g.Follows r.lhs (lookaheadAt input (a + u.length)) := by
      have hf := follows_of_context hleft hrestv htail
      rw [List.append_assoc, ← hdrop, List.head?_drop] at hf
      exact hf
    have hsu := ihu hut hrestv hinu hbody
    have hnext : Rewrites g.rules.toList [.nonterminal g.augmentedStart]
        (front ++ [.nonterminal r.lhs] ++ xs ++ rest) := by simpa using hctx
    have hsv := ihv hvt hrest hdrop hnext
    rw [List.length_append, ← Nat.add_assoc]
    exact .nonterminal hr hsu hfollow hsv

theorem spans_of_yields {α u : List Symbol} (h : Yields g.rules.toList α u)
    (hu : ∀ x ∈ u, x.isTerminal = true) {front rest tail : List Symbol} {a : Nat}
    (hrest : ∀ x ∈ rest, x.isTerminal = true) (htail : tail.head?.getD .endOfInput = .endOfInput)
    (hin : input.drop a = u ++ (rest ++ tail))
    (hctx : Rewrites g.rules.toList [.nonterminal g.augmentedStart] (front ++ α ++ rest)) :
    Spans g input α a (a + u.length) := by
  obtain ⟨is, hi⟩ := h.exists_yieldsBy
  exact (spansBy_of_yieldsBy hi hu hrest htail hin hctx).spans

/-- A terminal string of the language, with nothing but an end behind it, is spanned by the start
    symbol, by the rules of its derivation. -/
theorem spansBy_of_language {is : List Nat} {w tail : List Symbol}
    (hd : YieldsBy g.rules is [.nonterminal g.start] w) (hw : ∀ x ∈ w, x.isTerminal = true)
    (htail : tail.head?.getD .endOfInput = .endOfInput) (hin : input = w ++ tail) :
    SpansBy g input is [.nonterminal g.start] 0 w.length := by
  have hnone : ∀ x ∈ ([] : List Symbol), x.isTerminal = true := by simp
  have hctx : Rewrites g.rules.toList [.nonterminal g.augmentedStart]
      ([] ++ [.nonterminal g.start] ++ []) :=
    Rewrites.of_mem (r := ⟨g.augmentedStart, [.nonterminal g.start]⟩)
      (Grammar.mem_rules g.rule_zero)
  have hdrop : input.drop 0 = w ++ ([] ++ tail) := hin
  have hs := spansBy_of_yieldsBy hd hw hnone htail hdrop hctx
  rwa [Nat.zero_add] at hs

theorem spans_of_language {w tail : List Symbol} (hd : Rewrites g.rules.toList
    [.nonterminal g.start] w) (hw : ∀ x ∈ w, x.isTerminal = true)
    (htail : tail.head?.getD .endOfInput = .endOfInput) (hin : input = w ++ tail) :
    Spans g input [.nonterminal g.start] 0 w.length := by
  obtain ⟨is, hi⟩ := (rewrites_iff_yields.1 hd).exists_yieldsBy
  exact (spansBy_of_language hi hw htail hin).spans

/-- The lookahead behind a string that only an end follows is `$`. -/
theorem lookaheadAt_of_end {w tail : List Symbol}
    (htail : tail.head?.getD .endOfInput = .endOfInput) (hin : input = w ++ tail) :
    lookaheadAt input w.length = .endOfInput := by
  rw [lookaheadAt, hin, List.getElem?_append_right (Nat.le_refl _), Nat.sub_self,
    ← List.head?_eq_getElem?]
  exact htail

/-- **The run over a terminal string of the language**: it accepts, within every bound from some
    number on, and it reduces by the rules of the derivation in their order. -/
theorem exists_run_of_yieldsBy {b : TableBuild} (hb : TableBuild.ofGrammar g = .ok b)
    (hdiag : b.diagnostics = []) {is : List Nat} {w : List Symbol}
    (hd : YieldsBy g.rules is [.nonterminal g.start] w) (hw : ∀ x ∈ w, x.isTerminal = true) :
    ∃ m r, (∀ bound, m < bound → (Machine.mk g b.tables).run bound w = .ok r) ∧
      r.outcome = .accepted ∧ r.reductions = is := by
  have hend : ([] : List Symbol).head?.getD .endOfInput = .endOfInput := rfl
  have hin : w = w ++ [] := (List.append_nil w).symm
  have hspans := spansBy_of_language hd hw hend hin
  obtain ⟨ms, c, hm, hc, hrules⟩ := moves_of_spansBy hb hdiag hspans (δ := []) (η := []) (ζ := [])
    .start g.rule_zero rfl (standsAt_initial g w)
  have hlook : c.lookahead = .endOfInput := by
    rw [hc.lookahead_eq, lookaheadAt_of_end hend hin]
  have hstep := step_accept hb hdiag hc.spells hlook
  refine ⟨ms.length, ⟨.accepted, ms ++ [.accept]⟩, fun bound hlt => ?_, rfl, ?_⟩
  · exact Machine.run_of_finishes hm hlt (.accept hstep)
  · rw [Run.reductions_accepted, hrules]

/-! ## 2. A parser

`E -> E + n | n`, with `+` as terminal 0 and `n` as terminal 1. -/

def sums : Grammar where
  rules := #[⟨0, [.nonterminal 1]⟩,
    ⟨1, [.nonterminal 1, .terminal 0, .terminal 1]⟩,
    ⟨1, [.terminal 1]⟩]
  augmentedStart := 0
  start := 1
  rule_zero := rfl
  no_defect := by decide

def sumsParser : Parser := (Parser.build sums).toOption.get (by decide +kernel)

theorem build_sums : Parser.build sums = .ok sumsParser :=
  eq_ok_of_toOption (Option.some_get _).symm

/-- `n + n` is a sum. -/
theorem rewrites_sums : Rewrites sums.rules.toList [.nonterminal 1]
    [.terminal 1, .terminal 0, .terminal 1] := by
  have hsum : Rewrites sums.rules.toList [.nonterminal 1]
      [.nonterminal 1, .terminal 0, .terminal 1] :=
    .of_mem (r := ⟨1, [.nonterminal 1, .terminal 0, .terminal 1]⟩) (by decide)
  have hn : Rewrites sums.rules.toList [.nonterminal 1] [.terminal 1] :=
    .of_mem (r := ⟨1, [.terminal 1]⟩) (by decide)
  exact hsum.trans (hn.context [] [.terminal 0, .terminal 1])

/-! ## 3. Completeness -/

/-- **Parsers are complete**: for a terminal string that the start symbol derives, alone or before a
    `$` with anything behind it, every step bound from some number on lets the parser accept, with
    one shift for each terminal. -/
theorem parse_complete {g : Grammar} {p : Parser} (hp : Parser.build g = .ok p) {w : List Symbol}
    (hw : ∀ x ∈ w, x.isTerminal = true)
    (hd : Rewrites g.rules.toList [.nonterminal g.start] w) {input : List Symbol}
    (hin : input = w ∨ ∃ rest, input = w ++ .endOfInput :: rest) :
    ∃ m, ∀ k, m ≤ k → ∃ r, p.run ((input.length + 1) * k) input = .ok r ∧
      r.outcome = .accepted ∧ r.shifts = w.length := by
  obtain rfl := Parser.grammar_of_build hp
  obtain ⟨tail, htail, hin⟩ : ∃ tail : List Symbol,
      tail.head?.getD .endOfInput = .endOfInput ∧ input = w ++ tail := by
    rcases hin with rfl | ⟨rest, rfl⟩
    · exact ⟨[], rfl, (List.append_nil _).symm⟩
    · exact ⟨_, rfl, rfl⟩
  have hspans := spans_of_language hd hw htail hin
  obtain ⟨ms, c, hm, hc⟩ := moves_of_spans p.own_tables rfl hspans (δ := []) (η := []) (ζ := [])
    .start p.grammar.rule_zero rfl (standsAt_initial p.grammar input)
  have hlook : c.lookahead = .endOfInput := by
    rw [hc.lookahead_eq, lookaheadAt_of_end htail hin]
  have hstep := step_accept p.own_tables rfl hc.spells hlook
  obtain ⟨γ, ha⟩ := exists_accounts p.own_tables hm
  refine ⟨ms.length + 1, fun k hk => ⟨⟨.accepted, ms ++ [.accept]⟩, ?_, rfl, ?_⟩⟩
  · refine Machine.run_of_finishes hm ?_ (.accept hstep)
    calc ms.length < k := hk
      _ = 1 * k := (Nat.one_mul k).symm
      _ ≤ (input.length + 1) * k := Nat.mul_le_mul_right k (Nat.le_add_left 1 _)
  · rw [Run.shifts_accepted, ← ha.position_eq, hc.position_eq]

/-- The sum `n + n` is accepted, whatever stands behind its `$`. -/
theorem sums_complete :
    ∃ m, ∀ k, m ≤ k → ∃ r, sumsParser.run ((5 + 1) * k)
        [.terminal 1, .terminal 0, .terminal 1, .endOfInput, .terminal 0] = .ok r ∧
      r.outcome = .accepted ∧ r.shifts = 3 :=
  parse_complete build_sums (by decide) rewrites_sums (.inr ⟨[.terminal 0], rfl⟩)

end ShiftReduce
