import ShiftReduce.Proofs.Completeness
/-!
# Parsers have unambiguous grammars

If a grammar has a parser, a terminal string has at most one rightmost derivation from the start
symbol (`rightmost_unique`). The rules of such a derivation, read backwards, are the reductions of
the run over the string (`exists_run_of_rightmost`), and there is one run only.
-/

namespace ShiftReduce

variable {g : Grammar}

/-- **Every rightmost derivation of a terminal string is the run over it, read backwards.** -/
theorem exists_run_of_rightmost {b : TableBuild} (hb : TableBuild.ofGrammar g = .ok b)
    (hdiag : b.diagnostics = []) {is : List Nat} {w : List Symbol}
    (hw : ∀ x ∈ w, x.isTerminal = true)
    (hd : Rightmost g.rules is [.nonterminal g.start] w) :
    ∃ m r, (∀ bound, m < bound → (Machine.mk g b.tables).run bound w = .ok r) ∧
      r.outcome = .accepted ∧ r.reductions.reverse = is := by
  obtain ⟨m, r, hrun, hacc, hrules⟩ := exists_run_of_yieldsBy hb hdiag hd.yieldsBy hw
  exact ⟨m, r, hrun, hacc, by rw [hrules, List.reverse_reverse]⟩

/-- **A grammar with a parser is unambiguous**: two rightmost derivations of one terminal string use
    the same rules in the same order. -/
theorem rightmost_unique {p : Parser} (hp : Parser.build g = .ok p) {w : List Symbol}
    (hw : ∀ x ∈ w, x.isTerminal = true) {is js : List Nat}
    (hi : Rightmost g.rules is [.nonterminal g.start] w)
    (hj : Rightmost g.rules js [.nonterminal g.start] w) : is = js := by
  obtain rfl := Parser.grammar_of_build hp
  obtain ⟨m, r, hr, _, hri⟩ := exists_run_of_rightmost p.own_tables rfl hw hi
  obtain ⟨n, s, hs, _, hsj⟩ := exists_run_of_rightmost p.own_tables rfl hw hj
  have hm : m < max m n + 1 := Nat.lt_succ_of_le (Nat.le_max_left m n)
  have hn : n < max m n + 1 := Nat.lt_succ_of_le (Nat.le_max_right m n)
  have hrs : r = s := Except.ok.inj ((hr _ hm).symm.trans (hs _ hn))
  rw [← hri, ← hsj, hrs]

/-- The sum `n + n` is derived by the rule of the sum and then the rule of `n`, and not
    otherwise. -/
theorem sums_rightmost_unique :
    Rightmost sums.rules [1, 2] [.nonterminal 1] [.terminal 1, .terminal 0, .terminal 1] ∧
      ∀ is, Rightmost sums.rules is [.nonterminal 1] [.terminal 1, .terminal 0, .terminal 1] →
        is = [1, 2] := by
  have hn : Rightmost sums.rules [2] ([] ++ .nonterminal 1 :: [.terminal 0, .terminal 1])
      [.terminal 1, .terminal 0, .terminal 1] :=
    .head (r := ⟨1, [.terminal 1]⟩) rfl (by decide) (.refl _)
  have hd : Rightmost sums.rules [1, 2] ([] ++ .nonterminal 1 :: [])
      [.terminal 1, .terminal 0, .terminal 1] :=
    .head (r := ⟨1, [.nonterminal 1, .terminal 0, .terminal 1]⟩) rfl (by decide) hn
  exact ⟨hd, fun is hi => rightmost_unique build_sums (by decide) hi hd⟩

end ShiftReduce
