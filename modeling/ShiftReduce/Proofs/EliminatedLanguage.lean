import Mathlib.Algebra.Order.Kleene
import ShiftReduce.Proofs.Languages
import ShiftReduce.Proofs.Runs
import ShiftReduce.Proofs.Tails
/-!
# Elimination keeps the language

A nonterminal of a grammar derives the same terminal strings by the rules of the grammar and by the
rewritten ones (`Elimination.rewrites_terminals_iff`). A left recursion `A -> A α` puts any number of
`α` behind an `A`, and so does the tail of `A`: its language is the Kleene star of that of `α`
(`languageOf_tail`). Either list of rules does not lead out of the languages that the other derives:

* `IsOf.reading_rhs_le_rewritten` -- the rules of the grammar, read as the rewritten rules derive;
* `IsOf.reading_withTails_le` -- the rewritten rules, read as the grammar derives and with its tails
  as stars.
-/

namespace ShiftReduce

open scoped Computability

variable {g : Grammar} {e : Elimination} {r : Rule} {n tail : Nonterminal}

namespace Elimination

/-! ## 1. What a tail derives -/

/-- A tail derives whatever is made of what follows the left recursion. -/
theorem IsOf.kstar_le_languageOf_tail (h : e.IsOf g) (hl : g.IsLoop r tail) :
    (reading (languageOf e.rules) r.rhs.tail)∗ ≤ languageOf e.rules tail := by
  have hstop := reading_rhs_le (h.mem_rules_iff.2 (.stop hl))
  have hloop := reading_rhs_le (h.mem_rules_iff.2 (.loop hl))
  rw [reading_concat] at hloop
  exact kstar_le_of_mul_le_right hstop hloop

/-- **The language of a tail is the star** of what follows the left recursion. -/
theorem IsOf.languageOf_tail (h : e.IsOf g) (hl : g.IsLoop r tail) :
    languageOf e.rules tail = (reading (languageOf e.rules) r.rhs.tail)∗ := by
  refine le_antisymm (languageOf_le_of_update (h.kstar_le_languageOf_tail hl) fun q hq hn => ?_)
    (h.kstar_le_languageOf_tail hl)
  have hfresh : ¬ g.IsOld (.nonterminal tail) := Grammar.not_isOld_tail hl.lookup_eq
  cases h.mem_rules_iff.1 hq with
  | keep hr _ => exact absurd (Grammar.isOld_lhs hr) (hn ▸ hfresh)
  | extend hr _ _ => exact absurd (Grammar.isOld_lhs hr) (hn ▸ hfresh)
  | stop _ => exact one_le_kstar
  | @loop r' tail' hl' =>
    obtain rfl : tail = tail' := hn.symm
    obtain rfl := h.loop_unique hl hl'
    -- what follows the left recursion has no tail in it, so it reads as before
    have hrest : reading (Function.update (languageOf e.rules) tail
        (reading (languageOf e.rules) r.rhs.tail)∗) r.rhs.tail =
          reading (languageOf e.rules) r.rhs.tail := by
      refine reading_congr fun m hm => Function.update_of_ne (fun hmt => ?_) _ _
      exact hfresh (hmt ▸ hl.isOld_of_mem hm)
    rw [reading_concat, hrest, Function.update_self]
    exact mul_kstar_le_kstar

/-! ## 2. The rules of the grammar -/

/-- What a nonterminal with a tail derives opens with the right-hand side of one of its rules and goes
    on with the tail. -/
theorem IsOf.exists_of_mem_languageOf (h : e.IsOf g) (ht : g.tails.lookup n = some tail)
    {w : List Terminal} (hw : w ∈ languageOf e.rules n) :
    ∃ s : Rule, (⟨n, s.rhs ++ [.nonterminal tail]⟩ : Rule) ∈ e.rules ∧
      w ∈ reading (languageOf e.rules) s.rhs * languageOf e.rules tail := by
  rcases Rewrites.head hw with hn | ⟨q, hq, rfl, hrhs⟩
  · obtain ⟨_, _, _, he, _⟩ := List.map_eq_cons_iff.1 hn
    cases he
  · obtain ⟨s, _, _, _, hs⟩ := (h.mem_rules_iff.1 hq).exists_of_tail ht
    have hmem := mem_reading_languageOf.2 hrhs
    rw [hs, reading_concat] at hmem
    exact ⟨s, hs ▸ hq, hmem⟩

/-- A left recursion leads to nothing new, since the tail goes over what follows it. -/
theorem IsOf.languageOf_mul_le (h : e.IsOf g) (hl : g.IsLoop r tail) :
    languageOf e.rules r.lhs * reading (languageOf e.rules) r.rhs.tail ≤
      languageOf e.rules r.lhs := by
  intro w hw
  obtain ⟨u, hu, v, hv, rfl⟩ := Language.mem_mul.1 hw
  obtain ⟨s, hs, hmem⟩ := h.exists_of_mem_languageOf hl.lookup_eq hu
  have hle : reading (languageOf e.rules) s.rhs * languageOf e.rules tail *
      reading (languageOf e.rules) r.rhs.tail ≤ languageOf e.rules r.lhs :=
    calc reading (languageOf e.rules) s.rhs * languageOf e.rules tail *
          reading (languageOf e.rules) r.rhs.tail
        = reading (languageOf e.rules) s.rhs * (languageOf e.rules tail *
          reading (languageOf e.rules) r.rhs.tail) := mul_assoc _ _ _
      _ ≤ reading (languageOf e.rules) s.rhs * languageOf e.rules tail := by
        refine mul_le_mul' (le_refl _) ?_
        rw [h.languageOf_tail hl]
        exact kstar_mul_le_kstar
      _ = reading (languageOf e.rules) (s.rhs ++ [.nonterminal tail]) := (reading_concat _ _).symm
      _ ≤ languageOf e.rules r.lhs := reading_rhs_le hs
  exact hle (Language.append_mem_mul hmem hv)

/-- **No rule of the grammar leads out of what the rewritten rules derive.** -/
theorem IsOf.reading_rhs_le_rewritten (h : e.IsOf g) (hr : r ∈ g.rules.toList) :
    reading (languageOf e.rules) r.rhs ≤ languageOf e.rules r.lhs := by
  cases ht : g.tails.lookup r.lhs with
  | none => exact reading_rhs_le (h.mem_rules_iff.2 (.keep hr ht))
  | some tail =>
    by_cases hs : r.isSelfRecursive = true
    · have hl : g.IsLoop r tail := ⟨hr, ht, hs⟩
      rw [hl.rhs_eq, reading_cons]
      exact h.languageOf_mul_le hl
    · obtain ⟨s, hl, _⟩ := Grammar.exists_loop ht
      have hstop : 1 ≤ languageOf e.rules tail := reading_rhs_le (h.mem_rules_iff.2 (.stop hl))
      calc reading (languageOf e.rules) r.rhs
          = reading (languageOf e.rules) r.rhs * 1 := (mul_one _).symm
        _ ≤ reading (languageOf e.rules) r.rhs * languageOf e.rules tail :=
          mul_le_mul' (le_refl _) hstop
        _ = reading (languageOf e.rules) (r.rhs ++ [.nonterminal tail]) :=
          (reading_concat _ _).symm
        _ ≤ languageOf e.rules r.lhs := reading_rhs_le (h.mem_rules_iff.2 (.extend hr ht hs))

/-! ## 3. The rewritten rules -/

end Elimination

/-- The languages of a grammar, with the tails read as the stars that they stand for. -/
def Grammar.withTails (g : Grammar) (n : Nonterminal) : Language Terminal :=
  if n < g.freshNonterminal then languageOf g.rules.toList n
  else ⨆ (r : Rule) (_ : g.IsLoop r n), (reading (languageOf g.rules.toList) r.rhs.tail)∗

theorem Grammar.withTails_of_isOld (h : g.IsOld (.nonterminal n)) :
    g.withTails n = languageOf g.rules.toList n :=
  if_pos (h n rfl)

theorem Grammar.reading_withTails {α : List Symbol} (h : ∀ x ∈ α, g.IsOld x) :
    reading g.withTails α = reading (languageOf g.rules.toList) α :=
  reading_congr fun _ hn => withTails_of_isOld (h _ hn)

namespace Elimination

theorem IsOf.withTails_tail (h : e.IsOf g) (hl : g.IsLoop r tail) :
    g.withTails tail = (reading (languageOf g.rules.toList) r.rhs.tail)∗ := by
  rw [Grammar.withTails, if_neg (Nat.not_lt.2 (Grammar.of_tail hl.lookup_eq).2)]
  refine le_antisymm (iSup₂_le fun s hs => ?_) (le_iSup₂_of_le r hl (le_refl _))
  rw [h.loop_unique hl hs]

/-- **No rewritten rule leads out of what the grammar derives**, with its tails as stars. -/
theorem IsOf.reading_withTails_le (h : e.IsOf g) {q : Rule} (hq : g.Rewritten q) :
    reading g.withTails q.rhs ≤ g.withTails q.lhs := by
  cases hq with
  | keep hr _ =>
    rw [Grammar.reading_withTails fun x hx => Grammar.isOld_of_mem_rhs hr hx,
      Grammar.withTails_of_isOld (Grammar.isOld_lhs hr)]
    exact reading_rhs_le hr
  | @extend r tail hr ht _ =>
    obtain ⟨s, hl, hn⟩ := Grammar.exists_loop ht
    have hloop := reading_rhs_le hl.mem
    rw [hl.rhs_eq, reading_cons, hn] at hloop
    rw [reading_concat, Grammar.reading_withTails fun x hx => Grammar.isOld_of_mem_rhs hr hx,
      Grammar.withTails_of_isOld (Grammar.isOld_lhs hr), h.withTails_tail hl]
    exact mul_kstar_le (reading_rhs_le hr) hloop
  | @loop r tail hl =>
    rw [reading_concat, Grammar.reading_withTails fun x hx => hl.isOld_of_mem hx,
      h.withTails_tail hl]
    exact mul_kstar_le_kstar
  | stop hl =>
    rw [h.withTails_tail hl]
    exact one_le_kstar

end Elimination

/-! ## 4. Two left recursions

`T -> T ; M | ` and `M -> M x | `, with `;` as terminal 0 and `x` as terminal 1: tallies of strokes,
each behind a semicolon. Both right-hand sides without left recursion are empty. -/

def tallies : Grammar where
  rules := #[⟨0, [.nonterminal 1]⟩,
    ⟨1, [.nonterminal 1, .terminal 0, .nonterminal 2]⟩,
    ⟨1, []⟩,
    ⟨2, [.nonterminal 2, .terminal 1]⟩,
    ⟨2, []⟩]
  augmentedStart := 0
  start := 1
  rule_zero := rfl
  no_defect := by decide

def talliesElimination : Elimination :=
  (Elimination.ofGrammar tallies).toOption.get (by decide +kernel)

theorem ofGrammar_tallies : Elimination.ofGrammar tallies = .ok talliesElimination :=
  eq_ok_of_toOption (Option.some_get _).symm

/-- `; x ;` is made of two tallies, of one stroke and of none. -/
theorem rewrites_tallies : Rewrites tallies.rules.toList [.nonterminal 1]
    ([0, 1, 0].map .terminal) := by
  have hmore : Rewrites tallies.rules.toList [.nonterminal 1]
      [.nonterminal 1, .terminal 0, .nonterminal 2] :=
    .of_mem (r := ⟨1, [.nonterminal 1, .terminal 0, .nonterminal 2]⟩) (by decide)
  have hend : Rewrites tallies.rules.toList [.nonterminal 1] [] :=
    .of_mem (r := ⟨1, []⟩) (by decide)
  have hnone : Rewrites tallies.rules.toList [.nonterminal 2] [] :=
    .of_mem (r := ⟨2, []⟩) (by decide)
  have hstroke : Rewrites tallies.rules.toList [.nonterminal 2] [.terminal 1] :=
    (Rewrites.of_mem (r := ⟨2, [.nonterminal 2, .terminal 1]⟩) (by decide)).trans
      (hnone.context [] [.terminal 1])
  have hone : Rewrites tallies.rules.toList [.nonterminal 1] [.terminal 0, .terminal 1] :=
    hmore.trans (hend.append (hstroke.context [.terminal 0] []))
  exact hmore.trans (hone.append (hnone.context [.terminal 0] []))

/-! ## 5. The same language -/

namespace Elimination

/-- **Elimination keeps the language of every nonterminal of the grammar.** -/
theorem IsOf.languageOf_eq (h : e.IsOf g) (hn : g.IsOld (.nonterminal n)) :
    languageOf g.rules.toList n = languageOf e.rules n := by
  refine le_antisymm (languageOf_le (fun r hr => h.reading_rhs_le_rewritten hr) n) ?_
  rw [← Grammar.withTails_of_isOld hn]
  exact languageOf_le (fun q hq => h.reading_withTails_le (h.mem_rules_iff.1 hq)) n

/-- What a string of the grammar derives is the same by either rules. -/
theorem IsOf.rewrites_iff_of_isOld (h : e.IsOf g) {α : List Symbol} (hα : ∀ x ∈ α, g.IsOld x)
    (w : List Terminal) :
    Rewrites e.rules α (w.map .terminal) ↔ Rewrites g.rules.toList α (w.map .terminal) := by
  rw [← mem_reading_languageOf, ← mem_reading_languageOf,
    reading_congr fun n hn => (h.languageOf_eq (hα _ hn)).symm]

/-- **Elimination keeps what is derived**: a nonterminal of the grammar derives a terminal string by
    the rules of the grammar exactly if it does by the rewritten rules. -/
theorem rewrites_terminals_iff (he : ofGrammar g = .ok e) (hn : n ∈ g.nonterminals)
    (w : List Terminal) :
    Rewrites g.rules.toList [.nonterminal n] (w.map .terminal) ↔
      Rewrites e.rules [.nonterminal n] (w.map .terminal) := by
  rw [← mem_languageOf, ← mem_languageOf,
    (isOf he).languageOf_eq (Grammar.isOld_nonterminal hn)]

end Elimination

/-- The rewritten rules derive `; x ;` as well, in another way. -/
theorem tallies_rewrites_terminals :
    Elimination.ofGrammar tallies = .ok talliesElimination ∧ 1 ∈ tallies.nonterminals ∧
      Rewrites tallies.rules.toList [.nonterminal 1] ([0, 1, 0].map .terminal) ∧
      Rewrites talliesElimination.rules [.nonterminal 1] ([0, 1, 0].map .terminal) := by
  have hn : 1 ∈ tallies.nonterminals := by decide +kernel
  exact ⟨ofGrammar_tallies, hn, rewrites_tallies,
    (Elimination.rewrites_terminals_iff ofGrammar_tallies hn [0, 1, 0]).1 rewrites_tallies⟩

end ShiftReduce
