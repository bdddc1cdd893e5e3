import Mathlib.Logic.Relation
import ShiftReduce.Proofs.EliminatedLanguage
import ShiftReduce.Proofs.HiddenRecursion
/-!
# Left recursion that is left after elimination

Elimination takes away the left recursion of every rule `A -> A α` whose `α` cannot vanish. If it can,
the tail of `A` goes round without moving on: the rule `A′ -> α A′` begins with its own left-hand side
as soon as `α` is gone. Nothing else is left:

* `LeftRecursive.transGen` -- who becomes a string that begins with itself reaches itself on the left;
* `IsOf.rewrittenRank_lt` -- in the rewritten rules what is reached on the left ranks lower, unless it
  is such a tail that reaches itself;
* `IsOf.leftRecursive_iff` -- so these tails are the left-recursive nonterminals of the rewritten
  rules.
-/

namespace ShiftReduce

open Relation

/-! ## 1. Left recursion as a cycle -/

section

variable {rules : List Rule} {n m : Nonterminal}

/-- `n` becomes, in one replacement or more, a string that begins with itself. -/
def LeftRecursive (rules : List Rule) (n : Nonterminal) : Prop :=
  ∃ β rest, RewritesOnce rules [.nonterminal n] β ∧ Rewrites rules β (.nonterminal n :: rest)

/-- A rule of `n` has `m` on its right behind symbols that can vanish. -/
def LeftStep (rules : List Rule) (n m : Nonterminal) : Prop := ∃ ν, LeftOccurrence rules n ν m

/-- The first symbol of what a string becomes is reached from one of its symbols, behind others that
    vanish. -/
theorem Yields.exists_leftStep {α w rest : List Symbol} (h : Yields rules α w)
    (hw : w = .nonterminal m :: rest) :
    ∃ ν n τ, α = ν ++ .nonterminal n :: τ ∧ (∀ x ∈ ν, Rewrites rules [x] []) ∧
      ReflTransGen (LeftStep rules) n m := by
  induction h generalizing rest with
  | nil => cases hw
  | keep x _ _ =>
    cases hw
    exact ⟨[], m, _, rfl, fun x hx => absurd hx List.not_mem_nil, .refl⟩
  | @unfold r xs u v hr hu hv ihu ihv =>
    cases u with
    | nil =>
      obtain ⟨ν, n, τ, rfl, hν, hn⟩ := ihv hw
      have hlhs : Rewrites rules [.nonterminal r.lhs] [] := (Rewrites.of_mem hr).trans hu.rewrites
      exact ⟨.nonterminal r.lhs :: ν, n, τ, rfl, List.forall_mem_cons.2 ⟨hlhs, hν⟩, hn⟩
    | cons x u =>
      have hu : x :: u = .nonterminal m :: u := congrArg (· :: u) (List.cons.inj hw).1
      obtain ⟨ν, n, τ, hrhs, hν, hn⟩ := ihu hu
      have hstep : LeftStep rules r.lhs n := ⟨ν, ⟨τ, hrhs ▸ hr⟩, hν⟩
      exact ⟨[], r.lhs, xs, rfl, fun x hx => absurd hx List.not_mem_nil, .head hstep hn⟩

theorem RewritesOnce.mem_of_nonterminal {β : List Symbol}
    (h : RewritesOnce rules [.nonterminal n] β) : (⟨n, β⟩ : Rule) ∈ rules := by
  generalize hα : [Symbol.nonterminal n] = α at h
  cases h with
  | replace front back r hr =>
    cases front with
    | nil =>
      cases hα
      rw [List.nil_append, List.append_nil]
      exact hr
    | cons x front => simp at hα

/-- **What begins with itself after some replacements reaches itself on the left.** -/
theorem LeftRecursive.transGen (h : LeftRecursive rules n) : TransGen (LeftStep rules) n n := by
  obtain ⟨β, rest, hs, hr⟩ := h
  obtain ⟨ν, k, τ, rfl, hν, hk⟩ := (rewrites_iff_yields.1 hr).exists_leftStep rfl
  exact .head' ⟨ν, ⟨τ, hs.mem_of_nonterminal⟩, hν⟩ hk

end

/-! ## 2. Ranks of the rewritten nonterminals -/

namespace Grammar

variable {g : Grammar} {r : Rule} {n m tail : Nonterminal} {ν τ : List Symbol}

/-- The tail of a rule `A -> A α` of which `α` can vanish. -/
def IsIdleTail (g : Grammar) (n : Nonterminal) : Prop :=
  ∃ r, g.IsLoop r n ∧ Rewrites g.rules.toList r.rhs.tail []

namespace Ranking

/-- Ranks carried over to the rewritten rules. A tail ranks just below its nonterminal if that can
    vanish. Else nothing but the tail itself reaches it, and it ranks above all others. -/
def rewrittenRank (k : g.Ranking) (n : Nonterminal) : Nat :=
  if n < g.freshNonterminal then 2 * k.rank n + 1
  else match g.recursiveNonterminals[n - g.freshNonterminal]? with
    | some a => if (nullable g.rules.toList).contains a then 2 * k.rank a else 2 * k.top + 2
    | none => 0

theorem rewrittenRank_of_isOld (k : g.Ranking) (hn : g.IsOld (.nonterminal n)) :
    k.rewrittenRank n = 2 * k.rank n + 1 :=
  if_pos (hn n rfl)

theorem rewrittenRank_tail (k : g.Ranking) (hl : g.IsLoop r tail) : k.rewrittenRank tail =
    if (nullable g.rules.toList).contains r.lhs then 2 * k.rank r.lhs else 2 * k.top + 2 := by
  obtain ⟨hle, hget⟩ := getElem?_of_tail hl.lookup_eq
  rw [rewrittenRank, if_neg (Nat.not_lt.2 hle), hget]

end Ranking

end Grammar

/-! ## 3. What is reached on the left ranks lower -/

namespace Elimination

variable {g : Grammar} {e : Elimination} {q r : Rule} {n m tail : Nonterminal} {ν τ : List Symbol}

theorem IsOf.rewrites_nil_iff (h : e.IsOf g) {α : List Symbol} (hα : ∀ x ∈ α, g.IsOld x) :
    Rewrites e.rules α [] ↔ Rewrites g.rules.toList α [] :=
  h.rewrites_iff_of_isOld hα []

/-- In a rule without left recursion what is reached ranks lower, whether the rule stays or gets a
    tail. -/
theorem IsOf.rewrittenRank_lt_of_rhs (h : e.IsOf g) (k : g.Ranking) (hr : r ∈ g.rules.toList)
    (hself : ¬ r.isSelfRecursive = true) (hrhs : r.rhs = ν ++ .nonterminal m :: τ)
    (hν : Rewrites e.rules ν []) : k.rewrittenRank m < k.rewrittenRank r.lhs := by
  have hold : ∀ x ∈ ν ++ .nonterminal m :: τ, g.IsOld x := fun x hx =>
    Grammar.isOld_of_mem_rhs hr (hrhs ▸ hx)
  have hν := (h.rewrites_nil_iff fun x hx => hold x (List.mem_append_left _ hx)).1 hν
  have hfront : ¬ (ν = [] ∧ m = r.lhs) := by
    intro ⟨hnil, hm⟩
    refine hself (Rule.isSelfRecursive_iff.2 ⟨τ, ?_⟩)
    rw [hrhs, hnil, hm]
    rfl
  have hlt := k.rank_lt_of_rhs hr hrhs (isErasedBy_nullable hν) hfront
  rw [k.rewrittenRank_of_isOld (hold _ (List.mem_append_right ν List.mem_cons_self)),
    k.rewrittenRank_of_isOld (Grammar.isOld_lhs hr)]
  omega

/-- **A rewritten rule leads to a lower rank on the left**, unless it is that of a tail which reaches
    itself behind a string that vanishes. -/
theorem IsOf.rewrittenRank_lt_of_rewritten (h : e.IsOf g) (k : g.Ranking) (hq : g.Rewritten q)
    (hrhs : q.rhs = ν ++ .nonterminal m :: τ) (hν : Rewrites e.rules ν []) :
    k.rewrittenRank m < k.rewrittenRank q.lhs ∨ (m = q.lhs ∧ g.IsIdleTail m) := by
  cases hq with
  | keep hr ht =>
    refine .inl (h.rewrittenRank_lt_of_rhs k hr (fun hself => ?_) hrhs hν)
    obtain ⟨tail, hl⟩ := Grammar.exists_tail hr hself
    rw [hl.lookup_eq] at ht
    cases ht
  | @extend r tail hr ht hself =>
    rcases occurrence_in_front hrhs with ⟨ρ, hρ, _⟩ | ⟨rfl, _, hρ⟩
    · exact .inl (h.rewrittenRank_lt_of_rhs (r := r) k hr hself hρ hν)
    · -- the tail is reached only if the whole right-hand side vanishes, and its left-hand side with it
      obtain ⟨s, hl, hs⟩ := Grammar.exists_loop ht
      have hvanish : Rewrites g.rules.toList r.rhs [] :=
        (h.rewrites_nil_iff fun x hx => Grammar.isOld_of_mem_rhs hr hx).1 (hρ ▸ hν)
      have hnull : (nullable g.rules.toList).contains s.lhs = true :=
        hs ▸ contains_nullable_iff.2 ((Rewrites.of_mem hr).trans hvanish)
      left
      show k.rewrittenRank m < k.rewrittenRank r.lhs
      rw [k.rewrittenRank_tail hl, if_pos hnull, k.rewrittenRank_of_isOld (Grammar.isOld_lhs hr), hs]
      omega
  | @loop r tail hl =>
    rcases occurrence_in_front hrhs with ⟨ρ, hρ, _⟩ | ⟨rfl, _, hρ⟩
    · have hold : ∀ x ∈ ν ++ .nonterminal m :: ρ, g.IsOld x := fun x hx =>
        hl.isOld_of_mem (hρ ▸ hx)
      have hν := (h.rewrites_nil_iff fun x hx => hold x (List.mem_append_left _ hx)).1 hν
      left
      show k.rewrittenRank m < k.rewrittenRank tail
      rw [k.rewrittenRank_tail hl,
        k.rewrittenRank_of_isOld (hold _ (List.mem_append_right ν List.mem_cons_self))]
      split
      · rename_i hnull
        have hfront : Rewrites g.rules.toList (.nonterminal r.lhs :: ν) [] :=
          Rewrites.append (contains_nullable_iff.1 hnull) hν
        have hlt := k.rank_lt_of_rhs hl.mem (hl.rhs_eq.trans (congrArg _ hρ))
          (isErasedBy_nullable hfront) fun hnil => absurd hnil.1 (List.cons_ne_nil _ _)
        omega
      · have hle := k.rank_le m
        omega
    · refine .inr ⟨rfl, r, hl, ?_⟩
      exact (h.rewrites_nil_iff fun x hx => hl.isOld_of_mem hx).1 (hρ ▸ hν)
  | stop _ => simp at hrhs

/-- **A step on the left leads to a lower rank or stays on a tail that goes round.** -/
theorem IsOf.rewrittenRank_lt (h : e.IsOf g) (k : g.Ranking) (hs : LeftStep e.rules n m) :
    k.rewrittenRank m < k.rewrittenRank n ∨ (m = n ∧ g.IsIdleTail n) := by
  obtain ⟨ν, ⟨τ, hq⟩, hν⟩ := hs
  rcases h.rewrittenRank_lt_of_rewritten k (h.mem_rules_iff.1 hq) rfl (rewrites_nil_of_forall hν) with
    hlt | ⟨rfl, hidle⟩
  · exact .inl hlt
  · exact .inr ⟨rfl, hidle⟩

theorem IsOf.rewrittenRank_lt_of_transGen (h : e.IsOf g) (k : g.Ranking)
    (hs : TransGen (LeftStep e.rules) n m) :
    k.rewrittenRank m < k.rewrittenRank n ∨ (m = n ∧ g.IsIdleTail n) := by
  induction hs with
  | single hs => exact h.rewrittenRank_lt k hs
  | tail _ hs ih =>
    rcases h.rewrittenRank_lt k hs with hlt | ⟨rfl, _⟩
    · rcases ih with hlt' | ⟨rfl, _⟩
      · exact .inl (Nat.lt_trans hlt hlt')
      · exact .inl hlt
    · exact ih

/-! ## 4. What is left -/

/-- A tail whose rule can lose its front begins with itself after a replacement. -/
theorem IsOf.leftRecursive_of_isIdleTail (h : e.IsOf g) (hidle : g.IsIdleTail n) :
    LeftRecursive e.rules n := by
  obtain ⟨r, hl, hv⟩ := hidle
  have hmem : (⟨n, r.rhs.tail ++ [.nonterminal n]⟩ : Rule) ∈ e.rules := h.mem_rules_iff.2 (.loop hl)
  have hvanish : Rewrites e.rules r.rhs.tail [] :=
    (h.rewrites_nil_iff fun x hx => hl.isOld_of_mem hx).2 hv
  refine ⟨r.rhs.tail ++ [.nonterminal n], [], ?_, hvanish.append .refl⟩
  have hstep := RewritesOnce.replace [] [] _ hmem
  rwa [List.nil_append, List.nil_append, List.append_nil] at hstep

/-- **The left-recursive nonterminals of the rewritten rules are the tails that go round.** -/
theorem IsOf.leftRecursive_iff (h : e.IsOf g) : LeftRecursive e.rules n ↔ g.IsIdleTail n := by
  refine ⟨fun hn => ?_, h.leftRecursive_of_isIdleTail⟩
  obtain ⟨k⟩ := Grammar.exists_ranking h.nothing_hidden
  rcases h.rewrittenRank_lt_of_transGen k hn.transGen with hlt | ⟨_, hidle⟩
  · exact absurd hlt (Nat.lt_irrefl _)
  · exact hidle

/-- **Elimination leaves left recursion behind exactly if the grammar has a rule `A -> A α` of which
    `α` can vanish.** -/
theorem exists_leftRecursive_iff (he : ofGrammar g = .ok e) :
    (∃ n ∈ nonterminalsOf e.rules, LeftRecursive e.rules n) ↔
      ∃ a α, (⟨a, .nonterminal a :: α⟩ : Rule) ∈ g.rules.toList ∧ Rewrites g.rules.toList α [] := by
  have h := isOf he
  constructor
  · intro ⟨n, _, hn⟩
    obtain ⟨r, hl, hv⟩ := h.leftRecursive_iff.1 hn
    exact ⟨r.lhs, r.rhs.tail, hl.rhs_eq ▸ hl.mem, hv⟩
  · intro ⟨a, α, hr, hv⟩
    obtain ⟨tail, hl⟩ := Grammar.exists_tail hr (Rule.isSelfRecursive_iff.2 ⟨α, rfl⟩)
    have htail : tail ∈ nonterminalsOf e.rules :=
      mem_nonterminalsOf.2 ⟨_, h.mem_rules_iff.2 (.stop hl), .inl rfl⟩
    exact ⟨tail, htail, h.leftRecursive_iff.2 ⟨_, hl, hv⟩⟩

end Elimination

/-- `L -> L P | x` and `P -> `: a list with nothing between its items. -/
def padding : Grammar where
  rules := #[⟨0, [.nonterminal 1]⟩,
    ⟨1, [.nonterminal 1, .nonterminal 2]⟩,
    ⟨1, [.terminal 0]⟩,
    ⟨2, []⟩]
  augmentedStart := 0
  start := 1
  rule_zero := rfl
  no_defect := by decide

def paddingElimination : Elimination :=
  (Elimination.ofGrammar padding).toOption.get (by decide +kernel)

theorem ofGrammar_padding : Elimination.ofGrammar padding = .ok paddingElimination :=
  eq_ok_of_toOption (Option.some_get _).symm

/-- The tail of `L` reaches itself behind `P`; the tails of the tallies move on by a terminal. -/
theorem padding_leftRecursive :
    Elimination.ofGrammar padding = .ok paddingElimination ∧
      (∃ n ∈ nonterminalsOf paddingElimination.rules,
        LeftRecursive paddingElimination.rules n) ∧
      Elimination.ofGrammar tallies = .ok talliesElimination ∧
      ¬ ∃ n ∈ nonterminalsOf talliesElimination.rules,
        LeftRecursive talliesElimination.rules n := by
  refine ⟨ofGrammar_padding, (Elimination.exists_leftRecursive_iff ofGrammar_padding).2
    ⟨1, [.nonterminal 2], by decide, .of_mem (r := ⟨2, []⟩) (by decide)⟩, ofGrammar_tallies,
    fun h => ?_⟩
  obtain ⟨a, α, hr, hv⟩ := (Elimination.exists_leftRecursive_iff ofGrammar_tallies).1 h
  have hmoves : ∀ r ∈ tallies.rules.toList, r.isSelfRecursive = true →
      ∃ x ∈ r.rhs.tail, x.isTerminal = true := by decide
  obtain ⟨x, hx, hterminal⟩ := hmoves _ hr (Rule.isSelfRecursive_iff.2 ⟨α, rfl⟩)
  obtain ⟨id, rfl⟩ := Symbol.isTerminal_iff.1 hterminal
  cases isErasedBy_nullable hv _ hx

end ShiftReduce
