import ShiftReduce.Proofs.LeftRank
import ShiftReduce.Proofs.Spans
/-!
# The height of the stack

A chart gives every symbol of what a stack spells the position of the input at which it ends. In a
grammar without hidden left recursion only so many symbols in a row can span nothing
(`Grammar.Ranking.length_le_of_spells`), so the position bounds the height of the stack
(`Charted.length_le`).
-/

namespace ShiftReduce

variable {g : Grammar} {input : List Symbol}

/-! ## 1. Charts -/

/-- Symbols with the positions at which they end; each begins where the one before ends, and the
    last one ends at `n`. -/
inductive Charted (g : Grammar) (input : List Symbol) : List (Symbol × Nat) → Nat → Prop where
  | nil : Charted g input [] 0
  | push {chart : List (Symbol × Nat)} {a e : Nat} {x : Symbol} (h : Charted g input chart a)
      (hx : Spans g input [x] a e) : Charted g input (chart ++ [(x, e)]) e

namespace Charted

variable {chart top : List (Symbol × Nat)} {n : Nat}

theorem inv_push {p : Symbol × Nat} (h : Charted g input (chart ++ [p]) n) :
    p.2 = n ∧ ∃ a, Charted g input chart a ∧ Spans g input [p.1] a n := by
  generalize hc : chart ++ [p] = all at h
  cases h with
  | nil => exact absurd hc (by simp)
  | @push chart' a e x h hx =>
    obtain ⟨hl, hr⟩ := List.append_inj' hc rfl
    obtain rfl := hl
    obtain rfl := List.singleton_inj.1 hr
    exact ⟨rfl, a, h, hx⟩

/-- The symbols on top span what lies behind the chart of the others. -/
theorem exists_drop (h : Charted g input (chart ++ top) n) :
    ∃ a, Charted g input chart a ∧ Spans g input (top.map Prod.fst) a n := by
  induction top using List.reverseRecOn generalizing n with
  | nil => exact ⟨n, by rwa [List.append_nil] at h, .nil n⟩
  | append_singleton top p ih =>
    rw [← List.append_assoc] at h
    obtain ⟨_, d, hd, hx⟩ := h.inv_push
    obtain ⟨a, ha, hs⟩ := ih hd
    refine ⟨a, ha, ?_⟩
    rw [List.map_append]
    exact hs.append hx

/-- The symbols of a chart span the input up to where it ends. -/
theorem spans (h : Charted g input chart n) : Spans g input (chart.map Prod.fst) 0 n := by
  induction h with
  | nil => exact .nil 0
  | push _ hx ih =>
    rw [List.map_append]
    exact ih.append hx

/-- **A chart is no longer than its end allows**, if at most `m` of its symbols in a row span
    nothing. -/
theorem length_le {m : Nat} (h : Charted g input chart n)
    (hm : ∀ c₁ c₂ c₃ a, chart = c₁ ++ c₂ ++ c₃ → Spans g input (c₂.map Prod.fst) a a →
      c₂.length ≤ m) :
    chart.length ≤ n * (m + 1) + m := by
  -- the symbols on top that span nothing are at most `m`; each of the others but them is paid for
  -- by a position
  have hsplit : ∃ c₁ c₂, chart = c₁ ++ c₂ ∧ Spans g input (c₂.map Prod.fst) n n ∧
      c₁.length ≤ n * (m + 1) := by
    induction h with
    | nil => exact ⟨[], [], rfl, .nil 0, Nat.zero_le _⟩
    | @push chart a e x _ hx ih =>
      obtain ⟨c₁, c₂, rfl, hs, hl⟩ := ih fun d₁ d₂ d₃ b hd hb =>
        hm d₁ d₂ (d₃ ++ [(x, e)]) b (by rw [hd, List.append_assoc _ d₃]) hb
      have hc₂ := hm c₁ c₂ [(x, e)] a rfl hs
      rcases Nat.eq_or_lt_of_le hx.le with rfl | hlt
      · refine ⟨c₁, c₂ ++ [(x, a)], List.append_assoc _ _ _, ?_, hl⟩
        rw [List.map_append]
        exact hs.append hx
      · refine ⟨c₁ ++ c₂ ++ [(x, e)], [], (List.append_nil _).symm, .nil e, ?_⟩
        have hstep : (a + 1) * (m + 1) ≤ e * (m + 1) := Nat.mul_le_mul_right _ hlt
        rw [Nat.add_mul, Nat.one_mul] at hstep
        rw [List.length_append, List.length_append, List.length_singleton]
        omega
  obtain ⟨c₁, c₂, hc, hs, hl⟩ := hsplit
  have hc₂ := hm c₁ c₂ [] n (by rw [hc, List.append_nil]) hs
  rw [hc, List.length_append]
  omega

end Charted

/-! ## 2. Symbols in a row that vanish -/

theorem Grammar.length_rhs_le {r : Rule} (hr : r ∈ g.rules.toList) :
    r.rhs.length ≤ g.itemCount := by
  unfold itemCount
  generalize g.rules.toList = rules at hr
  induction rules with
  | nil => cases hr
  | cons q rules ih =>
    rw [List.foldr_cons]
    rcases List.mem_cons.1 hr with rfl | hr
    · omega
    · have hle := ih hr
      omega

/-- Behind symbols that vanish the rank goes down; in front it stays or goes down. -/
theorem Grammar.Ranking.rank_entered (k : g.Ranking) {r : Rule} (hr : r ∈ g.rules.toList)
    {η τ : List Symbol} {n : Nonterminal} (hb : r.rhs = η ++ .nonterminal n :: τ)
    (hv : ∀ x ∈ η, x.isErasedBy (nullable g.rules.toList) = true) :
    (η = [] ∧ k.rank n ≤ k.rank r.lhs) ∨ k.rank n < k.rank r.lhs := by
  by_cases hfront : η = [] ∧ n = r.lhs
  · exact .inl ⟨hfront.1, Nat.le_of_eq (congrArg k.rank hfront.2)⟩
  · exact .inr (k.rank_lt_of_rhs hr hb hv hfront)

/-- **What vanishes in front of an entered rule is bounded by its rank**: every rule of the chain
    that adds to it goes down. -/
theorem Grammar.Ranking.length_le_of_entered (k : g.Ranking) {δ : List Symbol} {i : Nat}
    (h : Entered g δ i) {r : Rule} (hr : g.rules[i]? = some r) {front μ : List Symbol}
    (hδ : δ = front ++ μ) (hμ : ∀ x ∈ μ, x.isErasedBy (nullable g.rules.toList) = true) :
    μ.length ≤ g.itemCount * (k.top + 1 - k.rank r.lhs) := by
  induction h generalizing r front μ with
  | start =>
    obtain ⟨_, rfl⟩ := List.append_eq_nil_iff.1 hδ.symm
    exact Nat.zero_le _
  | @enter δ η τ i j q s _ hq hs hb ih =>
    obtain rfl : r = s := Option.some.inj (hr.symm.trans hs)
    have hqm : q ∈ g.rules.toList := Grammar.mem_rules hq
    have hη : η.length ≤ g.itemCount := by
      have hle := Grammar.length_rhs_le hqm
      rw [hb, List.length_append] at hle
      omega
    have hrank := k.rank_le r.lhs
    rcases List.append_eq_append_iff.1 hδ with ⟨p, hfront, hη'⟩ | ⟨p, hδ', hμ'⟩
    · have hpos : g.itemCount * 1 ≤ g.itemCount * (k.top + 1 - k.rank r.lhs) :=
        Nat.mul_le_mul_left _ (by omega)
      have hle : μ.length ≤ η.length := by
        rw [hη', List.length_append]
        omega
      omega
    · subst hμ'
      obtain ⟨hp, hv⟩ := List.forall_mem_append.1 hμ
      have hle := ih hq hδ' hp
      have hq' := k.rank_le q.lhs
      rcases k.rank_entered hqm hb hv with ⟨rfl, hrk⟩ | hrk
      · have hmono : g.itemCount * (k.top + 1 - k.rank q.lhs) ≤
            g.itemCount * (k.top + 1 - k.rank r.lhs) := Nat.mul_le_mul_left _ (by omega)
        rw [List.append_nil]
        omega
      · have hmono : g.itemCount * (k.top + 1 - k.rank q.lhs + 1) ≤
            g.itemCount * (k.top + 1 - k.rank r.lhs) := Nat.mul_le_mul_left _ (by omega)
        rw [Nat.mul_add, Nat.mul_one] at hmono
        rw [List.length_append]
        omega

/-- How many symbols in a row can vanish. -/
def Grammar.Ranking.run (k : g.Ranking) : Nat := g.itemCount * (k.top + 2)

/-- **Only so many symbols on top of a stack can vanish.** -/
theorem Grammar.Ranking.length_le_of_spells (k : g.Ranking) {stack : List Nat}
    {γ μ : List Symbol} (h : (Automaton.ofGrammar g).Spells stack (γ ++ μ))
    (hμ : Rewrites g.rules.toList μ []) : μ.length ≤ k.run := by
  obtain ⟨i, δ, r, he, hr, _, hγ⟩ := h.exists_validFor
  have hrm : r ∈ g.rules.toList := Grammar.mem_rules hr
  have htake : (r.rhs.take i.dot).length ≤ g.itemCount :=
    Nat.le_trans (List.length_take_le' _ _) (Grammar.length_rhs_le hrm)
  have hrun : k.run = g.itemCount * (k.top + 1) + g.itemCount := by
    rw [run, ← Nat.mul_succ]
  rcases List.append_eq_append_iff.1 hγ with ⟨p, hδ, hμ'⟩ | ⟨p, _, htake'⟩
  · subst hμ'
    have hp := isErasedBy_nullable hμ
    have hle := k.length_le_of_entered he hr hδ
      fun x hx => hp x (List.mem_append_left _ hx)
    have hmono : g.itemCount * (k.top + 1 - k.rank r.lhs) ≤ g.itemCount * (k.top + 1) :=
      Nat.mul_le_mul_left _ (Nat.sub_le _ _)
    rw [List.length_append]
    omega
  · have hle : μ.length ≤ (r.rhs.take i.dot).length := by
      rw [htake', List.length_append]
      omega
    omega

/-- **The position bounds the height of the stack.** -/
theorem Grammar.Ranking.length_chart_le (k : g.Ranking) {stack : List Nat}
    {chart : List (Symbol × Nat)} {n : Nat}
    (h : (Automaton.ofGrammar g).Spells stack (chart.map Prod.fst))
    (hc : Charted g input chart n) : chart.length ≤ n * (k.run + 1) + k.run := by
  refine hc.length_le fun c₁ c₂ c₃ a hsplit hs => ?_
  rw [hsplit, List.map_append, List.map_append] at h
  have hle := k.length_le_of_spells h.drop (hs.vanishes (Nat.le_refl a))
  rwa [List.length_map] at hle

end ShiftReduce
