import ShiftReduce.Proofs.Halting
import ShiftReduce.Proofs.Productive
/-!
# Parsers of productive grammars run in linear time

A constant number of steps for each symbol of the input and for its end is enough for a parser of a
productive grammar, whether it accepts or rejects (`exists_uniform_bound`). Such a parser never spins
(`not_spinsAt_of_productive`): it would spin on a sentence too. The rest is an account of what a move
costs. The symbols of a chart that end before the position are settled, those that end at it are
fresh:

* there are only so many fresh symbols (`Tracks.length_fresh_le`), and read as a number of ranks they
  stay below a bound that the grammar alone determines;
* a reduction of fresh symbols makes this number smaller, and any other reduction leaves fewer
  settled symbols;
* a shift settles the fresh symbols, and what this costs pays for all reductions
  (`ChartMove.exists_divides`).
-/

namespace ShiftReduce

/-! ## 1. Nothing spins -/

/-- **A parser of a productive grammar spins on no input**: the beginning it spins behind becomes a
    beginning of a sentence, and there it would spin too, though it accepts the sentence. -/
theorem not_spinsAt_of_productive {g : Grammar} {b : TableBuild}
    (hb : TableBuild.ofGrammar g = .ok b) (hdiag : b.diagnostics = []) (hprod : g.Productive)
    (input : List Symbol) (n : Nat) : ¬ SpinsAt g input n := by
  rintro @⟨i, A, α, δ, hr, hα, he, _⟩
  obtain ⟨τ, hτ⟩ := he.exists_rewrites hr
  rw [List.append_cons] at hτ
  obtain ⟨v, hv, hδv⟩ := hprod.exists_terminals_behind g.over_augmentedStart hτ
  obtain ⟨u, hu, hδu⟩ := hprod.exists_terminals
    fun x hx => g.over_augmentedStart.rewrites hτ x (List.mem_append_left τ hx)
  have hend : ([] : List Symbol).head?.getD .endOfInput = .endOfInput := rfl
  have hin : (u ++ v).drop 0 = u ++ (v ++ []) := by rw [List.append_nil, List.drop_zero]
  have hopens : Rewrites g.rules.toList [.nonterminal g.augmentedStart]
      ([] ++ (δ ++ [.nonterminal A]) ++ v) := hδv
  have hspan := spans_of_yields (rewrites_iff_yields.1 hδu) hu hv hend hin hopens
  have hsentence : Rewrites g.rules.toList [.nonterminal g.start] (u ++ v) :=
    Grammar.rewrites_start (List.forall_mem_append.2 ⟨hu, hv⟩) (hδv.trans (.append hδu .refl))
  obtain ⟨is, hi⟩ := (rewrites_iff_yields.1 hsentence).exists_yieldsBy
  obtain ⟨m, r, hrun, _, _⟩ :=
    exists_run_of_yieldsBy hb hdiag hi (List.forall_mem_append.2 ⟨hu, hv⟩)
  have haccepts := hrun (m + 1) (Nat.lt_succ_self m)
  rw [run_of_spins hb hdiag ⟨hr, hα, he, hspan⟩] at haccepts
  cases haccepts

/-! ## 2. Fresh symbols as a number -/

namespace Grammar.Ranking

variable {g : Grammar} (k : g.Ranking)

/-- The digit of a symbol at any one position: the larger its rank, the smaller the digit. -/
def rankDigit (x : Symbol) : Nat := k.top + 1 - k.symbolRank x

theorem rankDigit_lt (x : Symbol) : k.rankDigit x < k.top + 2 :=
  Nat.lt_succ_of_le (Nat.sub_le _ _)

/-- Fresh symbols as a number, the lowest one the most significant digit. -/
def freshWeight (fresh : List (Symbol × Nat)) : Nat :=
  weight (k.top + 2) (k.run + 2) (fresh.map fun p => k.rankDigit p.1)

/-- More than every number of fresh symbols. -/
def freshBound : Nat := (k.top + 3) ^ (k.run + 2)

theorem freshWeight_lt_freshBound (fresh : List (Symbol × Nat)) :
    k.freshWeight fresh < k.freshBound := by
  refine weight_lt_pow fun d hd => ?_
  obtain ⟨p, _, rfl⟩ := List.mem_map.1 hd
  exact Nat.le_of_lt (k.rankDigit_lt p.1)

/-- If a symbol has a smaller digit than the first of some that end with it, its rank is larger. -/
theorem rankDigit_lt_of_digit_lt {length e : Nat} {x : Symbol} {top : List (Symbol × Nat)}
    (hd : k.digit length (x, e) < (top.map (k.digit length)).head?.getD (k.ceiling length))
    (htop : ∀ p ∈ top, p.2 = e) :
    k.rankDigit x < (top.map fun p => k.rankDigit p.1).head?.getD (k.top + 2) := by
  cases top with
  | nil => exact k.rankDigit_lt x
  | cons p top =>
    obtain ⟨y, e'⟩ := p
    obtain rfl : e' = e := htop _ List.mem_cons_self
    exact Nat.lt_of_add_lt_add_left hd

/-! ## 3. What symbols have still to pay -/

/-- What the symbols of a chart have still to pay: a settled one more than all fresh ones. -/
def potential (settled fresh : List (Symbol × Nat)) : Nat :=
  settled.length * k.freshBound + k.freshWeight fresh

/-- What a shift costs: it settles the fresh symbols and makes one. -/
def shiftCost : Nat := (k.run + 2) * k.freshBound

theorem potential_nil_lt : k.potential [] [] < k.shiftCost := by
  have hlt := k.freshWeight_lt_freshBound []
  have hmul : 1 * k.freshBound ≤ k.shiftCost := Nat.mul_le_mul_right _ (by omega)
  rw [potential, List.length_nil]
  omega

/-- Fresh symbols that are settled pay the cost of a shift at most. -/
theorem potential_settle (settled : List (Symbol × Nat)) {fresh : List (Symbol × Nat)}
    (hl : fresh.length ≤ k.run + 1) (p : Symbol × Nat) :
    k.potential (settled ++ fresh) [p] < k.potential settled fresh + k.shiftCost := by
  have hlt := k.freshWeight_lt_freshBound [p]
  have hmul : fresh.length * k.freshBound ≤ (k.run + 1) * k.freshBound :=
    Nat.mul_le_mul_right _ hl
  have hcost : k.shiftCost = (k.run + 1) * k.freshBound + k.freshBound := Nat.succ_mul _ _
  rw [potential, potential, List.length_append, Nat.add_mul]
  omega

/-- A symbol of larger rank in the place of the last fresh ones leaves less to pay. -/
theorem potential_fresh_lt (settled : List (Symbol × Nat)) {fresh top : List (Symbol × Nat)}
    (hl : (fresh ++ top).length ≤ k.run + 1) {p : Symbol × Nat}
    (hd : k.rankDigit p.1 < (top.map fun q => k.rankDigit q.1).head?.getD (k.top + 2)) :
    k.potential settled (fresh ++ [p]) < k.potential settled (fresh ++ top) := by
  refine Nat.add_lt_add_left ?_ _
  rw [freshWeight, freshWeight, List.map_append, List.map_append]
  refine weight_lt ?_ hd
  rw [List.length_append] at hl
  rw [List.length_map]
  omega

/-- A fresh symbol in the place of a settled one, and of all behind it, leaves less to pay. -/
theorem potential_settled_lt (settled fresh rest : List (Symbol × Nat)) (x p : Symbol × Nat) :
    k.potential settled [p] < k.potential (settled ++ x :: rest) fresh := by
  have hlt := k.freshWeight_lt_freshBound [p]
  have hmul : (settled.length + 1) * k.freshBound ≤
      (settled ++ x :: rest).length * k.freshBound := by
    refine Nat.mul_le_mul_right _ ?_
    rw [List.length_append, List.length_cons]
    omega
  rw [Nat.succ_mul] at hmul
  rw [potential, potential]
  omega

end Grammar.Ranking

/-! ## 4. What a move costs -/

/-- The chart is divided into the symbols that end before the position and those that end at it. -/
structure Divides (settled fresh chart : List (Symbol × Nat)) (position : Nat) : Prop where
  chart_eq : chart = settled ++ fresh
  settled_lt : ∀ p ∈ settled, p.2 < position
  fresh_eq : ∀ p ∈ fresh, p.2 = position

namespace Divides

variable {settled fresh chart bottom top : List (Symbol × Nat)} {n : Nat}

/-- One position further everything is settled but a new symbol. -/
theorem settle (h : Divides settled fresh chart n) (x : Symbol) :
    Divides (settled ++ fresh) [(x, n + 1)] (chart ++ [(x, n + 1)]) (n + 1) := by
  refine ⟨by rw [h.chart_eq], fun p hp => ?_, fun p hp => ?_⟩
  · rcases List.mem_append.1 hp with hp | hp
    · exact Nat.lt_succ_of_lt (h.settled_lt p hp)
    · exact Nat.lt_succ_of_le (Nat.le_of_eq (h.fresh_eq p hp))
  · rw [List.mem_singleton.1 hp]

/-- The symbols on top are all fresh, or the lowest of them is settled. -/
theorem top_cases (h : Divides settled fresh (bottom ++ top) n) :
    (∃ rest, bottom = settled ++ rest ∧ fresh = rest ++ top) ∨
      ∃ x rest, settled = bottom ++ x :: rest := by
  cases top with
  | nil =>
    rw [List.append_nil] at h
    exact .inl ⟨fresh, h.chart_eq, (List.append_nil _).symm⟩
  | cons x top =>
    rcases exists_of_append_eq h.chart_eq.symm with ⟨rest, hs, _⟩ | ⟨rest, hb, hf⟩
    · exact .inr ⟨x, rest, hs⟩
    · exact .inl ⟨rest, hb, hf⟩

theorem replace_fresh (h : Divides settled (fresh ++ top) chart n) (x : Symbol) :
    Divides settled (fresh ++ [(x, n)]) (settled ++ fresh ++ [(x, n)]) n := by
  refine ⟨List.append_assoc _ _ _, h.settled_lt, List.forall_mem_append.2 ⟨fun p hp => ?_, ?_⟩⟩
  · exact h.fresh_eq p (List.mem_append_left _ hp)
  · intro p hp
    rw [List.mem_singleton.1 hp]

theorem replace_settled (h : Divides (bottom ++ top) fresh chart n) (x : Symbol) :
    Divides bottom [(x, n)] (bottom ++ [(x, n)]) n := by
  refine ⟨rfl, fun p hp => h.settled_lt p (List.mem_append_left _ hp), fun p hp => ?_⟩
  rw [List.mem_singleton.1 hp]

end Divides

section

variable {g : Grammar} {k : g.Ranking} {b : TableBuild} {input : List Symbol} {c c' : Config}
  {settled fresh chart chart' : List (Symbol × Nat)}

/-- **There are only so many fresh symbols**: all but the lowest span nothing. -/
theorem Tracks.length_fresh_le (k : g.Ranking) (h : Tracks g input c chart)
    (hd : Divides settled fresh chart c.position) : fresh.length ≤ k.run + 1 := by
  obtain ⟨rfl, _, hfresh⟩ := hd
  cases fresh with
  | nil => exact Nat.zero_le _
  | cons p fresh =>
    have hc := h.charted
    rw [List.append_cons] at hc
    obtain ⟨e, he, hspans⟩ := hc.exists_drop
    obtain rfl : p.2 = e := he.inv_push.1
    have hp : c.position ≤ p.2 := Nat.le_of_eq (hfresh p List.mem_cons_self).symm
    have hs := h.stands.spells
    rw [List.append_cons, List.map_append] at hs
    have hle := k.length_le_of_spells hs (hspans.vanishes hp)
    rw [List.length_map] at hle
    exact Nat.succ_le_succ hle

/-- **Shifts pay for all moves**: with the cost of a shift for each position it goes further, every
    move leaves less to pay. -/
theorem ChartMove.exists_divides {length : Nat} (h : ChartMove k length c c' chart chart')
    (hd : Divides settled fresh chart c.position) (hfresh : fresh.length ≤ k.run + 1) :
    ∃ settled' fresh', Divides settled' fresh' chart' c'.position ∧
      k.potential settled' fresh' + k.shiftCost * c.position <
        k.potential settled fresh + k.shiftCost * c'.position := by
  cases h with
  | @shift _ id hp =>
    rw [hp, Nat.mul_succ]
    have hlt := k.potential_settle settled hfresh (.terminal id, c.position + 1)
    exact ⟨_, _, hd.settle _, by omega⟩
  | @reduce bottom top n hp hdigit =>
    rw [hp]
    rcases hd.top_cases with ⟨rest, rfl, rfl⟩ | ⟨x, rest, rfl⟩
    · have hrank := k.rankDigit_lt_of_digit_lt hdigit
        fun p hmem => hd.fresh_eq p (List.mem_append_right rest hmem)
      exact ⟨_, _, hd.replace_fresh _,
        Nat.add_lt_add_right (k.potential_fresh_lt settled hfresh hrank) _⟩
    · exact ⟨_, _, hd.replace_settled _,
        Nat.add_lt_add_right (k.potential_settled_lt bottom fresh rest x _) _⟩

/-- **A machine that does not spin makes fewer moves than a shift costs for each symbol of the input
    and for its end.** -/
theorem length_moves_lt (hb : TableBuild.ofGrammar g = .ok b) (k : g.Ranking)
    (hspin : ∀ n, ¬ SpinsAt g input n) {ms : List Move}
    (h : (Machine.mk g b.tables).Moves (.initial input) ms c) :
    ms.length < (input.length + 1) * k.shiftCost := by
  have hinv := h.invariant (P := fun past c => ∃ chart settled fresh, Tracks g input c chart ∧
      Divides settled fresh chart c.position ∧
      past.length + k.potential settled fresh ≤ k.potential [] [] + k.shiftCost * c.position)
    (fun past c move c' hP hstep => ?_) []
    ⟨[], [], [], tracks_initial g input, ⟨rfl, by simp, by simp⟩, by simp⟩
  · obtain ⟨chart, settled, fresh, ht, _, hle⟩ := hinv
    rw [List.nil_append] at hle
    have hstart := k.potential_nil_lt
    have hmul : k.shiftCost * c.position ≤ k.shiftCost * input.length :=
      Nat.mul_le_mul_left _ ht.position_le
    rw [Nat.succ_mul, Nat.mul_comm input.length]
    omega
  · obtain ⟨chart, settled, fresh, ht, hd, hle⟩ := hP
    obtain ⟨chart', ht', hmove⟩ := ht.exists_chartMove hb k hspin hstep
    obtain ⟨settled', fresh', hd', hpays⟩ := hmove.exists_divides hd (ht.length_fresh_le k hd)
    refine ⟨chart', settled', fresh', ht', hd', ?_⟩
    rw [List.length_append, List.length_singleton]
    omega

end

/-! ## 5. Parsers -/

/-- **Parsers of productive grammars run in linear time**: there is a number of steps for each symbol
    of the input and for its end, the same for all inputs, with which the parser always accepts or
    rejects. -/
theorem exists_uniform_bound {g : Grammar} {p : Parser} (hp : Parser.build g = .ok p)
    (hprod : g.Productive) :
    ∃ m, ∀ (input : List Symbol) (k : Nat), m ≤ k →
      ∃ r, p.run ((input.length + 1) * k) input = .ok r := by
  obtain rfl := Parser.grammar_of_build hp
  obtain ⟨ranking⟩ := p.exists_ranking
  refine ⟨ranking.shiftCost, fun input k hk => ?_⟩
  refine Machine.exists_run_of_length_lt p.own_tables fun ms c hm => ?_
  have hspin := not_spinsAt_of_productive p.own_tables rfl hprod input
  calc ms.length < (input.length + 1) * ranking.shiftCost :=
        length_moves_lt p.own_tables ranking hspin hm
    _ ≤ (input.length + 1) * k := Nat.mul_le_mul_left _ hk

/-- The parser of sums runs in linear time. -/
theorem sums_uniform_bound :
    ∃ m, ∀ (input : List Symbol) (k : Nat), m ≤ k →
      ∃ r, sumsParser.run ((input.length + 1) * k) input = .ok r :=
  exists_uniform_bound build_sums productive_sums

end ShiftReduce
