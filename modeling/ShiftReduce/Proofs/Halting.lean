import ShiftReduce.Proofs.Soundness
import ShiftReduce.Proofs.Spinning
import ShiftReduce.Proofs.StackHeight
/-!
# When parsers halt

A parser halts on an input exactly when it does not spin on it (`parse_halts_iff`). The stack with
the positions at which its symbols end is read as a number: the symbols are digits, the lowest one
the most significant, and a place above the stack counts as the largest digit. Unless the parser
spins, every move makes the number smaller (`Tracks.move`):

* a shift and a reduction of the empty string put a digit where the largest one stood;
* any other reduction replaces the first symbol of the right-hand side by one that ends later, or
  ends at the same position and has a larger rank.
-/

namespace ShiftReduce

/-! ## 1. Stacks as numbers -/

/-- The number with these digits, the most significant first, in `places` places. A place without a
    digit counts `top`, which is more than every digit. -/
def weight (top : Nat) : (places : Nat) → (digits : List Nat) → Nat
  | 0, _ => 0
  | places + 1, digits =>
    digits.head?.getD top * (top + 1) ^ places + weight top places digits.tail

/-- Digits up to `top` make a number below the next power. -/
theorem weight_lt_pow {top places : Nat} {digits : List Nat} (h : ∀ d ∈ digits, d ≤ top) :
    weight top places digits < (top + 1) ^ places := by
  induction places generalizing digits with
  | zero => exact Nat.zero_lt_one
  | succ places ih =>
    have hhead : digits.head?.getD top ≤ top := by
      cases digits with
      | nil => exact Nat.le_refl top
      | cons d digits => exact h d List.mem_cons_self
    have htail := ih fun d hd => h d (List.mem_of_mem_tail hd)
    have hmul := Nat.mul_le_mul_right ((top + 1) ^ places) hhead
    have hpow : (top + 1) ^ (places + 1) = top * (top + 1) ^ places + (top + 1) ^ places := by
      rw [Nat.pow_succ, Nat.mul_comm, Nat.add_mul, Nat.one_mul]
    rw [weight]
    omega

/-- **A smaller digit makes the number smaller**, whatever stood behind it. -/
theorem weight_lt {top places d : Nat} {digits rest : List Nat} (hp : digits.length < places)
    (hd : d < rest.head?.getD top) :
    weight top places (digits ++ [d]) < weight top places (digits ++ rest) := by
  induction places generalizing digits with
  | zero => exact absurd hp (Nat.not_lt_zero _)
  | succ places ih =>
    cases digits with
    | nil =>
      have hnil : weight top places [] < (top + 1) ^ places :=
        weight_lt_pow fun d hd => absurd hd List.not_mem_nil
      have hmul : (d + 1) * (top + 1) ^ places ≤ rest.head?.getD top * (top + 1) ^ places :=
        Nat.mul_le_mul_right _ hd
      rw [Nat.add_mul, Nat.one_mul] at hmul
      show d * (top + 1) ^ places + weight top places [] <
        rest.head?.getD top * (top + 1) ^ places + weight top places rest.tail
      omega
    | cons c digits =>
      have hlt : weight top places (digits ++ [d]) < weight top places (digits ++ rest) :=
        ih (Nat.lt_of_succ_lt_succ hp)
      exact Nat.add_lt_add_left hlt _

/-! ## 2. Digits -/

namespace Grammar.Ranking

variable {g : Grammar} (k : g.Ranking)

/-- The rank of a symbol, above those of all terminals for a nonterminal. -/
def symbolRank : Symbol → Nat
  | .nonterminal n => k.rank n + 1
  | _ => 0

theorem symbolRank_le (x : Symbol) : k.symbolRank x ≤ k.top + 1 := by
  cases x with
  | nonterminal n => exact Nat.succ_le_succ (k.rank_le n)
  | terminal id => exact Nat.zero_le _
  | endOfInput => exact Nat.zero_le _
  | epsilon => exact Nat.zero_le _

/-- The digit of a symbol that ends at a position, for an input of `length` symbols: the later it
    ends and, at one position, the larger its rank, the smaller the digit. -/
def digit (length : Nat) (p : Symbol × Nat) : Nat :=
  (length - p.2) * (k.top + 2) + (k.top + 1 - k.symbolRank p.1)

/-- More than every digit. -/
def ceiling (length : Nat) : Nat := (length + 1) * (k.top + 2)

theorem digit_lt_ceiling (length : Nat) (p : Symbol × Nat) :
    k.digit length p < k.ceiling length := by
  have hmul : (length - p.2) * (k.top + 2) ≤ length * (k.top + 2) :=
    Nat.mul_le_mul_right _ (Nat.sub_le _ _)
  rw [digit, ceiling, Nat.add_mul, Nat.one_mul]
  omega

/-- A symbol that ends later has a smaller digit. -/
theorem digit_lt_of_lt {length a e : Nat} (hae : a < e) (he : e ≤ length) (x y : Symbol) :
    k.digit length (x, e) < k.digit length (y, a) := by
  have hmul : (length - e + 1) * (k.top + 2) ≤ (length - a) * (k.top + 2) :=
    Nat.mul_le_mul_right _ (by omega)
  rw [Nat.add_mul, Nat.one_mul] at hmul
  show (length - e) * (k.top + 2) + (k.top + 1 - k.symbolRank x) <
    (length - a) * (k.top + 2) + (k.top + 1 - k.symbolRank y)
  omega

/-- At one position a symbol of larger rank has a smaller digit. -/
theorem digit_lt_of_rank {length e : Nat} {x y : Symbol} (h : k.symbolRank y < k.symbolRank x) :
    k.digit length (x, e) < k.digit length (y, e) := by
  have hx := k.symbolRank_le x
  show (length - e) * (k.top + 2) + (k.top + 1 - k.symbolRank x) <
    (length - e) * (k.top + 2) + (k.top + 1 - k.symbolRank y)
  omega

/-- **A rule raises the rank of its first symbol**, unless it is self-recursive. -/
theorem symbolRank_lt {r : Rule} (hr : r ∈ g.rules.toList) {x : Symbol} {α : List Symbol}
    (hx : r.rhs = x :: α) (hself : x ≠ .nonterminal r.lhs) :
    k.symbolRank x < k.symbolRank (.nonterminal r.lhs) := by
  cases x with
  | nonterminal n =>
    have hn : n ≠ r.lhs := fun h => hself (congrArg Symbol.nonterminal h)
    exact Nat.succ_lt_succ (k.rank_lt_of_rhs (η := []) hr hx
      (fun y hy => absurd hy List.not_mem_nil) fun hfront => hn hfront.2)
  | terminal id => exact Nat.succ_pos _
  | endOfInput => exact Nat.succ_pos _
  | epsilon => exact Nat.succ_pos _

/-! ## 3. Every move makes the number smaller -/

/-- How many places a stack can need on an input of `length` symbols. -/
def places (length : Nat) : Nat := length * (k.run + 1) + k.run

/-- A chart as a number. -/
def chartWeight (length : Nat) (chart : List (Symbol × Nat)) : Nat :=
  weight (k.ceiling length) (k.places length) (chart.map (k.digit length))

/-- A chart whose last symbols are replaced by one with a smaller digit gets a smaller number. -/
theorem chartWeight_lt {length : Nat} {chart : List (Symbol × Nat)} (top : List (Symbol × Nat))
    {p : Symbol × Nat} (hl : (chart ++ [p]).length ≤ k.places length)
    (hd : k.digit length p < (top.map (k.digit length)).head?.getD (k.ceiling length)) :
    k.chartWeight length (chart ++ [p]) < k.chartWeight length (chart ++ top) := by
  rw [List.length_append, List.length_singleton] at hl
  rw [chartWeight, chartWeight, List.map_append, List.map_append]
  refine weight_lt ?_ hd
  rw [List.length_map]
  exact hl

end Grammar.Ranking

/-- The machine stands at its position of the input, and the chart gives the ends of what its stack
    spells. -/
structure Tracks (g : Grammar) (input : List Symbol) (c : Config) (chart : List (Symbol × Nat)) :
    Prop where
  stands : c.StandsAt g input (chart.map Prod.fst) c.position
  charted : Charted g input chart c.position
  position_le : c.position ≤ input.length

theorem tracks_initial (g : Grammar) (input : List Symbol) :
    Tracks g input (.initial input) [] :=
  ⟨standsAt_initial g input, .nil, Nat.zero_le _⟩

section

variable {g : Grammar} {b : TableBuild} {input : List Symbol} {c : Config}
  {chart : List (Symbol × Nat)}

/-- A tracked stack has a digit for each place at most. -/
theorem Tracks.length_le (k : g.Ranking) (h : Tracks g input c chart) :
    chart.length ≤ k.places input.length := by
  have hle := k.length_chart_le h.stands.spells h.charted
  have hmul : c.position * (k.run + 1) ≤ input.length * (k.run + 1) :=
    Nat.mul_le_mul_right _ h.position_le
  rw [Grammar.Ranking.places]
  omega

/-- A shift adds the terminal to the chart. -/
theorem Tracks.shift (h : Tracks g input c chart) {id : Terminal} {target : Nat}
    (hx : c.input.head? = some (.terminal id))
    (hs : (Automaton.ofGrammar g).Spells (c.shift target).stack
      (chart.map Prod.fst ++ [.terminal id])) :
    Tracks g input (c.shift target) (chart ++ [(.terminal id, c.position + 1)]) := by
  have hget : input[c.position]? = some (.terminal id) := h.stands.head?_eq.symm.trans hx
  refine ⟨?_, h.charted.push (.terminal hget (.nil _)), (List.getElem?_eq_some_iff.1 hget).1⟩
  rw [List.map_append]
  exact h.stands.shift hs

/-- A reduction puts the left-hand side in the place of the right-hand side. -/
theorem Tracks.reduce {bottom top : List (Symbol × Nat)}
    (h : Tracks g input c (bottom ++ top)) {r : Rule} (hr : r ∈ g.rules.toList)
    (htop : top.map Prod.fst = r.rhs) (hf : g.Follows r.lhs c.lookahead) {target exposed : Nat}
    {rest : List Nat}
    (hs : (Automaton.ofGrammar g).Spells (target :: exposed :: rest)
      (bottom.map Prod.fst ++ [.nonterminal r.lhs])) :
    Tracks g input ⟨target, exposed :: rest, c.input, c.position⟩
      (bottom ++ [(.nonterminal r.lhs, c.position)]) := by
  obtain ⟨a, ha, hspan⟩ := h.charted.exists_drop
  rw [htop] at hspan
  rw [h.stands.lookahead_eq] at hf
  refine ⟨?_, ha.push (.nonterminal hr hspan hf (.nil _)), h.position_le⟩
  rw [List.map_append]
  exact h.stands.reduce hs

/-- **The digit of the left-hand side is smaller** than that of the first symbol of the right-hand
    side, unless the machine spins. -/
theorem Tracks.digit_lt (k : g.Ranking) (hspin : ∀ n, ¬ SpinsAt g input n)
    {bottom top : List (Symbol × Nat)} (h : Tracks g input c (bottom ++ top)) {i : Nat} {r : Rule}
    (hr : g.rules[i]? = some r) (he : Entered g (bottom.map Prod.fst) i)
    (htop : top.map Prod.fst = r.rhs)
    (hnew : Charted g input (bottom ++ [(.nonterminal r.lhs, c.position)]) c.position) :
    k.digit input.length (.nonterminal r.lhs, c.position) <
      (top.map (k.digit input.length)).head?.getD (k.ceiling input.length) := by
  cases top with
  | nil => exact k.digit_lt_ceiling _ _
  | cons p top =>
    obtain ⟨x, e⟩ := p
    have hrm : r ∈ g.rules.toList := Grammar.mem_rules hr
    have hc := h.charted
    rw [← List.singleton_append, ← List.append_assoc] at hc
    obtain ⟨d, hd, hrest⟩ := hc.exists_drop
    obtain rfl : e = d := hd.inv_push.1
    rcases Nat.lt_or_eq_of_le hrest.le with hlt | heq
    · exact k.digit_lt_of_lt hlt h.position_le _ _
    · -- all but the first symbol span nothing
      rw [heq]
      refine k.digit_lt_of_rank (k.symbolRank_lt hrm htop.symm fun hself => ?_)
      subst hself
      have hr' : g.rules[i]? = some ⟨r.lhs, .nonterminal r.lhs :: top.map Prod.fst⟩ :=
        hr.trans (congrArg (fun rhs => some (Rule.mk r.lhs rhs)) htop.symm)
      have hspans := hnew.spans
      rw [List.map_append] at hspans
      exact hspin c.position
        ⟨hr', hrest.vanishes (Nat.le_of_eq heq.symm), he, hspans⟩

/-- What a move from `c` to `c'` makes of a chart: a shift adds a terminal, and a reduction puts a
    nonterminal in the place of the symbols on top. Its digit is smaller than that of the first of
    them. -/
inductive ChartMove (k : g.Ranking) (length : Nat) (c c' : Config) :
    List (Symbol × Nat) → List (Symbol × Nat) → Prop where
  | shift {chart : List (Symbol × Nat)} {id : Terminal} (hp : c'.position = c.position + 1) :
      ChartMove k length c c' chart (chart ++ [(.terminal id, c.position + 1)])
  | reduce {bottom top : List (Symbol × Nat)} {n : Nonterminal} (hp : c'.position = c.position)
      (hd : k.digit length (.nonterminal n, c.position) <
        (top.map (k.digit length)).head?.getD (k.ceiling length)) :
      ChartMove k length c c' (bottom ++ top) (bottom ++ [(.nonterminal n, c.position)])

/-- **Every move of a machine that does not spin is one of these.** -/
theorem Tracks.exists_chartMove (hb : TableBuild.ofGrammar g = .ok b) (k : g.Ranking)
    (hspin : ∀ n, ¬ SpinsAt g input n) (h : Tracks g input c chart) {move : Move} {c' : Config}
    (hstep : (Machine.mk g b.tables).step c = .move move c') :
    ∃ chart', Tracks g input c' chart' ∧ ChartMove k input.length c c' chart chart' := by
  have ho := ownStep hb h.stands.spells
  rw [hstep] at ho
  cases ho with
  | shift hx hs => exact ⟨_, h.shift hx hs, .shift rfl⟩
  | reduce hr h0 he hγ hf hd hs =>
    obtain ⟨bottom, top, rfl, rfl, htop⟩ := List.map_eq_append_iff.1 hγ
    have h' := h.reduce (Grammar.mem_rules hr) htop (TableBuild.follows_of_tables hb hf) hs
    exact ⟨_, h', .reduce rfl (h.digit_lt k hspin hr he htop h'.charted)⟩

/-- **Every move of a machine that does not spin makes the number smaller.** -/
theorem Tracks.move (hb : TableBuild.ofGrammar g = .ok b) (k : g.Ranking)
    (hspin : ∀ n, ¬ SpinsAt g input n) (h : Tracks g input c chart) {move : Move} {c' : Config}
    (hstep : (Machine.mk g b.tables).step c = .move move c') :
    ∃ chart', Tracks g input c' chart' ∧
      k.chartWeight input.length chart' < k.chartWeight input.length chart := by
  obtain ⟨chart', h', hmove⟩ := h.exists_chartMove hb k hspin hstep
  refine ⟨chart', h', ?_⟩
  cases hmove with
  | shift hp =>
    have hlt := k.chartWeight_lt [] (h'.length_le k) (k.digit_lt_ceiling _ _)
    rwa [List.append_nil] at hlt
  | reduce hp hd => exact k.chartWeight_lt _ (h'.length_le k) hd

/-- **A machine that does not spin makes no more moves than the number it starts with.** -/
theorem length_moves_le (hb : TableBuild.ofGrammar g = .ok b) (k : g.Ranking)
    (hspin : ∀ n, ¬ SpinsAt g input n) {ms : List Move}
    (h : (Machine.mk g b.tables).Moves (.initial input) ms c) :
    ms.length ≤ k.chartWeight input.length [] := by
  have hinv := h.invariant (P := fun past c => ∃ chart, Tracks g input c chart ∧
      past.length + k.chartWeight input.length chart ≤ k.chartWeight input.length [])
    (fun past c move c' hP hstep => ?_) []
    ⟨[], tracks_initial g input, Nat.le_of_eq (Nat.zero_add _)⟩
  · obtain ⟨chart, _, hle⟩ := hinv
    rw [List.nil_append] at hle
    omega
  · obtain ⟨chart, ht, hle⟩ := hP
    obtain ⟨chart', ht', hlt⟩ := ht.move hb k hspin hstep
    refine ⟨chart', ht', ?_⟩
    rw [List.length_append, List.length_singleton]
    omega

end

/-! ## 4. A parser that spins

`S -> A U`, `A -> A V | a`, `V -> ε`, `U -> U b` and, referred to by no rule, `T -> A c`. The
nonterminals `S`, `A`, `V`, `U`, `T` are numbered from 1 and the terminals `a`, `b`, `c` from 0. No
string is derived from `S`, since none is from `U`; yet `c` can follow `A`. -/

def spinning : Grammar where
  rules := #[⟨0, [.nonterminal 1]⟩,
    ⟨1, [.nonterminal 2, .nonterminal 4]⟩,
    ⟨2, [.nonterminal 2, .nonterminal 3]⟩,
    ⟨2, [.terminal 0]⟩,
    ⟨3, []⟩,
    ⟨4, [.nonterminal 4, .terminal 1]⟩,
    ⟨5, [.nonterminal 2, .terminal 2]⟩]
  augmentedStart := 0
  start := 1
  rule_zero := rfl
  no_defect := by decide

def spinningParser : Parser := (Parser.build spinning).toOption.get (by decide +kernel)

theorem build_spinning : Parser.build spinning = .ok spinningParser :=
  eq_ok_of_toOption (Option.some_get _).symm

/-- Behind `a`, which is an `A`, the rule `A -> A V` is reduced again and again in front of `c`. -/
theorem spinning_spins : SpinsAt spinning [.terminal 0, .terminal 2] 1 := by
  have hc : Rewrites spinning.rules.toList [.nonterminal 5]
      ([] ++ .nonterminal 2 :: .terminal 2 :: []) :=
    .of_mem (r := ⟨5, [.nonterminal 2, .terminal 2]⟩) (by decide)
  have ha : Spans spinning [.terminal 0, .terminal 2] [.nonterminal 2] 0 1 :=
    .nonterminal (r := ⟨2, [.terminal 0]⟩) (by decide) (.terminal rfl (.nil 1)) (.terminal hc)
      (.nil 1)
  have hv : Rewrites spinning.rules.toList [.nonterminal 3] [] :=
    .of_mem (r := ⟨3, []⟩) (by decide)
  have hs : Entered spinning ([] ++ []) 1 := .enter .start spinning.rule_zero rfl rfl
  have hA : Entered spinning ([] ++ [] ++ []) 2 := .enter hs rfl rfl rfl
  exact ⟨rfl, hv, hA, ha⟩

/-! ## 5. Parsers -/

/-- A parser has no hidden left recursion, so its nonterminals are ranked. -/
theorem Parser.exists_ranking (p : Parser) : Nonempty p.grammar.Ranking := by
  obtain ⟨e, he, _⟩ := TableBuild.exists_elimination p.own_tables
  exact Grammar.exists_ranking (Elimination.isOf he).nothing_hidden

/-- **A parser halts exactly where it does not spin**: some number of steps for each symbol lets it
    accept or reject the input, unless at some position a self-recursive rule with a vanishing rest
    has been entered and its left-hand side read. -/
theorem parse_halts_iff {g : Grammar} {p : Parser} (hp : Parser.build g = .ok p)
    (input : List Symbol) :
    (∃ k r, p.run ((input.length + 1) * k) input = .ok r) ↔ ¬ ∃ n, SpinsAt g input n := by
  obtain rfl := Parser.grammar_of_build hp
  constructor
  · intro ⟨k, r, hr⟩ ⟨n, hn⟩
    rw [show p.run _ _ = _ from run_of_spins p.own_tables rfl hn _] at hr
    cases hr
  · intro hspin
    obtain ⟨k⟩ := p.exists_ranking
    have hlt : k.chartWeight input.length [] <
        (input.length + 1) * (k.chartWeight input.length [] + 1) :=
      calc k.chartWeight input.length [] < k.chartWeight input.length [] + 1 := Nat.lt_succ_self _
        _ = 1 * (k.chartWeight input.length [] + 1) := (Nat.one_mul _).symm
        _ ≤ _ := Nat.mul_le_mul_right _ (Nat.le_add_left 1 _)
    refine ⟨k.chartWeight input.length [] + 1, ?_⟩
    obtain ⟨ms, c, hm, hend⟩ := p.run_cases
      ((input.length + 1) * (k.chartWeight input.length [] + 1)) input
    have hle := length_moves_le p.own_tables k (not_exists.1 hspin) hm
    rcases hend with ⟨hl, _⟩ | ⟨_, hf⟩
    · omega
    · generalize p.run _ _ = result at hf
      cases hf with
      | accept hs => exact ⟨_, rfl⟩
      | reject hs => exact ⟨_, rfl⟩
      | stuck hs => exact absurd hs (Machine.not_stuck_of_moves p.own_tables hm _ _)

/-- On `a` alone the parser `spinningParser` halts, so it does not spin there. -/
theorem spinning_halts :
    (∃ k r, spinningParser.run ((1 + 1) * k) [.terminal 0] = .ok r) ∧
      ¬ ∃ n, SpinsAt spinning [.terminal 0] n := by
  have hrun : spinningParser.run ((1 + 1) * 1) [.terminal 0] =
      .ok ⟨.rejected 3 .endOfInput 1, [.shift 3 0]⟩ := eq_ok_of_toOption (by decide +kernel)
  exact ⟨⟨1, _, hrun⟩, (parse_halts_iff build_spinning [.terminal 0]).1 ⟨1, _, hrun⟩⟩

/-- **Some parsers never halt**: the grammar builds without a finding, and on `a c` its parser
    exceeds every bound. -/
theorem spinning_never_halts :
    Parser.build spinning = .ok spinningParser ∧
      ¬ ∃ k r, spinningParser.run ((2 + 1) * k) [.terminal 0, .terminal 2] = .ok r := by
  refine ⟨build_spinning, ?_⟩
  intro ⟨k, r, hr⟩
  have hown := spinningParser.own_tables
  have hg : spinningParser.grammar = spinning := Parser.grammar_of_build build_spinning
  have hspin := spinning_spins
  rw [← hg] at hspin
  rw [show spinningParser.run _ _ = _ from run_of_spins hown rfl hspin _] at hr
  cases hr

end ShiftReduce
