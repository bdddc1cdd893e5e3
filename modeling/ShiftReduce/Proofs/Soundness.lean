import ShiftReduce.Derivation
import ShiftReduce.Proofs.OwnTables
/-!
# Soundness of runs with own tables

A machine whose tables were built for its grammar, with findings or without, never meets a corrupt
table (`parse_not_corrupt`), and what it accepts is derivable: the rules it reduced by, read
backwards, are a rightmost derivation of what it has read (`parse_accepted_sound`). The invariant
behind it is `Accounts`: the rules so far, read backwards, derive what has been read from what the
stack spells.
-/

namespace ShiftReduce

/-- The rules that a run reduced by, in order. -/
def Run.reductions (r : Run) : List Nat := reductionsIn r.trace

/-- How many symbols a run shifted. -/
def Run.shifts (r : Run) : Nat := shiftsIn r.trace

/-- The last entry of the trace of an accepted run is neither a shift nor a reduction. -/
theorem Run.trace_accepted (ms : List Move) :
    (Run.mk .accepted (ms ++ [.accept])).trace = ms.flatMap Move.events ++ [.accept] := by
  rw [Run.trace, List.flatMap_append]
  rfl

theorem Run.shifts_accepted (ms : List Move) :
    (Run.mk .accepted (ms ++ [.accept])).shifts = shiftsIn (ms.flatMap Move.events) := by
  rw [Run.shifts, Run.trace_accepted, shiftsIn_append]
  rfl

theorem Run.reductions_accepted (ms : List Move) :
    (Run.mk .accepted (ms ++ [.accept])).reductions = reductionsIn (ms.flatMap Move.events) := by
  have hnone : reductionsIn [Event.accept] = [] := rfl
  rw [Run.reductions, Run.trace_accepted, reductionsIn_append, hnone, List.append_nil]

/-! ## 1. What the moves so far account for -/

/-- After the moves `past` the machine stands at `c`, its stack spells `γ`, and the rules of the
    moves, read backwards, derive what has been read from `γ`. -/
structure Accounts (g : Grammar) (input : List Symbol) (past : List Move) (c : Config)
    (γ : List Symbol) : Prop where
  stands : c.StandsAt g input γ c.position
  position_eq : c.position = shiftsIn (past.flatMap Move.events)
  position_le : c.position ≤ input.length
  terminals : ∀ x ∈ input.take c.position, x.isTerminal = true
  derives : ∀ back : List Symbol, (∀ x ∈ back, x.isTerminal = true) →
    Rightmost g.rules (reductionsIn (past.flatMap Move.events)).reverse (γ ++ back)
      (input.take c.position ++ back)

theorem accounts_initial (g : Grammar) (input : List Symbol) :
    Accounts g input [] (.initial input) [] where
  stands := standsAt_initial g input
  position_eq := rfl
  position_le := Nat.zero_le _
  terminals x hx := by
    rw [Config.initial, List.take_zero] at hx
    exact absurd hx List.not_mem_nil
  derives back _ := .refl _

section

variable {g : Grammar} {input : List Symbol} {past : List Move} {c : Config} {γ : List Symbol}

/-- A shift reads one more terminal. -/
theorem Accounts.shift (h : Accounts g input past c γ) {id : Terminal} {target : Nat}
    (hx : c.input.head? = some (.terminal id))
    (hs : (Automaton.ofGrammar g).Spells (c.shift target).stack (γ ++ [.terminal id])) :
    Accounts g input (past ++ [.shift target c.position]) (c.shift target)
      (γ ++ [.terminal id]) := by
  have hget : input[c.position]? = some (.terminal id) := h.stands.head?_eq.symm.trans hx
  have htake : input.take (c.position + 1) = input.take c.position ++ [.terminal id] := by
    rw [List.take_add_one, hget]
    rfl
  have hevents : (past ++ [Move.shift target c.position]).flatMap Move.events =
      past.flatMap Move.events ++ [.shift target c.position] := by
    rw [List.flatMap_append]
    rfl
  refine ⟨h.stands.shift hs, ?_, ?_, ?_, ?_⟩
  · rw [hevents, shiftsIn_append, ← h.position_eq]
    rfl
  · exact (List.getElem?_eq_some_iff.1 hget).1
  · intro x hx
    rcases List.mem_append.1 (htake ▸ hx) with hx | hx
    · exact h.terminals x hx
    · rw [List.mem_singleton.1 hx]
      rfl
  · intro back hback
    show Rightmost g.rules _ _ (input.take (c.position + 1) ++ back)
    rw [hevents, reductionsIn_append, htake, List.append_assoc, List.append_assoc]
    have hd := h.derives ([.terminal id] ++ back) fun x hx => by
      rcases List.mem_append.1 hx with hx | hx
      · rw [List.mem_singleton.1 hx]
        rfl
      · exact hback x hx
    have hnone : reductionsIn [Event.shift target c.position] = [] := rfl
    rw [hnone, List.append_nil]
    exact hd

/-- A reduction adds one rule in front of the derivation. -/
theorem Accounts.reduce (h : Accounts g input past c γ) {i exposed target : Nat} {r : Rule}
    {δ : List Symbol} {rest : List Nat} (hr : g.rules[i]? = some r) (hγ : γ = δ ++ r.rhs)
    (hs : (Automaton.ofGrammar g).Spells (target :: exposed :: rest)
      (δ ++ [.nonterminal r.lhs])) :
    Accounts g input (past ++ [.reduce i target]) ⟨target, exposed :: rest, c.input, c.position⟩
      (δ ++ [.nonterminal r.lhs]) := by
  have hevents : (past ++ [Move.reduce i target]).flatMap Move.events =
      past.flatMap Move.events ++ [.reduce i, .goto target] := by
    rw [List.flatMap_append]
    rfl
  refine ⟨h.stands.reduce hs, ?_, h.position_le, h.terminals, ?_⟩
  · rw [hevents, shiftsIn_append, ← h.position_eq]
    rfl
  · intro back hback
    have hone : reductionsIn [Event.reduce i, Event.goto target] = [i] := rfl
    rw [hevents, reductionsIn_append, hone, List.reverse_append, List.append_assoc]
    have hd := h.derives back hback
    rw [hγ] at hd
    exact .head hr hback hd

/-- **A move keeps the account.** -/
theorem Accounts.move {b : TableBuild} (hb : TableBuild.ofGrammar g = .ok b)
    (h : Accounts g input past c γ) {move : Move} {c' : Config}
    (hstep : (Machine.mk g b.tables).step c = .move move c') :
    ∃ γ', Accounts g input (past ++ [move]) c' γ' := by
  have ho := ownStep hb h.stands.spells
  rw [hstep] at ho
  cases ho with
  | shift hx hs => exact ⟨_, h.shift hx hs⟩
  | reduce hr h0 he hγ hf hd hs => exact ⟨_, h.reduce hr hγ hs⟩

/-- **A run keeps the account.** -/
theorem exists_accounts {b : TableBuild} (hb : TableBuild.ofGrammar g = .ok b)
    (h : (Machine.mk g b.tables).Moves (.initial input) past c) :
    ∃ γ, Accounts g input past c γ := by
  refine h.invariant (P := fun past c => ∃ γ, Accounts g input past c γ)
    (fun past c move c' hP hstep => ?_) [] ⟨[], accounts_initial g input⟩
  obtain ⟨γ, hγ⟩ := hP
  exact hγ.move hb hstep

end

/-! ## 2. A grammar with a conflict

`E -> E + E | n`, with `+` as terminal 0 and `n` as terminal 1. -/

def ambiguousSums : Grammar where
  rules := #[⟨0, [.nonterminal 1]⟩,
    ⟨1, [.nonterminal 1, .terminal 0, .nonterminal 1]⟩,
    ⟨1, [.terminal 1]⟩]
  augmentedStart := 0
  start := 1
  rule_zero := rfl
  no_defect := by decide

def ambiguousSumsBuild : TableBuild :=
  (TableBuild.ofGrammar ambiguousSums).toOption.get (by decide +kernel)

theorem ofGrammar_ambiguousSums : TableBuild.ofGrammar ambiguousSums = .ok ambiguousSumsBuild :=
  eq_ok_of_toOption (Option.some_get _).symm

/-! ## 3. Results -/

/-- **Own tables are never corrupt**: no run of a machine with the tables of its own grammar,
    whatever findings their build made, misses a rule, underflows the stack or misses a GOTO. -/
theorem parse_not_corrupt {g : Grammar} {b : TableBuild} (hb : TableBuild.ofGrammar g = .ok b)
    (k : Nat) (input : List Symbol) (state : Nat) (defect : TableDefect) :
    (Machine.mk g b.tables).parse k input ≠ .error (.corruptTable state defect) := by
  intro hrun
  obtain ⟨ms, c, hm, hend⟩ := (Machine.mk g b.tables).run_cases (stepBound input.length k) input
  rw [show (Machine.mk g b.tables).run (stepBound input.length k) input = _ from hrun] at hend
  rcases hend with ⟨_, he⟩ | ⟨_, hf⟩
  · cases he
  · cases hf with
    | stuck hs => exact Machine.not_stuck_of_moves hb hm _ _ hs

/-- Conflicts do no harm. -/
theorem ambiguousSums_not_corrupt :
    ambiguousSumsBuild.diagnostics ≠ [] ∧
      ∀ (k : Nat) (input : List Symbol) (state : Nat) (defect : TableDefect),
        (Machine.mk ambiguousSums ambiguousSumsBuild.tables).parse k input ≠
          .error (.corruptTable state defect) :=
  ⟨by decide +kernel, parse_not_corrupt ofGrammar_ambiguousSums⟩

/-- **What is accepted is derivable**: the symbols shifted are terminals up to a `$` or the end of
    the input, and the rules of the reductions, read backwards, are a rightmost derivation of them
    from the start symbol. -/
theorem parse_accepted_sound {g : Grammar} {b : TableBuild} (hb : TableBuild.ofGrammar g = .ok b)
    (k : Nat) (input : List Symbol) {r : Run}
    (hr : (Machine.mk g b.tables).parse k input = .ok r) (ha : r.outcome = .accepted) :
    (∀ x ∈ input.take r.shifts, x.isTerminal = true) ∧
      (input[r.shifts]? = some .endOfInput ∨ r.shifts = input.length) ∧
      Rightmost g.rules r.reductions.reverse [.nonterminal g.start] (input.take r.shifts) := by
  obtain ⟨ms, c, hm, hend⟩ := (Machine.mk g b.tables).run_cases (stepBound input.length k) input
  rw [show (Machine.mk g b.tables).run (stepBound input.length k) input = _ from hr] at hend
  rcases hend with ⟨_, he⟩ | ⟨_, hf⟩
  · cases he
  · cases hf with
    | reject hs => cases ha
    | accept hs =>
      obtain ⟨γ, h⟩ := exists_accounts hb hm
      have ho := ownStep hb h.stands.spells
      rw [hs] at ho
      cases ho with
      | accept hγ hx =>
        have hd := h.derives [] fun x hx => absurd hx List.not_mem_nil
        rw [List.append_nil, List.append_nil, hγ] at hd
        rw [Run.shifts_accepted, ← h.position_eq, Run.reductions_accepted]
        refine ⟨h.terminals, ?_, hd⟩
        rw [← h.stands.head?_eq]
        cases hc : c.input with
        | nil =>
          refine .inr (Nat.le_antisymm h.position_le ?_)
          exact List.drop_eq_nil_iff.1 (h.stands.input_eq.symm.trans hc)
        | cons x xs =>
          rw [Config.lookahead, hc] at hx
          exact .inl (congrArg some hx)

/-- The run over `n + n $` reads the string in front of the `$`. -/
theorem ambiguousSums_accepted_sound :
    ∃ r, (Machine.mk ambiguousSums ambiguousSumsBuild.tables).parse 4
        [.terminal 1, .terminal 0, .terminal 1, .endOfInput] = .ok r ∧
      r.outcome = .accepted ∧ r.shifts = 3 ∧
      Rightmost ambiguousSums.rules r.reductions.reverse [.nonterminal 1]
        [.terminal 1, .terminal 0, .terminal 1] := by
  have hrun : (Machine.mk ambiguousSums ambiguousSumsBuild.tables).parse 4
      [.terminal 1, .terminal 0, .terminal 1, .endOfInput] = .ok ⟨.accepted, [.shift 2 0,
        .reduce 2 1, .shift 3 1, .shift 2 2, .reduce 2 4, .reduce 1 1, .accept]⟩ :=
    eq_ok_of_toOption (by decide +kernel)
  have hsound := parse_accepted_sound ofGrammar_ambiguousSums 4 _ hrun rfl
  exact ⟨_, hrun, rfl, rfl, hsound.2.2⟩

end ShiftReduce
