import ShiftReduce.Proofs.AbstractMachine
/-!
# Finished runs

A finished run has seen the lookaheads up to the position where it ended and nothing else. Whatever
stands behind, and however many steps are allowed, a run over the same lookaheads has the same
result, unless its bound stops it first (`Machine.exists_steps_of_seen`). This holds of every
machine.

Tables of a grammar never shift `$` (`TableBuild.shift_ne_endOfInput`), so such a machine stays within
its input and has not seen what follows a `$` behind it: with `TableBuild.finished_result_eq` neither a
closing `$` with more symbols nor a higher bound changes a result.
-/

namespace ShiftReduce

/-! ## 1. The same lookaheads, the same result -/

/-- A longer input with no fewer steps for each symbol is allowed no fewer steps. -/
theorem stepBound_le {n n' k k' : Nat} (hn : n ≤ n') (hk : k ≤ k') : stepBound n k ≤ stepBound n' k' :=
  min_le_min_right maxBound (Nat.mul_le_mul (Nat.succ_le_succ hn) hk)

namespace Machine

variable {m : Machine} {input input' : List Symbol} {c : Config} {ms : List Move} {r : Run}

/-- The position is the number of shifts so far. -/
theorem Moves.position_eq (h : m.Moves (.initial input) ms c) :
    c.position = shiftsIn (ms.flatMap Move.events) := by
  rw [shiftsIn_eq_length, (reaches_of_moves h).1.positions, List.length_range]
  rfl

theorem Finishes.shifts_eq (h : m.Finishes c ms (.ok r)) :
    r.shifts = shiftsIn (ms.flatMap Move.events) := by
  cases h with
  | accept hs => exact Run.shifts_accepted ms
  | reject hs => rfl

/-- A result is reached by moves below the bound, as many shifts on as it has seen symbols. -/
theorem exists_moves_of_parse {k : Nat} (h : m.parse k input = .ok r) :
    ∃ ms c, m.Moves (.initial input) ms c ∧ ms.length < stepBound input.length k ∧
      m.Finishes c ms (.ok r) ∧ c.position = r.shifts := by
  obtain ⟨ms, c, hm, hl, hf⟩ := exists_moves_of_run h
  exact ⟨ms, c, hm, hl, hf, hm.position_eq.trans hf.shifts_eq.symm⟩

/-- **Two runs over the same lookaheads**: with enough steps the second comes to the result of the
    first, and with fewer its bound stops it. -/
theorem exists_steps_of_seen {k : Nat} (h : m.parse k input = .ok r)
    (hseen : ∀ a ≤ r.shifts, lookaheadAt input' a = lookaheadAt input a) :
    ∃ steps < stepBound input.length k, ∀ k',
      (steps < stepBound input'.length k' → m.parse k' input' = .ok r) ∧
      (stepBound input'.length k' ≤ steps →
        m.parse k' input' = .error (.boundExceeded (stepBound input'.length k'))) := by
  obtain ⟨ms, c, hm, hl, hf, hpos⟩ := exists_moves_of_parse h
  rw [← hpos] at hseen
  obtain ⟨hmoves, _⟩ := hm.facing (Config.initial_facing input input) hseen
  exact ⟨ms.length, hl, fun k' => ⟨run_eq_of_seen hm hf hseen, run_of_exceeds hmoves⟩⟩

/-- **A result depends on the lookaheads seen**: the run over another input that shows them comes to
    the same result unless its own bound stops it. -/
theorem parse_eq_of_seen {k k' : Nat} (h : m.parse k input = .ok r)
    (hseen : ∀ a ≤ r.shifts, lookaheadAt input' a = lookaheadAt input a)
    (hbound : ∀ n, m.parse k' input' ≠ .error (.boundExceeded n)) : m.parse k' input' = .ok r := by
  obtain ⟨steps, _, hsteps⟩ := exists_steps_of_seen h hseen
  obtain ⟨hok, hstopped⟩ := hsteps k'
  exact hok (Nat.lt_of_not_le fun hle => hbound _ (hstopped hle))

/-- With at least the steps of the first run the bound does not stop the second. -/
theorem parse_eq_of_seen_of_le {k k' : Nat} (h : m.parse k input = .ok r)
    (hseen : ∀ a ≤ r.shifts, lookaheadAt input' a = lookaheadAt input a)
    (hlen : input.length ≤ input'.length) (hk : k ≤ k') : m.parse k' input' = .ok r := by
  obtain ⟨steps, hl, hsteps⟩ := exists_steps_of_seen h hseen
  exact (hsteps k').1 (Nat.lt_of_lt_of_le hl (stepBound_le hlen hk))

/-! ## 2. Machines that never shift the end marker -/

/-- **A machine that never shifts `$` stays within its input.** -/
theorem Reaches.position_le {p : Place} (h : m.Reaches input ms p)
    (hno : ∀ s target, m.tables.action? s .endOfInput ≠ some (.shift target)) :
    p.position ≤ input.length := by
  induction h with
  | start => exact Nat.zero_le _
  | @turn ms p p' move _ ht ih =>
    cases ht with
    | reduce h hr hd hgoto => exact ih
    | @shift target h =>
      -- at the end of the input the cell would be one of `$`
      refine Nat.lt_of_le_of_ne ih fun hend => ?_
      obtain ⟨top, _, hcell⟩ := Option.bind_eq_some_iff.1 h
      rw [lookaheadAt, hend, List.getElem?_eq_none (Nat.le_refl _)] at hcell
      exact hno _ _ hcell

theorem shifts_le_of_parse {k : Nat} (h : m.parse k input = .ok r)
    (hno : ∀ s target, m.tables.action? s .endOfInput ≠ some (.shift target)) :
    r.shifts ≤ input.length := by
  obtain ⟨ms, c, hm, _, _, hpos⟩ := exists_moves_of_parse h
  rw [← hpos]
  exact (reaches_of_moves hm).1.position_le hno

end Machine

/-! ## 3. Tables of a grammar -/

namespace TableBuild

/-- Tables of a grammar shift terminals only. -/
theorem shift_ne_endOfInput {g : Grammar} {b : TableBuild} (hb : ofGrammar g = .ok b)
    (s target : Nat) : b.tables.action? s .endOfInput ≠ some (.shift target) := by
  intro ha
  obtain ⟨_, _, _, _, hasks⟩ := exists_asks_of_action? hb ha
  cases hasks

/-- **A finished result depends only on the lookaheads it has seen**, with the tables of any grammar:
    whatever shows the same ones has the same result unless its bound stops it, and so has the input
    with `$` and anything more behind it, and the input itself with a higher bound, since no such
    table shifts `$`. -/
theorem finished_result_eq {g g' : Grammar} {b : TableBuild} (hb : ofGrammar g' = .ok b) {k : Nat}
    {u : List Symbol} {r : Run} (hr : (Machine.mk g b.tables).parse k u = .ok r) :
    (∀ k' v, (∀ a ≤ r.shifts, lookaheadAt v a = lookaheadAt u a) →
      (∀ n, (Machine.mk g b.tables).parse k' v ≠ .error (.boundExceeded n)) →
        (Machine.mk g b.tables).parse k' v = .ok r) ∧
    (∀ k' w, k ≤ k' → (Machine.mk g b.tables).parse k' (u ++ .endOfInput :: w) = .ok r) ∧
    (∀ k', k ≤ k' → (Machine.mk g b.tables).parse k' u = .ok r) ∧
    ∀ s target, b.tables.action? s .endOfInput ≠ some (.shift target) := by
  have hno := shift_ne_endOfInput hb
  refine ⟨fun k' v => Machine.parse_eq_of_seen hr, fun k' w hk => ?_, fun k' hk => ?_, hno⟩
  · have hle : r.shifts ≤ u.length := Machine.shifts_le_of_parse hr hno
    have hend : lookaheadAt u u.length = .endOfInput := by
      rw [lookaheadAt, List.getElem?_eq_none (Nat.le_refl _)]
      rfl
    have hseen := lookaheadAt_take_append (v := .endOfInput :: w) (Nat.le_refl u.length) hend.symm
    rw [List.take_length] at hseen
    refine Machine.parse_eq_of_seen_of_le hr (fun a ha => hseen a (Nat.le_trans ha hle)) ?_ hk
    rw [List.length_append]
    exact Nat.le_add_right _ _
  · exact Machine.parse_eq_of_seen_of_le hr (fun _ _ => rfl) (Nat.le_refl _) hk

end TableBuild

/-- `n n` is rejected at its second `n`, with `+` behind it and fewer steps for each symbol as well,
    with `$ + +` behind it, and with a thousand steps. -/
theorem ambiguousSums_finished :
    ∃ r, (Machine.mk ambiguousSums ambiguousSumsBuild.tables).parse 2
        [.terminal 1, .terminal 1] = .ok r ∧ r.outcome = .rejected 2 (.terminal 1) 1 ∧
      (Machine.mk ambiguousSums ambiguousSumsBuild.tables).parse 1
        [.terminal 1, .terminal 1, .terminal 0] = .ok r ∧
      (Machine.mk ambiguousSums ambiguousSumsBuild.tables).parse 2
        [.terminal 1, .terminal 1, .endOfInput, .terminal 0, .terminal 0] = .ok r ∧
      (Machine.mk ambiguousSums ambiguousSumsBuild.tables).parse 1000
        [.terminal 1, .terminal 1] = .ok r := by
  have hrun : (Machine.mk ambiguousSums ambiguousSumsBuild.tables).parse 2
      [.terminal 1, .terminal 1] = .ok ⟨.rejected 2 (.terminal 1) 1, [.shift 2 0]⟩ :=
    eq_ok_of_toOption (by decide +kernel)
  have hends : ((Machine.mk ambiguousSums ambiguousSumsBuild.tables).parse 1
      [.terminal 1, .terminal 1, .terminal 0]).toOption.isSome = true := by decide +kernel
  obtain ⟨hseen, happend, hraise, _⟩ :=
    TableBuild.finished_result_eq ofGrammar_ambiguousSums hrun
  refine ⟨_, hrun, rfl, hseen 1 _ (by decide) fun n he => ?_,
    happend 2 [.terminal 0, .terminal 0] (Nat.le_refl 2), hraise 1000 (by decide)⟩
  rw [he] at hends
  cases hends

end ShiftReduce
