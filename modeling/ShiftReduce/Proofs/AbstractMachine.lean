import ShiftReduce.Proofs.SeenInput
import ShiftReduce.Proofs.Soundness
/-!
# The machine on stacks and positions

The shift-reduce machine without its driver: a place is a stack of states and a position in the
input, and the cell of the top state on the lookahead there says what comes next. The driver keeps
the rest of the input instead of the position and counts its steps down from a bound. It does the
same:

* `Machine.Turn`, `Machine.Breaks` -- one move of the machine, and the reductions that cannot be made;
* `Machine.reaches_of_moves`, `Machine.exists_moves_of_reaches` -- the driver comes to exactly the
  places that the machine reaches, by the same moves;
* `Machine.Ends`, `Machine.parse_eq_iff_ends` -- the driver answers with how the machine ends, or does
  not end, within the bound.

Nothing here depends on where the tables come from.
-/

namespace ShiftReduce

/-! ## 1. Places and moves -/

/-- Where the machine stands: the states of its stack, from the top down, and the position of the
    next symbol. -/
structure Place where
  stack : List Nat
  position : Nat

/-- State 0 before the whole input. -/
def Place.initial : Place := ⟨[0], 0⟩

namespace Machine

/-- The cell of the top state on the lookahead. -/
def actionAt? (m : Machine) (input : List Symbol) (p : Place) : Option Action :=
  p.stack.head?.bind fun top => m.tables.action? top (lookaheadAt input p.position)

/-- One move. A shift pushes a state and goes one position further. A reduction takes as many states
    off the stack as its right-hand side is long and enters the state that GOTO names for the state
    exposed by this. -/
inductive Turn (m : Machine) (input : List Symbol) : Place → Move → Place → Prop where
  | shift {p : Place} {target : Nat} (h : m.actionAt? input p = some (.shift target)) :
      Turn m input p (.shift target p.position) ⟨target :: p.stack, p.position + 1⟩
  | reduce {p : Place} {i exposed target : Nat} {r : Rule} {rest : List Nat}
      (h : m.actionAt? input p = some (.reduce i)) (hr : m.grammar.rules[i]? = some r)
      (hd : p.stack.drop r.rhs.length = exposed :: rest)
      (hgoto : m.tables.goto? exposed r.lhs = some target) :
      Turn m input p (.reduce i target) ⟨target :: exposed :: rest, p.position⟩

/-- The cell asks for a reduction that cannot be made: by a rule that the grammar does not have, of a
    right-hand side that leaves no state on the stack, or without GOTO. -/
inductive Breaks (m : Machine) (input : List Symbol) (p : Place) : Nat → TableDefect → Prop where
  | missingRule {top i : Nat} (htop : p.stack.head? = some top)
      (h : m.actionAt? input p = some (.reduce i)) (hr : m.grammar.rules[i]? = none) :
      Breaks m input p top (.missingRule i)
  | underflow {top i : Nat} {r : Rule} (htop : p.stack.head? = some top)
      (h : m.actionAt? input p = some (.reduce i)) (hr : m.grammar.rules[i]? = some r)
      (hlen : p.stack.length ≤ r.rhs.length) : Breaks m input p top (.underflow i)
  | missingGoto {i exposed : Nat} {r : Rule} {rest : List Nat}
      (h : m.actionAt? input p = some (.reduce i)) (hr : m.grammar.rules[i]? = some r)
      (hd : p.stack.drop r.rhs.length = exposed :: rest)
      (hgoto : m.tables.goto? exposed r.lhs = none) :
      Breaks m input p exposed (.missingGoto r.lhs)

/-- The moves lead from the start to the place. -/
inductive Reaches (m : Machine) (input : List Symbol) : List Move → Place → Prop where
  | start : Reaches m input [] .initial
  | turn {ms : List Move} {p p' : Place} {move : Move} (h : Reaches m input ms p)
      (ht : m.Turn input p move p') : Reaches m input (ms ++ [move]) p'

end Machine

/-! ## 2. Configurations of the driver as places -/

/-- The stack and the position of a configuration. -/
def Config.place (c : Config) : Place := ⟨c.stack, c.position⟩

namespace Machine

variable {m : Machine} {input : List Symbol} {c : Config}

/-- The driver reads the cell of its place. -/
theorem actionAt?_place (hc : c.facing input = c) :
    m.actionAt? input c.place = m.tables.action? c.top c.lookahead := by
  have hlook : lookaheadAt input c.position = c.lookahead :=
    (c.lookahead_facing input).symm.trans (congrArg Config.lookahead hc)
  rw [← hlook]
  rfl

/-- What the machine does at the place where the driver makes this step. -/
inductive StepAt (m : Machine) (input : List Symbol) (p : Place) : Step → Prop where
  | move {move : Move} {c' : Config} (ht : m.Turn input p move c'.place) :
      StepAt m input p (.move move c')
  | accept (ha : m.actionAt? input p = some .accept) : StepAt m input p .accept
  | reject (ha : m.actionAt? input p = none) : StepAt m input p .reject
  | stuck {state : Nat} {defect : TableDefect} (hb : m.Breaks input p state defect) :
      StepAt m input p (.stuck state defect)

/-- A reduction that the cell asks for is made, or found impossible, as the machine does it. -/
theorem reduceAt {i : Nat} (h : m.actionAt? input c.place = some (.reduce i)) :
    m.StepAt input c.place (m.reduce c i) := by
  unfold reduce
  cases hr : m.grammar.rules[i]? with
  | none => exact .stuck (.missingRule rfl h hr)
  | some r =>
    simp only
    cases hd : c.stack.drop r.rhs.length with
    | nil => exact .stuck (.underflow rfl h hr (List.drop_eq_nil_iff.1 hd))
    | cons exposed rest =>
      simp only
      cases hgoto : m.tables.goto? exposed r.lhs with
      | none => exact .stuck (.missingGoto h hr hd hgoto)
      | some target => exact .move (.reduce h hr hd hgoto)

/-- **A step of the driver is what the machine does at its place.** -/
theorem stepAt (hc : c.facing input = c) : m.StepAt input c.place (m.step c) := by
  have hcell := actionAt?_place (m := m) hc
  unfold step
  cases ha : m.tables.action? c.top c.lookahead with
  | none => exact .reject (hcell.trans ha)
  | some act =>
    rw [ha] at hcell
    cases act with
    | shift state => exact .move (.shift hcell)
    | reduce i => exact reduceAt hcell
    | accept => exact .accept hcell

theorem facing_of_step {move : Move} {c' : Config} (hc : c.facing input = c)
    (h : m.step c = .move move c') : c'.facing input = c' :=
  ((Moves.single h).facing hc fun _ _ => rfl).2

theorem step_of_none (hc : c.facing input = c) (h : m.actionAt? input c.place = none) :
    m.step c = .reject := by
  rw [actionAt?_place hc] at h
  rw [step, h]

theorem step_of_accept (hc : c.facing input = c)
    (h : m.actionAt? input c.place = some .accept) : m.step c = .accept := by
  rw [actionAt?_place hc] at h
  rw [step, h]

theorem step_of_shift (hc : c.facing input = c) {target : Nat}
    (h : m.actionAt? input c.place = some (.shift target)) :
    m.step c = .move (.shift target c.position) (c.shift target) := by
  rw [actionAt?_place hc] at h
  rw [step, h]

theorem step_of_reduce (hc : c.facing input = c) {i : Nat}
    (h : m.actionAt? input c.place = some (.reduce i)) : m.step c = m.reduce c i := by
  rw [actionAt?_place hc] at h
  rw [step, h]

/-- The driver makes every move of the machine. -/
theorem exists_step_of_turn (hc : c.facing input = c) {move : Move} {p' : Place}
    (ht : m.Turn input c.place move p') : ∃ c', m.step c = .move move c' ∧ c'.place = p' := by
  cases ht with
  | @shift target h => exact ⟨c.shift target, step_of_shift hc h, rfl⟩
  | @reduce i exposed target r rest h hr hd hgoto =>
    have hstack : c.stack.drop r.rhs.length = exposed :: rest := hd
    refine ⟨⟨target, exposed :: rest, c.input, c.position⟩, ?_, rfl⟩
    rw [step_of_reduce hc h]
    simp only [reduce, hr, hstack, hgoto]

/-- The driver finds what the machine breaks on. -/
theorem step_of_breaks (hc : c.facing input = c) {state : Nat} {defect : TableDefect}
    (hb : m.Breaks input c.place state defect) : m.step c = .stuck state defect := by
  cases hb with
  | missingRule htop h hr =>
    obtain rfl := Option.some.inj htop
    rw [step_of_reduce hc h]
    simp only [reduce, hr]
  | @underflow _ i r htop h hr hlen =>
    obtain rfl := Option.some.inj htop
    have hstack : c.stack.drop r.rhs.length = [] := List.drop_eq_nil_of_le hlen
    rw [step_of_reduce hc h]
    simp only [reduce, hr, hstack]
  | @missingGoto i _ r rest h hr hd hgoto =>
    have hstack : c.stack.drop r.rhs.length = state :: rest := hd
    rw [step_of_reduce hc h]
    simp only [reduce, hr, hstack, hgoto]

/-! ## 3. The driver comes to the places that the machine reaches -/

/-- Where the driver comes to, the machine comes to. -/
theorem reaches_of_moves {ms : List Move} (h : m.Moves (.initial input) ms c) :
    m.Reaches input ms c.place ∧ c.facing input = c := by
  -- the place says nothing of the input still to be read, so that it is the rest is kept beside it
  refine h.invariant (P := fun past c => m.Reaches input past c.place ∧ c.facing input = c)
    (fun past c move c' hP hs => ?_) [] ⟨.start, Config.initial_facing input input⟩
  obtain ⟨hreach, hc⟩ := hP
  refine ⟨?_, facing_of_step hc hs⟩
  have hat := m.stepAt hc
  rw [hs] at hat
  cases hat with
  | move ht => exact .turn hreach ht

/-- Where the machine comes to, the driver comes to. -/
theorem exists_moves_of_reaches {ms : List Move} {p : Place} (h : m.Reaches input ms p) :
    ∃ c, m.Moves (.initial input) ms c ∧ c.place = p := by
  induction h with
  | start => exact ⟨.initial input, .refl _, rfl⟩
  | turn _ ht ih =>
    obtain ⟨c, hm, rfl⟩ := ih
    obtain ⟨c', hs, hp⟩ := exists_step_of_turn (reaches_of_moves hm).2 ht
    exact ⟨c', hm.trans (.single hs), hp⟩

end Machine

/-! ## 4. What the trace of the moves shows -/

/-- The position of a shift. -/
def Event.position? : Event → Option Nat
  | .shift _ position => some position
  | _ => none

theorem shiftsIn_eq_length (trace : List Event) :
    shiftsIn trace = (trace.filterMap Event.position?).length := by
  rw [shiftsIn, List.length_filterMap_eq_countP]
  congr 1
  funext e
  cases e <;> rfl

/-- **A reduction is directly followed by its GOTO** in the trace of any moves. -/
theorem goto_behind_reduce {ms : List Move} {a i : Nat}
    (h : (ms.flatMap Move.events)[a]? = some (.reduce i)) :
    ∃ target, (ms.flatMap Move.events)[a + 1]? = some (.goto target) ∧
      .reduce i target ∈ ms := by
  induction ms generalizing a with
  | nil => cases h
  | cons move ms ih =>
    rw [List.flatMap_cons] at h ⊢
    by_cases hle : move.events.length ≤ a
    · rw [List.getElem?_append_right hle] at h
      obtain ⟨target, hgoto, hmem⟩ := ih h
      refine ⟨target, ?_, List.mem_cons_of_mem _ hmem⟩
      rwa [List.getElem?_append_right (Nat.le_succ_of_le hle), Nat.succ_sub hle]
    · -- among the entries of one move only the first is a reduction
      have hlt : a < move.events.length := Nat.lt_of_not_le hle
      rw [List.getElem?_append_left hlt] at h
      cases move with
      | shift state position =>
        obtain rfl : a = 0 := Nat.lt_one_iff.1 hlt
        cases h
      | reduce j target =>
        match a, hlt, h with
        | 0, _, h =>
          cases h
          exact ⟨target, rfl, List.mem_cons_self⟩
        | 1, _, h => cases h
      | accept =>
        obtain rfl : a = 0 := Nat.lt_one_iff.1 hlt
        cases h

/-- **The shifts are those of the positions read, in order.** -/
theorem Machine.Reaches.positions {m : Machine} {input : List Symbol} {ms : List Move} {p : Place}
    (h : m.Reaches input ms p) :
    (ms.flatMap Move.events).filterMap Event.position? = List.range p.position := by
  induction h with
  | start => rfl
  | @turn ms p p' move _ ht ih =>
    rw [List.flatMap_append, List.filterMap_append, ih]
    cases ht with
    | shift h => exact List.range_succ.symm
    | reduce h hr hd hgoto => exact List.append_nil _

/-! ## 5. How the driver answers -/

namespace Machine

/-- How the machine ends within a bound, and what is reported of it. Acceptance counts as a move; a
    rejection needs one turn more than the moves made, and so does a reduction that cannot be
    made. -/
inductive Ends (m : Machine) (input : List Symbol) (bound : Nat) : Except RunError Run → Prop where
  | accepted {ms : List Move} {p : Place} (h : m.Reaches input ms p)
      (ha : m.actionAt? input p = some .accept) (hl : (ms ++ [Move.accept]).length ≤ bound) :
      Ends m input bound (.ok ⟨.accepted, ms ++ [.accept]⟩)
  | rejected {ms : List Move} {p : Place} {top : Nat} (h : m.Reaches input ms p)
      (htop : p.stack.head? = some top) (ha : m.actionAt? input p = none)
      (hl : ms.length < bound) :
      Ends m input bound
        (.ok ⟨.rejected top (lookaheadAt input p.position) p.position, ms⟩)
  | corrupt {ms : List Move} {p : Place} {state : Nat} {defect : TableDefect}
      (h : m.Reaches input ms p) (hb : m.Breaks input p state defect)
      (hl : ms.length + 1 ≤ bound) : Ends m input bound (.error (.corruptTable state defect))
  | exceeded {ms : List Move} {p : Place} (h : m.Reaches input ms p) (hl : ms.length = bound) :
      Ends m input bound (.error (.boundExceeded bound))

variable {m : Machine} {input : List Symbol} {bound : Nat} {result : Except RunError Run}

theorem ends_of_finishes {c : Config} {ms : List Move} (hm : m.Moves (.initial input) ms c)
    (hf : m.Finishes c ms result) (hl : ms.length < bound) : m.Ends input bound result := by
  obtain ⟨hreach, hc⟩ := reaches_of_moves hm
  have hat := m.stepAt hc
  cases hf with
  | accept hs =>
    rw [hs] at hat
    cases hat with
    | accept ha => exact .accepted hreach ha (by rwa [List.length_append])
  | reject hs =>
    rw [hs] at hat
    cases hat with
    | reject ha =>
      rw [hm.lookahead_eq]
      exact .rejected hreach rfl ha hl
  | stuck hs =>
    rw [hs] at hat
    cases hat with
    | stuck hb => exact .corrupt hreach hb hl

/-- **A run answers with how the machine ends.** -/
theorem run_eq_iff_ends : m.run bound input = result ↔ m.Ends input bound result := by
  rw [run_eq_iff]
  constructor
  · intro ⟨ms, c, hm, hend⟩
    rcases hend with ⟨hl, rfl⟩ | ⟨hl, hf⟩
    · exact .exceeded (reaches_of_moves hm).1 hl
    · exact ends_of_finishes hm hf hl
  · intro h
    cases h with
    | accepted h ha hl =>
      obtain ⟨c, hm, rfl⟩ := exists_moves_of_reaches h
      rw [List.length_append] at hl
      exact ⟨_, c, hm, .inr ⟨hl, .accept (step_of_accept (reaches_of_moves hm).2 ha)⟩⟩
    | @rejected ms p top h htop ha hl =>
      obtain ⟨c, hm, rfl⟩ := exists_moves_of_reaches h
      obtain rfl := Option.some.inj htop
      refine ⟨ms, c, hm, .inr ⟨hl, ?_⟩⟩
      show m.Finishes c ms (.ok ⟨.rejected c.top (lookaheadAt input c.position) c.position, ms⟩)
      rw [← hm.lookahead_eq]
      exact .reject (step_of_none (reaches_of_moves hm).2 ha)
    | corrupt h hb hl =>
      obtain ⟨c, hm, rfl⟩ := exists_moves_of_reaches h
      exact ⟨_, c, hm, .inr ⟨hl, .stuck (step_of_breaks (reaches_of_moves hm).2 hb)⟩⟩
    | exceeded h hl =>
      obtain ⟨c, hm, -⟩ := exists_moves_of_reaches h
      exact ⟨_, c, hm, .inl ⟨hl, rfl⟩⟩

/-- The moves of a result lead to where it was reached; acceptance is one move more. -/
theorem Ends.exists_reaches {r : Run} (h : m.Ends input bound (.ok r)) :
    ∃ ms p last, m.Reaches input ms p ∧ r.moves = ms ++ last ∧ (last = [] ∨ last = [.accept]) := by
  cases h with
  | accepted h ha hl => exact ⟨_, _, [.accept], h, rfl, .inr rfl⟩
  | rejected h htop ha hl => exact ⟨_, _, [], h, (List.append_nil _).symm, .inl rfl⟩

theorem Ends.positions {r : Run} (h : m.Ends input bound (.ok r)) :
    r.trace.filterMap Event.position? = List.range r.shifts := by
  obtain ⟨ms, p, last, hreach, hmoves, hlast⟩ := h.exists_reaches
  have hnone : (last.flatMap Move.events).filterMap Event.position? = [] := by
    rcases hlast with rfl | rfl <;> rfl
  have hpos : r.trace.filterMap Event.position? = List.range p.position := by
    rw [Run.trace, hmoves, List.flatMap_append, List.filterMap_append, hnone, List.append_nil,
      hreach.positions]
  rw [Run.shifts, shiftsIn_eq_length, hpos, List.length_range]

/-- **The driver is the machine with a bound**: it answers with how the machine ends within so many
    moves for each symbol and for the end, at most `2 ^ 64 - 1`. The trace of a result is that of the
    machine's moves: it shifts the positions from 0 on in order, and every reduction is directly
    followed by its GOTO. -/
theorem parse_eq_iff_ends (m : Machine) (k : Nat) (input : List Symbol) :
    (∀ result, m.parse k input = result ↔
      m.Ends input (min ((input.length + 1) * k) (2 ^ 64 - 1)) result) ∧
    ∀ r, m.parse k input = .ok r →
      r.trace = r.moves.flatMap Move.events ∧
      r.trace.filterMap Event.position? = List.range r.shifts ∧
      ∀ a i, r.trace[a]? = some (.reduce i) →
        ∃ target, r.trace[a + 1]? = some (.goto target) ∧ .reduce i target ∈ r.moves := by
  have hends : ∀ result, m.parse k input = result ↔
      m.Ends input (min ((input.length + 1) * k) (2 ^ 64 - 1)) result :=
    fun _ => run_eq_iff_ends
  exact ⟨hends, fun r hr => ⟨rfl, ((hends _).1 hr).positions, fun a i => goto_behind_reduce⟩⟩

end Machine

/-- Over `n + n` the driver accepts with the seventh of eight moves: it shifts at 0, 1 and 2, and the
    entry behind its first reduction is a GOTO. -/
theorem ambiguousSums_ends :
    ∃ r, (Machine.mk ambiguousSums ambiguousSumsBuild.tables).Ends
        [.terminal 1, .terminal 0, .terminal 1] (min ((3 + 1) * 2) (2 ^ 64 - 1)) (.ok r) ∧
      r.outcome = .accepted ∧ r.moves.length = 7 ∧
      r.trace.filterMap Event.position? = [0, 1, 2] ∧
      ∃ target, r.trace[2]? = some (.goto target) ∧ .reduce 2 target ∈ r.moves := by
  have hrun : (Machine.mk ambiguousSums ambiguousSumsBuild.tables).parse 2
      [.terminal 1, .terminal 0, .terminal 1] = .ok ⟨.accepted, [.shift 2 0,
        .reduce 2 1, .shift 3 1, .shift 2 2, .reduce 2 4, .reduce 1 1, .accept]⟩ :=
    eq_ok_of_toOption (by decide +kernel)
  obtain ⟨hends, htrace⟩ := Machine.parse_eq_iff_ends
    (Machine.mk ambiguousSums ambiguousSumsBuild.tables) 2 [.terminal 1, .terminal 0, .terminal 1]
  obtain ⟨_, hshifts, hgoto⟩ := htrace _ hrun
  exact ⟨_, (hends _).1 hrun, rfl, rfl, hshifts, hgoto 1 2 rfl⟩

end ShiftReduce
