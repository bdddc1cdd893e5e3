import ShiftReduce.Proofs.OwnTables
/-!
# Machines with other numbers

Rules and states are known to a machine by their numbers only. If the same tables are written with
other numbers (`Machine.Renumbers`), a step of the one machine is a step of the other with other
numbers (`Renumbers.step`), and so is a run (`Renumbers.run`). Symbols, positions and the number of
moves stay as they are. This holds of every machine, whatever its tables.
-/

namespace ShiftReduce

/-! ## 1. Other numbers

`σ` gives the new number of a rule, and `τ` that of a state. -/

section

variable (σ τ : Nat → Nat)

def Item.renumber (i : Item) : Item := ⟨σ i.rule, i.dot⟩

def Action.renumber : Action → Action
  | .shift state => .shift (τ state)
  | .reduce rule => .reduce (σ rule)
  | .accept => .accept

def Move.renumber : Move → Move
  | .shift state position => .shift (τ state) position
  | .reduce rule target => .reduce (σ rule) (τ target)
  | .accept => .accept

def Event.renumber : Event → Event
  | .shift state position => .shift (τ state) position
  | .reduce rule => .reduce (σ rule)
  | .goto state => .goto (τ state)
  | .accept => .accept

def Config.renumber (c : Config) : Config := ⟨τ c.top, c.below.map τ, c.input, c.position⟩

def TableDefect.renumber : TableDefect → TableDefect
  | .missingRule rule => .missingRule (σ rule)
  | .underflow rule => .underflow (σ rule)
  | .missingGoto n => .missingGoto n

def Step.renumber : Step → Step
  | .move m c => .move (m.renumber σ τ) (c.renumber τ)
  | .accept => .accept
  | .reject => .reject
  | .stuck state defect => .stuck (τ state) (defect.renumber σ)

def Outcome.renumber : Outcome → Outcome
  | .accepted => .accepted
  | .rejected state lookahead position => .rejected (τ state) lookahead position

def Run.renumber (r : Run) : Run := ⟨r.outcome.renumber τ, r.moves.map (Move.renumber σ τ)⟩

end

variable {σ τ : Nat → Nat}

/-- Different actions stay different where numbers do. -/
theorem Action.renumber_injective (hσ : Function.Injective σ) (hτ : Function.Injective τ) :
    Function.Injective (Action.renumber σ τ) := by
  intro act act' h
  cases act with
  | shift s =>
    cases act' with
    | shift s' => exact congrArg _ (hτ (Action.shift.inj h))
    | reduce rule => cases h
    | accept => cases h
  | reduce rule =>
    cases act' with
    | shift s => cases h
    | reduce rule' => exact congrArg _ (hσ (Action.reduce.inj h))
    | accept => cases h
  | accept =>
    cases act' with
    | shift s => cases h
    | reduce rule => cases h
    | accept => rfl

theorem Move.events_renumber (m : Move) :
    (m.renumber σ τ).events = m.events.map (Event.renumber σ τ) := by
  cases m <;> rfl

/-- The trace of a run with other numbers is its trace with other numbers. -/
theorem Run.trace_renumber (r : Run) :
    (r.renumber σ τ).trace = r.trace.map (Event.renumber σ τ) := by
  rw [trace, trace, renumber, List.flatMap_map, List.map_flatMap]
  exact List.flatMap_congr fun m _ => m.events_renumber

theorem Config.stack_renumber (c : Config) : (c.renumber τ).stack = c.stack.map τ := rfl

theorem Config.initial_renumber (h : τ 0 = 0) (input : List Symbol) :
    (initial input).renumber τ = initial input := by
  rw [initial, renumber, h]
  rfl

/-! ## 2. Machines -/

namespace Machine

variable {m m' : Machine}

/-- `m'` has the rules and the tables of `m` with other numbers. -/
structure Renumbers (σ τ : Nat → Nat) (m m' : Machine) : Prop where
  rules : ∀ i : Nat, m'.grammar.rules[σ i]? = m.grammar.rules[i]?
  action : ∀ s x, m'.tables.action? (τ s) x = (m.tables.action? s x).map (Action.renumber σ τ)
  goto : ∀ s n, m'.tables.goto? (τ s) n = (m.tables.goto? s n).map τ

namespace Renumbers

theorem reduce (h : Renumbers σ τ m m') (c : Config) (rule : Nat) :
    m'.reduce (c.renumber τ) (σ rule) = (m.reduce c rule).renumber σ τ := by
  unfold Machine.reduce
  rw [h.rules]
  cases m.grammar.rules[rule]? with
  | none => rfl
  | some r =>
    simp only [Config.stack_renumber, ← List.map_drop]
    cases c.stack.drop r.rhs.length with
    | nil => rfl
    | cons exposed rest =>
      simp only [List.map_cons, h.goto]
      cases m.tables.goto? exposed r.lhs with
      | none => rfl
      | some target => rfl

/-- **A step with other numbers is the step with other numbers.** -/
theorem step (h : Renumbers σ τ m m') (c : Config) :
    m'.step (c.renumber τ) = (m.step c).renumber σ τ := by
  have haction : m'.tables.action? (c.renumber τ).top (c.renumber τ).lookahead =
      (m.tables.action? c.top c.lookahead).map (Action.renumber σ τ) := h.action c.top c.lookahead
  unfold Machine.step
  rw [haction]
  cases m.tables.action? c.top c.lookahead with
  | none => rfl
  | some act =>
    cases act with
    | shift state => rfl
    | reduce rule => exact h.reduce c rule
    | accept => rfl

theorem moves (h : Renumbers σ τ m m') {c c' : Config} {ms : List Move} (hm : m.Moves c ms c') :
    m'.Moves (c.renumber τ) (ms.map (Move.renumber σ τ)) (c'.renumber τ) := by
  induction hm with
  | refl c => exact .refl _
  | @step c c' c'' move ms hs _ ih =>
    refine .step ?_ ih
    rw [h.step, hs]
    rfl

/-- **A run with other numbers is the run with other numbers**, if the tables never leave the run
    stuck. -/
theorem run (h : Renumbers σ τ m m') (hzero : τ 0 = 0) {input : List Symbol}
    (hstuck : ∀ ms c, m.Moves (.initial input) ms c → ∀ state defect,
      m.step c ≠ .stuck state defect) (bound : Nat) :
    m'.run bound input = (m.run bound input).map (Run.renumber σ τ) := by
  obtain ⟨ms, c, hm, hend⟩ := m.run_cases bound input
  have hm' := h.moves hm
  rw [Config.initial_renumber hzero] at hm'
  have hstep := h.step c
  rcases hend with ⟨hl, hrun⟩ | ⟨hl, hfinishes⟩
  · rw [hrun]
    exact run_of_exceeds hm' (by rw [List.length_map, hl])
  · have hl' : (ms.map (Move.renumber σ τ)).length < bound := by rwa [List.length_map]
    generalize m.run bound input = result at hfinishes
    cases hfinishes with
    | accept hs =>
      rw [hs] at hstep
      refine run_of_finishes hm' hl' ?_
      have hmoves : (ms ++ [Move.accept]).map (Move.renumber σ τ) =
          ms.map (Move.renumber σ τ) ++ [.accept] := List.map_append
      rw [Except.map, Run.renumber, hmoves]
      exact .accept hstep
    | reject hs =>
      rw [hs] at hstep
      exact run_of_finishes hm' hl' (.reject hstep)
    | stuck hs => exact absurd hs (hstuck ms c hm _ _)

end Renumbers

end Machine

end ShiftReduce
