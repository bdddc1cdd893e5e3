import ShiftReduce.Proofs.OwnTables
/-!
# What a run has seen of its input

A machine sees its input through the lookaheads only. `Config.facing` puts a configuration at the
same position of another input; a step does the same there as long as the lookahead is the same
(`Machine.step_facing`), and so do moves and the end of a run (`Moves.facing`, `run_eq_of_seen`).
This holds of every machine, whatever its tables.
-/

namespace ShiftReduce

/-! ## 1. Inputs that begin alike -/

/-- Up to the end of a beginning of the input, and at its end, what goes on with the same symbol
    shows the same lookaheads. -/
theorem lookaheadAt_take_append {n : Nat} {input v : List Symbol} (hn : n ≤ input.length)
    (hv : v.head?.getD .endOfInput = lookaheadAt input n) :
    ∀ a ≤ n, lookaheadAt (input.take n ++ v) a = lookaheadAt input a := by
  intro a ha
  have hlen : (input.take n).length = n := List.length_take_of_le hn
  rcases Nat.lt_or_eq_of_le ha with hlt | rfl
  · rw [lookaheadAt, List.getElem?_append_left (hlen.symm ▸ hlt), List.getElem?_take_of_lt hlt]
    rfl
  · rw [← hv, lookaheadAt, List.getElem?_append_right (Nat.le_of_eq hlen), hlen, Nat.sub_self,
      List.head?_eq_getElem?]

/-! ## 2. The same configuration with another input in front -/

namespace Config

/-- The stack and the position of the configuration, with another input in front of it. -/
def facing (c : Config) (input : List Symbol) : Config :=
  ⟨c.top, c.below, input.drop c.position, c.position⟩

@[simp] theorem top_facing (c : Config) (input : List Symbol) : (c.facing input).top = c.top := rfl

@[simp] theorem stack_facing (c : Config) (input : List Symbol) :
    (c.facing input).stack = c.stack := rfl

theorem initial_facing (input input' : List Symbol) :
    (initial input).facing input' = initial input' := rfl

theorem lookahead_facing (c : Config) (input : List Symbol) :
    (c.facing input).lookahead = lookaheadAt input c.position := by
  rw [lookahead, facing, List.head?_drop]
  rfl

theorem shift_facing (c : Config) (input : List Symbol) (state : Nat) :
    (c.facing input).shift state = (c.shift state).facing input := by
  rw [shift, shift, facing, facing, List.tail_drop]
  rfl

end Config

/-- The step with its configuration in front of another input. -/
def Step.facing (input : List Symbol) : Step → Step
  | .move m c => .move m (c.facing input)
  | .accept => .accept
  | .reject => .reject
  | .stuck state defect => .stuck state defect

namespace Machine

variable {m : Machine}

theorem reduce_facing (c : Config) (input : List Symbol) (rule : Nat) :
    m.reduce (c.facing input) rule = (m.reduce c rule).facing input := by
  unfold reduce
  cases m.grammar.rules[rule]? with
  | none => rfl
  | some r =>
    simp only [Config.stack_facing]
    cases c.stack.drop r.rhs.length with
    | nil => rfl
    | cons exposed rest =>
      simp only
      cases m.tables.goto? exposed r.lhs with
      | none => rfl
      | some target => rfl

/-- **With the same lookahead a step does the same in front of another input.** -/
theorem step_facing {c : Config} {input : List Symbol}
    (h : lookaheadAt input c.position = c.lookahead) :
    m.step (c.facing input) = (m.step c).facing input := by
  unfold step
  rw [Config.lookahead_facing, h, Config.top_facing]
  cases m.tables.action? c.top c.lookahead with
  | none => rfl
  | some act =>
    cases act with
    | shift state => exact congrArg (Step.move _) (Config.shift_facing c input state)
    | reduce rule => exact reduce_facing c input rule
    | accept => rfl

/-! ## 3. Moves and runs -/

/-- A reduction stays at its position. -/
theorem position_of_reduce {c c' : Config} {rule : Nat} {move : Move}
    (h : m.reduce c rule = .move move c') : c'.position = c.position := by
  unfold reduce at h
  split at h
  · cases h
  · split at h
    · cases h
    · split at h
      · cases h
      · cases h
        rfl

theorem position_le_of_step {c c' : Config} {move : Move} (h : m.step c = .move move c') :
    c.position ≤ c'.position := by
  unfold step at h
  split at h
  · cases h
  · cases h
    exact Nat.le_succ c.position
  · exact Nat.le_of_eq (position_of_reduce h).symm
  · cases h

theorem Moves.position_le {c c' : Config} {ms : List Move} (h : m.Moves c ms c') :
    c.position ≤ c'.position := by
  induction h with
  | refl => exact Nat.le_refl _
  | step hs _ ih => exact Nat.le_trans (position_le_of_step hs) ih

variable {input input' : List Symbol}

/-- **Moves are the same in front of another input** with the same lookaheads up to where they
    end. -/
theorem Moves.facing {c c' : Config} {ms : List Move} (h : m.Moves c ms c')
    (hc : c.facing input = c)
    (hseen : ∀ a ≤ c'.position, lookaheadAt input' a = lookaheadAt input a) :
    m.Moves (c.facing input') ms (c'.facing input') ∧ c'.facing input = c' := by
  induction h with
  | refl c => exact ⟨.refl _, hc⟩
  | @step c c₁ c' move ms hs hm ih =>
    have hlook : lookaheadAt input c.position = c.lookahead :=
      (c.lookahead_facing input).symm.trans (congrArg Config.lookahead hc)
    have hle : c.position ≤ c'.position := Nat.le_trans (position_le_of_step hs) hm.position_le
    have hstep : m.step (c.facing input') = .move move (c₁.facing input') := by
      rw [step_facing ((hseen _ hle).trans hlook), hs]
      rfl
    have hc₁ : c₁.facing input = c₁ := by
      have hsame := step_facing (m := m) hlook
      rw [hc, hs] at hsame
      exact (Step.move.inj hsame).2.symm
    obtain ⟨hmoves, hc'⟩ := ih hc₁ hseen
    exact ⟨.step hstep hmoves, hc'⟩

/-- The lookahead of a machine is that of its input at its position. -/
theorem Moves.lookahead_eq {c : Config} {ms : List Move} (h : m.Moves (.initial input) ms c) :
    c.lookahead = lookaheadAt input c.position := by
  obtain ⟨_, hc⟩ := h.facing (Config.initial_facing input input) fun a _ => rfl
  rw [← c.lookahead_facing input, hc]

theorem Finishes.facing {c : Config} {ms : List Move} {result : Except RunError Run}
    (h : m.Finishes c ms result) (hlook : lookaheadAt input c.position = c.lookahead) :
    m.Finishes (c.facing input) ms result := by
  have hstep := step_facing (m := m) hlook
  cases h with
  | accept hs =>
    rw [hs] at hstep
    exact .accept hstep
  | reject hs =>
    rw [hs] at hstep
    rw [← hlook, ← c.lookahead_facing input]
    exact .reject hstep
  | stuck hs =>
    rw [hs] at hstep
    exact .stuck hstep

/-- **A run that finishes comes out the same over every input with the lookaheads it has seen.** -/
theorem run_eq_of_seen {c : Config} {ms : List Move} {result : Except RunError Run}
    (h : m.Moves (.initial input) ms c) (hf : m.Finishes c ms result)
    (hseen : ∀ a ≤ c.position, lookaheadAt input' a = lookaheadAt input a) {bound : Nat}
    (hl : ms.length < bound) : m.run bound input' = result := by
  obtain ⟨hmoves, _⟩ := h.facing (Config.initial_facing input input) hseen
  exact run_of_finishes hmoves hl
    (hf.facing ((hseen _ (Nat.le_refl _)).trans h.lookahead_eq.symm))

end Machine

end ShiftReduce
