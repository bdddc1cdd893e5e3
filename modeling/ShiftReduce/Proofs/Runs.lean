import ShiftReduce.Machine
/-!
# Runs are sequences of moves

`Machine.run` counts its steps down from a bound. Here a run is a sequence of moves
(`Machine.Moves`) with the way it comes out (`Machine.Finishes`):

* `run_cases` -- a run makes as many moves as its bound allows, or it finishes before;
* `run_of_finishes`, `run_of_exceeds` -- conversely, moves that finish below the bound are the run,
  and moves up to the bound exceed it (both ways in `run_eq_iff`);
* `Moves.invariant` -- what every move keeps, a run keeps.
-/

namespace ShiftReduce

/-! ## 1. What a trace tells -/

/-- The rule of a reduction. -/
def Event.rule? : Event → Option Nat
  | .reduce rule => some rule
  | _ => none

def Event.isShift : Event → Bool
  | .shift _ _ => true
  | _ => false

/-- The rules that a trace reduces by, in order. -/
def reductionsIn (trace : List Event) : List Nat := trace.filterMap Event.rule?

/-- How many shifts a trace holds. -/
def shiftsIn (trace : List Event) : Nat := trace.countP Event.isShift

theorem reductionsIn_append (l m : List Event) :
    reductionsIn (l ++ m) = reductionsIn l ++ reductionsIn m := List.filterMap_append

theorem shiftsIn_append (l m : List Event) : shiftsIn (l ++ m) = shiftsIn l + shiftsIn m :=
  List.countP_append

/-- A result that was read as a value was that value. -/
theorem eq_ok_of_toOption {ε α : Type} {x : Except ε α} {a : α} (h : x.toOption = some a) :
    x = .ok a := by
  cases x with
  | error e => cases h
  | ok v => exact congrArg Except.ok (Option.some.inj h)

namespace Machine

variable {m : Machine}

/-! ## 2. Moves -/

/-- `c'` comes from `c` by these moves. -/
inductive Moves (m : Machine) : Config → List Move → Config → Prop where
  | refl (c : Config) : Moves m c [] c
  | step {c c' c'' : Config} {move : Move} {ms : List Move} (h : m.step c = .move move c')
      (hs : Moves m c' ms c'') : Moves m c (move :: ms) c''

namespace Moves

theorem single {c c' : Config} {move : Move} (h : m.step c = .move move c') :
    m.Moves c [move] c' := .step h (.refl c')

theorem trans {c c' c'' : Config} {ms ns : List Move} (h : m.Moves c ms c')
    (k : m.Moves c' ns c'') : m.Moves c (ms ++ ns) c'' := by
  induction h with
  | refl => exact k
  | step h _ ih => exact .step h (ih k)

/-- **What every move keeps, a sequence of moves keeps.** -/
theorem invariant {P : List Move → Config → Prop}
    (hs : ∀ past c move c', P past c → m.step c = .move move c' → P (past ++ [move]) c')
    (past : List Move) {ms : List Move} {c c' : Config} (h : m.Moves c ms c') (h0 : P past c) :
    P (past ++ ms) c' := by
  induction h generalizing past with
  | refl => exact (List.append_nil past).symm ▸ h0
  | @step c c' c'' move ms h _ ih =>
    have hn := ih (past ++ [move]) (hs past c move c' h0 h)
    rwa [List.append_assoc] at hn

end Moves

/-! ## 3. How a run comes out -/

/-- How a run comes out that has made the moves `ms` and stands at `c`. -/
inductive Finishes (m : Machine) (c : Config) (ms : List Move) : Except RunError Run → Prop where
  | accept (h : m.step c = .accept) : Finishes m c ms (.ok ⟨.accepted, ms ++ [.accept]⟩)
  | reject (h : m.step c = .reject) :
      Finishes m c ms (.ok ⟨.rejected c.top c.lookahead c.position, ms⟩)
  | stuck {state : Nat} {defect : TableDefect} (h : m.step c = .stuck state defect) :
      Finishes m c ms (.error (.corruptTable state defect))

theorem runFrom_cases (m : Machine) (bound left : Nat) (past : List Move) (c : Config) :
    ∃ ms c', m.Moves c ms c' ∧
      ((ms.length = left ∧ m.runFrom bound left past c = .error (.boundExceeded bound)) ∨
        (ms.length < left ∧
          m.Finishes c' (past.reverse ++ ms) (m.runFrom bound left past c))) := by
  induction left generalizing past c with
  | zero => exact ⟨[], c, .refl c, .inl ⟨rfl, rfl⟩⟩
  | succ left ih =>
    unfold runFrom
    cases hs : m.step c with
    | move move c' =>
      obtain ⟨ms, c'', hm, hend⟩ := ih (move :: past) c'
      refine ⟨move :: ms, c'', .step hs hm, ?_⟩
      rcases hend with ⟨hl, he⟩ | ⟨hl, he⟩
      · exact .inl ⟨congrArg Nat.succ hl, he⟩
      · refine .inr ⟨Nat.succ_lt_succ hl, ?_⟩
        rwa [List.reverse_cons, List.append_assoc] at he
    | accept =>
      refine ⟨[], c, .refl c, .inr ⟨Nat.succ_pos left, ?_⟩⟩
      rw [List.reverse_cons, List.append_nil]
      exact .accept hs
    | reject =>
      refine ⟨[], c, .refl c, .inr ⟨Nat.succ_pos left, ?_⟩⟩
      rw [List.append_nil]
      exact .reject hs
    | stuck state defect =>
      exact ⟨[], c, .refl c, .inr ⟨Nat.succ_pos left, .stuck hs⟩⟩

/-- **A run makes as many moves as its bound allows, or it finishes before.** -/
theorem run_cases (m : Machine) (bound : Nat) (input : List Symbol) :
    ∃ ms c, m.Moves (.initial input) ms c ∧
      ((ms.length = bound ∧ m.run bound input = .error (.boundExceeded bound)) ∨
        (ms.length < bound ∧ m.Finishes c ms (m.run bound input))) :=
  m.runFrom_cases bound bound [] (.initial input)

/-- A run with a result is made of moves below its bound to where it finishes so. -/
theorem exists_moves_of_run {bound : Nat} {input : List Symbol} {r : Run}
    (h : m.run bound input = .ok r) :
    ∃ ms c, m.Moves (.initial input) ms c ∧ ms.length < bound ∧ m.Finishes c ms (.ok r) := by
  obtain ⟨ms, c, hm, hend⟩ := m.run_cases bound input
  rw [h] at hend
  rcases hend with ⟨_, he⟩ | ⟨hl, hf⟩
  · cases he
  · exact ⟨ms, c, hm, hl, hf⟩

/-- A step that moves uses up one step of the bound. -/
theorem runFrom_move {bound left : Nat} {past : List Move} {c c' : Config} {move : Move}
    (h : m.step c = .move move c') :
    m.runFrom bound (left + 1) past c = m.runFrom bound left (move :: past) c' := by
  rw [runFrom, h]

theorem runFrom_of_moves {bound left : Nat} {past ms : List Move} {c c' : Config}
    (h : m.Moves c ms c') (hl : ms.length ≤ left) :
    m.runFrom bound left past c =
      m.runFrom bound (left - ms.length) (ms.reverse ++ past) c' := by
  induction h generalizing left past with
  | refl => rfl
  | @step c c' c'' move ms hs _ ih =>
    cases left with
    | zero => exact absurd hl (Nat.not_succ_le_zero _)
    | succ left =>
      rw [runFrom_move hs, ih (Nat.le_of_succ_le_succ hl), List.length_cons, Nat.succ_sub_succ,
        List.reverse_cons, List.append_assoc]
      rfl

theorem runFrom_of_exceeds {bound left : Nat} {past ms : List Move} {c c' : Config}
    (h : m.Moves c ms c') (hl : left ≤ ms.length) :
    m.runFrom bound left past c = .error (.boundExceeded bound) := by
  induction h generalizing left past with
  | refl =>
    obtain rfl := Nat.le_zero.1 hl
    rfl
  | @step c c' c'' move ms hs _ ih =>
    cases left with
    | zero => rfl
    | succ left =>
      rw [runFrom_move hs]
      exact ih (Nat.le_of_succ_le_succ hl)

/-- Moves that finish below the bound are the run. -/
theorem run_of_finishes {bound : Nat} {input : List Symbol} {ms : List Move} {c : Config}
    {result : Except RunError Run} (h : m.Moves (.initial input) ms c) (hl : ms.length < bound)
    (hf : m.Finishes c ms result) : m.run bound input = result := by
  have hrun : m.run bound input = m.runFrom bound (bound - ms.length) ms.reverse c := by
    rw [run, runFrom_of_moves h (Nat.le_of_lt hl), List.append_nil]
  obtain ⟨left, hleft⟩ : ∃ left, bound - ms.length = left + 1 :=
    ⟨bound - ms.length - 1, by omega⟩
  rw [hrun, hleft, runFrom]
  cases hf with
  | accept hs => rw [hs, List.reverse_cons, List.reverse_reverse]
  | reject hs => rw [hs, List.reverse_reverse]
  | stuck hs => rw [hs]

/-- Moves up to the bound exceed it. -/
theorem run_of_exceeds {bound : Nat} {input : List Symbol} {ms : List Move} {c : Config}
    (h : m.Moves (.initial input) ms c) (hl : bound ≤ ms.length) :
    m.run bound input = .error (.boundExceeded bound) :=
  runFrom_of_exceeds h hl

/-- **A run is its moves up to where they finish or use up the bound.** -/
theorem run_eq_iff {bound : Nat} {input : List Symbol} {result : Except RunError Run} :
    m.run bound input = result ↔ ∃ ms c, m.Moves (.initial input) ms c ∧
      ((ms.length = bound ∧ result = .error (.boundExceeded bound)) ∨
        (ms.length < bound ∧ m.Finishes c ms result)) := by
  constructor
  · intro h
    rw [← h]
    exact m.run_cases bound input
  · intro ⟨ms, c, hm, hend⟩
    rcases hend with ⟨hl, rfl⟩ | ⟨hl, hf⟩
    · exact run_of_exceeds hm (Nat.le_of_eq hl.symm)
    · exact run_of_finishes hm hl hf

end Machine

end ShiftReduce
