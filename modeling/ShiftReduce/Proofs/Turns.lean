import Mathlib.Data.List.Basic
/-!
# Loops and their turns

A loop goes on from state to state until there is no next one. `EndsIn` says that it does end, after
how many turns and where. A loop ends when every turn uses up room of which there is only so much
(`exists_endsIn`).

Some loops repeat a sweep over a list of steps until a whole sweep has changed nothing. If a step that
says it changed something has used up room, and any other step has left the state alone, such a loop
ends in a state that every step leaves alone (`exists_endsIn_sweep`).
-/

namespace ShiftReduce

/-! ## 1. Room -/

/-- Of a list fewer things are left to do if nothing is undone and one of its things gets done. -/
theorem countP_lt_countP {α : Type} {l : List α} {p q : α → Bool} (h : ∀ a, p a = true → q a = true)
    {a : α} (ha : a ∈ l) (hq : q a = true) (hp : ¬ p a = true) : l.countP p < l.countP q := by
  induction l with
  | nil => cases ha
  | cons b l ih =>
    have hle : l.countP p ≤ l.countP q := List.countP_mono_left fun x _ => h x
    rw [List.countP_cons, List.countP_cons]
    rcases List.mem_cons.1 ha with rfl | ha
    · rw [if_neg hp, if_pos hq]
      omega
    · have hlt := ih ha
      by_cases hb : p b = true
      · rw [if_pos hb, if_pos (h b hb)]
        omega
      · rw [if_neg hb]
        omega

/-! ## 2. Loops that end -/

section

variable {σ : Type}

/-- From `s` the loop that goes on by `next` is over after `k` turns, in `t`. -/
inductive EndsIn (next : σ → Option σ) : Nat → σ → σ → Prop where
  | ended {s : σ} (h : next s = none) : EndsIn next 0 s s
  | turn {k : Nat} {s u t : σ} (h : next s = some u) (hu : EndsIn next k u t) :
      EndsIn next (k + 1) s t

variable {next : σ → Option σ}

/-- Where a loop ends there is no next state. -/
theorem EndsIn.next_eq_none {k : Nat} {s t : σ} (h : EndsIn next k s t) : next t = none := by
  induction h with
  | ended h => exact h
  | turn _ _ ih => exact ih

/-- **What every turn keeps holds at the end.** -/
theorem EndsIn.invariant {P : σ → Prop} (hturn : ∀ s u, P s → next s = some u → P u) {k : Nat}
    {s t : σ} (h : EndsIn next k s t) (hs : P s) : P t := by
  induction h with
  | ended _ => exact hs
  | turn h _ ih => exact ih (hturn _ _ hs h)

/-- **A loop of which every turn uses up room ends**, in no more turns than there was room at first. -/
theorem exists_endsIn {room : σ → Nat} (hturn : ∀ s u, next s = some u → room u < room s) (s : σ) :
    ∃ k ≤ room s, ∃ t, EndsIn next k s t := by
  induction hn : room s using Nat.strongRecOn generalizing s with
  | _ n ih =>
    cases hs : next s with
    | none => exact ⟨0, Nat.zero_le n, s, .ended hs⟩
    | some u =>
      have hlt : room u < n := hn ▸ hturn s u hs
      obtain ⟨k, hk, t, hu⟩ := ih (room u) hlt u rfl
      exact ⟨k + 1, Nat.lt_of_le_of_lt hk hlt, t, .turn hs hu⟩

end

/-! ## 3. Sweeps -/

section

variable {σ α : Type}

/-- Takes the steps of a list in order. Each step tells whether it has changed anything, and the sweep
    tells whether one has. -/
def sweep (step : α → σ → σ × Bool) : List α → σ → σ × Bool
  | [], s => (s, false)
  | a :: as, s =>
    let (s, changed) := step a s
    let (s, more) := sweep step as s
    (s, changed || more)

/-- The loop that repeats a body as long as it changes something. Beside the state stands whether it is
    to be repeated. -/
def whileChanging (body : σ → σ × Bool) : σ × Bool → Option (σ × Bool)
  | (s, true) => some (body s)
  | (_, false) => none

/-- A body that says it has changed something has used up room; else it has left the state alone. -/
structure UsesRoom (room : σ → Nat) (body : σ → σ × Bool) : Prop where
  less : ∀ s, (body s).2 = true → room (body s).1 < room s
  same : ∀ s, (body s).2 = false → (body s).1 = s

variable {room : σ → Nat} {body : σ → σ × Bool} {step : α → σ → σ × Bool} {as : List α}

theorem UsesRoom.le (h : UsesRoom room body) (s : σ) : room (body s).1 ≤ room s := by
  cases hs : (body s).2 with
  | true => exact Nat.le_of_lt (h.less s hs)
  | false => exact Nat.le_of_eq (congrArg room (h.same s hs))

theorem sweep_cons (step : α → σ → σ × Bool) (a : α) (as : List α) (s : σ) :
    sweep step (a :: as) s =
      ((sweep step as (step a s).1).1, (step a s).2 || (sweep step as (step a s).1).2) := rfl

/-- A sweep that says it has changed nothing has left the state alone, and so has each of its steps. -/
theorem step_eq_of_sweep (h : ∀ a ∈ as, UsesRoom room (step a)) {s : σ}
    (hs : (sweep step as s).2 = false) :
    (sweep step as s).1 = s ∧ ∀ a ∈ as, step a s = (s, false) := by
  induction as generalizing s with
  | nil => exact ⟨rfl, fun a ha => absurd ha List.not_mem_nil⟩
  | cons a as ih =>
    obtain ⟨ha, has⟩ := List.forall_mem_cons.1 h
    rw [sweep_cons] at hs ⊢
    obtain ⟨hfirst, hrest⟩ := Bool.or_eq_false_iff.1 hs
    have hsame : (step a s).1 = s := ha.same s hfirst
    rw [hsame] at hrest ⊢
    obtain ⟨hall, hsteps⟩ := ih has hrest
    exact ⟨hall, List.forall_mem_cons.2 ⟨Prod.ext hsame hfirst, hsteps⟩⟩

/-- **A sweep uses up room as its steps do.** -/
theorem UsesRoom.sweep (h : ∀ a ∈ as, UsesRoom room (step a)) : UsesRoom room (sweep step as) where
  same s hs := (step_eq_of_sweep h hs).1
  less s hs := by
    induction as generalizing s with
    | nil => cases hs
    | cons a as ih =>
      obtain ⟨ha, has⟩ := List.forall_mem_cons.1 h
      rw [sweep_cons] at hs ⊢
      have hfirst := ha.le s
      cases hrest : (ShiftReduce.sweep step as (step a s).1).2 with
      | true => exact Nat.lt_of_lt_of_le (ih has _ hrest) hfirst
      | false =>
        rw [(step_eq_of_sweep has hrest).1]
        rw [hrest, Bool.or_false] at hs
        exact ha.less s hs

/-- What every step keeps the sweep keeps. -/
theorem sweep_invariant {P : σ → Prop} (h : ∀ a ∈ as, ∀ s, P s → P (step a s).1) {s : σ} (hs : P s) :
    P (sweep step as s).1 := by
  induction as generalizing s with
  | nil => exact hs
  | cons a as ih =>
    obtain ⟨ha, has⟩ := List.forall_mem_cons.1 h
    exact ih has (ha s hs)

/-- A turn of the loop uses up room, or it is the last one. -/
theorem UsesRoom.whileChanging_lt (h : UsesRoom room body) {s u : σ × Bool}
    (hu : whileChanging body s = some u) : room u.1 + u.2.toNat < room s.1 + s.2.toNat := by
  obtain ⟨s, changed⟩ := s
  cases changed with
  | false => cases hu
  | true =>
    obtain rfl : body s = u := Option.some.inj hu
    cases hc : (body s).2 with
    | true => exact Nat.succ_lt_succ (h.less s hc)
    | false => exact Nat.lt_succ_of_le (h.le s)

/-- **Repeated sweeps end** in a state that every step leaves alone. There is at most one more sweep
    than there was room, and what every step keeps holds at the end. -/
theorem exists_endsIn_sweep {P : σ → Prop} (huse : ∀ a ∈ as, UsesRoom room (step a))
    (hkeep : ∀ a ∈ as, ∀ s, P s → P (step a s).1) {s : σ} (hs : P s) :
    ∃ k ≤ room s + 1, ∃ t, EndsIn (whileChanging (sweep step as)) k (s, true) (t, false) ∧
      P t ∧ ∀ a ∈ as, step a t = (t, false) := by
  have hsweep : UsesRoom room (sweep step as) := .sweep huse
  obtain ⟨k, hk, ⟨t, changed⟩, hend⟩ :=
    exists_endsIn (fun _ _ hu => hsweep.whileChanging_lt hu) (s, true)
  -- a sweep that changes nothing shows that every step leaves the state alone
  have hrest : P t ∧ (changed = false → ∀ a ∈ as, step a t = (t, false)) := by
    refine hend.invariant
      (P := fun u => P u.1 ∧ (u.2 = false → ∀ a ∈ as, step a u.1 = (u.1, false)))
      (fun v u hv hu => ?_) ⟨hs, fun h => nomatch h⟩
    obtain ⟨v, more⟩ := v
    cases more with
    | false => cases hu
    | true =>
      obtain rfl : sweep step as v = u := Option.some.inj hu
      refine ⟨sweep_invariant hkeep hv.1, fun hc => ?_⟩
      obtain ⟨hsame, hsteps⟩ := step_eq_of_sweep huse hc
      rw [hsame]
      exact hsteps
  cases changed with
  | true => cases hend.next_eq_none
  | false => exact ⟨k, hk, t, hend, hrest.1, hrest.2 rfl⟩

end

end ShiftReduce
