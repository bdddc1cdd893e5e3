import Mathlib.Computability.Language
import Mathlib.Order.CompletePartialOrder
import ShiftReduce.Proofs.Yields
/-!
# Languages of nonterminals

The terminal strings that a nonterminal derives are its language. Once every nonterminal is read as
some language, a string reads as the product of the languages of its symbols (`reading`). The
derived languages are the least ones that no rule leads out of:

* `mem_reading_languageOf` -- read with the derived languages, a string is what it derives;
* `reading_rhs_le` -- no rule leads out of the derived languages;
* `languageOf_le` -- whatever languages no rule leads out of, they hold all that is derived;
* `languageOf_le_of_update` -- the same for one nonterminal, all others read as what they derive.
-/

namespace ShiftReduce

variable {rules : List Rule} {L M : Nonterminal → Language Terminal}

/-! ## 1. Reading strings as languages -/

/-- A symbol as a language, with the nonterminals read as given. The marks stand for no string. -/
def Symbol.reading (L : Nonterminal → Language Terminal) : Symbol → Language Terminal
  | .terminal id => {[id]}
  | .nonterminal n => L n
  | .endOfInput => 0
  | .epsilon => 0

/-- A string as a language: what its symbols stand for, one behind the other. -/
def reading (L : Nonterminal → Language Terminal) (α : List Symbol) : Language Terminal :=
  (α.map (Symbol.reading L)).prod

@[simp] theorem reading_nil : reading L [] = 1 := rfl

@[simp] theorem reading_cons (x : Symbol) (α : List Symbol) :
    reading L (x :: α) = x.reading L * reading L α := List.prod_cons

@[simp] theorem reading_append (α β : List Symbol) :
    reading L (α ++ β) = reading L α * reading L β := by
  rw [reading, List.map_append, List.prod_append]
  rfl

/-- A string with a nonterminal at its end. -/
theorem reading_concat (α : List Symbol) (n : Nonterminal) :
    reading L (α ++ [.nonterminal n]) = reading L α * L n := by
  rw [reading_append, reading_cons, reading_nil, mul_one]
  rfl

/-- Larger languages of its nonterminals make a string read as a larger language. -/
theorem reading_mono {α : List Symbol} (h : ∀ n, .nonterminal n ∈ α → L n ≤ M n) :
    reading L α ≤ reading M α := by
  induction α with
  | nil => exact le_refl _
  | cons x α ih =>
    rw [reading_cons, reading_cons]
    refine mul_le_mul' ?_ (ih fun n hn => h n (List.mem_cons_of_mem x hn))
    cases x with
    | nonterminal n => exact h n List.mem_cons_self
    | terminal id => exact le_refl _
    | endOfInput => exact le_refl _
    | epsilon => exact le_refl _

/-- A string reads by the languages of its own nonterminals only. -/
theorem reading_congr {α : List Symbol} (h : ∀ n, .nonterminal n ∈ α → L n = M n) :
    reading L α = reading M α :=
  le_antisymm (reading_mono fun n hn => le_of_eq (h n hn))
    (reading_mono fun n hn => ge_of_eq (h n hn))

/-! ## 2. What is derived -/

/-- The terminal strings that a nonterminal derives. -/
def languageOf (rules : List Rule) (n : Nonterminal) : Language Terminal :=
  {w | Rewrites rules [.nonterminal n] (w.map .terminal)}

theorem mem_languageOf {n : Nonterminal} {w : List Terminal} :
    w ∈ languageOf rules n ↔ Rewrites rules [.nonterminal n] (w.map .terminal) := Iff.rfl

/-- Only a terminal is a terminal string without a rule, and it is one terminal long. -/
theorem Rewrites.exists_terminal {x : Symbol} (hx : x.nonterminal? = none) {w : List Terminal}
    (h : Rewrites rules [x] (w.map .terminal)) : ∃ id, x = .terminal id ∧ w = [id] := by
  generalize hv : w.map Symbol.terminal = v at h
  cases rewrites_iff_yields.1 h with
  | keep _ hnil =>
    rw [hnil.eq_nil] at hv
    obtain ⟨id, u, rfl, hid, hu⟩ := List.map_eq_cons_iff.1 hv
    exact ⟨id, hid.symm, by rw [List.map_eq_nil_iff.1 hu]⟩
  | unfold _ _ _ => cases hx

theorem Symbol.mem_reading_languageOf {x : Symbol} {w : List Terminal} :
    w ∈ x.reading (languageOf rules) ↔ Rewrites rules [x] (w.map .terminal) := by
  cases x with
  | nonterminal n => exact Iff.rfl
  | terminal id =>
    constructor
    · rintro rfl
      exact .refl
    · intro h
      obtain ⟨_, he, rfl⟩ := h.exists_terminal rfl
      cases he
      exact rfl
  | endOfInput =>
    refine ⟨fun h => absurd h (Language.notMem_zero w), fun h => ?_⟩
    obtain ⟨_, he, _⟩ := h.exists_terminal rfl
    cases he
  | epsilon =>
    refine ⟨fun h => absurd h (Language.notMem_zero w), fun h => ?_⟩
    obtain ⟨_, he, _⟩ := h.exists_terminal rfl
    cases he

/-- **Read with the derived languages, a string is what it derives.** -/
theorem mem_reading_languageOf {α : List Symbol} {w : List Terminal} :
    w ∈ reading (languageOf rules) α ↔ Rewrites rules α (w.map .terminal) := by
  induction α generalizing w with
  | nil =>
    rw [reading_nil, Language.mem_one]
    constructor
    · rintro rfl
      exact .refl
    · exact fun h => List.map_eq_nil_iff.1 (rewrites_iff_yields.1 h).eq_nil
  | cons x α ih =>
    rw [reading_cons, Language.mem_mul]
    constructor
    · rintro ⟨u, hu, v, hv, rfl⟩
      rw [List.map_append]
      exact (Symbol.mem_reading_languageOf.1 hu).append (ih.1 hv)
    · intro h
      obtain ⟨u', v', huv, hu, hv⟩ := Rewrites.exists_append (α := [x]) h
      obtain ⟨u, v, rfl, rfl, rfl⟩ := List.map_eq_append_iff.1 huv
      exact ⟨u, Symbol.mem_reading_languageOf.2 hu, v, ih.2 hv, rfl⟩

/-- **No rule leads out of the derived languages.** -/
theorem reading_rhs_le {r : Rule} (hr : r ∈ rules) :
    reading (languageOf rules) r.rhs ≤ languageOf rules r.lhs :=
  fun _ hw => (Rewrites.of_mem hr).trans (mem_reading_languageOf.1 hw)

/-! ## 3. The least languages -/

/-- What a string derives lies in its reading, if no rule leads out of the languages. -/
theorem Yields.mem_reading (hL : ∀ r ∈ rules, reading L r.rhs ≤ L r.lhs) {α v : List Symbol}
    (h : Yields rules α v) {w : List Terminal} (hw : v = w.map .terminal) : w ∈ reading L α := by
  induction h generalizing w with
  | nil =>
    rw [List.map_eq_nil_iff.1 hw.symm]
    exact Language.nil_mem_one
  | keep x _ ih =>
    obtain ⟨id, u, rfl, rfl, rfl⟩ := List.map_eq_cons_iff.1 hw.symm
    rw [reading_cons]
    exact Language.append_mem_mul (a := [id]) rfl (ih rfl)
  | unfold hr _ _ ihu ihv =>
    obtain ⟨u, v, rfl, rfl, rfl⟩ := List.map_eq_append_iff.1 hw.symm
    rw [reading_cons]
    exact Language.append_mem_mul (hL _ hr (ihu rfl)) (ihv rfl)

/-- **Languages that no rule leads out of hold all that is derived.** -/
theorem languageOf_le (hL : ∀ r ∈ rules, reading L r.rhs ≤ L r.lhs) (n : Nonterminal) :
    languageOf rules n ≤ L n := by
  intro w hw
  have hmem := (rewrites_iff_yields.1 hw).mem_reading hL rfl
  rwa [reading_cons, reading_nil, mul_one] at hmem

/-- **The language of one nonterminal is the least** that its own rules do not lead out of, when the
    other nonterminals are read as what they derive. -/
theorem languageOf_le_of_update {n : Nonterminal} {K : Language Terminal}
    (hK : K ≤ languageOf rules n) (h : ∀ r ∈ rules, r.lhs = n →
      reading (Function.update (languageOf rules) n K) r.rhs ≤ K) :
    languageOf rules n ≤ K := by
  have hle : ∀ m, Function.update (languageOf rules) n K m ≤ languageOf rules m := by
    intro m
    by_cases hm : m = n
    · rw [hm, Function.update_self]
      exact hK
    · rw [Function.update_of_ne hm]
  have hclosed : ∀ r ∈ rules, reading (Function.update (languageOf rules) n K) r.rhs ≤
      Function.update (languageOf rules) n K r.lhs := by
    intro r hr
    by_cases hn : r.lhs = n
    · rw [hn, Function.update_self]
      exact h r hr hn
    · rw [Function.update_of_ne hn]
      exact (reading_mono fun m _ => hle m).trans (reading_rhs_le hr)
  have hall := languageOf_le hclosed n
  rwa [Function.update_self] at hall

end ShiftReduce
