import ShiftReduce.Proofs.Reading
/-!
# Rule lines one behind the other

A rule line is read behind the left-hand side of the line before, and leaves one for the line behind
it. `NamedRule.Spells` says this of the contents of lines, without their numbers and without errors:

* `Spells.append_iff` -- lines are read piece by piece;
* `ofLines_append` -- lines that can be read pass the lines behind them on, with their rules in front
  of whatever these hold;
* `ofLines_eq_ok_iff` -- the rules of a list of lines are those that its contents spell.
-/

namespace ShiftReduce

namespace Line

variable {tokens : Numbering String} {last : Option String} {l k : Line}

theorem head_congr (h : l.content = k.content) : l.head tokens last = k.head tokens last := by
  unfold head isAlternative
  rw [h]

end Line

namespace NamedRule

/-- Rule lines with these contents, read behind the left-hand side `last`, hold these rules and leave
    the left-hand side `next`. -/
inductive Spells (tokens : Numbering String) :
    Option String → List Text → Option String → List NamedRule → Prop where
  | nil (last : Option String) : Spells tokens last [] last []
  | cons {last next : Option String} {lhs : String} {cs after : Text} {css : List Text}
      {rules : List NamedRule} (h : Line.head tokens last ⟨0, cs⟩ = .ok (lhs, after))
      (hs : Spells tokens (some lhs) css next rules) :
      Spells tokens last (cs :: css) next (ofAlternatives lhs after ++ rules)

variable {tokens : Numbering String} {last next : Option String} {lhs : String} {cs after : Text}
  {css dss : List Text} {rules : List NamedRule} {l : Line} {ls : List Line}

/-! ## 1. Cutting and joining -/

namespace Spells

/-- One line holds its alternatives and leaves its left-hand side. -/
theorem singleton_iff : Spells tokens last [cs] next rules ↔
    ∃ lhs after, Line.head tokens last ⟨0, cs⟩ = .ok (lhs, after) ∧ next = some lhs ∧
      rules = ofAlternatives lhs after := by
  constructor
  · intro h
    cases h with
    | cons h hs =>
      cases hs
      exact ⟨_, _, h, rfl, List.append_nil _⟩
  · rintro ⟨lhs, after, h, rfl, rfl⟩
    simpa using cons h (nil _)

theorem append {mid : Option String} {rules' : List NamedRule}
    (h : Spells tokens last css mid rules) (h' : Spells tokens mid dss next rules') :
    Spells tokens last (css ++ dss) next (rules ++ rules') := by
  induction h with
  | nil => exact h'
  | cons h _ ih =>
    rw [List.append_assoc]
    exact cons h (ih h')

/-- **Lines are read piece by piece.** -/
theorem append_iff : Spells tokens last (css ++ dss) next rules ↔
    ∃ mid r r', Spells tokens last css mid r ∧ Spells tokens mid dss next r' ∧ r ++ r' = rules := by
  constructor
  · intro h
    induction css generalizing last rules with
    | nil => exact ⟨last, [], rules, nil last, h, rfl⟩
    | cons cs css ih =>
      cases h with
      | cons h hs =>
        obtain ⟨mid, r, r', hr, hr', rfl⟩ := ih hs
        exact ⟨mid, _, r', cons h hr, hr', List.append_assoc _ _ _⟩
  · rintro ⟨mid, r, r', hr, hr', rfl⟩
    exact hr.append hr'

end Spells

/-! ## 2. Reading line by line -/

theorem ofLines_cons_of_ok (h : l.head tokens last = .ok (lhs, after)) :
    ofLines tokens last (l :: ls) =
      (ofLines tokens (some lhs) ls).map fun rules => ofAlternatives lhs after ++ rules := by
  rw [ofLines, h]
  rfl

theorem ofLines_cons_of_error {d : LineDefect} (h : l.head tokens last = .error d) :
    ofLines tokens last (l :: ls) = .error (.badLine l.number d) := by
  rw [ofLines, h]
  rfl

/-- **Lines that can be read pass on the lines behind them.** -/
theorem ofLines_append (h : Spells tokens last (ls.map Line.content) next rules)
    (later : List Line) : ofLines tokens last (ls ++ later) =
      (ofLines tokens next later).map fun rules' => rules ++ rules' := by
  induction ls generalizing last rules with
  | nil =>
    cases h
    cases hlater : ofLines tokens next later with
    | error e => exact hlater
    | ok rules' => exact hlater
  | cons l ls ih =>
    cases h with
    | cons h hs =>
      have hhead := (Line.head_congr rfl : l.head tokens last = _).trans h
      rw [List.cons_append, ofLines_cons_of_ok hhead, ih hs]
      cases ofLines tokens next later with
      | error e => rfl
      | ok rules' => exact congrArg Except.ok (List.append_assoc _ _ _).symm

/-- **The rules of lines are those that their contents spell.** -/
theorem ofLines_eq_ok_iff : ofLines tokens last ls = .ok rules ↔
    ∃ next, Spells tokens last (ls.map Line.content) next rules := by
  constructor
  · intro h
    induction ls generalizing last rules with
    | nil =>
      cases h
      exact ⟨last, .nil last⟩
    | cons l ls ih =>
      obtain ⟨⟨lhs, after⟩, hhead, h⟩ := bind_eq_ok_iff.1 h
      obtain ⟨rest, hrest, hret⟩ := bind_eq_ok_iff.1 h
      obtain rfl := Except.ok.inj hret
      obtain ⟨next, hs⟩ := ih hrest
      exact ⟨next, .cons ((Line.head_congr rfl).trans (mapError_eq_ok_iff.1 hhead)) hs⟩
  · rintro ⟨next, h⟩
    have hall := ofLines_append h []
    rw [List.append_nil] at hall
    exact hall.trans (congrArg Except.ok (List.append_nil rules))

end NamedRule

end ShiftReduce
