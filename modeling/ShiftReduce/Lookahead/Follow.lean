import ShiftReduce.Lookahead.First
/-!
# FOLLOW sets

`followSets` is the least table in which `$` follows the start symbol and, wherever a rule
`A -> α B β` has a nonterminal `B`, the set of `B` holds the first symbols of `β` and, if `β` can
vanish, the set of `A`. No set holds `ε`.
-/

namespace ShiftReduce

variable {t : Slots}

/-- The nonterminals of a string from left to right, each with the string after it. -/
def occurrences : List Symbol → List (Nonterminal × List Symbol)
  | [] => []
  | .nonterminal n :: xs => (n, xs) :: occurrences xs
  | _ :: xs => occurrences xs

theorem mem_occurrences {xs : List Symbol} {n : Nonterminal} {rest : List Symbol} :
    (n, rest) ∈ occurrences xs ↔ ∃ front, xs = front ++ .nonterminal n :: rest := by
  induction xs with
  | nil => simp [occurrences]
  | cons x xs ih =>
    have hx : (n, rest) ∈ occurrences (x :: xs) ↔
        (x = .nonterminal n ∧ xs = rest) ∨ (n, rest) ∈ occurrences xs := by
      cases x <;> simp [occurrences, eq_comm]
    rw [hx, ih]
    constructor
    · rintro (⟨rfl, rfl⟩ | ⟨front, rfl⟩)
      · exact ⟨[], rfl⟩
      · exact ⟨x :: front, rfl⟩
    · rintro ⟨front, hf⟩
      cases front with
      | nil => exact .inl (by simpa using hf)
      | cons y ys => exact .inr ⟨ys, by simpa using (List.cons.inj hf).2⟩

/-- The set of a string, and its nonterminals from left to right, each with the set of the string
    after it. -/
def SetTable.scan (T : SetTable t) :
    List Symbol → SlotSet t.blocks × List (Nonterminal × SlotSet t.blocks)
  | [] => (.singleton 0, [])
  | x :: xs =>
    let (s, found) := T.scan xs
    (T.inFront x s, match x with
      | .nonterminal n => (n, s) :: found
      | _ => found)

theorem SetTable.scan_eq (T : SetTable t) (xs : List Symbol) :
    T.scan xs = (T.firstOf xs, (occurrences xs).map fun p => (p.1, T.firstOf p.2)) := by
  induction xs with
  | nil => rfl
  | cons x xs ih => cases x <;> simp [scan, ih, occurrences, firstOf_cons]

/-- What one occurrence asks: the set of the string after it, and the set of the left-hand side if
    that string can vanish. -/
def followInclusion (lhs n : Nonterminal) (rest : SlotSet t.blocks) : SetTable.Inclusion t :=
  ⟨.nonterminal n, fun T =>
    ((if rest.contains 0 then rest.union (T.set (.nonterminal lhs)) else rest).erase 0)⟩

/-- What the occurrences in one rule ask, from left to right. -/
def Rule.followInclusions (first : SetTable t) (r : Rule) : List (SetTable.Inclusion t) :=
  (first.scan r.rhs).2.map fun p => followInclusion r.lhs p.1 p.2

theorem Rule.mem_followInclusions {first : SetTable t} {r : Rule} {c : SetTable.Inclusion t} :
    c ∈ r.followInclusions first ↔
      ∃ n rest, (n, rest) ∈ occurrences r.rhs ∧ c = followInclusion r.lhs n (first.firstOf rest) := by
  simp [followInclusions, SetTable.scan_eq, eq_comm]

/-- The nonterminals of the rules, and the start symbol. -/
def followKeys (rules : List Rule) (start : Nonterminal) : Numbering Symbol :=
  .ofList ((nonterminalsOf rules ++ [start]).map .nonterminal)

/-- `$` for the start symbol, nothing for the other nonterminals of the rules. -/
def followBase (rules : List Rule) (start : Nonterminal) (t : Slots) : SetTable t :=
  .ofKeys (followKeys rules start) fun x => if x = .nonterminal start then .singleton 1 else ∅

/-- FOLLOW of every nonterminal of the rules and of the start symbol, by rounds forwards and
    backwards. -/
def followSets (rules : List Rule) (start : Nonterminal) (first : SetTable t) : SetTable t :=
  let inclusions := rules.flatMap (Rule.followInclusions first)
  (followBase rules start t).saturate (inclusions ++ inclusions.reverse)

end ShiftReduce
