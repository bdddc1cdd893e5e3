import ShiftReduce.Text.Blank
/-!
# Cutting text

Text is a list of characters here. `pieces` cuts at every separator, `words` at runs of blanks,
`trim` takes blanks off both ends, and `cutArrow?` cuts once, at the first arrow.
-/

namespace ShiftReduce

abbrev Text := List Char

namespace Text

/-- The pieces between separators. There is one more piece than there are separators. -/
def pieces (isSeparator : Char → Bool) (cs : Text) : List Text :=
  cs.foldr (fun c parts =>
    if isSeparator c then [] :: parts
    else match parts with
      | [] => [[c]]
      | p :: ps => (c :: p) :: ps) [[]]

theorem pieces_cons_separator {p : Char → Bool} {c : Char} (hc : p c = true) (cs : Text) :
    pieces p (c :: cs) = [] :: pieces p cs := by
  simp [pieces, hc]

theorem pieces_cons {p : Char → Bool} {c : Char} (hc : p c = false) {cs q : Text}
    {qs : List Text} (h : pieces p cs = q :: qs) : pieces p (c :: cs) = (c :: q) :: qs := by
  rw [pieces] at h
  rw [pieces, List.foldr_cons, h]
  simp [hc]

theorem pieces_ne_nil (p : Char → Bool) (cs : Text) : pieces p cs ≠ [] := by
  induction cs with
  | nil => simp [pieces]
  | cons c cs ih =>
    cases hc : p c with
    | true => simp [pieces_cons_separator hc]
    | false =>
      obtain ⟨q, qs, hq⟩ := List.exists_cons_of_ne_nil ih
      simp [pieces_cons hc hq]

/-- **A separator cuts the text in two.** -/
theorem pieces_append {p : Char → Bool} {c : Char} (hc : p c = true) (xs ys : Text) :
    pieces p (xs ++ c :: ys) = pieces p xs ++ pieces p ys := by
  induction xs with
  | nil => exact pieces_cons_separator hc ys
  | cons x xs ih =>
    cases hx : p x with
    | true => simp [pieces_cons_separator hx, ih]
    | false =>
      obtain ⟨q, qs, hq⟩ := List.exists_cons_of_ne_nil (pieces_ne_nil p xs)
      have h : pieces p (xs ++ c :: ys) = q :: (qs ++ pieces p ys) := by rw [ih, hq]; rfl
      rw [List.cons_append, pieces_cons hx h, pieces_cons hx hq]
      rfl

/-- The maximal runs of characters that are not blanks. -/
def words (cs : Text) : List Text :=
  (pieces isBlank cs).filter fun w => !w.isEmpty

/-- A blank ends a word. -/
theorem words_append {c : Char} (hc : isBlank c = true) (xs ys : Text) :
    words (xs ++ c :: ys) = words xs ++ words ys := by
  rw [words, pieces_append hc, List.filter_append]
  rfl

/-- The words as strings. -/
def names (cs : Text) : List String := (words cs).map String.ofList

/-- Takes blanks off both ends. -/
def trim (cs : Text) : Text :=
  ((cs.dropWhile isBlank).reverse.dropWhile isBlank).reverse

/-- The text before and the text after the first arrow. -/
def cutArrow? : Text → Option (Text × Text)
  | [] => none
  | '-' :: '>' :: rest => some ([], rest)
  | c :: rest => (cutArrow? rest).map fun p => (c :: p.1, p.2)

end Text

end ShiftReduce
