import Mathlib.Data.List.DropRight
import ShiftReduce.Text.Pieces
/-!
# Cutting what was joined

Text is read by cutting: into lines and alternatives at separators, into words at blanks, and into
two sides at an arrow. Here each cut is undone by the way of writing that belongs to it, and what a
cut leaves is described.

* `pieces_intercalate` -- texts joined by a separator are the pieces again;
* `words_spaced` -- words written with a blank before each are the words again;
* `cutArrow?_write`, `cutArrow?_eq_some` -- a word without arrow, a blank and an arrow are cut behind
  the word, and whatever is cut has no arrow before the cut;
* `trim_eq_self`, `trim_cons` -- text without blanks at its ends stays, and a first character that is
  no blank stays the first.
-/

namespace ShiftReduce

namespace Text

variable {p : Char → Bool} {c s : Char} {cs w q a b : Text} {ls ws : List Text}

/-! ## 1. Pieces -/

theorem pieces_nil (p : Char → Bool) : pieces p [] = [[]] := rfl

/-- Text without separators is one piece. -/
theorem pieces_of_forall (h : ∀ c ∈ cs, p c = false) : pieces p cs = [cs] := by
  induction cs with
  | nil => rfl
  | cons c cs ih =>
    obtain ⟨hc, hcs⟩ := List.forall_mem_cons.1 h
    exact pieces_cons hc (ih hcs)

/-- A piece is made of characters of the text that are no separators. -/
theorem mem_of_mem_pieces (hq : q ∈ pieces p cs) (hc : c ∈ q) : c ∈ cs ∧ p c = false := by
  induction cs generalizing q with
  | nil =>
    rw [pieces_nil, List.mem_singleton] at hq
    rw [hq] at hc
    cases hc
  | cons d cs ih =>
    cases hd : p d with
    | true =>
      rw [pieces_cons_separator hd] at hq
      rcases List.mem_cons.1 hq with rfl | hq
      · cases hc
      · exact (ih hq hc).imp_left (List.mem_cons_of_mem d)
    | false =>
      obtain ⟨r, rs, hr⟩ := List.exists_cons_of_ne_nil (pieces_ne_nil p cs)
      rw [pieces_cons hd hr] at hq
      rcases List.mem_cons.1 hq with rfl | hq
      · rcases List.mem_cons.1 hc with rfl | hc
        · exact ⟨List.mem_cons_self, hd⟩
        · exact (ih (hr ▸ List.mem_cons_self) hc).imp_left (List.mem_cons_of_mem d)
      · exact (ih (hr ▸ List.mem_cons_of_mem r hq) hc).imp_left (List.mem_cons_of_mem d)

/-- Text without separators belongs to the piece in front of it. -/
theorem exists_pieces_append (hb : ∀ c ∈ b, p c = false) (cs : Text) :
    ∃ qs q, pieces p cs = qs ++ [q] ∧ pieces p (cs ++ b) = qs ++ [q ++ b] := by
  induction cs with
  | nil => exact ⟨[], [], rfl, pieces_of_forall hb⟩
  | cons c cs ih =>
    obtain ⟨qs, q, hq, hqb⟩ := ih
    cases hc : p c with
    | true =>
      refine ⟨[] :: qs, q, ?_, ?_⟩
      · rw [pieces_cons_separator hc, hq]
        rfl
      · rw [List.cons_append, pieces_cons_separator hc, hqb]
        rfl
    | false =>
      cases qs with
      | nil => exact ⟨[], c :: q, pieces_cons hc hq, pieces_cons hc hqb⟩
      | cons r qs => exact ⟨(c :: r) :: qs, q, pieces_cons hc hq, pieces_cons hc hqb⟩

/-- **Texts joined by a separator are the pieces again.** -/
theorem pieces_intercalate (hs : p s = true) (hne : ls ≠ [])
    (h : ∀ l ∈ ls, ∀ c ∈ l, p c = false) : pieces p ([s].intercalate ls) = ls := by
  induction ls with
  | nil => exact absurd rfl hne
  | cons l ls ih =>
    obtain ⟨hl, hls⟩ := List.forall_mem_cons.1 h
    cases ls with
    | nil => simpa [List.intercalate] using pieces_of_forall hl
    | cons m ls =>
      have hjoin : [s].intercalate (l :: m :: ls) = l ++ s :: [s].intercalate (m :: ls) := by
        simp [List.intercalate]
      rw [hjoin, pieces_append hs, pieces_of_forall hl, ih (List.cons_ne_nil m ls) hls]
      rfl

/-! ## 2. Words -/

/-- A word: not empty, and without a blank. -/
def IsWord (w : Text) : Prop := w ≠ [] ∧ ∀ c ∈ w, isBlank c = false

theorem isBlank_space : isBlank ' ' = true := by decide

theorem isWord_of_mem_words (hw : w ∈ words cs) : IsWord w := by
  obtain ⟨hq, hne⟩ := List.mem_filter.1 hw
  exact ⟨by simpa using hne, fun c hc => (mem_of_mem_pieces hq hc).2⟩

theorem isWord_of_mem_names {name : String} (h : name ∈ names cs) : IsWord name.toList := by
  obtain ⟨w, hw, rfl⟩ := List.mem_map.1 h
  rw [String.toList_ofList]
  exact isWord_of_mem_words hw

theorem mem_of_mem_words (hw : w ∈ words cs) (hc : c ∈ w) : c ∈ cs :=
  (mem_of_mem_pieces (List.mem_filter.1 hw).1 hc).1

theorem words_of_isWord (hw : IsWord w) : words w = [w] := by
  rw [words, pieces_of_forall hw.2]
  simp [hw.1]

theorem words_of_isBlank (h : ∀ c ∈ cs, isBlank c = true) : words cs = [] := by
  induction cs with
  | nil => rfl
  | cons c cs ih =>
    obtain ⟨hc, hcs⟩ := List.forall_mem_cons.1 h
    exact (words_append hc [] cs).trans (ih hcs)

/-- Blanks behind a text add no word. -/
theorem names_append_of_isBlank (hb : ∀ c ∈ b, isBlank c = true) (cs : Text) :
    names (cs ++ b) = names cs := by
  cases b with
  | nil => rw [List.append_nil]
  | cons c b =>
    obtain ⟨hc, hb⟩ := List.forall_mem_cons.1 hb
    rw [names, words_append hc, words_of_isBlank hb, List.append_nil, names]

/-- A text that begins with no blank begins with a word. -/
theorem names_ne_nil (hc : isBlank c = false) (cs : Text) : names (c :: cs) ≠ [] := by
  obtain ⟨q, qs, hq⟩ := List.exists_cons_of_ne_nil (pieces_ne_nil isBlank cs)
  rw [names, words, pieces_cons hc hq]
  simp

/-- Every text behind a blank. -/
def spaced (ws : List Text) : Text := ws.flatMap fun w => ' ' :: w

/-- **A word and words behind blanks are these words again.** -/
theorem words_append_spaced (hw : IsWord w) (hws : ∀ v ∈ ws, IsWord v) :
    words (w ++ spaced ws) = w :: ws := by
  induction ws generalizing w with
  | nil =>
    rw [spaced, List.flatMap_nil, List.append_nil]
    exact words_of_isWord hw
  | cons v ws ih =>
    obtain ⟨hv, hws⟩ := List.forall_mem_cons.1 hws
    have hsplit : w ++ spaced (v :: ws) = w ++ ' ' :: (v ++ spaced ws) := rfl
    rw [hsplit, words_append isBlank_space, words_of_isWord hw, ih hv hws]
    rfl

theorem words_spaced (hws : ∀ v ∈ ws, IsWord v) : words (spaced ws) = ws := by
  cases ws with
  | nil => rfl
  | cons w ws =>
    obtain ⟨hw, hws⟩ := List.forall_mem_cons.1 hws
    have hsplit : spaced (w :: ws) = [] ++ ' ' :: (w ++ spaced ws) := rfl
    rw [hsplit, words_append isBlank_space, words_append_spaced hw hws]
    rfl

theorem names_append_spaced (first : String) (hfirst : IsWord first.toList) {rest : List String}
    (h : ∀ name ∈ rest, IsWord name.toList) :
    names (first.toList ++ spaced (rest.map String.toList)) = first :: rest := by
  rw [names, words_append_spaced hfirst (by simpa using h)]
  simp

theorem names_spaced {l : List String} (h : ∀ name ∈ l, IsWord name.toList) :
    names (spaced (l.map String.toList)) = l := by
  rw [names, words_spaced (by simpa using h)]
  simp

/-- Texts joined by blanks are a text with the others behind blanks. -/
theorem intercalate_space (w : Text) (ws : List Text) :
    [' '].intercalate (w :: ws) = w ++ spaced ws := by
  induction ws generalizing w with
  | nil => simp [spaced, List.intercalate]
  | cons v ws ih =>
    have hjoin : [' '].intercalate (w :: v :: ws) = w ++ ' ' :: [' '].intercalate (v :: ws) := by
      simp [List.intercalate]
    rw [hjoin, ih]
    rfl

theorem eq_or_mem_of_mem_spaced (h : c ∈ spaced ws) : c = ' ' ∨ ∃ w ∈ ws, c ∈ w := by
  obtain ⟨w, hw, hc⟩ := List.mem_flatMap.1 h
  exact (List.mem_cons.1 hc).imp_right fun hc => ⟨w, hw, hc⟩

/-- Words behind a text that ends without a blank end without a blank. -/
theorem getLast?_append_spaced (ha : ∀ c ∈ a.getLast?, isBlank c = false)
    (hws : ∀ w ∈ ws, IsWord w) : ∀ c ∈ (a ++ spaced ws).getLast?, isBlank c = false := by
  induction ws generalizing a with
  | nil => simpa [spaced] using ha
  | cons w ws ih =>
    obtain ⟨hw, hws⟩ := List.forall_mem_cons.1 hws
    have hsplit : a ++ spaced (w :: ws) = (a ++ [' '] ++ w) ++ spaced ws := by simp [spaced]
    rw [hsplit]
    refine ih (fun c hc => ?_) hws
    rw [List.getLast?_append, List.getLast?_eq_some_getLast hw.1, Option.some_or] at hc
    exact hw.2 c (Option.some.inj hc ▸ List.getLast_mem hw.1)

/-! ## 3. Trimming -/

/-- Blanks at the end are taken off last. -/
theorem trim_eq (cs : Text) : trim cs = (cs.dropWhile isBlank).rdropWhile isBlank := rfl

theorem trim_isInfix (cs : Text) : trim cs <:+: cs :=
  (List.rdropWhile_prefix isBlank _).isInfix.trans (List.dropWhile_suffix isBlank).isInfix

theorem dropWhile_append_cons (hc : isBlank c = false) (a b : Text) :
    (a ++ c :: b).dropWhile isBlank = a.dropWhile isBlank ++ c :: b := by
  rw [List.dropWhile_append]
  split
  · rename_i he
    rw [List.isEmpty_iff.1 he, List.dropWhile_cons_of_neg (by simp [hc]), List.nil_append]
  · rfl

/-- What stands in front of a character that is no blank stays at the end. -/
theorem rdropWhile_append_cons (hc : isBlank c = false) (a b : Text) :
    (a ++ c :: b).rdropWhile isBlank = a ++ c :: b.rdropWhile isBlank := by
  have hrev : (a ++ c :: b).reverse = b.reverse ++ c :: a.reverse := by simp
  rw [List.rdropWhile, hrev, dropWhile_append_cons hc, List.rdropWhile]
  simp

/-- **Around a character that is no blank both sides are trimmed apart.** -/
theorem trim_append_cons (hc : isBlank c = false) (a b : Text) :
    trim (a ++ c :: b) = a.dropWhile isBlank ++ c :: b.rdropWhile isBlank := by
  rw [trim_eq, dropWhile_append_cons hc, rdropWhile_append_cons hc]

theorem trim_dropWhile (cs : Text) : trim (cs.dropWhile isBlank) = trim cs := by
  rw [trim_eq, trim_eq, List.dropWhile_idempotent]

/-- Text that neither begins nor ends with a blank stays. -/
theorem trim_eq_self (hh : ∀ c ∈ cs.head?, isBlank c = false)
    (hl : ∀ c ∈ cs.getLast?, isBlank c = false) : trim cs = cs := by
  have hdrop : ∀ {ds : Text}, (∀ c ∈ ds.head?, isBlank c = false) → ds.dropWhile isBlank = ds := by
    intro ds h
    cases ds with
    | nil => rfl
    | cons d ds => exact List.dropWhile_cons_of_neg (by simp [h d rfl])
  rw [trim, hdrop hh, hdrop (by simpa [List.head?_reverse] using hl), List.reverse_reverse]

/-- A first character that is no blank stays the first. -/
theorem trim_cons (hc : isBlank c = false) (cs : Text) : ∃ ds, trim (c :: cs) = c :: ds :=
  ⟨_, trim_append_cons hc [] cs⟩

/-- Trimmed text begins with no blank. -/
theorem head?_trim (cs : Text) (hc : c ∈ (trim cs).head?) : isBlank c = false := by
  cases hd : cs.dropWhile isBlank with
  | nil =>
    rw [trim, hd] at hc
    cases hc
  | cons d ds =>
    have hnot := List.head?_dropWhile_not isBlank cs
    rw [hd] at hnot
    have hb : isBlank d = false := by simpa using hnot
    obtain ⟨es, he⟩ := trim_cons hb ds
    have htrim : trim cs = trim (d :: ds) := by
      rw [trim, trim, hd, List.dropWhile_cons_of_neg (by simp [hb])]
    rw [htrim, he] at hc
    obtain rfl := Option.some.inj hc
    exact hb

/-- A blank behind a word is taken off. -/
theorem trim_concat_space (hw : IsWord w) : trim (w ++ [' ']) = w := by
  obtain ⟨c, cs, rfl⟩ := List.exists_cons_of_ne_nil hw.1
  have hself : trim (c :: cs) = c :: cs :=
    trim_eq_self (by simpa using hw.2 c List.mem_cons_self)
      fun d hd => hw.2 d (List.mem_of_getLast? hd)
  have hneg : ¬ isBlank c = true := by simp [hw.2 c List.mem_cons_self]
  rw [trim, List.dropWhile_cons_of_neg hneg] at hself
  rw [trim, List.cons_append, List.dropWhile_cons_of_neg hneg, ← List.cons_append,
    List.reverse_append, List.reverse_singleton, List.singleton_append,
    List.dropWhile_cons_of_pos isBlank_space, hself]

/-! ## 4. Arrows -/

/-- Text that does not begin with an arrow is cut behind its first character. -/
theorem cutArrow?_cons (h : ¬ ['-', '>'] <+: c :: cs) :
    cutArrow? (c :: cs) = (cutArrow? cs).map fun p => (c :: p.1, p.2) := by
  rw [cutArrow?.eq_def]
  split
  · rename_i heq
    cases heq
  · rename_i rest heq
    exact absurd ⟨rest, heq.symm⟩ h
  · rename_i heq
    cases heq
    rfl

/-- Nothing is cut where there is no arrow. -/
theorem cutArrow?_eq_none_iff : cutArrow? cs = none ↔ ¬ ['-', '>'] <:+: cs := by
  induction cs with
  | nil => simp [cutArrow?]
  | cons c cs ih =>
    rw [List.infix_cons_iff, not_or, ← ih]
    by_cases h : ['-', '>'] <+: c :: cs
    · obtain ⟨rest, hrest⟩ := h
      rw [← hrest]
      simp [cutArrow?]
    · rw [cutArrow?_cons h, Option.map_eq_none_iff]
      exact (and_iff_right h).symm

/-- **The cut is at the first arrow.** -/
theorem cutArrow?_eq_some (h : cutArrow? cs = some (a, b)) :
    cs = a ++ '-' :: '>' :: b ∧ cutArrow? a = none := by
  induction cs generalizing a with
  | nil => cases h
  | cons c cs ih =>
    by_cases harrow : ['-', '>'] <+: c :: cs
    · obtain ⟨rest, hrest⟩ := harrow
      rw [← hrest] at h ⊢
      obtain ⟨rfl, rfl⟩ : [] = a ∧ rest = b := by simpa [cutArrow?] using h
      exact ⟨rfl, rfl⟩
    · rw [cutArrow?_cons harrow, Option.map_eq_some_iff] at h
      obtain ⟨⟨a', b'⟩, hp, he⟩ := h
      obtain ⟨rfl, rfl⟩ : c :: a' = a ∧ b' = b := by simpa using he
      obtain ⟨rfl, hnone⟩ := ih hp
      refine ⟨rfl, ?_⟩
      rw [cutArrow?_cons fun hpre => harrow (hpre.trans (List.prefix_append (c :: a') _)), hnone]
      rfl

/-- A text without arrow is cut off at the arrow behind it. -/
theorem cutArrow?_append (h : cutArrow? a = none) (b : Text) :
    cutArrow? (a ++ '-' :: '>' :: b) = some (a, b) := by
  induction a with
  | nil => rfl
  | cons c a ih =>
    obtain ⟨hstart, htail⟩ := not_or.1 fun hi => cutArrow?_eq_none_iff.1 h (List.infix_cons_iff.2 hi)
    have hcut : ¬ ['-', '>'] <+: c :: (a ++ '-' :: '>' :: b) := by
      cases a with
      | nil => simp
      | cons d a => simpa using hstart
    rw [List.cons_append, cutArrow?_cons hcut, ih (cutArrow?_eq_none_iff.2 htail)]
    rfl

/-- **A word without arrow is cut off at the arrow written behind it.** -/
theorem cutArrow?_write (h : cutArrow? w = none) (b : Text) :
    cutArrow? (w ++ ' ' :: '-' :: '>' :: b) = some (w ++ [' '], b) := by
  have hnone : cutArrow? (w ++ [' ']) = none := by
    rw [cutArrow?_eq_none_iff, List.infix_concat_iff, not_or]
    refine ⟨fun ⟨t, ht⟩ => ?_, cutArrow?_eq_none_iff.1 h⟩
    have hlast := congrArg List.getLast? ht
    simp at hlast
  simpa using cutArrow?_append hnone b

end Text

end ShiftReduce
