import ShiftReduce.Derivation
import ShiftReduce.Rule
/-!
# Derivations as forests

`Rewrites` takes its replacements in any order. `Yields` reads a derivation along the string it
starts from: every symbol stays or becomes what one of its rules yields. The two say the same
(`rewrites_iff_yields`), and inductions on a derivation that follow the grammar go over `Yields`.
`YieldsBy` has the numbers of the rules too, in the order in which a machine reduces by them; a
rightmost derivation uses them the other way round (`Rightmost.yieldsBy`).
-/

namespace ShiftReduce

/-- `β` comes from `α` symbol by symbol: a symbol stays, or a rule replaces it and the right-hand
    side yields in turn. -/
inductive Yields (rules : List Rule) : List Symbol → List Symbol → Prop where
  | nil : Yields rules [] []
  | keep {xs v : List Symbol} (x : Symbol) (h : Yields rules xs v) :
      Yields rules (x :: xs) (x :: v)
  | unfold {r : Rule} {xs u v : List Symbol} (hr : r ∈ rules) (hu : Yields rules r.rhs u)
      (hv : Yields rules xs v) : Yields rules (.nonterminal r.lhs :: xs) (u ++ v)

variable {rules : List Rule}

/-! ## 1. Strings side by side -/

namespace Yields

theorem refl (α : List Symbol) : Yields rules α α := by
  induction α with
  | nil => exact .nil
  | cons x xs ih => exact .keep x ih

theorem append {α β u v : List Symbol} (h : Yields rules α u) (k : Yields rules β v) :
    Yields rules (α ++ β) (u ++ v) := by
  induction h with
  | nil => exact k
  | keep x _ ih => exact .keep x ih
  | unfold hr hu _ _ ih =>
    rw [List.append_assoc]
    exact .unfold hr hu ih

/-- What two strings yield together splits into what each yields. -/
theorem exists_append {α β w : List Symbol} (h : Yields rules (α ++ β) w) :
    ∃ u v, w = u ++ v ∧ Yields rules α u ∧ Yields rules β v := by
  induction α generalizing w with
  | nil => exact ⟨[], w, rfl, .nil, h⟩
  | cons x xs ih =>
    rw [List.cons_append] at h
    cases h with
    | keep _ h =>
      obtain ⟨u, v, rfl, hu, hv⟩ := ih h
      exact ⟨x :: u, v, rfl, .keep x hu, hv⟩
    | @unfold r _ s _ hr hs h =>
      obtain ⟨u, v, rfl, hu, hv⟩ := ih h
      exact ⟨s ++ u, v, (List.append_assoc s u v).symm, .unfold hr hs hu, hv⟩

theorem eq_nil {w : List Symbol} (h : Yields rules [] w) : w = [] := by
  cases h
  rfl

/-! ## 2. The same as rewriting -/

theorem rewrites {α w : List Symbol} (h : Yields rules α w) : Rewrites rules α w := by
  induction h with
  | nil => exact .refl
  | keep x _ ih => exact Rewrites.append (.refl (α := [x])) ih
  | unfold hr _ _ ihu ihv => exact Rewrites.append ((Rewrites.of_mem hr).trans ihu) ihv

/-- A replacement may come first. -/
theorem of_rewritesOnce {α β w : List Symbol} (h : RewritesOnce rules α β)
    (k : Yields rules β w) : Yields rules α w := by
  cases h with
  | replace front back r hr =>
    obtain ⟨w', v, rfl, hw', hv⟩ := k.exists_append
    obtain ⟨s, u, rfl, hs, hu⟩ := hw'.exists_append
    rw [List.append_assoc]
    exact hs.append (.unfold hr hu hv)

end Yields

/-- **Rewriting is yielding.** -/
theorem rewrites_iff_yields {α w : List Symbol} : Rewrites rules α w ↔ Yields rules α w := by
  refine ⟨fun h => ?_, Yields.rewrites⟩
  have hback : ∀ {β : List Symbol}, Rewrites rules α β → Yields rules β w → Yields rules α w := by
    intro β hβ
    induction hβ with
    | refl => exact id
    | tail _ s ih => exact fun k => ih (k.of_rewritesOnce s)
  exact hback h (.refl w)

/-! ## 3. What a derivation is made of -/

namespace Rewrites

/-- What two strings become together splits into what each becomes. -/
theorem exists_append {α β w : List Symbol} (h : Rewrites rules (α ++ β) w) :
    ∃ u v, w = u ++ v ∧ Rewrites rules α u ∧ Rewrites rules β v := by
  obtain ⟨u, v, hw, hu, hv⟩ := (rewrites_iff_yields.1 h).exists_append
  exact ⟨u, v, hw, hu.rewrites, hv.rewrites⟩

/-- A nonterminal stays, or one of its rules comes first. -/
theorem head {n : Nonterminal} {w : List Symbol} (h : Rewrites rules [.nonterminal n] w) :
    w = [.nonterminal n] ∨ ∃ r ∈ rules, r.lhs = n ∧ Rewrites rules r.rhs w := by
  cases rewrites_iff_yields.1 h with
  | keep _ hv =>
    rw [hv.eq_nil]
    exact .inl rfl
  | @unfold r _ u _ hr hu hv =>
    rw [hv.eq_nil, List.append_nil]
    exact .inr ⟨r, hr, rfl, hu.rewrites⟩

/-- If two strings vanish together, each vanishes. -/
theorem of_append_nil {α β : List Symbol} (h : Rewrites rules (α ++ β) []) :
    Rewrites rules α [] ∧ Rewrites rules β [] := by
  obtain ⟨u, v, huv, hu, hv⟩ := h.exists_append
  obtain ⟨rfl, rfl⟩ := List.append_eq_nil_iff.1 huv.symm
  exact ⟨hu, hv⟩

/-- Whatever a string becomes is made of its own symbols and those of the right-hand sides. -/
theorem mem_or_mem_rhs {α w : List Symbol} (h : Rewrites rules α w) {x : Symbol} (hx : x ∈ w) :
    x ∈ α ∨ ∃ r ∈ rules, x ∈ r.rhs := by
  induction h with
  | refl => exact .inl hx
  | tail _ s ih =>
    cases s with
    | replace front back r hr =>
      rcases List.mem_append.1 hx with hx | hx
      · rcases List.mem_append.1 hx with hx | hx
        · exact ih (List.mem_append_left _ hx)
        · exact .inr ⟨r, hr, hx⟩
      · exact ih (List.mem_append_right front (List.mem_cons_of_mem _ hx))

end Rewrites

/-! ## 4. With the rules -/

/-- `Yields` with the numbers of the rules, each behind those used for its right-hand side. -/
inductive YieldsBy (rules : Array Rule) : List Nat → List Symbol → List Symbol → Prop where
  | nil : YieldsBy rules [] [] []
  | keep {is : List Nat} {xs v : List Symbol} (x : Symbol) (h : YieldsBy rules is xs v) :
      YieldsBy rules is (x :: xs) (x :: v)
  | unfold {i : Nat} {r : Rule} {is js : List Nat} {xs u v : List Symbol} (hr : rules[i]? = some r)
      (hu : YieldsBy rules is r.rhs u) (hv : YieldsBy rules js xs v) :
      YieldsBy rules (is ++ i :: js) (.nonterminal r.lhs :: xs) (u ++ v)

namespace YieldsBy

variable {rules : Array Rule} {is js ks : List Nat}

theorem refl (α : List Symbol) : YieldsBy rules [] α α := by
  induction α with
  | nil => exact .nil
  | cons x xs ih => exact .keep x ih

theorem append {α β u v : List Symbol} (h : YieldsBy rules is α u) (k : YieldsBy rules js β v) :
    YieldsBy rules (is ++ js) (α ++ β) (u ++ v) := by
  induction h with
  | nil => exact k
  | keep x _ ih => exact .keep x ih
  | unfold hr hu _ _ ih =>
    rw [List.append_assoc, List.append_assoc]
    exact .unfold hr hu ih

/-- What two strings yield together splits into what each yields, and so do the rules. -/
theorem exists_append {α β w : List Symbol} (h : YieldsBy rules ks (α ++ β) w) :
    ∃ is js u v, ks = is ++ js ∧ w = u ++ v ∧ YieldsBy rules is α u ∧ YieldsBy rules js β v := by
  induction α generalizing ks w with
  | nil => exact ⟨[], ks, [], w, rfl, rfl, .nil, h⟩
  | cons x xs ih =>
    rw [List.cons_append] at h
    cases h with
    | keep _ h =>
      obtain ⟨is, js, u, v, rfl, rfl, hu, hv⟩ := ih h
      exact ⟨is, js, x :: u, v, rfl, rfl, .keep x hu, hv⟩
    | @unfold i r ls _ _ s _ hr hs h =>
      obtain ⟨is, js, u, v, rfl, rfl, hu, hv⟩ := ih h
      refine ⟨ls ++ i :: is, js, s ++ u, v, ?_, (List.append_assoc s u v).symm,
        .unfold hr hs hu, hv⟩
      rw [List.append_assoc]
      rfl

/-- Terminals yield themselves, by no rule. -/
theorem eq_of_terminals {α w : List Symbol} (h : YieldsBy rules is α w)
    (hα : ∀ x ∈ α, x.isTerminal = true) : is = [] ∧ w = α := by
  induction h with
  | nil => exact ⟨rfl, rfl⟩
  | keep x _ ih =>
    obtain ⟨rfl, rfl⟩ := ih fun y hy => hα y (List.mem_cons_of_mem x hy)
    exact ⟨rfl, rfl⟩
  | @unfold _ r _ _ _ _ _ _ _ _ _ _ => cases hα (.nonterminal r.lhs) List.mem_cons_self

theorem yields {α w : List Symbol} (h : YieldsBy rules is α w) : Yields rules.toList α w := by
  induction h with
  | nil => exact .nil
  | keep x _ ih => exact .keep x ih
  | unfold hr _ _ ihu ihv => exact .unfold (List.mem_of_getElem? (by simpa using hr)) ihu ihv

end YieldsBy

/-- The rules of a derivation have numbers. -/
theorem Yields.exists_yieldsBy {rules : Array Rule} {α w : List Symbol}
    (h : Yields rules.toList α w) : ∃ is, YieldsBy rules is α w := by
  induction h with
  | nil => exact ⟨[], .nil⟩
  | keep x _ ih =>
    obtain ⟨is, hi⟩ := ih
    exact ⟨is, .keep x hi⟩
  | unfold hr _ _ ihu ihv =>
    obtain ⟨is, hi⟩ := ihu
    obtain ⟨js, hj⟩ := ihv
    obtain ⟨k, hk⟩ := List.mem_iff_getElem?.1 hr
    exact ⟨is ++ k :: js, .unfold (by simpa using hk) hi hj⟩

/-- **A rightmost derivation uses its rules in the reverse order.** -/
theorem Rightmost.yieldsBy {rules : Array Rule} {is : List Nat} {α w : List Symbol}
    (h : Rightmost rules is α w) : YieldsBy rules is.reverse α w := by
  induction h with
  | refl α => exact .refl α
  | @head i r is front back w hr hback _ ih =>
    obtain ⟨ks, ls, s, v, hrev, rfl, hs, hv⟩ := ih.exists_append
    obtain ⟨as, bs, t, u, rfl, rfl, ht, hu⟩ := hs.exists_append
    -- what stands behind is terminal, so the rules of the front and the right-hand side are all
    obtain ⟨rfl, rfl⟩ := hv.eq_of_terminals hback
    have h := ht.append (.unfold hr hu hv)
    rw [List.append_nil] at hrev
    rwa [List.reverse_cons, hrev, List.append_assoc, List.append_assoc]

end ShiftReduce
