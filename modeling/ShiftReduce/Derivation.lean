import ShiftReduce.Rule
/-!
# Derivations

What a list of rules generates, said without any algorithm. `Rewrites` replaces left-hand sides by
right-hand sides anywhere in a string; marks and terminals are never replaced. `Rightmost` always
replaces the last nonterminal and records the numbers of the rules it uses. A derivation goes on
inside a longer string (`Rewrites.context`), and every rightmost derivation is a derivation
(`Rightmost.rewrites`).
-/

namespace ShiftReduce

/-- `β` comes from `α` by replacing one left-hand side. -/
inductive RewritesOnce (rules : List Rule) : List Symbol → List Symbol → Prop where
  | replace (front back : List Symbol) (r : Rule) (h : r ∈ rules) :
      RewritesOnce rules (front ++ .nonterminal r.lhs :: back) (front ++ r.rhs ++ back)

/-- `β` comes from `α` by any number of replacements. -/
inductive Rewrites (rules : List Rule) (α : List Symbol) : List Symbol → Prop where
  | refl : Rewrites rules α α
  | tail {β γ : List Symbol} (h : Rewrites rules α β) (s : RewritesOnce rules β γ) :
      Rewrites rules α γ

/-- `β` comes from `α` by replacing the last nonterminal again and again, with these rules in this
    order. -/
inductive Rightmost (rules : Array Rule) : List Nat → List Symbol → List Symbol → Prop where
  | refl (α : List Symbol) : Rightmost rules [] α α
  | head {i : Nat} {r : Rule} {is : List Nat} {front back β : List Symbol}
      (hr : rules[i]? = some r) (hb : ∀ x ∈ back, x.isTerminal = true)
      (h : Rightmost rules is (front ++ r.rhs ++ back) β) :
      Rightmost rules (i :: is) (front ++ .nonterminal r.lhs :: back) β

/-! ## 1. Derivations compose -/

theorem RewritesOnce.context {rules : List Rule} {α β : List Symbol} (h : RewritesOnce rules α β)
    (front back : List Symbol) : RewritesOnce rules (front ++ α ++ back) (front ++ β ++ back) := by
  cases h with
  | replace f b r hr =>
    have s := RewritesOnce.replace (front ++ f) (b ++ back) r hr
    simpa only [List.append_assoc, List.cons_append] using s

namespace Rewrites

variable {rules : List Rule} {α β γ : List Symbol}

theorem trans (h : Rewrites rules α β) (k : Rewrites rules β γ) : Rewrites rules α γ := by
  induction k with
  | refl => exact h
  | tail _ s ih => exact .tail ih s

theorem single (h : RewritesOnce rules α β) : Rewrites rules α β := .tail .refl h

/-- A rule rewrites its left-hand side to its right-hand side. -/
theorem of_mem {r : Rule} (h : r ∈ rules) : Rewrites rules [.nonterminal r.lhs] r.rhs := by
  have s := RewritesOnce.replace [] [] r h
  simp only [List.nil_append, List.append_nil] at s
  exact single s

theorem context (h : Rewrites rules α β) (front back : List Symbol) :
    Rewrites rules (front ++ α ++ back) (front ++ β ++ back) := by
  induction h with
  | refl => exact .refl
  | tail _ s ih => exact .tail ih (s.context front back)

theorem append {α' β' : List Symbol} (h : Rewrites rules α β) (h' : Rewrites rules α' β') :
    Rewrites rules (α ++ α') (β ++ β') := by
  have hl := h.context [] α'
  have hr := h'.context β []
  simp only [List.nil_append, List.append_nil] at hl hr
  exact hl.trans hr

end Rewrites

/-- A rightmost derivation is a derivation. -/
theorem Rightmost.rewrites {rules : Array Rule} {is : List Nat} {α β : List Symbol}
    (h : Rightmost rules is α β) : Rewrites rules.toList α β := by
  induction h with
  | refl => exact .refl
  | @head i r is front back β hr _ _ ih =>
    have hm : r ∈ rules.toList := List.mem_of_getElem? (by simpa using hr)
    exact (Rewrites.single (.replace front back r hm)).trans ih

end ShiftReduce
