import ShiftReduce.Directory
import ShiftReduce.LeftRecursion.Elimination
/-!
# The rewritten rules

Elimination gives every nonterminal with a self-recursive rule a tail. The tails are fresh and tell
their nonterminals apart (`Grammar.of_tail`, `Grammar.tail_inj`), and each has one self-recursive
rule behind it (`Elimination.IsOf.loop_unique`). A rewritten rule arises in one of four ways
(`Grammar.Rewritten`, `Elimination.IsOf.mem_rules_iff`).
-/

namespace ShiftReduce

/-! ## 1. Tails -/

namespace Grammar

variable {g : Grammar}

theorem lt_foldl_max {l : List Nonterminal} {n : Nonterminal} (m : Nat) (h : n ∈ l) :
    n < l.foldl (fun m n => max m (n + 1)) m := by
  have hmono : ∀ (l : List Nonterminal) (m : Nat), m ≤ l.foldl (fun m n => max m (n + 1)) m := by
    intro l
    induction l with
    | nil => exact fun m => Nat.le_refl m
    | cons k l ih => exact fun m => Nat.le_trans (Nat.le_max_left m (k + 1)) (ih _)
  induction l generalizing m with
  | nil => exact absurd h List.not_mem_nil
  | cons k l ih =>
    rcases List.mem_cons.1 h with rfl | h
    · exact Nat.lt_of_lt_of_le (Nat.lt_of_lt_of_le n.lt_succ_self (Nat.le_max_right m _)) (hmono l _)
    · exact ih _ h

theorem lt_freshNonterminal {n : Nonterminal} (h : n ∈ g.nonterminals) : n < g.freshNonterminal :=
  lt_foldl_max 0 h

theorem mem_selfRecursiveRules {n : Nonterminal} {r : Rule} :
    r ∈ g.selfRecursiveRules n ↔
      r ∈ g.rules.toList ∧ r.lhs = n ∧ r.isSelfRecursive = true := by
  rw [selfRecursiveRules, rulesOf_eq, List.mem_filter, List.mem_filter, and_assoc, beq_iff_eq]

theorem mem_recursiveNonterminals {n : Nonterminal} :
    n ∈ g.recursiveNonterminals ↔ ∃ r ∈ g.rules.toList, r.lhs = n ∧ r.isSelfRecursive = true := by
  have hmem : n ∈ g.recursiveNonterminals ↔
      n ∈ g.nonterminals ∧ g.selfRecursiveRules n ≠ [] := by
    rw [recursiveNonterminals, List.mem_filter]
    simp
  rw [hmem]
  constructor
  · intro ⟨_, hne⟩
    obtain ⟨r, hr⟩ := List.exists_mem_of_ne_nil _ hne
    exact ⟨r, mem_selfRecursiveRules.1 hr⟩
  · intro ⟨r, hr, hn, hself⟩
    refine ⟨mem_nonterminalsOf.2 ⟨r, hr, .inl hn.symm⟩, fun hnil => ?_⟩
    have hmem := mem_selfRecursiveRules.2 ⟨hr, hn, hself⟩
    rw [hnil] at hmem
    cases hmem

/-- A tail is numbered by the place of its nonterminal. -/
theorem getElem?_of_tail {n tail : Nonterminal} (h : g.tails.lookup n = some tail) :
    g.freshNonterminal ≤ tail ∧ g.recursiveNonterminals[tail - g.freshNonterminal]? = some n :=
  List.mk_mem_zipIdx_iff_le_and_getElem?_sub.1 (mem_of_lookup h)

/-- What has a tail has a self-recursive rule, and the tail is fresh. -/
theorem of_tail {n tail : Nonterminal} (h : g.tails.lookup n = some tail) :
    (∃ r ∈ g.rules.toList, r.lhs = n ∧ r.isSelfRecursive = true) ∧ g.freshNonterminal ≤ tail := by
  have hmem := getElem?_of_tail h
  exact ⟨mem_recursiveNonterminals.1 (List.mem_of_getElem? hmem.2), hmem.1⟩

/-- Tails tell their nonterminals apart. -/
theorem tail_inj {n m tail : Nonterminal} (hn : g.tails.lookup n = some tail)
    (hm : g.tails.lookup m = some tail) : n = m :=
  Option.some.inj ((getElem?_of_tail hn).2.symm.trans (getElem?_of_tail hm).2)

/-- A symbol below the tails: no fresh nonterminal. -/
def IsOld (g : Grammar) (x : Symbol) : Prop :=
  ∀ n, x = .nonterminal n → n < g.freshNonterminal

theorem isOld_nonterminal {n : Nonterminal} (h : n ∈ g.nonterminals) :
    g.IsOld (.nonterminal n) := by
  intro m hm
  cases hm
  exact lt_freshNonterminal h

theorem isOld_of_mem_symbols {x : Symbol} (h : x ∈ g.symbols) : g.IsOld x := by
  rcases List.mem_append.1 h with h | h
  · obtain ⟨id, _, rfl⟩ := List.mem_map.1 h
    exact fun n hn => absurd hn (by simp)
  · obtain ⟨n, hn, rfl⟩ := List.mem_map.1 h
    exact isOld_nonterminal hn

theorem isOld_lhs {r : Rule} (hr : r ∈ g.rules.toList) : g.IsOld (.nonterminal r.lhs) :=
  isOld_nonterminal (mem_nonterminalsOf.2 ⟨r, hr, .inl rfl⟩)

theorem isOld_of_mem_rhs {r : Rule} (hr : r ∈ g.rules.toList) {x : Symbol} (hx : x ∈ r.rhs) :
    g.IsOld x := by
  intro n hn
  subst hn
  exact lt_freshNonterminal (mem_nonterminalsOf.2 ⟨r, hr, .inr hx⟩)

/-- A tail is no old symbol. -/
theorem not_isOld_tail {n tail : Nonterminal} (ht : g.tails.lookup n = some tail) :
    ¬ g.IsOld (.nonterminal tail) :=
  fun h => Nat.not_lt.2 (of_tail ht).2 (h tail rfl)

end Grammar

/-! ## 2. What a rewritten rule comes from -/

/-- A self-recursive rule with the tail that takes over what follows the left recursion. -/
structure Grammar.IsLoop (g : Grammar) (r : Rule) (tail : Nonterminal) : Prop where
  mem : r ∈ g.rules.toList
  lookup_eq : g.tails.lookup r.lhs = some tail
  self : r.isSelfRecursive = true

/-- The rules that elimination makes of those of a grammar. -/
inductive Grammar.Rewritten (g : Grammar) : Rule → Prop where
  /-- A rule of a nonterminal without a tail stays. -/
  | keep {r : Rule} (hr : r ∈ g.rules.toList) (ht : g.tails.lookup r.lhs = none) : Rewritten g r
  /-- A rule without left recursion goes on with the tail of its left-hand side. -/
  | extend {r : Rule} {tail : Nonterminal} (hr : r ∈ g.rules.toList)
      (ht : g.tails.lookup r.lhs = some tail) (hs : ¬ r.isSelfRecursive = true) :
      Rewritten g ⟨r.lhs, r.rhs ++ [.nonterminal tail]⟩
  /-- A tail goes once more over what follows the left recursion. -/
  | loop {r : Rule} {tail : Nonterminal} (h : g.IsLoop r tail) :
      Rewritten g ⟨tail, r.rhs.tail ++ [.nonterminal tail]⟩
  /-- A tail ends. -/
  | stop {r : Rule} {tail : Nonterminal} (h : g.IsLoop r tail) : Rewritten g ⟨tail, []⟩

namespace Grammar

variable {g : Grammar} {r : Rule} {n tail : Nonterminal}

/-- Behind a tail there is a self-recursive rule. -/
theorem exists_loop (ht : g.tails.lookup n = some tail) : ∃ r, g.IsLoop r tail ∧ r.lhs = n := by
  obtain ⟨⟨r, hr, rfl, hs⟩, _⟩ := of_tail ht
  exact ⟨r, ⟨hr, ht, hs⟩, rfl⟩

/-- A self-recursive rule has a tail. -/
theorem exists_tail (hr : r ∈ g.rules.toList) (hs : r.isSelfRecursive = true) :
    ∃ tail, g.IsLoop r tail := by
  obtain ⟨i, hi⟩ := List.mem_iff_getElem?.1 (mem_recursiveNonterminals.2 ⟨r, hr, rfl, hs⟩)
  have hmem : (r.lhs, g.freshNonterminal + i) ∈ g.tails :=
    List.mk_add_mem_zipIdx_iff_getElem?.2 hi
  obtain ⟨tail, ht⟩ := exists_lookup_of_mem hmem
  exact ⟨tail, hr, ht, hs⟩

/-- The right-hand side of a self-recursive rule is its left-hand side and what follows the left
    recursion. -/
theorem IsLoop.rhs_eq (h : g.IsLoop r tail) : r.rhs = .nonterminal r.lhs :: r.rhs.tail := by
  obtain ⟨rest, hrest⟩ := Rule.isSelfRecursive_iff.1 h.self
  rw [hrest, List.tail_cons]

/-- What follows the left recursion has no tail in it. -/
theorem IsLoop.isOld_of_mem (h : g.IsLoop r tail) {x : Symbol} (hx : x ∈ r.rhs.tail) : g.IsOld x :=
  isOld_of_mem_rhs h.mem (List.mem_of_mem_tail hx)

/-- The rewritten rules of a nonterminal with a tail are its rules without left recursion, each with
    the tail behind it. -/
theorem Rewritten.exists_of_tail {q : Rule} (hq : g.Rewritten q)
    (ht : g.tails.lookup q.lhs = some tail) :
    ∃ s ∈ g.rules.toList, s.lhs = q.lhs ∧ ¬ s.isSelfRecursive = true ∧
      q.rhs = s.rhs ++ [.nonterminal tail] := by
  have hold : g.IsOld (.nonterminal q.lhs) := by
    obtain ⟨r, hl, hn⟩ := exists_loop ht
    exact hn ▸ isOld_lhs hl.mem
  cases hq with
  | keep _ hn =>
    rw [ht] at hn
    cases hn
  | @extend s tail' hs ht' hself =>
    obtain rfl := Option.some.inj (ht.symm.trans ht')
    exact ⟨s, hs, rfl, hself, rfl⟩
  | loop hl => exact absurd hold (not_isOld_tail hl.lookup_eq)
  | stop hl => exact absurd hold (not_isOld_tail hl.lookup_eq)

end Grammar

/-- An occurrence of a symbol in `xs ++ ys` lies in one of the two. -/
theorem exists_of_append_eq {α : Type} {xs ys front rest : List α} {x : α}
    (h : xs ++ ys = front ++ x :: rest) :
    (∃ p, xs = front ++ x :: p ∧ rest = p ++ ys) ∨ (∃ p, front = xs ++ p ∧ ys = p ++ x :: rest) := by
  rcases List.append_eq_append_iff.1 h with ⟨p, hf, hy⟩ | ⟨p, hx, hr⟩
  · exact .inr ⟨p, hf, hy⟩
  · cases p with
    | nil =>
      rw [List.append_nil] at hx
      exact .inr ⟨[], by rw [hx, List.append_nil], hr.symm⟩
    | cons y p =>
      obtain ⟨rfl, hrest⟩ := List.cons.inj hr
      exact .inl ⟨p, hx, hrest⟩

/-- A symbol in a string with a tail behind it lies in the string or is the tail. -/
theorem occurrence_in_front {α η τ : List Symbol} {n tail : Nonterminal}
    (h : α ++ [.nonterminal tail] = η ++ .nonterminal n :: τ) :
    (∃ ρ, α = η ++ .nonterminal n :: ρ ∧ τ = ρ ++ [.nonterminal tail]) ∨
      (n = tail ∧ τ = [] ∧ α = η) := by
  rcases exists_of_append_eq h with hin | ⟨ρ, hη, hρ⟩
  · exact .inl hin
  · cases ρ with
    | nil =>
      obtain ⟨hn, hτ⟩ := List.cons.inj hρ
      exact .inr ⟨(Symbol.nonterminal.inj hn).symm, hτ.symm, (hη.trans (List.append_nil α)).symm⟩
    | cons y ys => simp at hρ

/-! ## 3. What the elimination promises -/

namespace Elimination

variable {g : Grammar} {e : Elimination}

/-- What is known of the result of `ofGrammar`. -/
structure IsOf (e : Elimination) (g : Grammar) : Prop where
  rules_eq : e.rules = g.rules.toList.flatMap (Rule.eliminate g.tails)
  slots_eq : e.slots = .ofList g.terminals
  nothing_hidden : g.hiddenRecursion? = none
  no_defect : ∀ n ∈ g.nonterminals, g.recursionDefect? n = none

theorem isOf (h : ofGrammar g = .ok e) : e.IsOf g := by
  unfold ofGrammar at h
  split at h
  · cases h
  · rename_i hh
    split at h
    · cases h
    · rename_i hd
      cases h
      refine ⟨rfl, rfl, hh, fun n hn => ?_⟩
      exact Option.map_eq_none_iff.1 (List.findSome?_eq_none_iff.1 hd n hn)

theorem start_eq (h : ofGrammar g = .ok e) : e.start = g.augmentedStart := by
  unfold ofGrammar at h
  split at h
  · cases h
  · split at h
    · cases h
    · cases h
      rfl

/-- A nonterminal has one self-recursive rule at most. -/
theorem IsOf.self_unique (h : e.IsOf g) {r s : Rule} (hr : r ∈ g.rules.toList)
    (hs : s ∈ g.rules.toList) (hrs : r.lhs = s.lhs) (hr' : r.isSelfRecursive = true)
    (hs' : s.isSelfRecursive = true) : r = s := by
  have hd := h.no_defect s.lhs (mem_nonterminalsOf.2 ⟨s, hs, .inl rfl⟩)
  have hmr := Grammar.mem_selfRecursiveRules.2 ⟨hr, hrs, hr'⟩
  have hms := Grammar.mem_selfRecursiveRules.2 ⟨hs, rfl, hs'⟩
  unfold Grammar.recursionDefect? at hd
  split at hd
  · rename_i hnil
    rw [hnil] at hmr
    cases hmr
  · rename_i q hone
    rw [hone] at hmr hms
    exact (List.mem_singleton.1 hmr).trans (List.mem_singleton.1 hms).symm
  · cases hd

/-- A tail has one self-recursive rule behind it. -/
theorem IsOf.loop_unique (h : e.IsOf g) {r s : Rule} {tail : Nonterminal} (hr : g.IsLoop r tail)
    (hs : g.IsLoop s tail) : r = s :=
  h.self_unique hr.mem hs.mem (Grammar.tail_inj hr.lookup_eq hs.lookup_eq) hr.self hs.self

/-- What one rule of the grammar becomes. -/
theorem rewritten_of_mem_eliminate {r q : Rule} (hr : r ∈ g.rules.toList)
    (hq : q ∈ r.eliminate g.tails) : g.Rewritten q := by
  unfold Rule.eliminate at hq
  split at hq
  · rename_i ht
    obtain rfl := List.mem_singleton.1 hq
    exact .keep hr ht
  · rename_i tail ht
    split at hq
    · rename_i hs
      rcases List.mem_cons.1 hq with rfl | hq
      · exact .loop ⟨hr, ht, hs⟩
      · obtain rfl := List.mem_singleton.1 hq
        exact .stop ⟨hr, ht, hs⟩
    · rename_i hs
      obtain rfl := List.mem_singleton.1 hq
      exact .extend hr ht hs

/-- Each way to arise has a rule of the grammar that becomes the rewritten one. -/
theorem mem_eliminate_of_rewritten {q : Rule} (h : g.Rewritten q) :
    ∃ r ∈ g.rules.toList, q ∈ r.eliminate g.tails := by
  cases h with
  | keep hr ht => exact ⟨q, hr, by simp [Rule.eliminate, ht]⟩
  | @extend r tail hr ht hs => exact ⟨r, hr, by simp [Rule.eliminate, ht, hs]⟩
  | @loop r tail h => exact ⟨r, h.mem, by simp [Rule.eliminate, h.lookup_eq, h.self]⟩
  | @stop r tail h => exact ⟨r, h.mem, by simp [Rule.eliminate, h.lookup_eq, h.self]⟩

/-- **A rewritten rule arises in one of four ways.** -/
theorem IsOf.mem_rules_iff (h : e.IsOf g) {q : Rule} : q ∈ e.rules ↔ g.Rewritten q := by
  rw [h.rules_eq, List.mem_flatMap]
  exact ⟨fun ⟨_, hr, hq⟩ => rewritten_of_mem_eliminate hr hq, mem_eliminate_of_rewritten⟩

end Elimination

end ShiftReduce
