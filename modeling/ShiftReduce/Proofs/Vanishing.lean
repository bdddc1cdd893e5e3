import ShiftReduce.Proofs.FirstSets
import ShiftReduce.Proofs.RemainingRecursion
/-!
# Which symbols vanish

Whether a nonterminal can vanish is found out twice: `nullable` collects left-hand sides until no
rule adds one, for the search for hidden left recursion, and FIRST puts `ε` into sets of slots, for
the tables. Both answer what derivations say, so they agree on every list of rules:

* `rewrites_nil_iff` -- a string vanishes exactly if it is made of nonterminals that `nullable` finds;
* `epsilon_mem_firstSymbols_iff` -- and exactly if FIRST has `ε` for it;
* `Elimination.IsOf.contains_nullable_iff` -- on the nonterminals of a grammar `nullable` finds the
  same before and after elimination, although it also finds the tails afterwards.
-/

namespace ShiftReduce

variable {rules : List Rule} {α : List Symbol} {n : Nonterminal}

/-- **A string vanishes exactly if all of it is nonterminals that `nullable` finds.** A terminal, `$`
    or an `ε` that is written out never vanishes. -/
theorem rewrites_nil_iff : Rewrites rules α [] ↔
    ∀ x ∈ α, ∃ n, x = .nonterminal n ∧ (nullable rules).contains n = true := by
  have herased : ∀ x : Symbol, x.isErasedBy (nullable rules) = true ↔
      ∃ n, x = .nonterminal n ∧ (nullable rules).contains n = true := fun x => x.isErasedBy_iff
  constructor
  · intro h x hx
    exact (herased x).1 (isErasedBy_nullable h x hx)
  · intro h
    refine rewrites_nil_of_forall fun x hx => ?_
    exact Symbol.isErasedBy_nullable_iff.1 ((herased x).2 (h x hx))

/-- **FIRST has `ε` for a string exactly if the string vanishes.** -/
theorem epsilon_mem_firstSymbols_iff {t : Slots} :
    .epsilon ∈ (firstSets rules t).firstSymbols α ↔ Rewrites rules α [] := by
  rw [mem_firstSymbols_firstSets, Opens.epsilon_iff]
  exact ⟨fun h => h.2, fun h => ⟨⟨0, rfl⟩, h⟩⟩

/-- On the nonterminals of the grammar `nullable` finds the same by the rewritten rules. -/
theorem Elimination.IsOf.contains_nullable_iff {g : Grammar} {e : Elimination} (h : e.IsOf g)
    (hn : g.IsOld (.nonterminal n)) :
    (nullable g.rules.toList).contains n = true ↔ (nullable e.rules).contains n = true := by
  have hold : ∀ x ∈ [Symbol.nonterminal n], g.IsOld x := fun x hx => List.mem_singleton.1 hx ▸ hn
  rw [ShiftReduce.contains_nullable_iff, ShiftReduce.contains_nullable_iff, h.rewrites_nil_iff hold]

/-- **What vanishes is told alike everywhere.** For every list of rules `nullable` finds exactly the
    nonterminals that the rules rewrite to the empty string, and FIRST, whatever terminals are listed,
    has `ε` for exactly these. A string vanishes symbol by symbol, and only nonterminals do. On the
    nonterminals of a grammar of which the left recursion can be eliminated `nullable` finds the same
    by the rules of the grammar and by the rewritten ones. -/
theorem nullable_agrees :
    (∀ (rules : List Rule) (t : Slots) (n : Nonterminal),
      ((nullable rules).contains n = true ↔ Rewrites rules [.nonterminal n] []) ∧
      (Rewrites rules [.nonterminal n] [] ↔
        (firstSets rules t).contains (.nonterminal n) .epsilon = true)) ∧
    (∀ (rules : List Rule) (α : List Symbol), Rewrites rules α [] ↔
      ∀ x ∈ α, ∃ n, x = .nonterminal n ∧ Rewrites rules [.nonterminal n] []) ∧
    ∀ (g : Grammar) (e : Elimination), Elimination.ofGrammar g = .ok e → ∀ n ∈ g.nonterminals,
      ((nullable g.rules.toList).contains n = true ↔ (nullable e.rules).contains n = true) := by
  refine ⟨fun rules t n => ⟨contains_nullable_iff, ?_⟩, fun rules α => ?_, fun g e he n hn => ?_⟩
  · rw [← SetTable.mem_firstSymbols_singleton, epsilon_mem_firstSymbols_iff]
  · rw [rewrites_nil_iff]
    simp only [contains_nullable_iff]
  · exact (Elimination.isOf he).contains_nullable_iff (Grammar.isOld_nonterminal hn)

/-- Of `M -> M x | ` the nonterminal `M` vanishes, and so it does of `M -> M′` and `M′ -> x M′ | `. -/
theorem tallies_nullable :
    Elimination.ofGrammar tallies = .ok talliesElimination ∧ 2 ∈ tallies.nonterminals ∧
      (nullable tallies.rules.toList).contains 2 = true ∧
      (nullable talliesElimination.rules).contains 2 = true ∧
      (firstSets tallies.rules.toList talliesElimination.slots).contains (.nonterminal 2)
        .epsilon = true := by
  obtain ⟨hfound, -, hkept⟩ := nullable_agrees
  obtain ⟨hnullable, hfirst⟩ := hfound tallies.rules.toList talliesElimination.slots 2
  have hn : 2 ∈ tallies.nonterminals := by decide +kernel
  have hvanish : Rewrites tallies.rules.toList [.nonterminal 2] [] :=
    .of_mem (r := ⟨2, []⟩) (by decide)
  exact ⟨ofGrammar_tallies, hn, hnullable.2 hvanish,
    (hkept tallies talliesElimination ofGrammar_tallies 2 hn).1 (hnullable.2 hvanish),
    hfirst.1 hvanish⟩

end ShiftReduce
