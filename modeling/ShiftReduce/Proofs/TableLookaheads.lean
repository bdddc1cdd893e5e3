import ShiftReduce.Proofs.EliminatedLanguage
import ShiftReduce.Proofs.FollowSets
/-!
# The lookahead sets of the tables

The FIRST sets behind the tables come from the rewritten rules. For the symbols of the grammar they
are those of its own rules, so FOLLOW is the same with either (`Elimination.first_follow_iff`), and
the FOLLOW sets of the tables say exactly what can stand behind a nonterminal
(`TableBuild.follow_exact`).
-/

namespace ShiftReduce

open SetTable

variable {g : Grammar} {e : Elimination}

/-! ## 1. FIRST of the grammar and FIRST of the rewritten rules -/

namespace Elimination.IsOf

/-- A symbol of the grammar begins alike by the rewritten rules and by those of the grammar. -/
theorem contains_first_iff (h : e.IsOf g) {x : Symbol} (hx : g.IsOld x) {m : Symbol} :
    e.first.contains x m = true ↔
      (firstSets g.rules.toList (.ofList g.terminals)).contains x m = true := by
  rw [← mem_firstSymbols_singleton, ← mem_firstSymbols_singleton, mem_firstSymbols_firstSets,
    h.mem_firstSymbols_first fun y hy => (List.mem_singleton.1 hy) ▸ hx, h.slots_eq]

/-- A string of the grammar has the same set by the rewritten rules and by those of the grammar. -/
theorem firstOf_first (h : e.IsOf g) {α : List Symbol} (hα : ∀ x ∈ α, g.IsOld x) :
    e.first.firstOf α = (firstSets g.rules.toList e.slots).firstOf α := by
  refine SlotSet.ext_contains fun i => Bool.eq_iff_iff.2 ?_
  rw [contains_firstOf_iff h.closed_first (fun _ _ hs hm => has_firstSets_self hs hm)
      fun x hx => h.soundFor_first (hα x hx),
    contains_firstOf_iff (closed_firstSets g.rules.toList e.slots)
      (fun _ _ hs hm => has_firstSets_self hs hm)
      fun x _ => soundFor_firstSets g.rules.toList e.slots x]

end Elimination.IsOf

/-! ## 2. FOLLOW with either -/

/-- FOLLOW looks at FIRST only for the strings behind the nonterminals of the rules. -/
theorem followSets_congr {t : Slots} {rules : List Rule} {first first' : SetTable t}
    (h : ∀ r ∈ rules, ∀ n τ, (n, τ) ∈ occurrences r.rhs → first.firstOf τ = first'.firstOf τ)
    (start : Nonterminal) : followSets rules start first = followSets rules start first' := by
  have hrules : rules.flatMap (Rule.followInclusions first) =
      rules.flatMap (Rule.followInclusions first') := by
    refine List.flatMap_congr fun r hr => ?_
    rw [Rule.followInclusions, Rule.followInclusions, scan_eq, scan_eq, List.map_map, List.map_map]
    refine List.map_congr_left fun p hp => ?_
    show followInclusion r.lhs p.1 (first.firstOf p.2) =
      followInclusion r.lhs p.1 (first'.firstOf p.2)
    rw [h r hr p.1 p.2 hp]
  rw [followSets, followSets, hrules]

/-- FOLLOW over the rules of the grammar is the same table with either FIRST. -/
theorem Elimination.IsOf.followSets_first (h : e.IsOf g) (start : Nonterminal) :
    followSets g.rules.toList start e.first =
      followSets g.rules.toList start (firstSets g.rules.toList e.slots) := by
  refine followSets_congr (fun r hr n τ hocc => h.firstOf_first fun x hx => ?_) start
  obtain ⟨η, hrhs⟩ := mem_occurrences.1 hocc
  refine Grammar.isOld_of_mem_rhs hr ?_
  rw [hrhs]
  exact List.mem_append_right η (List.mem_cons_of_mem _ hx)

/-- **Elimination keeps FIRST and with it FOLLOW**: a symbol of the grammar has the same FIRST by the
    rewritten rules and by its own, and FOLLOW over the rules of the grammar, whatever the start, has
    the same members with either. -/
theorem Elimination.first_follow_iff (he : ofGrammar g = .ok e) :
    (∀ x ∈ g.symbols, ∀ m, e.first.contains x m = true ↔
      (firstSets g.rules.toList (.ofList g.terminals)).contains x m = true) ∧
    ∀ start n m, (followSets g.rules.toList start e.first).contains (.nonterminal n) m = true ↔
      (followSets g.rules.toList start
        (firstSets g.rules.toList (.ofList g.terminals))).contains (.nonterminal n) m = true := by
  have h := isOf he
  refine ⟨fun x hx m => h.contains_first_iff (Grammar.isOld_of_mem_symbols hx),
    fun start n m => ?_⟩
  rw [h.followSets_first, h.slots_eq]

/-- A tally begins with nothing or a semicolon and, by the rules of the grammar, no stroke: so it is
    with the rewritten rules, where the loop has moved into a tail. -/
theorem tallies_first_follow :
    Elimination.ofGrammar tallies = .ok talliesElimination ∧
      talliesElimination.first.contains (.nonterminal 1) .epsilon = true ∧
      talliesElimination.first.contains (.nonterminal 1) (.terminal 0) = true ∧
      talliesElimination.first.contains (.nonterminal 1) (.terminal 1) ≠ true ∧
      (followSets tallies.rules.toList 0 talliesElimination.first).contains
        (.nonterminal 2) (.terminal 0) = true := by
  obtain ⟨hfirst, hfollow⟩ := Elimination.first_follow_iff ofGrammar_tallies
  have h1 : .nonterminal 1 ∈ tallies.symbols := by decide +kernel
  refine ⟨ofGrammar_tallies, (hfirst _ h1 _).2 ?_, (hfirst _ h1 _).2 ?_,
    mt (hfirst _ h1 _).1 ?_, (hfollow _ _ _).2 ?_⟩
  · decide +kernel
  · decide +kernel
  · decide +kernel
  · decide +kernel

/-! ## 3. FOLLOW of the tables -/

/-- A nonterminal that becomes something with another symbol in it is one of the rules. -/
theorem Rewrites.root_mem_nonterminalsOf {rules : List Rule} {n : Nonterminal} {w : List Symbol}
    (h : Rewrites rules [.nonterminal n] w) {x : Symbol} (hx : x ∈ w) (hne : x ≠ .nonterminal n) :
    n ∈ nonterminalsOf rules := by
  rcases h.head with rfl | ⟨r, hr, rfl, _⟩
  · exact absurd (List.mem_singleton.1 hx) hne
  · exact mem_nonterminalsOf.2 ⟨r, hr, .inl rfl⟩

namespace TableBuild

variable {b : TableBuild}

/-- **The FOLLOW sets of the tables say what can stand behind a nonterminal**: a terminal that does so
    in something that a nonterminal of the grammar becomes, `$` if the augmented start symbol becomes
    a string that ends in the nonterminal, and never `ε`. -/
theorem follow_exact (hb : ofGrammar g = .ok b) (n : Nonterminal) :
    (∀ id, b.tables.follow.contains (.nonterminal n) (.terminal id) = true ↔
      ∃ m ∈ g.nonterminals, ∃ front back,
        Rewrites g.rules.toList [.nonterminal m] (front ++ .nonterminal n :: .terminal id :: back)) ∧
    (b.tables.follow.contains (.nonterminal n) .endOfInput = true ↔
      ∃ front, Rewrites g.rules.toList [.nonterminal g.augmentedStart]
        (front ++ [.nonterminal n])) ∧
    b.tables.follow.contains (.nonterminal n) .epsilon = false := by
  have hiff : ∀ x, b.tables.follow.contains (.nonterminal n) x = true ↔ g.Follows n x :=
    fun x => follows_iff hb
  refine ⟨fun id => ⟨fun h => ?_, fun ⟨m, _, front, back, h⟩ => ?_⟩,
    ⟨fun h => ?_, fun ⟨front, h⟩ => ?_⟩, ?_⟩
  · cases (hiff _).1 h with
    | @terminal m front back id h =>
      have hm : m ∈ nonterminalsOf g.rules.toList :=
        h.root_mem_nonterminalsOf (x := .terminal id) (by simp) (by simp)
      exact ⟨m, hm, front, back, h⟩
  · exact (hiff _).2 (.terminal h)
  · cases (hiff _).1 h with
    | @endOfInput front h => exact ⟨front, h⟩
  · exact (hiff _).2 (.endOfInput h)
  · refine Bool.eq_false_iff.2 fun h => ?_
    cases (hiff _).1 h

end TableBuild

def talliesBuild : TableBuild := (TableBuild.ofGrammar tallies).toOption.get (by decide +kernel)

theorem ofGrammar_talliesBuild : TableBuild.ofGrammar tallies = .ok talliesBuild :=
  eq_ok_of_toOption (Option.some_get _).symm

/-- A stroke or a semicolon can stand behind strokes, and a tally can end with them. -/
theorem talliesBuild_follow_exact :
    TableBuild.ofGrammar tallies = .ok talliesBuild ∧
      (∃ m ∈ tallies.nonterminals, ∃ front back, Rewrites tallies.rules.toList [.nonterminal m]
        (front ++ .nonterminal 2 :: .terminal 0 :: back)) ∧
      (∃ front, Rewrites tallies.rules.toList [.nonterminal 0] (front ++ [.nonterminal 2])) ∧
      talliesBuild.tables.follow.contains (.nonterminal 2) .epsilon = false := by
  obtain ⟨hterminal, hend, hepsilon⟩ := TableBuild.follow_exact ofGrammar_talliesBuild 2
  refine ⟨ofGrammar_talliesBuild, (hterminal 0).1 ?_, hend.1 ?_, hepsilon⟩
  · decide +kernel
  · decide +kernel

end ShiftReduce
