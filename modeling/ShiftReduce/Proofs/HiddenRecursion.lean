import ShiftReduce.Proofs.LeftRank
import ShiftReduce.Proofs.Tails
/-!
# Which left recursion can be eliminated

Whether the left recursion of a grammar can be eliminated is decided by a search that tries the
nonterminals in order and reports the first cycle it closes. The answer does not depend on the
order: the search closes a cycle exactly if there is one (`Grammar.hiddenRecursion?_eq_none_iff`),
and what is reached on the left depends on which nonterminals can vanish, not on how `nullable`
found them (`contains_nullable_iff`).

* `Grammar.mem_reaches_nullable_iff` -- what is reached on the left, said by derivations;
* `search_error` -- a nonterminal that the search reports lies on a cycle;
* `Elimination.exists_iff` -- which grammars are not refused;
* `Elimination.refused_iff` -- which grammars are refused, and what the error names.
-/

namespace ShiftReduce

/-! ## 1. What vanishes -/

section

variable {rules : List Rule}

/-- A string vanishes when each of its symbols does. -/
theorem rewrites_nil_of_forall {α : List Symbol} (h : ∀ x ∈ α, Rewrites rules [x] []) :
    Rewrites rules α [] := by
  induction α with
  | nil => exact .refl
  | cons x α ih =>
    obtain ⟨hx, hα⟩ := List.forall_mem_cons.1 h
    exact hx.append (ih hα)

/-- A left-hand side vanishes when its right-hand side does by nonterminals that vanish. -/
theorem rewrites_nil_of_isErasedBy {r : Rule} (hr : r ∈ rules) {found : Std.TreeSet Nonterminal}
    (hfound : ∀ n, found.contains n = true → Rewrites rules [.nonterminal n] [])
    (h : r.isErasedBy found = true) : Rewrites rules [.nonterminal r.lhs] [] := by
  refine (Rewrites.of_mem hr).trans (rewrites_nil_of_forall fun x hx => ?_)
  obtain ⟨k, rfl, hk⟩ := Symbol.isErasedBy_iff.1 (List.all_eq_true.1 h x hx)
  exact hfound k hk

theorem rewrites_nil_of_nullableFrom {pending : List Rule} {found : Std.TreeSet Nonterminal}
    (hpending : ∀ r ∈ pending, r ∈ rules)
    (hfound : ∀ n, found.contains n = true → Rewrites rules [.nonterminal n] []) {n : Nonterminal}
    (h : (nullableFrom pending found).contains n = true) :
    Rewrites rules [.nonterminal n] [] := by
  fun_induction nullableFrom pending found with
  | case1 pending found he => exact hfound n h
  | case2 pending found he ih =>
    refine ih (fun r hr => hpending r (List.mem_filter.1 hr).1) (fun m hm => ?_) h
    rw [Std.TreeSet.contains_insertMany_list, Bool.or_eq_true, List.contains_iff_mem] at hm
    rcases hm with hm | hm
    · exact hfound m hm
    · obtain ⟨r, hr, rfl⟩ := List.mem_map.1 hm
      obtain ⟨hr, herased⟩ := List.mem_filter.1 hr
      exact rewrites_nil_of_isErasedBy (hpending r hr) hfound herased

/-- **`nullable` finds the nonterminals that can vanish**, and no other. -/
theorem contains_nullable_iff {n : Nonterminal} :
    (nullable rules).contains n = true ↔ Rewrites rules [.nonterminal n] [] := by
  constructor
  · exact rewrites_nil_of_nullableFrom (fun r hr => hr) (fun m hm => by simp at hm)
  · intro h
    exact isErasedBy_nullable h _ (List.mem_singleton_self _)

theorem Symbol.isErasedBy_nullable_iff {x : Symbol} :
    x.isErasedBy (nullable rules) = true ↔ Rewrites rules [x] [] := by
  refine ⟨fun h => ?_, fun h => isErasedBy_nullable h x (List.mem_singleton_self x)⟩
  obtain ⟨n, rfl, hn⟩ := Symbol.isErasedBy_iff.1 h
  exact contains_nullable_iff.1 hn

end

/-- A rule of `n` has `m` on its right behind the string `ν`, and every symbol of `ν` can vanish. -/
def LeftOccurrence (rules : List Rule) (n : Nonterminal) (ν : List Symbol) (m : Nonterminal) : Prop :=
  (∃ τ, (⟨n, ν ++ .nonterminal m :: τ⟩ : Rule) ∈ rules) ∧ ∀ x ∈ ν, Rewrites rules [x] []

/-- `n` reaches `m` on the left, in another way than by a rule that opens with its own left-hand
    side. -/
def Grammar.ReachesLeft (g : Grammar) (n m : Nonterminal) : Prop :=
  ∃ ν, LeftOccurrence g.rules.toList n ν m ∧ ¬ (ν = [] ∧ m = n)

/-- **What the search goes by is what is reached on the left.** -/
theorem Grammar.mem_reaches_nullable_iff {g : Grammar} {n m : Nonterminal} :
    m ∈ g.reaches (nullable g.rules.toList) n ↔ g.ReachesLeft n m := by
  constructor
  · intro h
    obtain ⟨r, hr, rfl, hm⟩ := mem_reaches.1 h
    obtain ⟨ν, τ, hrhs, hν, hfront⟩ := Rule.mem_reaches_iff.1 hm
    exact ⟨ν, ⟨⟨τ, hrhs ▸ hr⟩, fun x hx => Symbol.isErasedBy_nullable_iff.1 (hν x hx)⟩, hfront⟩
  · intro ⟨ν, ⟨⟨τ, hr⟩, hν⟩, hfront⟩
    refine mem_reaches.2 ⟨_, hr, rfl, Rule.mem_reaches_iff.2 ⟨ν, τ, rfl, fun x hx => ?_, hfront⟩⟩
    exact Symbol.isErasedBy_nullable_iff.2 (hν x hx)

/-! ## 2. Searches that close a cycle -/

section

open Relation

variable {next : Nonterminal → List Nonterminal}

/-- If searches one after another end with an error, one of them does. -/
theorem exists_of_foldlM_error
    {find : List Nonterminal → Nonterminal → Except Nonterminal (List Nonterminal)}
    {ns finished : List Nonterminal} {k : Nonterminal} (h : ns.foldlM find finished = .error k) :
    ∃ n ∈ ns, ∃ finished', find finished' n = .error k := by
  induction ns generalizing finished with
  | nil => cases h
  | cons n ns ih =>
    rw [List.foldlM_cons] at h
    cases hn : find finished n with
    | error e =>
      rw [hn] at h
      cases h
      exact ⟨n, List.mem_cons_self, finished, hn⟩
    | ok between =>
      rw [hn] at h
      obtain ⟨m, hm, hfind⟩ := ih h
      exact ⟨m, List.mem_cons_of_mem n hm, hfind⟩

/-- **A nonterminal that a search reports lies on a cycle**: it is met again on the path, and all that
    is on the path leads to where the search stands. -/
theorem search_error {depth : Nat} {path finished : List Nonterminal} {n k : Nonterminal}
    (hpath : ∀ m ∈ path, TransGen (fun a b => b ∈ next a) m n)
    (h : search next depth path finished n = .error k) : TransGen (fun a b => b ∈ next a) k k := by
  induction depth generalizing path finished n with
  | zero => cases h
  | succ depth ih =>
    unfold search at h
    split at h
    · rename_i hmet
      cases h
      exact hpath _ (List.contains_iff_mem.1 hmet)
    · split at h
      · cases h
      · cases hfold : (next n).foldlM (search next depth (n :: path)) finished with
        | ok between =>
          rw [hfold] at h
          cases h
        | error e =>
          rw [hfold] at h
          cases h
          obtain ⟨m, hm, finished', hsearch⟩ := exists_of_foldlM_error hfold
          exact ih (List.forall_mem_cons.2 ⟨.single hm, fun a ha => (hpath a ha).tail hm⟩) hsearch

end

namespace Grammar

open Relation

variable {g : Grammar} {n m : Nonterminal}

theorem reachesLeft_eq :
    (fun a b => b ∈ g.reaches (nullable g.rules.toList) a) = g.ReachesLeft := by
  funext a b
  exact propext mem_reaches_nullable_iff

theorem transGen_of_hiddenRecursion? (h : g.hiddenRecursion? = some n) :
    TransGen g.ReachesLeft n n := by
  unfold hiddenRecursion? at h
  dsimp only at h
  split at h
  · rename_i k hfold
    cases h
    obtain ⟨m, _, finished, hsearch⟩ := exists_of_foldlM_error hfold
    rw [← reachesLeft_eq]
    exact search_error (fun a ha => absurd ha List.not_mem_nil) hsearch
  · cases h

theorem Ranking.rank_lt_of_transGen (k : g.Ranking) (h : TransGen g.ReachesLeft n m) :
    k.rank m < k.rank n := by
  induction h with
  | single hs => exact k.rank_lt _ _ (mem_reaches_nullable_iff.2 hs)
  | tail _ hs ih => exact Nat.lt_trans (k.rank_lt _ _ (mem_reaches_nullable_iff.2 hs)) ih

/-- Some nonterminal reaches itself on the left, one way or another. -/
def HasHiddenCycle (g : Grammar) : Prop := ∃ n, TransGen g.ReachesLeft n n

/-- **The search finds something exactly if there is a cycle**: else the nonterminals are ranked. -/
theorem hiddenRecursion?_eq_none_iff : g.hiddenRecursion? = none ↔ ¬ g.HasHiddenCycle := by
  constructor
  · intro h ⟨n, hn⟩
    obtain ⟨k⟩ := exists_ranking h
    exact Nat.lt_irrefl _ (k.rank_lt_of_transGen hn)
  · intro h
    cases hfound : g.hiddenRecursion? with
    | none => rfl
    | some n => exact absurd ⟨n, transGen_of_hiddenRecursion? hfound⟩ h

/-! ## 3. Left recursion that stays -/

/-- The left recursion of a nonterminal stays: its one self-recursive rule rewrites it to itself, or
    it has two or more of them. -/
def KeepsRecursion (g : Grammar) (n : Nonterminal) : Prop :=
  g.selfRecursiveRules n = [⟨n, [.nonterminal n]⟩] ∨ 2 ≤ (g.selfRecursiveRules n).length

theorem KeepsRecursion.mem_nonterminals (h : g.KeepsRecursion n) : n ∈ g.nonterminals := by
  obtain ⟨r, hr⟩ : ∃ r, r ∈ g.selfRecursiveRules n := by
    rcases h with h | h
    · exact ⟨_, h ▸ List.mem_singleton_self _⟩
    · exact List.exists_mem_of_length_pos (by omega)
  obtain ⟨hr, hlhs, _⟩ := mem_selfRecursiveRules.1 hr
  exact mem_nonterminalsOf.2 ⟨r, hr, .inl hlhs.symm⟩

theorem recursionDefect?_eq_none_iff : g.recursionDefect? n = none ↔ ¬ g.KeepsRecursion n := by
  unfold recursionDefect? KeepsRecursion
  split
  · rename_i hnil
    simp [hnil]
  · rename_i r hone
    obtain ⟨lhs, rhs⟩ := r
    have hr : (⟨lhs, rhs⟩ : Rule) ∈ g.selfRecursiveRules n := hone ▸ List.mem_singleton_self _
    obtain ⟨_, hlhs, hself⟩ := mem_selfRecursiveRules.1 hr
    obtain rfl : lhs = n := hlhs
    obtain ⟨rest, hrest⟩ := Rule.isSelfRecursive_iff.1 hself
    obtain rfl : rhs = .nonterminal lhs :: rest := hrest
    simp [hone]
  · rename_i hnil hone
    cases hs : g.selfRecursiveRules n with
    | nil => exact absurd hs hnil
    | cons r rs =>
      cases rs with
      | nil => exact absurd hs (hone r)
      | cons s rs => simp

theorem keepsRecursion_of_defect {d : RecursionDefect} (h : g.recursionDefect? n = some d) :
    g.KeepsRecursion n := by
  refine Classical.byContradiction fun hkeeps => ?_
  rw [recursionDefect?_eq_none_iff.2 hkeeps] at h
  cases h

end Grammar

/-! ## 4. Eliminations -/

/-- An error names what was found first, hidden left recursion before any other. -/
theorem Elimination.error_cases {g : Grammar} {err : LeftRecursionError}
    (h : Elimination.ofGrammar g = .error err) :
    (err.defect = .hidden ∧ Relation.TransGen g.ReachesLeft err.nonterminal err.nonterminal) ∨
      (¬ g.HasHiddenCycle ∧ ∃ before after, g.nonterminals = before ++ err.nonterminal :: after ∧
        g.KeepsRecursion err.nonterminal ∧ ∀ n ∈ before, ¬ g.KeepsRecursion n) := by
  unfold Elimination.ofGrammar at h
  split at h
  · rename_i n hfound
    cases h
    exact .inl ⟨rfl, Grammar.transGen_of_hiddenRecursion? hfound⟩
  · rename_i hnone
    split at h
    · rename_i e hdefect
      cases h
      obtain ⟨before, n, after, hsplit, hn, hbefore⟩ := List.findSome?_eq_some_iff.1 hdefect
      obtain ⟨d, hd, rfl⟩ := Option.map_eq_some_iff.1 hn
      refine .inr ⟨Grammar.hiddenRecursion?_eq_none_iff.1 hnone, before, after, hsplit,
        Grammar.keepsRecursion_of_defect hd, fun m hm => ?_⟩
      exact Grammar.recursionDefect?_eq_none_iff.1 (Option.map_eq_none_iff.1 (hbefore m hm))
    · cases h

/-- **Left recursion can be eliminated exactly if none is hidden and none stays.** -/
theorem Elimination.exists_iff {g : Grammar} : (∃ e, Elimination.ofGrammar g = .ok e) ↔
    ¬ g.HasHiddenCycle ∧ ∀ n, ¬ g.KeepsRecursion n := by
  constructor
  · intro ⟨e, he⟩
    have h := isOf he
    exact ⟨Grammar.hiddenRecursion?_eq_none_iff.1 h.nothing_hidden, fun n hn =>
      Grammar.recursionDefect?_eq_none_iff.1 (h.no_defect n hn.mem_nonterminals) hn⟩
  · intro ⟨hcycle, hkeeps⟩
    cases hresult : Elimination.ofGrammar g with
    | ok e => exact ⟨e, rfl⟩
    | error err =>
      rcases error_cases hresult with ⟨_, hc⟩ | ⟨_, _, _, _, hk, _⟩
      · exact absurd ⟨_, hc⟩ hcycle
      · exact absurd hk (hkeeps _)

/-- **Which left recursion is refused**: a cycle on the left that is not just a rule opening with its
    own left-hand side, a nonterminal whose one self-recursive rule rewrites it to itself, and one with
    two or more self-recursive rules. If there is a cycle the error says so and names a nonterminal on
    a cycle; else it names the first nonterminal whose left recursion stays. -/
theorem Elimination.refused_iff (g : Grammar) :
    ((∃ err, Elimination.ofGrammar g = .error err) ↔
      g.HasHiddenCycle ∨ ∃ n, g.KeepsRecursion n) ∧
    ∀ err, Elimination.ofGrammar g = .error err →
      (g.HasHiddenCycle ∧ err.defect.detail = "indirect left recursion" ∧
        Relation.TransGen g.ReachesLeft err.nonterminal err.nonterminal) ∨
      (¬ g.HasHiddenCycle ∧ ∃ before after, g.nonterminals = before ++ err.nonterminal :: after ∧
        g.KeepsRecursion err.nonterminal ∧ ∀ n ∈ before, ¬ g.KeepsRecursion n) := by
  refine ⟨⟨fun ⟨err, h⟩ => ?_, fun h => ?_⟩, fun err h => ?_⟩
  · rcases error_cases h with ⟨_, hcycle⟩ | ⟨_, _, _, _, hkeeps, _⟩
    · exact .inl ⟨_, hcycle⟩
    · exact .inr ⟨_, hkeeps⟩
  · cases hresult : Elimination.ofGrammar g with
    | error err => exact ⟨err, rfl⟩
    | ok e =>
      obtain ⟨hcycle, hkeeps⟩ := Elimination.exists_iff.1 ⟨e, hresult⟩
      rcases h with hc | ⟨n, hk⟩
      · exact absurd hc hcycle
      · exact absurd hk (hkeeps n)
  · rcases error_cases h with ⟨hhidden, hcycle⟩ | hkept
    · exact .inl ⟨⟨_, hcycle⟩, hhidden ▸ rfl, hcycle⟩
    · exact .inr hkept

/-- `A -> A x | A y | y`, where `A` has two self-recursive rules, and apart from it `B -> C B x` and
    `C -> `, where `B` meets itself again behind a nonterminal that vanishes. -/
def lateCycle : Grammar where
  rules := #[⟨0, [.nonterminal 1]⟩,
    ⟨1, [.nonterminal 1, .terminal 0]⟩,
    ⟨1, [.nonterminal 1, .terminal 1]⟩,
    ⟨1, [.terminal 1]⟩,
    ⟨2, [.nonterminal 3, .nonterminal 2, .terminal 0]⟩,
    ⟨3, []⟩]
  augmentedStart := 0
  start := 1
  rule_zero := rfl
  no_defect := by decide

/-- The cycle through `B` is found, although nothing leads from the start symbol to it, and is named
    in place of `A`. -/
theorem lateCycle_refused :
    ∃ err, Elimination.ofGrammar lateCycle = .error err ∧ lateCycle.KeepsRecursion 1 ∧
      err.defect.detail = "indirect left recursion" ∧
      Relation.TransGen lateCycle.ReachesLeft err.nonterminal err.nonterminal := by
  have hcycle : lateCycle.HasHiddenCycle := by
    refine ⟨2, .single ⟨[.nonterminal 3], ⟨⟨[.terminal 0], by decide⟩, fun x hx => ?_⟩, by simp⟩⟩
    rw [List.mem_singleton.1 hx]
    exact .of_mem (r := ⟨3, []⟩) (by decide)
  have hkeeps : lateCycle.KeepsRecursion 1 := .inr (by decide +kernel)
  obtain ⟨hiff, hnamed⟩ := Elimination.refused_iff lateCycle
  obtain ⟨err, herr⟩ := hiff.2 (.inl hcycle)
  obtain ⟨_, hdetail, hon⟩ := (hnamed err herr).resolve_right fun h => h.1 hcycle
  exact ⟨err, herr, hkeeps, hdetail, hon⟩

end ShiftReduce
