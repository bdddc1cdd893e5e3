import ShiftReduce.Proofs.LeftRank
/-!
# The search without a bound on its depth

`search` stops at a depth that it is given, although nothing in a depth-first search for cycles asks
for one. `Searches` says how the search answers without it: its derivations are the calls that the
search makes, so an answer has a derivation exactly if the calls come to an end. They always do. A path
on which nothing is met twice is no longer than there are nodes, so the depth given to `search` is never
used up (`searches_foldlM_search`), and there is one answer only (`Searches.unique`).
-/

namespace ShiftReduce

/-- How searching from the nonterminals of a list, one after another, answers: with the nonterminal that
    is met again on the path, as an error, or with all that is finished then. The nonterminals on the
    path and those finished are not searched from again. -/
inductive Searches (next : Nonterminal → List Nonterminal) :
    List Nonterminal → List Nonterminal → List Nonterminal →
      Except Nonterminal (List Nonterminal) → Prop where
  | nil {path finished : List Nonterminal} : Searches next path finished [] (.ok finished)
  | met {path finished ns : List Nonterminal} {n : Nonterminal} (h : n ∈ path) :
      Searches next path finished (n :: ns) (.error n)
  | passed {path finished ns : List Nonterminal} {n : Nonterminal}
      {answer : Except Nonterminal (List Nonterminal)} (hpath : n ∉ path) (hn : n ∈ finished)
      (h : Searches next path finished ns answer) : Searches next path finished (n :: ns) answer
  | refused {path finished ns : List Nonterminal} {n k : Nonterminal} (hpath : n ∉ path)
      (hn : n ∉ finished) (h : Searches next (n :: path) finished (next n) (.error k)) :
      Searches next path finished (n :: ns) (.error k)
  | entered {path finished between ns : List Nonterminal} {n : Nonterminal}
      {answer : Except Nonterminal (List Nonterminal)} (hpath : n ∉ path) (hn : n ∉ finished)
      (h : Searches next (n :: path) finished (next n) (.ok between))
      (hrest : Searches next path (n :: between) ns answer) :
      Searches next path finished (n :: ns) answer

section

variable {next : Nonterminal → List Nonterminal} {nodes path finished ns : List Nonterminal}

/-- **A search has one answer only.** -/
theorem Searches.unique {answer answer' : Except Nonterminal (List Nonterminal)}
    (h : Searches next path finished ns answer) (h' : Searches next path finished ns answer') :
    answer = answer' := by
  induction h generalizing answer' with
  | nil =>
    cases h'
    rfl
  | met hmet =>
    cases h' with
    | met _ => rfl
    | passed hpath _ _ => exact absurd hmet hpath
    | refused hpath _ _ => exact absurd hmet hpath
    | entered hpath _ _ _ => exact absurd hmet hpath
  | passed hpath hn _ ih =>
    cases h' with
    | met hmet => exact absurd hmet hpath
    | passed _ _ h' => exact ih h'
    | refused _ hn' _ => exact absurd hn hn'
    | entered _ hn' _ _ => exact absurd hn hn'
  | refused hpath hn _ ih =>
    cases h' with
    | met hmet => exact absurd hmet hpath
    | passed _ hn' _ => exact absurd hn' hn
    | refused _ _ h' => exact ih h'
    | entered _ _ h' _ => cases ih h'
  | entered hpath hn _ _ ih ihrest =>
    cases h' with
    | met hmet => exact absurd hmet hpath
    | passed _ hn' _ => exact absurd hn' hn
    | refused _ _ h' => cases ih h'
    | entered _ _ h' hrest' =>
      cases ih h'
      exact ihrest hrest'

/-- **The depth is never used up.** The path and the depth left add up to one more than there are nodes,
    and no node is twice on the path, so the search answers as it would without a bound. -/
theorem searches_foldlM_search (hnext : ∀ n ∈ nodes, ∀ m ∈ next n, m ∈ nodes) {depth : Nat}
    (hpath : path.Nodup) (hsub : ∀ n ∈ path, n ∈ nodes)
    (hdepth : depth + path.length = nodes.length + 1) (hns : ∀ n ∈ ns, n ∈ nodes) :
    Searches next path finished ns (ns.foldlM (search next depth path) finished) := by
  induction depth generalizing path finished ns with
  | zero =>
    have hle : path.length ≤ nodes.length := hpath.length_le_of_subset hsub
    omega
  | succ depth ih =>
    induction ns generalizing finished with
    | nil => exact .nil
    | cons n ns ihns =>
      obtain ⟨hn, hns⟩ := List.forall_mem_cons.1 hns
      rw [List.foldlM_cons, search]
      by_cases hmet : n ∈ path
      · rw [if_pos (List.contains_iff_mem.2 hmet)]
        exact .met hmet
      · rw [if_neg (mt List.contains_iff_mem.1 hmet)]
        by_cases hdone : n ∈ finished
        · rw [if_pos (List.contains_iff_mem.2 hdone)]
          exact .passed hmet hdone (ihns hns)
        · rw [if_neg (mt List.contains_iff_mem.1 hdone)]
          have hdeeper : Searches next (n :: path) finished (next n)
              ((next n).foldlM (search next depth (n :: path)) finished) := by
            refine ih (List.nodup_cons.2 ⟨hmet, hpath⟩) (List.forall_mem_cons.2 ⟨hn, hsub⟩) ?_
              (hnext n hn)
            rw [List.length_cons]
            omega
          cases hfold : (next n).foldlM (search next depth (n :: path)) finished with
          | error k => exact .refused hmet hdone (hfold ▸ hdeeper)
          | ok between => exact .entered hmet hdone (hfold ▸ hdeeper) (ihns hns)

end

/-- **The search for hidden left recursion ends**, and `hiddenRecursion?` tells its answer. -/
theorem Grammar.exists_searches (g : Grammar) : ∃ answer,
    (∀ a, Searches (g.reaches (nullable g.rules.toList)) [] [] g.nonterminals a ↔ a = answer) ∧
      ∀ n, answer = .error n ↔ g.hiddenRecursion? = some n := by
  have hsearch : Searches (g.reaches (nullable g.rules.toList)) [] [] g.nonterminals
      (g.nonterminals.foldlM
        (search (g.reaches (nullable g.rules.toList)) (g.nonterminals.length + 1) []) []) :=
    searches_foldlM_search (fun _ _ _ hm => mem_nonterminals_of_reaches hm) .nil
      (fun _ hn => absurd hn List.not_mem_nil) rfl (fun _ hn => hn)
  refine ⟨_, fun a => ⟨fun h => h.unique hsearch, fun h => h ▸ hsearch⟩, fun n => ?_⟩
  unfold hiddenRecursion?
  dsimp only
  split
  · rename_i k hk
    rw [hk, Except.error.injEq, Option.some.injEq]
  · rename_i finished hok
    rw [hok]
    exact ⟨fun h => (nomatch h), fun h => (nomatch h)⟩

end ShiftReduce
