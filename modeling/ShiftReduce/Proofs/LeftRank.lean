import ShiftReduce.LeftRecursion.Cycle
import ShiftReduce.Proofs.Yields
/-!
# Ranks without hidden left recursion

If a grammar has no hidden left recursion, the order in which the depth-first search finished the
nonterminals ranks them: what a nonterminal reaches on the left has a smaller rank
(`Grammar.exists_ranking`). Two kinds of rule are steps downwards: a rule that opens with another
nonterminal, and one that has a nonterminal behind symbols that all vanish
(`Ranking.rank_lt_of_rhs`).

* `contains_nullable` -- `nullable` has every nonterminal that can vanish;
* `search_ok` -- a search that answers leaves its nonterminals finished, successors first.
-/

namespace ShiftReduce

/-! ## 1. Nothing that vanishes is missed -/

section

variable {rules : List Rule}

theorem contains_nullableFrom {pending : List Rule} {found : Std.TreeSet Nonterminal}
    {n : Nonterminal} (h : found.contains n = true) :
    (nullableFrom pending found).contains n = true := by
  fun_induction nullableFrom pending found with
  | case1 pending found he => exact h
  | case2 pending found he ih =>
    refine ih ?_
    rw [Std.TreeSet.contains_insertMany_list, h]
    rfl

/-- A left-hand side is found as soon as its right-hand side vanishes. -/
theorem contains_nullableFrom_of_erased {pending : List Rule} {found : Std.TreeSet Nonterminal}
    {r : Rule} (hr : r ∈ pending) (h : r.isErasedBy (nullableFrom pending found) = true) :
    (nullableFrom pending found).contains r.lhs = true := by
  fun_induction nullableFrom pending found with
  | case1 pending found he =>
    have hmem : r ∈ erasedRules found pending := List.mem_filter.2 ⟨hr, h⟩
    rw [he] at hmem
    cases hmem
  | case2 pending found he ih =>
    cases hf : r.isErasedBy found with
    | true =>
      refine contains_nullableFrom ?_
      have hmem : r.lhs ∈ (erasedRules found pending).map Rule.lhs :=
        List.mem_map_of_mem (List.mem_filter.2 ⟨hr, hf⟩)
      rw [Std.TreeSet.contains_insertMany_list, List.contains_iff_mem.2 hmem, Bool.or_true]
    | false => exact ih (List.mem_filter.2 ⟨hr, by rw [hf]; rfl⟩) h

/-- **A set closed under the rules has everything that can vanish**: it has the left-hand side of every
    rule of which the right-hand side vanishes by it. -/
theorem isErasedBy_of_rewrites {found : Std.TreeSet Nonterminal}
    (hclosed : ∀ r ∈ rules, r.isErasedBy found = true → found.contains r.lhs = true)
    {α : List Symbol} (h : Rewrites rules α []) : ∀ x ∈ α, x.isErasedBy found = true := by
  have hy := rewrites_iff_yields.1 h
  clear h
  generalize hw : ([] : List Symbol) = w at hy
  induction hy with
  | nil => exact fun x hx => absurd hx List.not_mem_nil
  | keep x _ _ => cases hw
  | @unfold r xs u v hr hu hv ihu ihv =>
    obtain ⟨rfl, rfl⟩ := List.append_eq_nil_iff.1 hw.symm
    have hrhs : r.isErasedBy found = true := List.all_eq_true.2 (ihu rfl)
    exact List.forall_mem_cons.2 ⟨hclosed r hr hrhs, ihv rfl⟩

/-- **Everything that can vanish is found.** -/
theorem isErasedBy_nullable {α : List Symbol} (h : Rewrites rules α []) :
    ∀ x ∈ α, x.isErasedBy (nullable rules) = true :=
  isErasedBy_of_rewrites (fun _ hr hrhs => contains_nullableFrom_of_erased hr hrhs) h

end

/-! ## 2. What reaches what -/

/-- Behind symbols that vanish the next nonterminal is reached. -/
theorem mem_leftNonterminals {vanishing : Std.TreeSet Nonterminal} {η τ : List Symbol}
    {n : Nonterminal} (h : ∀ x ∈ η, x.isErasedBy vanishing = true) :
    n ∈ leftNonterminals vanishing (η ++ .nonterminal n :: τ) := by
  induction η with
  | nil => exact List.mem_cons_self
  | cons x η ih =>
    obtain ⟨hx, hη⟩ := List.forall_mem_cons.1 h
    obtain ⟨m, rfl, hm⟩ := Symbol.isErasedBy_iff.1 hx
    rw [List.cons_append, leftNonterminals, if_pos hm]
    exact List.mem_cons_of_mem _ (ih hη)

/-- What is reached on the left stands behind symbols that vanish. -/
theorem exists_of_mem_leftNonterminals {vanishing : Std.TreeSet Nonterminal} {xs : List Symbol}
    {n : Nonterminal} (h : n ∈ leftNonterminals vanishing xs) :
    ∃ η τ, xs = η ++ .nonterminal n :: τ ∧ ∀ x ∈ η, x.isErasedBy vanishing = true := by
  fun_induction leftNonterminals vanishing xs with
  | case1 m xs ih =>
    rcases List.mem_cons.1 h with rfl | h
    · exact ⟨[], xs, rfl, fun x hx => absurd hx List.not_mem_nil⟩
    · split at h
      · rename_i hm
        obtain ⟨η, τ, hxs, hη⟩ := ih h
        exact ⟨.nonterminal m :: η, τ, congrArg _ hxs, List.forall_mem_cons.2 ⟨hm, hη⟩⟩
      · cases h
  | case2 xs hne => cases h

/-- **What a rule reaches** stands on its right behind symbols that vanish, and is not its left-hand
    side in front. -/
theorem Rule.mem_reaches_iff {vanishing : Std.TreeSet Nonterminal} {r : Rule} {n : Nonterminal} :
    n ∈ r.reaches vanishing ↔
      ∃ η τ, r.rhs = η ++ .nonterminal n :: τ ∧ (∀ x ∈ η, x.isErasedBy vanishing = true) ∧
        ¬ (η = [] ∧ n = r.lhs) := by
  unfold Rule.reaches
  split
  · rename_i hself
    obtain ⟨rest, hrest⟩ := Rule.isSelfRecursive_iff.1 hself
    rw [hrest, leftNonterminals, List.tail_cons]
    constructor
    · intro h
      split at h
      · rename_i hv
        obtain ⟨η, τ, hη, hvanish⟩ := exists_of_mem_leftNonterminals h
        exact ⟨.nonterminal r.lhs :: η, τ, congrArg _ hη, List.forall_mem_cons.2 ⟨hv, hvanish⟩,
          fun hfront => absurd hfront.1 (List.cons_ne_nil _ _)⟩
      · cases h
    · intro ⟨η, τ, hη, hvanish, hfront⟩
      cases η with
      | nil =>
        cases hη
        exact absurd ⟨rfl, rfl⟩ hfront
      | cons x η =>
        obtain ⟨rfl, rfl⟩ := List.cons.inj hη
        obtain ⟨hv, hvanish⟩ := List.forall_mem_cons.1 hvanish
        have hv : vanishing.contains r.lhs = true := hv
        rw [if_pos hv]
        exact mem_leftNonterminals hvanish
  · rename_i hself
    constructor
    · intro h
      obtain ⟨η, τ, hη, hvanish⟩ := exists_of_mem_leftNonterminals h
      refine ⟨η, τ, hη, hvanish, fun ⟨hnil, hn⟩ => hself (Rule.isSelfRecursive_iff.2 ⟨τ, ?_⟩)⟩
      rw [hη, hnil, hn]
      rfl
    · intro ⟨η, τ, hη, hvanish, _⟩
      rw [hη]
      exact mem_leftNonterminals hvanish

namespace Grammar

variable {g : Grammar} {vanishing : Std.TreeSet Nonterminal} {n m : Nonterminal}

/-- What a nonterminal reaches, one of its rules reaches. -/
theorem mem_reaches : m ∈ g.reaches vanishing n ↔
    ∃ r ∈ g.rules.toList, r.lhs = n ∧ m ∈ r.reaches vanishing := by
  rw [reaches, List.mem_flatMap]
  simp only [rulesOf_eq, List.mem_filter, beq_iff_eq, and_assoc]

theorem mem_nonterminals_of_reaches (h : m ∈ g.reaches vanishing n) : m ∈ g.nonterminals := by
  obtain ⟨r, hr, _, hm⟩ := mem_reaches.1 h
  obtain ⟨η, τ, hrhs, _⟩ := Rule.mem_reaches_iff.1 hm
  refine mem_nonterminalsOf.2 ⟨r, hr, .inr ?_⟩
  rw [hrhs]
  exact List.mem_append_right η List.mem_cons_self

end Grammar

/-! ## 3. The search -/

/-- Every nonterminal of the list has all that it reaches behind it. -/
def Finished (next : Nonterminal → List Nonterminal) : List Nonterminal → Prop
  | [] => True
  | n :: finished => (∀ m ∈ next n, m ∈ finished) ∧ Finished next finished

/-- What is reached from a finished list is in it. -/
theorem Finished.mem {next : Nonterminal → List Nonterminal} {finished : List Nonterminal}
    (h : Finished next finished) {n m : Nonterminal} (hn : n ∈ finished) (hm : m ∈ next n) :
    m ∈ finished := by
  induction finished with
  | nil => cases hn
  | cons k finished ih =>
    rcases List.mem_cons.1 hn with rfl | hn
    · exact List.mem_cons_of_mem _ (h.1 m hm)
    · exact List.mem_cons_of_mem _ (ih h.2 hn)

section

variable {next : Nonterminal → List Nonterminal} {nodes : List Nonterminal}

/-- What a search leaves behind: a finished list with the one it began with and the nonterminals it
    was to finish. -/
def Extends (next : Nonterminal → List Nonterminal) (finished : List Nonterminal)
    (ns : List Nonterminal) (finished' : List Nonterminal) : Prop :=
  Finished next finished' ∧ (∀ n ∈ finished, n ∈ finished') ∧ ∀ n ∈ ns, n ∈ finished'

/-- Searches one after another leave all their nonterminals finished. -/
theorem foldlM_ok {find : List Nonterminal → Nonterminal → Except Nonterminal (List Nonterminal)}
    {ns : List Nonterminal}
    (hfind : ∀ n ∈ ns, ∀ finished finished', Finished next finished →
      find finished n = .ok finished' → Extends next finished [n] finished')
    {finished finished' : List Nonterminal} (hf : Finished next finished)
    (h : ns.foldlM find finished = .ok finished') : Extends next finished ns finished' := by
  induction ns generalizing finished with
  | nil =>
    cases h
    exact ⟨hf, fun n hn => hn, fun n hn => absurd hn List.not_mem_nil⟩
  | cons n ns ih =>
    rw [List.foldlM_cons] at h
    cases hn : find finished n with
    | error e =>
      rw [hn] at h
      cases h
    | ok between =>
      rw [hn] at h
      obtain ⟨hb, hsub, hmem⟩ := hfind n List.mem_cons_self finished between hf hn
      obtain ⟨hf', hsub', hmem'⟩ :=
        ih (fun m hm => hfind m (List.mem_cons_of_mem n hm)) hb h
      refine ⟨hf', fun m hm => hsub' m (hsub m hm), List.forall_mem_cons.2 ⟨?_, hmem'⟩⟩
      exact hsub' n (hmem n List.mem_cons_self)

/-- **A search that answers leaves its nonterminal finished.** The path and the depth left add up
    to one more than there are nodes, so the depth is never used up. -/
theorem search_ok (hnext : ∀ n ∈ nodes, ∀ m ∈ next n, m ∈ nodes) {depth : Nat}
    {path finished finished' : List Nonterminal} {n : Nonterminal} (hpath : path.Nodup)
    (hsub : ∀ m ∈ path, m ∈ nodes) (hdepth : depth + path.length = nodes.length + 1)
    (hn : n ∈ nodes) (hf : Finished next finished)
    (h : search next depth path finished n = .ok finished') :
    Extends next finished [n] finished' := by
  induction depth generalizing path finished finished' n with
  | zero =>
    have hle : path.length ≤ nodes.length := hpath.length_le_of_subset hsub
    omega
  | succ depth ih =>
    unfold search at h
    split at h
    · cases h
    · rename_i hnew
      split at h
      · rename_i hdone
        cases h
        refine ⟨hf, fun m hm => hm, fun m hm => ?_⟩
        rw [List.mem_singleton.1 hm]
        exact List.contains_iff_mem.1 hdone
      · cases hfold : (next n).foldlM (search next depth (n :: path)) finished with
        | error e =>
          rw [hfold] at h
          cases h
        | ok between =>
          rw [hfold] at h
          cases h
          have hpath' : (n :: path).Nodup :=
            List.nodup_cons.2 ⟨fun hm => hnew (List.contains_iff_mem.2 hm), hpath⟩
          have hsub' : ∀ m ∈ n :: path, m ∈ nodes := List.forall_mem_cons.2 ⟨hn, hsub⟩
          have hdepth' : depth + (n :: path).length = nodes.length + 1 := by
            rw [List.length_cons]
            omega
          obtain ⟨hb, hsubb, hmem⟩ := foldlM_ok (fun m hm finished finished' hf hs =>
            ih hpath' hsub' hdepth' (hnext n hn m hm) hf hs) hf hfold
          refine ⟨⟨hmem, hb⟩, fun m hm => List.mem_cons_of_mem n (hsubb m hm), fun m hm => ?_⟩
          rw [List.mem_singleton.1 hm]
          exact List.mem_cons_self

end

/-! ## 4. Ranks -/

/-- How many nonterminals were finished before this one, counting from 1; 0 for one that was
    not. -/
def rankIn (n : Nonterminal) : List Nonterminal → Nat
  | [] => 0
  | k :: finished =>
    if n ∈ finished then rankIn n finished
    else if n = k then finished.length + 1 else 0

theorem rankIn_le (n : Nonterminal) (finished : List Nonterminal) :
    rankIn n finished ≤ finished.length := by
  induction finished with
  | nil => exact Nat.le_refl 0
  | cons k finished ih =>
    unfold rankIn
    split
    · exact Nat.le_succ_of_le ih
    · split
      · exact Nat.le_refl _
      · exact Nat.zero_le _

/-- **In a finished list what is reached has a smaller rank.** -/
theorem Finished.rankIn_lt {next : Nonterminal → List Nonterminal} {finished : List Nonterminal}
    (h : Finished next finished) {n m : Nonterminal} (hn : n ∈ finished) (hm : m ∈ next n) :
    rankIn m finished < rankIn n finished := by
  induction finished with
  | nil => cases hn
  | cons k finished ih =>
    by_cases hin : n ∈ finished
    · have hmin := Finished.mem h.2 hin hm
      rw [rankIn, if_pos hmin, rankIn, if_pos hin]
      exact ih h.2 hin
    · obtain rfl : n = k := (List.mem_cons.1 hn).resolve_right hin
      have hmin := h.1 m hm
      rw [rankIn, if_pos hmin, rankIn, if_neg hin, if_pos rfl]
      exact Nat.lt_succ_of_le (rankIn_le m finished)

/-- Ranks that go down from every nonterminal to what it reaches on the left. -/
structure Grammar.Ranking (g : Grammar) where
  rank : Nonterminal → Nat
  top : Nat
  rank_le : ∀ n, rank n ≤ top
  rank_lt : ∀ n m, m ∈ g.reaches (nullable g.rules.toList) n → rank m < rank n

/-- **Without hidden left recursion the nonterminals are ranked.** -/
theorem Grammar.exists_ranking {g : Grammar} (h : g.hiddenRecursion? = none) :
    Nonempty g.Ranking := by
  unfold hiddenRecursion? at h
  dsimp only at h
  split at h
  · cases h
  · rename_i finished hfold
    have hnext : ∀ n ∈ g.nonterminals, ∀ m ∈ g.reaches (nullable g.rules.toList) n,
        m ∈ g.nonterminals := fun n _ m hm => mem_nonterminals_of_reaches hm
    have hnil : Finished (g.reaches (nullable g.rules.toList)) [] := trivial
    have hsearch : ∀ n ∈ g.nonterminals, ∀ finished finished',
        Finished (g.reaches (nullable g.rules.toList)) finished →
        search (g.reaches (nullable g.rules.toList)) (g.nonterminals.length + 1) [] finished n =
          .ok finished' →
        Extends (g.reaches (nullable g.rules.toList)) finished [n] finished' :=
      fun n hn finished finished' hf hs => search_ok hnext .nil
        (fun m hm => absurd hm List.not_mem_nil) rfl hn hf hs
    obtain ⟨hf, _, hmem⟩ := foldlM_ok hsearch hnil hfold
    refine ⟨⟨fun n => rankIn n finished, finished.length, fun n => rankIn_le n finished,
      fun n m hm => hf.rankIn_lt (hmem n ?_) hm⟩⟩
    obtain ⟨r, hr, hlhs, _⟩ := mem_reaches.1 hm
    exact mem_nonterminalsOf.2 ⟨r, hr, .inl hlhs.symm⟩

/-- **Behind symbols that vanish the rank goes down**, and so it does in front, the left-hand side
    itself apart. -/
theorem Grammar.Ranking.rank_lt_of_rhs {g : Grammar} (k : g.Ranking) {r : Rule}
    (hr : r ∈ g.rules.toList) {η τ : List Symbol} {n : Nonterminal}
    (hn : r.rhs = η ++ .nonterminal n :: τ)
    (hv : ∀ x ∈ η, x.isErasedBy (nullable g.rules.toList) = true)
    (hfront : ¬ (η = [] ∧ n = r.lhs)) : k.rank n < k.rank r.lhs :=
  k.rank_lt _ _ (mem_reaches.2 ⟨r, hr, rfl, Rule.mem_reaches_iff.2 ⟨η, τ, hn, hv, hfront⟩⟩)

end ShiftReduce
