import ShiftReduce.Proofs.FollowSets
import ShiftReduce.Proofs.Runs
import ShiftReduce.Proofs.Proposals
/-!
# What the cells hold and what is reported about them

What the items of a state propose for a lookahead, in item order (`Tables.proposalsAt`), decides both
the cell and the findings about it (`TableBuild.cells_exact`): the cell holds the action of the first
proposal, and each later proposal of another action is reported once, in order, against the first.
All findings together are the nonterminals without rules and then the conflicts by state, by item of
the state and by slot of the lookahead (`Tables.competitions`).
-/

namespace ShiftReduce

/-! ## 1. States with their numbers -/

/-- Every state with its number, in order. -/
def Automaton.numbered (a : Automaton) : List (ItemSet × Nat) := a.states.toList.zipIdx

theorem Automaton.mem_numbered {a : Automaton} {items : ItemSet} {s : Nat} :
    (items, s) ∈ a.numbered ↔ a.items? s = some items := by
  rw [numbered, List.mem_zipIdx_iff_getElem?, Numbering.getElem?_toList]
  exact Iff.rfl

/-- No number is given twice. -/
theorem Automaton.pairwise_numbered (a : Automaton) :
    a.numbered.Pairwise fun p q => p.2 ≠ q.2 := by
  refine List.pairwise_map.1 ?_
  rw [numbered, List.zipIdx_map_snd]
  exact List.nodup_range'

/-- What is made of the numbered things of a numbered list keeps their numbers. -/
theorem zipIdx_map_zipIdx {α β : Type} (f : α × Nat → β) (l : List α) :
    (l.zipIdx.map f).zipIdx = l.zipIdx.map fun p => (f p, p.2) := by
  refine List.ext_getElem? fun k => ?_
  rw [List.getElem?_zipIdx, List.getElem?_map, List.getElem?_map, List.getElem?_zipIdx]
  cases l[k]? with
  | none => rfl
  | some a => rfl

/-! ## 2. Proposals of a state -/

namespace Tables

/-- What the items of a state propose for a lookahead, in item order. -/
def proposalsAt (g : Grammar) (t : Tables) (state : Nat) (x : Symbol) : List Proposal :=
  ((t.automaton.items? state).elim [] ItemSet.toList).filterMap (Item.proposal? g t state x)

/-- Every proposal of another action than the first for its lookahead, as a conflict with that one:
    by state, by item of the state, by slot of the lookahead. -/
def competitions (g : Grammar) (t : Tables) : List Conflict :=
  t.automaton.numbered.flatMap fun p => p.1.toList.flatMap fun i =>
    t.slots.symbols.filterMap fun x => (i.proposal? g t p.2 x).bind fun q =>
      q.conflictWithFirst? p.2 x (t.proposalsAt g p.2 x)

/-- What the items of a state propose for all lookaheads, item by item. -/
def rowProposals (g : Grammar) (t : Tables) (state : Nat) (items : ItemSet) :
    List (Symbol × Proposal) :=
  items.toList.flatMap (Item.proposals g t.automaton t.follow state)

variable {g : Grammar} {t : Tables} {s : Nat} {items : ItemSet}

/-- The proposals of a state for one lookahead are those in its row. -/
theorem proposalsFor_rowProposals (hs : t.automaton.items? s = some items)
    (hplaced : ∀ i ∈ items, i.IsPlaced g t) (x : Symbol) :
    proposalsFor x (t.rowProposals g s items) = t.proposalsAt g s x := by
  rw [proposalsAt, hs, proposalsFor, rowProposals, List.filterMap_flatMap, Option.elim_some,
    List.filterMap_eq_flatMap_toList]
  exact List.flatMap_congr fun i hi => (hplaced i hi).proposalsFor_eq s x

/-- The conflicts of a row by item and by slot of the lookahead. -/
theorem conflicts_rowProposals (hs : t.automaton.items? s = some items)
    (hplaced : ∀ i ∈ items, i.IsPlaced g t) :
    Row.conflicts (.ofList (t.rowProposals g s items)) s =
      (items.toList.flatMap fun i => t.slots.symbols.filterMap fun x =>
        (i.proposal? g t s x).bind fun q =>
          q.conflictWithFirst? s x (t.proposalsAt g s x)).eraseDups := by
  rw [Row.conflicts]
  show ((t.rowProposals g s items).filterMap fun p =>
    Row.conflict? (.ofList (t.rowProposals g s items)) s p.1 p.2).eraseDups = _
  conv =>
    lhs; rw [rowProposals, List.filterMap_flatMap]
  refine congrArg List.eraseDups (List.flatMap_congr fun i hi => ?_)
  rw [(hplaced i hi).proposals_eq, List.filterMap_filterMap]
  refine List.filterMap_congr fun x _ => ?_
  rw [Option.bind_map]
  refine congrArg _ (funext fun q => ?_)
  show Row.conflict? (.ofList (t.rowProposals g s items)) s x q = _
  rw [Row.conflict?_ofList, proposalsFor_rowProposals hs hplaced]

end Tables

/-! ## 3. Findings -/

namespace TableBuild

variable {g : Grammar} {b : TableBuild}

/-- Every item of a state has its dot inside a rule of the grammar and a slot for what it shifts. -/
theorem isPlaced_of_items? (hb : ofGrammar g = .ok b) {s : Nat} {items : ItemSet}
    (hs : b.tables.automaton.items? s = some items) : ∀ i ∈ items, i.IsPlaced g b.tables := by
  obtain ⟨e, he, rfl⟩ := exists_elimination hb
  intro i hi
  obtain ⟨r, hr, hle⟩ := (Automaton.ofGrammar_grown g).own s items hs i hi
  refine ⟨Item.isComplete_iff_next? hr hle, fun id hx => ?_⟩
  obtain ⟨r', hr', hget⟩ := Item.next?_eq_some_iff.1 hx
  have hid : id ∈ g.terminals :=
    mem_terminalsOf.2 ⟨r', g.mem_rules hr', List.mem_of_getElem? hget⟩
  show ∃ k, e.slots.slot? (.terminal id) = some k
  rw [(Elimination.isOf he).slots_eq]
  exact Slots.exists_slot?_iff.2 (.inr (.inr ⟨id, Numbering.mem_ofList.2 hid, rfl⟩))

/-- The findings are the nonterminals without rules, then the conflicts row by row. -/
theorem diagnostics_eq (hb : ofGrammar g = .ok b) :
    b.diagnostics = g.undefinedNonterminals.map (fun p => .undefined p.1 p.2) ++
      (b.tables.automaton.numbered.flatMap fun p =>
        Row.conflicts (.ofList (b.tables.rowProposals g p.2 p.1)) p.2).map .conflict := by
  obtain ⟨e, _, rfl⟩ := exists_elimination hb
  show findings g (rows g (Automaton.ofGrammar g) _) = _
  rw [findings, rows, zipIdx_map_zipIdx, List.flatMap_map, List.map_flatMap]
  rfl

theorem filterMap_conflict?_diagnostics (undefineds : List (Nonterminal × Nat))
    (conflicts : List Conflict) :
    (undefineds.map (fun p => Diagnostic.undefined p.1 p.2) ++
      conflicts.map Diagnostic.conflict).filterMap Diagnostic.conflict? = conflicts := by
  rw [List.filterMap_append, List.filterMap_map, List.filterMap_map]
  have hnone : undefineds.filterMap (Diagnostic.conflict? ∘ fun p => .undefined p.1 p.2) = [] :=
    List.filterMap_eq_nil_iff.2 fun p _ => rfl
  rw [hnone, List.nil_append]
  exact List.filterMap_some

/-- The conflicts found for one cell are those of the row of the state on the lookahead. -/
theorem conflicts_filter_cell (hb : ofGrammar g = .ok b) (s : Nat) (x : Symbol) :
    (b.diagnostics.filterMap Diagnostic.conflict?).filter
        (fun c => c.state = s ∧ c.lookahead = x) =
      conflictsAmong s x (b.tables.proposalsAt g s x) := by
  rw [diagnostics_eq hb, filterMap_conflict?_diagnostics, List.filter_flatMap]
  have hother : ∀ p ∈ b.tables.automaton.numbered, p.2 ≠ s →
      (Row.conflicts (.ofList (b.tables.rowProposals g p.2 p.1)) p.2).filter
        (fun c => c.state = s ∧ c.lookahead = x) = [] := by
    intro p _ hp
    refine List.filter_eq_nil_iff.2 fun c hc => ?_
    rw [decide_eq_true_eq]
    exact fun h => hp ((Row.state_of_mem_conflicts hc).symm.trans h.1)
  cases hs : b.tables.automaton.items? s with
  | none =>
    rw [Tables.proposalsAt, hs]
    refine List.flatMap_eq_nil_iff.2 fun p hp => hother p hp fun e => ?_
    rw [← e, Automaton.mem_numbered.1 hp] at hs
    cases hs
  | some items =>
    have hnodup : b.tables.automaton.numbered.Nodup :=
      b.tables.automaton.pairwise_numbered.imp fun h e => h (congrArg Prod.snd e)
    rw [flatMap_eq_of_unique hnodup (Automaton.mem_numbered.2 hs) fun p hp hne =>
      hother p hp fun e => hne ?_]
    · rw [← Tables.proposalsFor_rowProposals hs (isPlaced_of_items? hb hs),
        ← Row.conflicts_filter]
      refine List.filter_congr fun c hc => ?_
      simp [Row.state_of_mem_conflicts hc]
    · have hp' : b.tables.automaton.items? s = some p.1 := e ▸ Automaton.mem_numbered.1 hp
      exact Prod.ext (Option.some.inj (hp'.symm.trans hs)) e

/-- All conflicts in order are the competing proposals by state, item and slot, each once. -/
theorem conflicts_eq (hb : ofGrammar g = .ok b) :
    (b.tables.automaton.numbered.flatMap fun p =>
        Row.conflicts (.ofList (b.tables.rowProposals g p.2 p.1)) p.2) =
      (b.tables.competitions g).eraseDups := by
  have hrow : ∀ p ∈ b.tables.automaton.numbered,
      Row.conflicts (.ofList (b.tables.rowProposals g p.2 p.1)) p.2 =
        (p.1.toList.flatMap fun i => b.tables.slots.symbols.filterMap fun x =>
          (i.proposal? g b.tables p.2 x).bind fun q =>
            q.conflictWithFirst? p.2 x (b.tables.proposalsAt g p.2 x)).eraseDups := by
    intro p hp
    have hs := Automaton.mem_numbered.1 hp
    exact Tables.conflicts_rowProposals hs (isPlaced_of_items? hb hs)
  rw [Tables.competitions, List.flatMap_congr hrow, eraseDups_flatMap]
  -- conflicts found in different states name different states
  refine b.tables.automaton.pairwise_numbered.imp_of_mem fun {p q} hp hq hne c hcq hcp => ?_
  have hcp' := Row.state_of_mem_conflicts ((hrow p hp).symm ▸ List.mem_eraseDups.2 hcp)
  have hcq' := Row.state_of_mem_conflicts ((hrow q hq).symm ▸ List.mem_eraseDups.2 hcq)
  exact hne (hcp'.symm.trans hcq')

/-- A cell holds the action of the first proposal. -/
theorem action?_eq_head? (hb : ofGrammar g = .ok b) (s : Nat) (x : Symbol) :
    b.tables.action? s x = (b.tables.proposalsAt g s x).head?.map Proposal.action := by
  rw [Tables.action?, row?_eq hb]
  cases hs : b.tables.automaton.items? s with
  | none =>
    rw [Tables.proposalsAt, hs]
    rfl
  | some items =>
    rw [← Tables.proposalsFor_rowProposals hs (isPlaced_of_items? hb hs), Option.map_some,
      Option.bind_some, Row.cell?_eq_head?]
    rfl

/-- An item with a terminal behind its dot always proposes to shift it. -/
theorem exists_shift (hb : ofGrammar g = .ok b) {s : Nat} {items : ItemSet}
    (hs : b.tables.automaton.items? s = some items) {i : Item} (hi : i ∈ items) {id : Terminal}
    (hx : i.next? g = some (.terminal id)) :
    ∃ target, b.tables.automaton.transition? s (.terminal id) = some target ∧
      i.proposal? g b.tables s (.terminal id) = some ⟨.shift target, i.rule⟩ := by
  have hcomplete := (isPlaced_of_items? hb hs i hi).isComplete_iff
  obtain ⟨target, ht⟩ : ∃ target,
      b.tables.automaton.transition? s (.terminal id) = some target := by
    rw [automaton_eq hb] at hs ⊢
    exact Automaton.exists_transition? hs (g.mem_nextSymbols.2 ⟨i, hi, hx⟩)
  exact ⟨target, ht, (Item.proposal?_eq_some_iff hcomplete).2 ⟨rfl, .shift hx ht⟩⟩

end TableBuild

/-! ## 4. The tables of a grammar -/

/-- **The cells and the findings about them are exact.** Let the proposals of a state for a lookahead
    be listed in item order. The cell holds the action of the first, and nothing if there is none; the
    conflicts found for it are the later proposals of other actions, each once, in order, against the
    first. All findings are the nonterminals without rules, then the conflicts by state, by item and
    by slot of the lookahead. Every terminal behind a dot is proposed to be shifted. GOTO is the
    transition on a nonterminal. -/
theorem TableBuild.cells_exact {g : Grammar} {b : TableBuild} (hb : ofGrammar g = .ok b) :
    (∀ s x, b.tables.action? s x = (b.tables.proposalsAt g s x).head?.map Proposal.action ∧
      (b.diagnostics.filterMap Diagnostic.conflict?).filter
          (fun c => c.state = s ∧ c.lookahead = x) =
        conflictsAmong s x (b.tables.proposalsAt g s x)) ∧
    b.diagnostics = g.undefinedNonterminals.map (fun p => .undefined p.1 p.2) ++
      (b.tables.competitions g).eraseDups.map .conflict ∧
    (∀ s items, b.tables.automaton.items? s = some items → ∀ i ∈ items, ∀ id,
      i.next? g = some (.terminal id) →
      ∃ target, b.tables.automaton.transition? s (.terminal id) = some target ∧
        i.proposal? g b.tables s (.terminal id) = some ⟨.shift target, i.rule⟩) ∧
    ∀ s n, b.tables.goto? s n = b.tables.automaton.transition? s (.nonterminal n) ∧
      (b.tables.gotoRow? s).bind (fun row => row.lookup n) =
        b.tables.automaton.transition? s (.nonterminal n) := by
  refine ⟨fun s x => ⟨action?_eq_head? hb s x, conflicts_filter_cell hb s x⟩, ?_,
    fun s items hs i hi id hx => exists_shift hb hs hi hx,
    fun s n => ⟨(b.tables.goto?_eq_lookup s n).trans (lookup_gotoRow? hb s n),
      lookup_gotoRow? hb s n⟩⟩
  rw [← conflicts_eq hb]
  exact diagnostics_eq hb

/-! ## 5. A state with several competitors

After `x` the rules `N1 -> N2 x`, `N1 -> x N2`, `N2 ->`, `N2 -> x x N2` and `N2 -> x` leave open
whether `N2` ends there and, if not, which rule goes on. -/

def choices : Grammar where
  rules := #[⟨0, [.nonterminal 1]⟩,
    ⟨1, [.nonterminal 2, .terminal 0]⟩,
    ⟨1, [.terminal 0, .nonterminal 2]⟩,
    ⟨2, []⟩,
    ⟨2, [.terminal 0, .terminal 0, .nonterminal 2]⟩,
    ⟨2, [.terminal 0]⟩]
  augmentedStart := 0
  start := 1
  rule_zero := rfl
  no_defect := by decide

def choicesBuild : TableBuild := (TableBuild.ofGrammar choices).toOption.get (by decide +kernel)

theorem ofGrammar_choices : TableBuild.ofGrammar choices = .ok choicesBuild :=
  eq_ok_of_toOption (Option.some_get _).symm

/-- The empty rule keeps the cell of state 3 on `x`. The shift competes with it for two rules, and once
    for rule 4, which has a dot before its first and a dot before its second `x`; so does another
    reduction. -/
theorem choices_cells :
    TableBuild.ofGrammar choices = .ok choicesBuild ∧
      choicesBuild.tables.action? 3 (.terminal 0) = some (.reduce 3) ∧
      choicesBuild.tables.proposalsAt choices 3 (.terminal 0) =
        [⟨.reduce 3, 3⟩, ⟨.shift 6, 4⟩, ⟨.shift 6, 4⟩, ⟨.shift 6, 5⟩, ⟨.reduce 5, 5⟩] ∧
      (choicesBuild.diagnostics.filterMap Diagnostic.conflict?).filter
          (fun c => c.state = 3 ∧ c.lookahead = .terminal 0) =
        [⟨3, .terminal 0, .reduce 3, 3, .shift 6, 4⟩, ⟨3, .terminal 0, .reduce 3, 3, .shift 6, 5⟩,
          ⟨3, .terminal 0, .reduce 3, 3, .reduce 5, 5⟩] := by
  obtain ⟨haction, hconflicts⟩ := (TableBuild.cells_exact ofGrammar_choices).1 3 (.terminal 0)
  have hproposals : choicesBuild.tables.proposalsAt choices 3 (.terminal 0) =
      [⟨.reduce 3, 3⟩, ⟨.shift 6, 4⟩, ⟨.shift 6, 4⟩, ⟨.shift 6, 5⟩, ⟨.reduce 5, 5⟩] := by
    decide +kernel
  rw [hproposals] at haction hconflicts
  exact ⟨ofGrammar_choices, haction, hproposals, hconflicts.trans (by decide)⟩

end ShiftReduce
