import ShiftReduce.Parser
import ShiftReduce.Proofs.LeastTable
import ShiftReduce.Proofs.ViablePrefix
/-!
# What the cells of the tables ask for

The tables of a grammar are read through the items of their states. An item asks for an action on a
lookahead (`Item.Asks`); a cell holds only what some item of its state asks for
(`exists_asks_of_action?`), and if the build made no finding it holds whatever an item asks for
(`action?_of_asks`). There is no finding exactly if every nonterminal has rules and no row has a
conflict (`diagnostics_eq_nil_iff`), that is, if the proposals of a row for one lookahead all agree
(`Row.conflicts_eq_nil_iff`). The GOTO rows agree with the transitions on nonterminals
(`lookup_gotoRow?`).
-/

namespace ShiftReduce

/-- `x` is in the FOLLOW set of `n`. -/
def Tables.Follows (t : Tables) (n : Nonterminal) (x : Symbol) : Prop :=
  t.follow.contains (.nonterminal n) x = true

/-- The item asks for an action in a state on a lookahead. -/
inductive Item.Asks (g : Grammar) (t : Tables) (state : Nat) (i : Item) :
    Symbol → Action → Prop where
  | shift {id : Terminal} {target : Nat} (hx : i.next? g = some (.terminal id))
      (ht : t.automaton.transition? state (.terminal id) = some target) :
      Asks g t state i (.terminal id) (.shift target)
  | accept (hx : i.next? g = none) (h0 : i.rule = 0) : Asks g t state i .endOfInput .accept
  | reduce {x : Symbol} {r : Rule} (hx : i.next? g = none) (h0 : i.rule ≠ 0)
      (hr : g.rules[i.rule]? = some r) (hf : t.Follows r.lhs x) :
      Asks g t state i x (.reduce i.rule)

/-! ## 1. Proposals -/

/-- **The proposals of an item are the actions it asks for.** -/
theorem Item.mem_proposals {g : Grammar} {t : Tables} {state : Nat} {i : Item} {x : Symbol}
    {p : Proposal} :
    (x, p) ∈ i.proposals g t.automaton t.follow state ↔
      p.rule = i.rule ∧ i.Asks g t state x p.action := by
  obtain ⟨action, rule⟩ := p
  unfold Item.proposals
  constructor
  · intro h
    split at h
    · rename_i id hx
      split at h
      · rename_i target ht
        cases List.mem_singleton.1 h
        exact ⟨rfl, .shift hx ht⟩
      · cases h
    · cases h
    · rename_i hx
      split at h
      · rename_i h0
        cases List.mem_singleton.1 h
        exact ⟨rfl, .accept hx h0⟩
      · rename_i h0
        split at h
        · rename_i r hr
          obtain ⟨y, hy, he⟩ := List.mem_map.1 h
          cases he
          exact ⟨rfl, .reduce hx h0 hr (SetTable.mem_symbolsOf_set.1 hy)⟩
        · cases h
  · intro ⟨hrule, hasks⟩
    have hrule : rule = i.rule := hrule
    have hasks : i.Asks g t state x action := hasks
    subst hrule
    cases hasks with
    | shift hx ht => simp [hx, ht]
    | accept hx h0 => simp [hx, h0]
    | reduce hx h0 hr hf =>
      simp only [hx, if_neg h0, hr]
      exact List.mem_map.2 ⟨x, SetTable.mem_symbolsOf_set.2 hf, rfl⟩

/-! ## 2. Rows -/

/-- In a row without conflicts every proposal agrees with the entry in its place. -/
theorem Row.cell?_of_mem {ps : List (Symbol × Proposal)} {state : Nat}
    (hc : (Row.conflicts (.ofList ps) state) = []) {x : Symbol} {p : Proposal} (h : (x, p) ∈ ps) :
    ∃ q, Row.cell? (.ofList ps) x = some q ∧ q.action = p.action := by
  obtain ⟨q, hq⟩ := exists_lookup_of_mem h
  have hcell : Row.cell? (.ofList ps) x = some q := (Row.cell?_ofList ps x).trans hq
  refine ⟨q, hcell, Classical.byContradiction fun hne => ?_⟩
  have hsome : Row.conflict? (.ofList ps) state x p =
      some ⟨state, x, q.action, q.rule, p.action, p.rule⟩ := by
    rw [Row.conflict?, hcell]
    exact if_neg hne
  have hmem : (⟨state, x, q.action, q.rule, p.action, p.rule⟩ : Conflict) ∈
      Row.conflicts (.ofList ps) state :=
    List.mem_eraseDups.2 (List.mem_filterMap.2 ⟨(x, p), h, hsome⟩)
  rw [hc] at hmem
  cases hmem

/-- **A row has no conflict exactly if all its proposals for one lookahead agree**: it is enough that
    each is compared with the first. -/
theorem Row.conflicts_eq_nil_iff {ps : List (Symbol × Proposal)} {state : Nat} :
    Row.conflicts (.ofList ps) state = [] ↔
      ∀ x p q, (x, p) ∈ ps → (x, q) ∈ ps → p.action = q.action := by
  constructor
  · intro hc x p q hp hq
    obtain ⟨first, hfirst, hpa⟩ := Row.cell?_of_mem hc hp
    obtain ⟨first', hfirst', hqa⟩ := Row.cell?_of_mem hc hq
    obtain rfl : first = first' := Option.some.inj (hfirst.symm.trans hfirst')
    exact hpa.symm.trans hqa
  · intro h
    refine List.eq_nil_iff_forall_not_mem.2 fun c hc => ?_
    obtain ⟨⟨x, p⟩, hp, hconflict⟩ := List.mem_filterMap.1 (List.mem_eraseDups.1 hc)
    unfold Row.conflict? at hconflict
    split at hconflict
    · rename_i q hq
      rw [Row.cell?_ofList] at hq
      rw [if_pos (h x q p (mem_of_lookup hq) hp)] at hconflict
      cases hconflict
    · cases hconflict

/-- The entries for nonterminals are found by the nonterminal. -/
theorem lookup_filterMap_nonterminal? (entries : List (Symbol × Nat)) (n : Nonterminal) :
    (entries.filterMap fun p => p.1.nonterminal?.map fun n => (n, p.2)).lookup n =
      entries.lookup (.nonterminal n) := by
  induction entries with
  | nil => rfl
  | cons p entries ih =>
    rw [List.filterMap_cons, List.lookup_cons]
    cases hm : p.1.nonterminal? with
    | none =>
      have hne : (Symbol.nonterminal n == p.1) = false := beq_eq_false_iff_ne.2 fun e => by
        rw [← e] at hm
        cases hm
      rw [hne]
      exact ih
    | some m =>
      rw [Symbol.nonterminal?_eq_some_iff.1 hm, Option.map_some, List.lookup_cons, ih]
      by_cases hn : n = m
      · rw [hn, beq_self_eq_true, beq_self_eq_true]
      · rw [beq_eq_false_iff_ne.2 hn, beq_eq_false_iff_ne.2 (mt Symbol.nonterminal.inj hn)]

/-! ## 3. The tables of a grammar -/

namespace TableBuild

variable {g : Grammar}

/-- The tables that a grammar gets with the FIRST sets of its rewritten rules. -/
def ofElimination (g : Grammar) (e : Elimination) : TableBuild :=
  let follow := followSets g.rules.toList g.augmentedStart e.first
  let rows := rows g (Automaton.ofGrammar g) follow
  ⟨⟨Automaton.ofGrammar g, e.slots, follow, rows.toArray, gotos (Automaton.ofGrammar g)⟩,
    findings g rows⟩

theorem exists_elimination {b : TableBuild} (h : ofGrammar g = .ok b) :
    ∃ e, Elimination.ofGrammar g = .ok e ∧ b = ofElimination g e := by
  unfold ofGrammar at h
  cases he : Elimination.ofGrammar g with
  | error e =>
    rw [he] at h
    cases h
  | ok e =>
    rw [he] at h
    exact ⟨e, rfl, (Except.ok.inj h).symm⟩

theorem ofGrammar_eq {e : Elimination} (h : Elimination.ofGrammar g = .ok e) :
    ofGrammar g = .ok (ofElimination g e) := by
  rw [ofGrammar, h]
  rfl

theorem automaton_eq {b : TableBuild} (h : ofGrammar g = .ok b) :
    b.tables.automaton = Automaton.ofGrammar g := by
  obtain ⟨e, _, rfl⟩ := exists_elimination h
  rfl

theorem getElem?_rows (g : Grammar) (a : Automaton) {t : Slots} (follow : SetTable t) (s : Nat) :
    (rows g a follow)[s]? = (a.items? s).map fun items =>
      .ofList (items.toList.flatMap (Item.proposals g a follow s)) := by
  rw [rows, List.getElem?_map, List.getElem?_zipIdx, Numbering.getElem?_toList, Option.map_map,
    Nat.zero_add]
  rfl

/-- The row of a state holds the proposals of its items. -/
theorem row?_eq {b : TableBuild} (h : ofGrammar g = .ok b) (s : Nat) :
    b.tables.row? s = (b.tables.automaton.items? s).map fun items =>
      .ofList (items.toList.flatMap (Item.proposals g b.tables.automaton b.tables.follow s)) := by
  obtain ⟨e, _, rfl⟩ := exists_elimination h
  rw [Tables.row?, ofElimination, List.getElem?_toArray, getElem?_rows]

/-- **A cell holds what an item of its state asks for.** -/
theorem exists_asks_of_action? {b : TableBuild} (h : ofGrammar g = .ok b) {s : Nat} {x : Symbol}
    {act : Action} (ha : b.tables.action? s x = some act) :
    ∃ items, b.tables.automaton.items? s = some items ∧
      ∃ i ∈ items, i.Asks g b.tables s x act := by
  obtain ⟨p, hp, rfl⟩ := Option.map_eq_some_iff.1 ha
  obtain ⟨row, hrow, hcell⟩ := Option.bind_eq_some_iff.1 hp
  rw [row?_eq h] at hrow
  obtain ⟨items, hs, rfl⟩ := Option.map_eq_some_iff.1 hrow
  rw [Row.cell?_ofList] at hcell
  obtain ⟨i, hi, hm⟩ := List.mem_flatMap.1 (mem_of_lookup hcell)
  exact ⟨items, hs, i, hi, (Item.mem_proposals.1 hm).2⟩

/-- **What the findings are**: nonterminals without rules and conflicts of the rows. -/
theorem diagnostics_eq_nil_iff {b : TableBuild} (h : ofGrammar g = .ok b) :
    b.diagnostics = [] ↔ g.undefinedNonterminals = [] ∧
      ∀ s row, b.tables.row? s = some row → row.conflicts s = [] := by
  obtain ⟨e, _, rfl⟩ := exists_elimination h
  show _ ++ _ = [] ↔ _
  rw [List.append_eq_nil_iff, List.map_eq_nil_iff, List.flatMap_eq_nil_iff]
  refine and_congr_right fun _ => ⟨fun hc s row hrow => ?_, fun hc p hp => ?_⟩
  · rw [Tables.row?, ofElimination, List.getElem?_toArray] at hrow
    exact List.map_eq_nil_iff.1 (hc (row, s) (List.mem_zipIdx_iff_getElem?.2 hrow))
  · refine List.map_eq_nil_iff.2 (hc p.2 p.1 ?_)
    rw [Tables.row?, ofElimination, List.getElem?_toArray]
    exact List.mem_zipIdx_iff_getElem?.1 hp

/-- **Without findings a cell holds whatever an item of its state asks for.** -/
theorem action?_of_asks {b : TableBuild} (h : ofGrammar g = .ok b) (hd : b.diagnostics = [])
    {s : Nat} {items : ItemSet} (hs : b.tables.automaton.items? s = some items) {i : Item}
    (hi : i ∈ items) {x : Symbol} {act : Action} (ha : i.Asks g b.tables s x act) :
    b.tables.action? s x = some act := by
  have hm : (x, ⟨act, i.rule⟩) ∈ items.toList.flatMap
      (Item.proposals g b.tables.automaton b.tables.follow s) :=
    List.mem_flatMap.2 ⟨i, hi, Item.mem_proposals.2 ⟨rfl, ha⟩⟩
  have hrow := row?_eq h s
  rw [hs, Option.map_some] at hrow
  obtain ⟨q, hcell, hq⟩ := Row.cell?_of_mem (((diagnostics_eq_nil_iff h).1 hd).2 s _ hrow) hm
  rw [Tables.action?, hrow, Option.bind_some, hcell, Option.map_some, hq]

/-- The GOTO row of a state is filled from its transitions. -/
theorem gotos?_eq {b : TableBuild} (h : ofGrammar g = .ok b) (s : Nat) :
    b.tables.gotos? s = (b.tables.automaton.transitions? s).map GotoRow.ofTransitions := by
  obtain ⟨e, _, rfl⟩ := exists_elimination h
  exact Array.getElem?_map

/-- **The GOTO row of a state lists its transitions on nonterminals.** -/
theorem lookup_gotoRow? {b : TableBuild} (h : ofGrammar g = .ok b) (s : Nat) (n : Nonterminal) :
    (b.tables.gotoRow? s).bind (fun row => row.lookup n) =
      b.tables.automaton.transition? s (.nonterminal n) := by
  rw [Tables.gotoRow?, gotos?_eq h, Automaton.transition?]
  cases b.tables.automaton.transitions? s with
  | none => rfl
  | some row => exact (lookup_filterMap_nonterminal? row.entries n).trans (row.find?_eq _).symm

/-- GOTO is the automaton's transition. -/
theorem goto?_eq {b : TableBuild} (h : ofGrammar g = .ok b) (s : Nat) (n : Nonterminal) :
    b.tables.goto? s n = (Automaton.ofGrammar g).transition? s (.nonterminal n) := by
  rw [Tables.goto?_eq_lookup, lookup_gotoRow? h, automaton_eq h]

end TableBuild

end ShiftReduce
