import Mathlib.Data.Fin.Embedding
import Mathlib.Logic.Equiv.Basic
import ShiftReduce.Proofs.ConflictFree
import ShiftReduce.Proofs.RuleOrder
/-!
# The order of the rules changes numbers only

The order of the rules decides in which order items, states and table cells are made. All that comes
of it is other numbers: a parser that is built from the rules in another order runs as the parser
built from the first order does, with one renumbering of the states for all inputs
(`Parser.parse_reordered`).

The states of two such automata are paired by the strings that lead to them (`Automaton.Twins`). A
string leads to the items valid for it in both, so the pairing is one to one, and with it comes the
renumbering of the states (`exists_matches`). It goes along transitions, and what the items of a
state ask for is what their twins ask for. So both tables have the same findings, and without
findings the same cells.
-/

namespace ShiftReduce

/-! ## 1. Pairings -/

/-- **Numbers below `m` paired with numbers below `n` one to one are a renumbering.** -/
theorem exists_perm_of_pairing {m n : Nat} {R : Nat → Nat → Prop}
    (hleft : ∀ s, s < m ↔ ∃ t, R s t) (hright : ∀ t, t < n ↔ ∃ s, R s t)
    (hfun : ∀ s t t', R s t → R s t' → t = t') (hinj : ∀ s s' t, R s t → R s' t → s = s') :
    ∃ τ : Equiv.Perm Nat, (∀ s, s < m → R s (τ s)) ∧ ∀ s, s < m ↔ τ s < n := by
  have htwin : ∀ s : Fin m, ∃ t : Fin n, R s t := fun s => by
    obtain ⟨t, ht⟩ := (hleft s).1 s.isLt
    exact ⟨⟨t, (hright t).2 ⟨s, ht⟩⟩, ht⟩
  choose f hf using htwin
  have hbij : Function.Bijective f := by
    refine ⟨fun s s' he => Fin.ext (hinj _ _ _ (hf s) (he ▸ hf s')), fun t => ?_⟩
    obtain ⟨s, hs⟩ := (hright t).1 t.isLt
    exact ⟨⟨s, (hleft s).2 ⟨t, hs⟩⟩, Fin.ext (hfun _ _ _ (hf _) hs)⟩
  obtain rfl : m = n := Fin.equiv_iff_eq.1 ⟨.ofBijective f hbij⟩
  -- below `m` the pairing, and every other number stays
  let τ : Equiv.Perm Nat := Equiv.Perm.extendDomain (.ofBijective f hbij) Fin.equivSubtype
  have hbelow : ∀ s : Fin m, τ s = f s := fun s => Equiv.Perm.extendDomain_apply_image _ _ s
  have habove : ∀ s, ¬ s < m → τ s = s := fun s hs =>
    Equiv.Perm.extendDomain_apply_not_subtype _ _ hs
  refine ⟨τ, fun s hs => ?_, fun s => ?_⟩
  · rw [hbelow ⟨s, hs⟩]
    exact hf ⟨s, hs⟩
  · by_cases hs : s < m
    · rw [hbelow ⟨s, hs⟩]
      exact iff_of_true hs (f ⟨s, hs⟩).isLt
    · rw [habove s hs]

/-- An optional value is the image of another if both are there together. -/
theorem eq_map_of_forall {α β : Type} {f : α → β} {a : Option α} {b : Option β}
    (h : ∀ x, a = some x → b = some (f x)) (hb : ∀ y, b = some y → ∃ x, a = some x) :
    b = a.map f := by
  cases a with
  | some x => exact h x rfl
  | none =>
    refine Option.eq_none_iff_forall_ne_some.2 fun y hy => ?_
    obtain ⟨x, hx⟩ := hb y hy
    cases hx

/-! ## 2. Twins -/

namespace Automaton

variable {σ τ : Equiv.Perm Nat} {g g' : Grammar} {s t : Nat} {x : Symbol}

/-- One string leads to both states. -/
def Twins (g g' : Grammar) (s t : Nat) : Prop :=
  ∃ γ below below', (ofGrammar g).Spells (s :: below) γ ∧ (ofGrammar g').Spells (t :: below') γ

namespace Twins

theorem symm (h : Twins g g' s t) : Twins g' g t s := by
  obtain ⟨γ, below, below', hs, ht⟩ := h
  exact ⟨γ, below', below, ht, hs⟩

theorem start (g g' : Grammar) : Twins g g' 0 0 := ⟨[], [], [], .start, .start⟩

/-- **Twins hold the same items with other numbers.** -/
theorem items (hσ : g.Reorders σ g') (h : Twins g g' s t) :
    ∃ items items', (ofGrammar g).items? s = some items ∧
      (ofGrammar g').items? t = some items' ∧ ∀ i : Item, i.renumber σ ∈ items' ↔ i ∈ items := by
  obtain ⟨γ, below, below', hs, ht⟩ := h
  obtain ⟨items, hitems, hr⟩ := hs.represents
  obtain ⟨items', hitems', hr'⟩ := ht.represents
  exact ⟨items, items', hitems, hitems', fun i => by rw [hr', hr, hσ.validFor_iff]⟩

/-- A state has one twin only. -/
theorem unique (hσ : g.Reorders σ g') {t' : Nat} (h : Twins g g' s t) (h' : Twins g g' s t') :
    t = t' := by
  obtain ⟨old, items, hold, hitems, hmem⟩ := h.items hσ
  obtain ⟨old', items', hold', hitems', hmem'⟩ := h'.items hσ
  obtain rfl : old = old' := Option.some.inj (hold.symm.trans hold')
  obtain rfl : items = items' := ItemSet.ext_mem fun i => by
    have hi : i = Item.renumber σ (i.renumber σ.symm) := by
      rw [Item.renumber, Item.renumber, Equiv.apply_symm_apply]
    rw [hi, hmem, hmem']
  exact Numbering.member?_inj hitems hitems'

/-- **Transitions lead from twins to twins.** -/
theorem transition (hσ : g.Reorders σ g') (h : Twins g g' s t) {target : Nat}
    (hx : (ofGrammar g).transition? s x = some target) :
    ∃ target', (ofGrammar g').transition? t x = some target' ∧ Twins g g' target target' := by
  obtain ⟨γ, below, below', hs, ht⟩ := h
  obtain ⟨i, hv, hnext⟩ := hs.exists_valid hx
  obtain ⟨target', hx', hpush⟩ := ht.exists_push (hσ.validFor hv) ((hσ.next?_eq i).trans hnext)
  exact ⟨target', hx', _, _, _, hs.push hx, hpush⟩

end Twins

/-- **Every state has a twin.** -/
theorem lt_size_iff_exists_twin (hσ : g.Reorders σ g') (s : Nat) :
    s < (ofGrammar g).size ↔ ∃ t, Twins g g' s t := by
  constructor
  · intro hs
    obtain ⟨γ, below, hspells⟩ := exists_spells_of_items?
      (show (ofGrammar g).items? s = some _ from Array.getElem?_eq_getElem hs)
    obtain ⟨i, hv⟩ := hspells.exists_validFor
    obtain ⟨stack, hstack⟩ := exists_spells (hσ.validFor hv)
    obtain ⟨t, below', rfl⟩ := hstack.exists_cons
    exact ⟨t, γ, below, below', hspells, hstack⟩
  · rintro ⟨t, h⟩
    obtain ⟨items, _, hitems, _⟩ := h.items hσ
    exact Numbering.lt_size_of_member? hitems

/-! ## 3. The renumbering of the states -/

/-- The states of the automata of two orders of the rules, paired by the strings that lead to
    them. -/
structure Matches (σ τ : Equiv.Perm Nat) (g g' : Grammar) : Prop where
  reorders : g.Reorders σ g'
  lt_size_iff : ∀ s, s < (ofGrammar g).size ↔ τ s < (ofGrammar g').size
  twins : ∀ s, s < (ofGrammar g).size → Twins g g' s (τ s)

/-- **Another order of the rules renumbers the states.** -/
theorem exists_matches (hσ : g.Reorders σ g') : ∃ τ, Matches σ τ g g' := by
  obtain ⟨τ, htwins, hsize⟩ := exists_perm_of_pairing (lt_size_iff_exists_twin hσ)
    (fun t => (lt_size_iff_exists_twin hσ.symm t).trans
      (exists_congr fun s => ⟨Twins.symm, Twins.symm⟩))
    (fun s t t' h h' => h.unique hσ h') fun s s' t h h' => h.symm.unique hσ.symm h'.symm
  exact ⟨τ, hσ, hsize, htwins⟩

namespace Matches

theorem symm (h : Matches σ τ g g') : Matches σ.symm τ.symm g' g where
  reorders := h.reorders.symm
  lt_size_iff t := by rw [h.lt_size_iff, Equiv.apply_symm_apply]
  twins t ht := by
    have hs : τ.symm t < (ofGrammar g).size := by rwa [h.lt_size_iff, Equiv.apply_symm_apply]
    have htwins := (h.twins _ hs).symm
    rwa [Equiv.apply_symm_apply] at htwins

theorem start (h : Matches σ τ g g') : τ 0 = 0 := by
  have hzero := (lt_size_iff_exists_twin h.reorders 0).2 ⟨0, .start g g'⟩
  exact (h.twins 0 hzero).unique h.reorders (.start g g')

/-- A state with its new number has its items with their new numbers. -/
theorem items (h : Matches σ τ g g') {items : ItemSet}
    (hs : (ofGrammar g).items? s = some items) :
    ∃ items', (ofGrammar g').items? (τ s) = some items' ∧
      ∀ i : Item, i.renumber σ ∈ items' ↔ i ∈ items := by
  obtain ⟨old, items', hold, hitems', hmem⟩ :=
    (h.twins s (Numbering.lt_size_of_member? hs)).items h.reorders
  obtain rfl : items = old := Option.some.inj (hs.symm.trans hold)
  exact ⟨items', hitems', hmem⟩

theorem transition? (h : Matches σ τ g g') {target : Nat}
    (hx : (ofGrammar g).transition? s x = some target) :
    (ofGrammar g').transition? (τ s) x = some (τ target) := by
  obtain ⟨items, hitems, _, htarget⟩ := transition?_iff.1 hx
  obtain ⟨target', hx', htwins⟩ :=
    (h.twins s (Numbering.lt_size_of_member? hitems)).transition h.reorders hx
  rw [hx', htwins.unique h.reorders (h.twins target (Numbering.lt_size_of_member? htarget))]

/-- **A transition with other numbers is the transition with other numbers.** -/
theorem transition?_eq (h : Matches σ τ g g') (s : Nat) (x : Symbol) :
    (ofGrammar g').transition? (τ s) x = ((ofGrammar g).transition? s x).map τ := by
  refine eq_map_of_forall (fun target => h.transition?) fun target' hx => ?_
  have hback := h.symm.transition? hx
  rw [Equiv.symm_apply_apply] at hback
  exact ⟨_, hback⟩

end Matches

end Automaton

/-! ## 4. The tables -/

namespace TableBuild

variable {σ τ : Equiv.Perm Nat} {g g' : Grammar} {b b' : TableBuild}

/-- **Items with other numbers ask for the same with other numbers.** -/
theorem asks_renumber (h : Automaton.Matches σ τ g g') (hb : ofGrammar g = .ok b)
    (hb' : ofGrammar g' = .ok b') {i : Item} {s : Nat} {x : Symbol} {act : Action}
    (ha : i.Asks g b.tables s x act) :
    (i.renumber σ).Asks g' b'.tables (τ s) x (act.renumber σ τ) := by
  have hnext := h.reorders.next?_eq i
  cases ha with
  | shift hx ht =>
    rw [automaton_eq hb] at ht
    refine .shift (hnext.trans hx) ?_
    rw [automaton_eq hb']
    exact h.transition? ht
  | accept hx h0 =>
    refine .accept (hnext.trans hx) ?_
    rw [Item.renumber, h0, h.reorders.zero]
  | @reduce x r hx h0 hr hf =>
    refine .reduce (hnext.trans hx) (fun h0' => h0 ?_) ((h.reorders.rule i.rule).trans hr)
      ((h.reorders.follows_iff hb hb').2 hf)
    exact σ.injective (h0'.trans h.reorders.zero.symm)

/-- **Rows in another order have no conflict if the rows have none.** -/
theorem conflicts_renumber (h : Automaton.Matches σ τ g g') (hb : ofGrammar g = .ok b)
    (hb' : ofGrammar g' = .ok b')
    (hnone : ∀ s row, b.tables.row? s = some row → row.conflicts s = []) {t : Nat} {row : Row}
    (hrow : b'.tables.row? t = some row) : row.conflicts t = [] := by
  obtain ⟨items', hitems', _⟩ := Option.map_eq_some_iff.1 ((row?_eq hb' t).symm.trans hrow)
  refine (row_conflicts_eq_nil_iff hb' hitems').2 (fun x i hi j hj act act' ha ha' => ?_) row hrow
  -- what both items ask for is asked for in the state with the old number
  obtain ⟨items, hitems, hmem⟩ := h.symm.items (automaton_eq hb' ▸ hitems')
  rw [← automaton_eq hb] at hitems
  have hasks := asks_renumber h.symm hb' hb ha
  have hasks' := asks_renumber h.symm hb' hb ha'
  exact Action.renumber_injective σ.symm.injective τ.symm.injective
    ((row_conflicts_eq_nil_iff hb hitems).1 (hnone _) x _ ((hmem i).2 hi) _ ((hmem j).2 hj) _ _
      hasks hasks')

/-- **There is no finding in another order if there is none.** -/
theorem diagnostics_renumber (h : Automaton.Matches σ τ g g') (hb : ofGrammar g = .ok b)
    (hb' : ofGrammar g' = .ok b') (hd : b.diagnostics = []) : b'.diagnostics = [] := by
  obtain ⟨hundefined, hconflicts⟩ := (diagnostics_eq_nil_iff hb).1 hd
  refine (diagnostics_eq_nil_iff hb').2
    ⟨?_, fun t row hrow => conflicts_renumber h hb hb' hconflicts hrow⟩
  have hmem : ∀ r, r ∈ g'.rules ↔ r ∈ g.rules := fun r => by
    rw [← Array.mem_toList_iff, h.reorders.mem_iff, Array.mem_toList_iff]
  rw [Grammar.undefinedNonterminals_eq_nil_iff] at hundefined ⊢
  simpa only [hmem] using hundefined

theorem action?_renumber_of_some (h : Automaton.Matches σ τ g g') (hb : ofGrammar g = .ok b)
    (hb' : ofGrammar g' = .ok b') (hd' : b'.diagnostics = []) {s : Nat} {x : Symbol} {act : Action}
    (ha : b.tables.action? s x = some act) :
    b'.tables.action? (τ s) x = some (act.renumber σ τ) := by
  obtain ⟨items, hitems, i, hi, hasks⟩ := exists_asks_of_action? hb ha
  obtain ⟨items', hitems', hmem⟩ := h.items (automaton_eq hb ▸ hitems)
  rw [← automaton_eq hb'] at hitems'
  exact action?_of_asks hb' hd' hitems' ((hmem i).2 hi) (asks_renumber h hb hb' hasks)

/-- **Without findings the machine of another order is the machine with other numbers.** -/
theorem renumbers (h : Automaton.Matches σ τ g g') (hb : ofGrammar g = .ok b)
    (hb' : ofGrammar g' = .ok b') (hd : b.diagnostics = []) (hd' : b'.diagnostics = []) :
    Machine.Renumbers σ τ ⟨g, b.tables⟩ ⟨g', b'.tables⟩ where
  rules := h.reorders.rule
  action s x := by
    refine eq_map_of_forall (fun act => action?_renumber_of_some h hb hb' hd') fun act' ha' => ?_
    have hback := action?_renumber_of_some h.symm hb' hb hd ha'
    rw [Equiv.symm_apply_apply] at hback
    exact ⟨_, hback⟩
  goto s n := by
    show b'.tables.goto? (τ s) n = (b.tables.goto? s n).map τ
    rw [goto?_eq hb, goto?_eq hb', h.transition?_eq]

end TableBuild

/-! ## 5. Parsers -/

namespace Parser

variable {σ : Equiv.Perm Nat} {g g' : Grammar}

/-- A parser is built in another order of the rules if one is built. -/
theorem exists_build_of_reorders (hσ : g.Reorders σ g') (h : ∃ p, Parser.build g = .ok p) :
    ∃ p', Parser.build g' = .ok p' := by
  obtain ⟨tables, hb⟩ := Parser.exists_build_iff.1 h
  obtain ⟨e, he, _⟩ := TableBuild.exists_elimination hb
  obtain ⟨e', he'⟩ := hσ.exists_elimination ⟨e, he⟩
  have hb' := TableBuild.ofGrammar_eq he'
  obtain ⟨τ, hτ⟩ := Automaton.exists_matches hσ
  refine Parser.exists_build_iff.2 ⟨(TableBuild.ofElimination g' e').tables, ?_⟩
  rw [← TableBuild.diagnostics_renumber hτ hb hb' rfl]
  exact hb'

/-- **The order of the rules does not matter to a parser.** If rule 0 stays in front, the rules are a
    grammar in another order too, which has a parser exactly if the first has one, and there is one
    renumbering of the states, with state 0 staying, such that on every input with every bound both
    runs come out the same up to the numbers of rules and states: one accepts if the other does; one
    rejects if the other does, at the same symbol and position; and otherwise both exceed their
    bound. -/
theorem parse_reordered {rules rules' : List Rule} (hg : Grammar.ofRules rules = .ok g)
    (σ : Equiv.Perm Nat) (hzero : σ 0 = 0) (hσ : ∀ i : Nat, rules'[σ i]? = rules[i]?) :
    ∃ g', Grammar.ofRules rules' = .ok g' ∧
      ((∃ p, Parser.build g = .ok p) ↔ ∃ p', Parser.build g' = .ok p') ∧
      ∀ p p', Parser.build g = .ok p → Parser.build g' = .ok p' →
        ∃ τ : Equiv.Perm Nat, τ 0 = 0 ∧
          (∀ s, s < p.tables.automaton.size ↔ τ s < p'.tables.automaton.size) ∧
          ∀ k input, p'.parse k input = (p.parse k input).map (Run.renumber σ τ) ∧
            (∀ r, p.parse k input = .ok r →
              (r.renumber σ τ).trace = r.trace.map (Event.renumber σ τ)) ∧
            ∀ e, p.parse k input = .error e → e = .boundExceeded (stepBound input.length k) := by
  obtain rfl := Grammar.ofRules_eq_ok_iff.1 hg
  obtain ⟨g', hg', hreorders⟩ := Grammar.exists_reorders hzero (g := g) (by simpa using hσ)
  refine ⟨g', hg', ⟨exists_build_of_reorders hreorders, exists_build_of_reorders hreorders.symm⟩,
    fun p p' hp hp' => ?_⟩
  obtain rfl := grammar_of_build hp
  obtain rfl := grammar_of_build hp'
  obtain ⟨τ, hτ⟩ := Automaton.exists_matches hreorders
  have hrenumbers : Machine.Renumbers σ τ p.toMachine p'.toMachine :=
    TableBuild.renumbers hτ p.own_tables p'.own_tables rfl rfl
  refine ⟨τ, hτ.start, fun s => ?_, fun k input => ⟨?_, fun r _ => r.trace_renumber, fun e he => ?_⟩⟩
  · have hsize := hτ.lt_size_iff s
    rwa [← TableBuild.automaton_eq p.own_tables, ← TableBuild.automaton_eq p'.own_tables] at hsize
  · exact hrenumbers.run hτ.start
      (fun ms c hm state defect => Machine.not_stuck_of_moves p.own_tables hm state defect) _
  · exact Machine.error_of_run p.own_tables he

/-- The rules of `sums` with the two rules for sums exchanged. -/
def turnedSums : List Rule :=
  [⟨0, [.nonterminal 1]⟩, ⟨1, [.terminal 1]⟩, ⟨1, [.nonterminal 1, .terminal 0, .terminal 1]⟩]

/-- A parser for the exchanged rules rejects `n + +` where that for `sums` does, in the state that
    belongs to its state 3, and reduces by rule 1 in place of rule 2. -/
theorem turnedSums_parse : ∃ g' p', Grammar.ofRules turnedSums = .ok g' ∧
    Parser.build g' = .ok p' ∧ ∃ τ : Equiv.Perm Nat, τ 0 = 0 ∧
      p'.parse 4 [.terminal 1, .terminal 0, .terminal 0] =
        .ok ⟨.rejected (τ 3) (.terminal 0) 2, [.shift (τ 2) 0, .reduce 1 (τ 1), .shift (τ 3) 1]⟩ := by
  have hσ : ∀ i : Nat, turnedSums[Equiv.swap 1 2 i]? = sums.rules.toList[i]?
    | 0 | 1 | 2 => by decide
    | i + 3 => by
      rw [Equiv.swap_apply_of_ne_of_ne (by omega) (by omega)]
      rfl
  have hrun : sumsParser.parse 4 [.terminal 1, .terminal 0, .terminal 0] =
      .ok ⟨.rejected 3 (.terminal 0) 2, [.shift 2 0, .reduce 2 1, .shift 3 1]⟩ :=
    eq_ok_of_toOption (by decide +kernel)
  obtain ⟨g', hg', hbuild, hruns⟩ := parse_reordered (Grammar.ofRules_eq_ok_iff.2 rfl)
    (Equiv.swap 1 2) (by decide) hσ
  obtain ⟨p', hp'⟩ := hbuild.1 ⟨_, build_sums⟩
  obtain ⟨τ, hzero, _, hparse⟩ := hruns _ p' build_sums hp'
  refine ⟨g', p', hg', hp', τ, hzero, ?_⟩
  rw [(hparse 4 _).1, hrun]
  rfl

end Parser

end ShiftReduce
