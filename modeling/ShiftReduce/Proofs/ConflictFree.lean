import ShiftReduce.Proofs.Completeness
import ShiftReduce.Proofs.StatePaths
/-!
# Which grammars get a parser

A parser is built exactly for the SLR(1) grammars among those whose left recursion can be
eliminated (`Parser.build_iff`). That a grammar is one is said without states: an item calls for
something on a lookahead (`Item.Calls`), and no two items valid for one string call for different
things on one lookahead (`Grammar.ConflictFree`).

The build compares proposals inside the row of a state, and only with the first for the lookahead.
Nothing is lost by this: every state holds the items valid for some string and every such string
has its state, a call comes to one action in a state and different calls to different ones
(`Call.action?_inj`), and proposals that agree with the first agree with each other.
-/

namespace ShiftReduce

/-! ## 1. Calls -/

/-- What an item can call for. -/
inductive Call where
  | shift
  | reduce (rule : Nat)
  | accept
  deriving DecidableEq, Repr

/-- The item calls for this on a lookahead, in whatever state it stands. -/
inductive Item.Calls (g : Grammar) (t : Tables) (i : Item) : Symbol → Call → Prop where
  | shift {id : Terminal} (hx : i.next? g = some (.terminal id)) : Calls g t i (.terminal id) .shift
  | reduce {x : Symbol} {r : Rule} (hc : i.isComplete g = true) (h0 : i.rule ≠ 0)
      (hr : g.rules[i.rule]? = some r) (hf : t.follow.contains (.nonterminal r.lhs) x = true) :
      Calls g t i x (.reduce i.rule)
  | accept (hc : i.isComplete g = true) (h0 : i.rule = 0) : Calls g t i .endOfInput .accept

/-- No two items valid for one string call for different things on one lookahead. -/
def Grammar.ConflictFree (g : Grammar) (t : Tables) : Prop :=
  ¬ ∃ (γ : List Symbol) (x : Symbol) (i j : Item) (c d : Call),
    i.ValidFor g γ ∧ j.ValidFor g γ ∧ i.Calls g t x c ∧ j.Calls g t x d ∧ c ≠ d

/-! ## 2. Calls in a state -/

/-- What a call comes to in a state. Only the target of a shift depends on the state. -/
def Call.action? (a : Automaton) (state : Nat) (x : Symbol) : Call → Option Action
  | .shift => (a.transition? state x).map .shift
  | .reduce rule => some (.reduce rule)
  | .accept => some .accept

/-- The call that an action answers. -/
def Action.call : Action → Call
  | .shift _ => .shift
  | .reduce rule => .reduce rule
  | .accept => .accept

theorem Call.call_of_action? {a : Automaton} {state : Nat} {x : Symbol} {c : Call} {act : Action}
    (h : c.action? a state x = some act) : act.call = c := by
  cases c with
  | shift =>
    obtain ⟨target, _, rfl⟩ := Option.map_eq_some_iff.1 h
    rfl
  | reduce rule =>
    obtain rfl := Option.some.inj h
    rfl
  | accept =>
    obtain rfl := Option.some.inj h
    rfl

/-- **Different calls come to different actions.** -/
theorem Call.action?_inj {a : Automaton} {state : Nat} {x : Symbol} {c d : Call} {act : Action}
    (hc : c.action? a state x = some act) (hd : d.action? a state x = some act) : c = d :=
  (call_of_action? hc).symm.trans (call_of_action? hd)

namespace Item

variable {g : Grammar} {t : Tables} {γ : List Symbol} {i : Item}

/-- A valid item is complete when no symbol stands behind its dot. -/
theorem ValidFor.isComplete_iff (h : i.ValidFor g γ) :
    i.isComplete g = true ↔ i.next? g = none := by
  obtain ⟨δ, r, _, hr, hle, _⟩ := h
  exact isComplete_iff_next? hr hle

/-- **A valid item asks in a state for what its calls come to there.** -/
theorem ValidFor.asks_iff (h : i.ValidFor g γ) {state : Nat} {x : Symbol} {act : Action} :
    i.Asks g t state x act ↔ ∃ c, i.Calls g t x c ∧ c.action? t.automaton state x = some act := by
  constructor
  · intro ha
    cases ha with
    | shift hx ht => exact ⟨.shift, .shift hx, Option.map_eq_some_iff.2 ⟨_, ht, rfl⟩⟩
    | accept hx h0 => exact ⟨.accept, .accept (h.isComplete_iff.2 hx) h0, rfl⟩
    | reduce hx h0 hr hf => exact ⟨_, .reduce (h.isComplete_iff.2 hx) h0 hr hf, rfl⟩
  · rintro ⟨c, hc, hact⟩
    cases hc with
    | shift hx =>
      obtain ⟨target, ht, rfl⟩ := Option.map_eq_some_iff.1 hact
      exact .shift hx ht
    | reduce hc h0 hr hf =>
      obtain rfl := Option.some.inj hact
      exact .reduce (h.isComplete_iff.1 hc) h0 hr hf
    | accept hc h0 =>
      obtain rfl := Option.some.inj hact
      exact .accept (h.isComplete_iff.1 hc) h0

end Item

/-! ## 3. Rows and strings -/

namespace TableBuild

variable {g : Grammar} {b : TableBuild}

/-- In the state reached along a string a call of a valid item comes to an action. -/
theorem exists_action? (hb : ofGrammar g = .ok b) {γ : List Symbol} {s : Nat} {below : List Nat}
    (hs : (Automaton.ofGrammar g).Spells (s :: below) γ) {i : Item} (hv : i.ValidFor g γ)
    {x : Symbol} {c : Call} (hc : i.Calls g b.tables x c) :
    ∃ act, c.action? b.tables.automaton s x = some act := by
  cases hc with
  | shift hx =>
    obtain ⟨target, ht, _⟩ := hs.exists_push hv hx
    rw [automaton_eq hb]
    exact ⟨.shift target, Option.map_eq_some_iff.2 ⟨target, ht, rfl⟩⟩
  | reduce hc h0 hr hf => exact ⟨_, rfl⟩
  | accept hc h0 => exact ⟨_, rfl⟩

/-- The row of a state has no conflict exactly if its items never ask for different actions. -/
theorem row_conflicts_eq_nil_iff (hb : ofGrammar g = .ok b) {s : Nat} {items : ItemSet}
    (hs : b.tables.automaton.items? s = some items) :
    (∀ row, b.tables.row? s = some row → row.conflicts s = []) ↔
      ∀ x, ∀ i ∈ items, ∀ j ∈ items, ∀ act act', i.Asks g b.tables s x act →
        j.Asks g b.tables s x act' → act = act' := by
  have hmem : ∀ x p, (x, p) ∈ items.toList.flatMap
      (Item.proposals g b.tables.automaton b.tables.follow s) ↔
        ∃ i ∈ items, p.rule = i.rule ∧ i.Asks g b.tables s x p.action := by
    intro x p
    rw [List.mem_flatMap]
    exact exists_congr fun i => and_congr_right fun _ => Item.mem_proposals
  have hrow := row?_eq hb s
  rw [hs, Option.map_some] at hrow
  rw [hrow]
  simp only [Option.some.injEq, forall_eq', Row.conflicts_eq_nil_iff, hmem]
  constructor
  · intro h x i hi j hj act act' hact hact'
    exact h x ⟨act, i.rule⟩ ⟨act', j.rule⟩ ⟨i, hi, rfl, hact⟩ ⟨j, hj, rfl, hact'⟩
  · rintro h x p q ⟨i, hi, _, hp⟩ ⟨j, hj, _, hq⟩
    exact h x i hi j hj _ _ hp hq

/-- **The rows have no conflict exactly if the grammar has none.** -/
theorem conflicts_eq_nil_iff (hb : ofGrammar g = .ok b) :
    (∀ s row, b.tables.row? s = some row → row.conflicts s = []) ↔ g.ConflictFree b.tables := by
  constructor
  · -- a string with two such items is spelled by a stack, and its state has both
    rintro h ⟨γ, x, i, j, c, d, hi, hj, hc, hd, hne⟩
    obtain ⟨stack, hs⟩ := Automaton.exists_spells hi
    obtain ⟨s, below, rfl⟩ := hs.exists_cons
    obtain ⟨items, hitems, hr⟩ := hs.represents
    rw [← automaton_eq hb] at hitems
    obtain ⟨act, hact⟩ := exists_action? hb hs hi hc
    obtain ⟨act', hact'⟩ := exists_action? hb hs hj hd
    have heq : act = act' := (row_conflicts_eq_nil_iff hb hitems).1 (h s) x i ((hr i).2 hi) j
      ((hr j).2 hj) act act' (hi.asks_iff.2 ⟨c, hc, hact⟩) (hj.asks_iff.2 ⟨d, hd, hact'⟩)
    exact hne (Call.action?_inj hact (heq ▸ hact'))
  · -- a state holds the items valid for some string
    intro h s row hrow
    obtain ⟨items, hitems, _⟩ := Option.map_eq_some_iff.1 ((row?_eq hb s).symm.trans hrow)
    obtain ⟨γ, hr⟩ := Automaton.exists_represents (automaton_eq hb ▸ hitems)
    refine (row_conflicts_eq_nil_iff hb hitems).2 (fun x i hi j hj act act' ha ha' => ?_) row hrow
    have hvi := (hr i).1 hi
    have hvj := (hr j).1 hj
    obtain ⟨c, hc, hact⟩ := hvi.asks_iff.1 ha
    obtain ⟨d, hd, hact'⟩ := hvj.asks_iff.1 ha'
    by_cases hcd : c = d
    · subst hcd
      exact Option.some.inj (hact.symm.trans hact')
    · exact absurd ⟨γ, x, i, j, c, d, hvi, hvj, hc, hd, hcd⟩ h

end TableBuild

/-! ## 4. Nonterminals without rules -/

/-- A nonterminal that no rule rewrites is found wherever a rule refers to it. -/
theorem Grammar.undefinedNonterminals_eq_nil_iff {g : Grammar} :
    g.undefinedNonterminals = [] ↔
      ∀ r ∈ g.rules, ∀ n, .nonterminal n ∈ r.rhs → ∃ s ∈ g.rules, s.lhs = n := by
  unfold undefinedNonterminals
  rw [List.filterMap_eq_nil_iff]
  constructor
  · intro h r hr n hn
    refine Classical.byContradiction fun hnone => ?_
    have hmem : n ∈ g.nonterminals.filter fun n => !g.isDefined n := by
      refine List.mem_filter.2 ⟨mem_nonterminalsOf.2 ⟨r, Array.mem_toList_iff.2 hr, .inr hn⟩, ?_⟩
      rw [Bool.not_eq_true', Bool.eq_false_iff]
      exact mt isDefined_iff.1 hnone
    have hfound := Option.map_eq_none_iff.1 (h n hmem)
    have hall := List.findIdx?_eq_none_iff.1 hfound r (Array.mem_toList_iff.2 hr)
    rw [List.contains_iff_mem.2 hn] at hall
    cases hall
  · intro h n hn
    obtain ⟨hn, hundef⟩ := List.mem_filter.1 hn
    refine Option.map_eq_none_iff.2 (List.findIdx?_eq_none_iff.2 fun r hr => ?_)
    refine Bool.eq_false_iff.2 fun hc => ?_
    have hdef := isDefined_iff.2 (h r (Array.mem_toList_iff.1 hr) n (List.contains_iff_mem.1 hc))
    rw [hdef] at hundef
    cases hundef

/-! ## 5. The grammars with parsers -/

/-- **Parsers are built exactly for the SLR(1) grammars** among those whose left recursion can be
    eliminated: every nonterminal on a right-hand side has a rule, and no two valid items call for
    different things. -/
theorem Parser.build_iff {g : Grammar} {e : Elimination} (he : Elimination.ofGrammar g = .ok e) :
    ∃ b, TableBuild.ofGrammar g = .ok b ∧
      ((∃ p, Parser.build g = .ok p) ↔
        (∀ r ∈ g.rules, ∀ n, .nonterminal n ∈ r.rhs → ∃ s ∈ g.rules, s.lhs = n) ∧
          g.ConflictFree b.tables) := by
  have hb : TableBuild.ofGrammar g = .ok (.ofElimination g e) := by
    rw [TableBuild.ofGrammar, he]
    rfl
  refine ⟨_, hb, ?_⟩
  rw [← Grammar.undefinedNonterminals_eq_nil_iff, ← TableBuild.conflicts_eq_nil_iff hb,
    ← TableBuild.diagnostics_eq_nil_iff hb, Parser.exists_build_iff]
  constructor
  · rintro ⟨tables, ht⟩
    rw [Except.ok.inj (hb.symm.trans ht)]
  · intro hd
    refine ⟨(TableBuild.ofElimination g e).tables, ?_⟩
    rw [← hd]
    exact hb

/-- Sums have a parser and so no conflict. Sums whose summands are sums have all the rules they refer
    to and no parser, and so a conflict. -/
theorem sums_build_iff :
    ((∃ p, Parser.build sums = .ok p) ∧
      ∃ b, TableBuild.ofGrammar sums = .ok b ∧ sums.ConflictFree b.tables) ∧
    (¬ (∃ p, Parser.build ambiguousSums = .ok p) ∧
      ∃ b, TableBuild.ofGrammar ambiguousSums = .ok b ∧ ¬ ambiguousSums.ConflictFree b.tables) := by
  constructor
  · obtain ⟨tables, ht⟩ := Parser.exists_build_iff.1 ⟨_, build_sums⟩
    obtain ⟨e, he, _⟩ := TableBuild.exists_elimination ht
    obtain ⟨b, hb, hiff⟩ := Parser.build_iff he
    exact ⟨⟨_, build_sums⟩, b, hb, (hiff.1 ⟨_, build_sums⟩).2⟩
  · obtain ⟨e, he, _⟩ := TableBuild.exists_elimination ofGrammar_ambiguousSums
    obtain ⟨b, hb, hiff⟩ := Parser.build_iff he
    have hnone : ¬ ∃ p, Parser.build ambiguousSums = .ok p := by
      rw [Parser.exists_build_iff]
      rintro ⟨tables, ht⟩
      have hd : ambiguousSumsBuild.diagnostics ≠ [] := by decide +kernel
      rw [Except.ok.inj (ofGrammar_ambiguousSums.symm.trans ht)] at hd
      exact hd rfl
    have hdefined := Grammar.undefinedNonterminals_eq_nil_iff.1
      (show ambiguousSums.undefinedNonterminals = [] by decide +kernel)
    exact ⟨hnone, b, hb, fun hfree => hnone (hiff.2 ⟨hdefined, hfree⟩)⟩

end ShiftReduce
