import ShiftReduce.Proofs.ClosureOperator
/-!
# Kernels of states

The kernel of a state is what closing does not add to it: the items with their dot behind a symbol,
and for state 0 the initial item of rule 0 (`Automaton.kernel?`). Going over a symbol puts that
symbol before every dot it moves, and what is pulled in afterwards has its dot at the start. So

* `Grammar.previous?_of_mem_goto` -- the symbol before the dots of a goto set is the symbol gone over;
* `Grammar.initial_not_mem_goto` -- the initial item of rule 0 is pulled in by nothing, since no
  right-hand side refers to the augmented start symbol;
* `Grammar.closure_moved_goto` -- a goto set is the closure of its items with moved dots;
* `Automaton.ofGrammar_kernels` -- what this says of the states: each is entered over one symbol, state
  0 over none, and each is the closure of its kernel.
-/

namespace ShiftReduce

/-! ## 1. The symbol before the dot -/

/-- The symbol before the dot. There is none at the start of the right-hand side. -/
def Item.previous? (g : Grammar) (i : Item) : Option Symbol :=
  match i.dot with
  | 0 => none
  | place + 1 => g.symbolAt? i.rule place

/-- Moving the dot puts the symbol after it before it. -/
theorem Item.previous?_advance (g : Grammar) (i : Item) : i.advance.previous? g = i.next? g := rfl

/-- The items of a set with their dot behind a symbol. -/
def ItemSet.moved (items : ItemSet) : ItemSet :=
  .ofList (items.toList.filter fun i => decide (0 < i.dot))

theorem ItemSet.mem_moved {items : ItemSet} {i : Item} : i ∈ items.moved ↔ i ∈ items ∧ 0 < i.dot := by
  rw [moved, mem_ofList, List.mem_filter, decide_eq_true_eq]
  exact Iff.rfl

namespace Grammar

variable {g : Grammar} {items : ItemSet} {x : Symbol} {i : Item}

/-- Of a goto set, the items with moved dots are those that went over the symbol. -/
theorem mem_goto_of_pos (hd : 0 < i.dot) : i ∈ g.goto items x ↔ i ∈ g.kernel items x := by
  rw [goto, mem_closure_iff]
  refine or_iff_left fun hlead => ?_
  have hzero : i.dot = 0 := hlead.1
  omega

/-- **The symbol gone over stands before every moved dot.** -/
theorem previous?_of_mem_goto (hi : i ∈ g.goto items x) (hd : 0 < i.dot) :
    i.previous? g = some x := by
  obtain ⟨j, _, hx, hj⟩ := g.mem_kernel.1 ((mem_goto_of_pos hd).1 hi)
  rw [← hj, Item.previous?_advance, hx]

/-- A symbol after a dot has an item that goes over it. -/
theorem exists_moved_of_mem_nextSymbols (hx : x ∈ g.nextSymbols items) :
    ∃ j ∈ g.goto items x, 0 < j.dot := by
  obtain ⟨j, hj, hn⟩ := g.mem_nextSymbols.1 hx
  have hd : 0 < j.advance.dot := Nat.succ_pos j.dot
  exact ⟨j.advance, (mem_goto_of_pos hd).2 (g.mem_kernel.2 ⟨j, hj, hn, rfl⟩), hd⟩

/-- **The initial item of rule 0 is in no goto set.** -/
theorem initial_not_mem_goto : (⟨0, 0⟩ : Item) ∉ g.goto items x := by
  intro h
  refine closure_induction (P := fun i => i ≠ ⟨0, 0⟩) (fun i hi he => ?_) (fun i n k _ hn hk he => ?_)
    ⟨0, 0⟩ h rfl
  · obtain ⟨j, _, _, hj⟩ := g.mem_kernel.1 hi
    have hdot : j.dot + 1 = 0 := congrArg Item.dot (hj.trans he)
    omega
  · obtain ⟨s, hs, hlhs⟩ := mem_rulesFor.1 hk
    obtain ⟨r, hr, hget⟩ := Item.next?_eq_some_iff.1 hn
    have hm : Symbol.nonterminal s.lhs ∈ r.rhs := hlhs ▸ List.mem_of_getElem? hget
    exact ne_zero_of_mem_rhs hr hs hm (congrArg Item.rule he)

/-- **A goto set is the closure of its items with moved dots.** -/
theorem closure_moved_goto : g.closure (g.goto items x).moved.toList = g.goto items x := by
  refine closure_congr fun i => ?_
  show i ∈ (g.goto items x).moved ↔ i ∈ g.kernel items x
  rw [ItemSet.mem_moved]
  constructor
  · intro ⟨hi, hd⟩
    exact (mem_goto_of_pos hd).1 hi
  · intro hi
    obtain ⟨j, _, _, hj⟩ := g.mem_kernel.1 hi
    have hd : 0 < i.dot := hj ▸ Nat.succ_pos j.dot
    exact ⟨(mem_goto_of_pos hd).2 hi, hd⟩

/-- In the closure of the initial item of rule 0 every dot is at the start. -/
theorem dot_eq_zero_of_mem_start (hi : i ∈ g.closure [⟨0, 0⟩]) : i.dot = 0 := by
  rcases mem_closure_iff.1 hi with hi | hlead
  · exact congrArg Item.dot (List.mem_singleton.1 hi)
  · exact hlead.1

/-- The start symbol stands after the dot of the initial item of rule 0. -/
theorem next?_initial (g : Grammar) : Item.next? g ⟨0, 0⟩ = some (.nonterminal g.start) :=
  Item.next?_eq_some_iff.2 ⟨_, g.rule_zero, rfl⟩

end Grammar

/-! ## 2. States -/

namespace Automaton

variable {g : Grammar} {s t : Nat} {items : ItemSet} {x : Symbol}

/-- What closing does not add to a state: the initial item of rule 0 in state 0, the items with moved
    dots in any other state. -/
def kernel? (a : Automaton) (s : Nat) : Option ItemSet :=
  (a.items? s).map fun items => if s = 0 then .ofList [⟨0, 0⟩] else items.moved

/-- **A state other than state 0 is a goto set.** -/
theorem exists_goto_of_ne_zero (hs : (ofGrammar g).items? s = some items) (h0 : s ≠ 0) :
    ∃ source x, x ∈ g.nextSymbols source ∧ items = g.goto source x := by
  obtain ⟨t, _, x, hx⟩ := isRooted_ofGrammar g s h0 (Numbering.lt_size_of_member? hs)
  obtain ⟨source, _, hnext, hgoto⟩ := transition?_iff.1 hx
  exact ⟨source, x, hnext, Option.some.inj (hs.symm.trans hgoto)⟩

theorem items?_zero (hs : (ofGrammar g).items? 0 = some items) : items = g.closure [⟨0, 0⟩] :=
  Option.some.inj (hs.symm.trans (ofGrammar_grown g).start)

/-- **Only state 0 holds the initial item of rule 0.** -/
theorem initial_mem_iff (hs : (ofGrammar g).items? s = some items) :
    (⟨0, 0⟩ : Item) ∈ items ↔ s = 0 := by
  constructor
  · intro hm
    refine Classical.byContradiction fun h0 => ?_
    obtain ⟨source, x, _, rfl⟩ := exists_goto_of_ne_zero hs h0
    exact Grammar.initial_not_mem_goto hm
  · intro h0
    subst h0
    rw [items?_zero hs]
    exact g.mem_closure.2 (.inl (List.mem_singleton.2 rfl))

/-- No transition leads to state 0. -/
theorem transition?_ne_zero (g : Grammar) (p : Nat) (x : Symbol) :
    (ofGrammar g).transition? p x ≠ some 0 := by
  intro h
  obtain ⟨source, _, _, hgoto⟩ := transition?_iff.1 h
  exact Grammar.initial_not_mem_goto ((initial_mem_iff hgoto).2 rfl)

/-- **A state other than state 0 is entered over one symbol**, which stands before all its moved
    dots. -/
theorem exists_entry (hs : (ofGrammar g).items? s = some items) (h0 : s ≠ 0) :
    ∃ x, (∃ i ∈ items, 0 < i.dot) ∧ (∀ i ∈ items, 0 < i.dot → i.previous? g = some x) ∧
      ∀ p y, (ofGrammar g).transition? p y = some s → y = x := by
  obtain ⟨source, x, hnext, rfl⟩ := exists_goto_of_ne_zero hs h0
  obtain ⟨i, hi, hd⟩ := Grammar.exists_moved_of_mem_nextSymbols hnext
  refine ⟨x, ⟨i, hi, hd⟩, fun j hj hdj => Grammar.previous?_of_mem_goto hj hdj, fun p y hp => ?_⟩
  obtain ⟨other, _, _, hgoto⟩ := transition?_iff.1 hp
  have hsame : g.goto source x = g.goto other y := Option.some.inj (hs.symm.trans hgoto)
  have hx := Grammar.previous?_of_mem_goto hi hd
  have hy := Grammar.previous?_of_mem_goto (hsame ▸ hi) hd
  exact Option.some.inj (hy.symm.trans hx)

/-- **The complete item of rule 0 is in the state behind the start symbol only.** -/
theorem accepting_mem_iff (hs : (ofGrammar g).items? s = some items) :
    (⟨0, 1⟩ : Item) ∈ items ↔ (ofGrammar g).transition? 0 (.nonterminal g.start) = some s := by
  have hd : 0 < (⟨0, 1⟩ : Item).dot := Nat.one_pos
  constructor
  · intro hm
    have h0 : s ≠ 0 := by
      intro h0
      subst h0
      rw [items?_zero hs] at hm
      exact absurd (Grammar.dot_eq_zero_of_mem_start hm) Nat.one_ne_zero
    obtain ⟨p, _, x, hp⟩ := isRooted_ofGrammar g s h0 (Numbering.lt_size_of_member? hs)
    obtain ⟨source, hfrom, _, hgoto⟩ := transition?_iff.1 hp
    obtain rfl : items = g.goto source x := Option.some.inj (hs.symm.trans hgoto)
    obtain ⟨⟨rule, dot⟩, hj, hnext, hadv⟩ := g.mem_kernel.1 ((Grammar.mem_goto_of_pos hd).1 hm)
    obtain ⟨rfl, hdot⟩ : rule = 0 ∧ dot + 1 = 1 := Item.mk.injEq _ _ _ _ ▸ hadv
    obtain rfl : dot = 0 := by omega
    -- the item before the step is the initial one, so the step starts in state 0
    obtain rfl := (initial_mem_iff hfrom).1 hj
    obtain rfl := Option.some.inj (hnext.symm.trans g.next?_initial)
    exact hp
  · intro ht
    obtain ⟨source, hfrom, _, hgoto⟩ := transition?_iff.1 ht
    obtain rfl : items = g.goto source _ := Option.some.inj (hs.symm.trans hgoto)
    exact (Grammar.mem_goto_of_pos hd).2
      (g.mem_kernel.2 ⟨⟨0, 0⟩, (initial_mem_iff hfrom).2 rfl, g.next?_initial, rfl⟩)

theorem exists_accepting (g : Grammar) :
    ∃ t, (ofGrammar g).transition? 0 (.nonterminal g.start) = some t := by
  have hstart := (ofGrammar_grown g).start
  exact exists_transition? hstart
    (g.mem_nextSymbols.2 ⟨⟨0, 0⟩, (initial_mem_iff hstart).2 rfl, g.next?_initial⟩)

/-- **Every state is the closure of its kernel.** -/
theorem closure_kernel (hs : (ofGrammar g).items? s = some items) :
    ∃ k, (ofGrammar g).kernel? s = some k ∧ g.closure k.toList = items := by
  rw [kernel?, hs, Option.map_some]
  refine ⟨_, rfl, ?_⟩
  by_cases h0 : s = 0
  · subst h0
    rw [if_pos rfl, items?_zero hs]
    exact Grammar.closure_congr fun _ => ItemSet.mem_ofList
  · rw [if_neg h0]
    obtain ⟨source, x, _, rfl⟩ := exists_goto_of_ne_zero hs h0
    exact Grammar.closure_moved_goto

/-- States with the same kernel are the same. -/
theorem kernel?_inj {k : ItemSet} (hs : (ofGrammar g).kernel? s = some k)
    (ht : (ofGrammar g).kernel? t = some k) : s = t := by
  obtain ⟨items, hitems, _⟩ := Option.map_eq_some_iff.1 hs
  obtain ⟨items', hitems', _⟩ := Option.map_eq_some_iff.1 ht
  obtain ⟨k₁, hk₁, hc⟩ := closure_kernel hitems
  obtain ⟨k₂, hk₂, hc'⟩ := closure_kernel hitems'
  obtain rfl := Option.some.inj (hs.symm.trans hk₁)
  obtain rfl := Option.some.inj (ht.symm.trans hk₂)
  exact Numbering.member?_inj hitems ((hc'.symm.trans hc) ▸ hitems')

/-- **Kernels, entry symbols and the accepting state.** A state other than state 0 has items with moved
    dots; one symbol stands before all of these dots, and every transition into the state is on it. No
    transition enters state 0, which alone holds the initial item of rule 0. The complete item of rule
    0 is in exactly one state, where the transition of state 0 on the start symbol leads. Every state
    is the closure of its kernel, so states with the same kernel are the same. -/
theorem ofGrammar_kernels (g : Grammar) :
    (∀ s items, (ofGrammar g).items? s = some items →
      (s ≠ 0 → ∃ x, (∃ i ∈ items, 0 < i.dot) ∧
        (∀ i ∈ items, 0 < i.dot → i.previous? g = some x) ∧
        ∀ p y, (ofGrammar g).transition? p y = some s → y = x) ∧
      ((⟨0, 0⟩ : Item) ∈ items ↔ s = 0) ∧
      ∃ k, (ofGrammar g).kernel? s = some k ∧ g.closure k.toList = items) ∧
    (∀ p x, (ofGrammar g).transition? p x ≠ some 0) ∧
    (∃ t, (ofGrammar g).transition? 0 (.nonterminal g.start) = some t ∧
      t < (ofGrammar g).size ∧
      ∀ s items, (ofGrammar g).items? s = some items → ((⟨0, 1⟩ : Item) ∈ items ↔ s = t)) ∧
    ∀ s t k, (ofGrammar g).kernel? s = some k → (ofGrammar g).kernel? t = some k → s = t := by
  refine ⟨fun s items hs => ⟨exists_entry hs, initial_mem_iff hs, closure_kernel hs⟩,
    transition?_ne_zero g, ?_, fun s t k => kernel?_inj⟩
  obtain ⟨t, ht⟩ := exists_accepting g
  obtain ⟨_, _, _, hitems⟩ := transition?_iff.1 ht
  refine ⟨t, ht, Numbering.lt_size_of_member? hitems, fun s items hs => ?_⟩
  rw [accepting_mem_iff hs, ht, Option.some.injEq]
  exact eq_comm

end Automaton

end ShiftReduce
