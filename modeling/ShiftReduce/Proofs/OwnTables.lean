import ShiftReduce.Proofs.Runs
import ShiftReduce.Proofs.TableCells
/-!
# A machine with its own tables

`OwnStep` says all that one step can do when the tables were built for the grammar whose rules the
machine reduces by, and the stack spells `γ`: shift the next terminal, reduce a right-hand side at
the end of `γ`, accept when `γ` is the start symbol, or reject. It is the one case analysis of such
a step (`ownStep`), and no case is stuck. So the stack of such a machine spells a string all along
(`Moves.spells`). `Config.StandsAt` is that fact together with the position in the input. If the
build made no finding, valid items get what they ask for (`step_shift`, `step_reduce`,
`step_accept`).
-/

namespace ShiftReduce

/-- What one step of a machine with its own tables can do when the stack spells `γ`. -/
inductive OwnStep (g : Grammar) (t : Tables) (c : Config) (γ : List Symbol) : Step → Prop where
  | shift {id : Terminal} {target : Nat} (hx : c.input.head? = some (.terminal id))
      (hs : (Automaton.ofGrammar g).Spells (c.shift target).stack (γ ++ [.terminal id])) :
      OwnStep g t c γ (.move (.shift target c.position) (c.shift target))
  | reduce {i exposed target : Nat} {r : Rule} {δ : List Symbol} {rest : List Nat}
      (hr : g.rules[i]? = some r) (h0 : i ≠ 0) (he : Entered g δ i) (hγ : γ = δ ++ r.rhs)
      (hf : t.Follows r.lhs c.lookahead) (hd : c.stack.drop r.rhs.length = exposed :: rest)
      (hs : (Automaton.ofGrammar g).Spells (target :: exposed :: rest)
        (δ ++ [.nonterminal r.lhs])) :
      OwnStep g t c γ
        (.move (.reduce i target) ⟨target, exposed :: rest, c.input, c.position⟩)
  | accept (hγ : γ = [.nonterminal g.start]) (hx : c.lookahead = .endOfInput) :
      OwnStep g t c γ .accept
  | reject : OwnStep g t c γ .reject

namespace Config

theorem head?_of_lookahead {c : Config} {id : Terminal} (h : c.lookahead = .terminal id) :
    c.input.head? = some (.terminal id) := by
  unfold lookahead at h
  cases hh : c.input.head? with
  | none =>
    rw [hh] at h
    cases h
  | some x =>
    rw [hh] at h
    exact congrArg some h

end Config

/-! ## 1. Where a machine stands -/

/-- The symbol at a position of the input, `$` at the end. -/
def lookaheadAt (input : List Symbol) (a : Nat) : Symbol := input[a]?.getD .endOfInput

/-- The machine stands at position `a` of the input, and its stack spells `γ`. -/
structure Config.StandsAt (c : Config) (g : Grammar) (input : List Symbol) (γ : List Symbol)
    (a : Nat) : Prop where
  spells : (Automaton.ofGrammar g).Spells c.stack γ
  input_eq : c.input = input.drop a
  position_eq : c.position = a

theorem standsAt_initial (g : Grammar) (input : List Symbol) :
    (Config.initial input).StandsAt g input [] 0 :=
  ⟨.start, rfl, rfl⟩

namespace Config.StandsAt

variable {g : Grammar} {input γ : List Symbol} {a : Nat} {c : Config}

theorem head?_eq (h : c.StandsAt g input γ a) : c.input.head? = input[a]? := by
  rw [h.input_eq, List.head?_drop]

theorem lookahead_eq (h : c.StandsAt g input γ a) : c.lookahead = lookaheadAt input a := by
  rw [Config.lookahead, h.head?_eq]
  rfl

/-- A shift goes one position further. -/
theorem shift (h : c.StandsAt g input γ a) {target : Nat} {x : Symbol}
    (hs : (Automaton.ofGrammar g).Spells (c.shift target).stack (γ ++ [x])) :
    (c.shift target).StandsAt g input (γ ++ [x]) (a + 1) := by
  refine ⟨hs, ?_, congrArg Nat.succ h.position_eq⟩
  show c.input.tail = input.drop (a + 1)
  rw [h.input_eq, List.tail_drop]

/-- A reduction stays at its position. -/
theorem reduce (h : c.StandsAt g input γ a) {target exposed : Nat} {rest : List Nat}
    {γ' : List Symbol} (hs : (Automaton.ofGrammar g).Spells (target :: exposed :: rest) γ') :
    Config.StandsAt ⟨target, exposed :: rest, c.input, c.position⟩ g input γ' a :=
  ⟨hs, h.input_eq, h.position_eq⟩

/-- Where a machine stands is determined by what its stack spells and its position. -/
theorem unique {c' : Config} (h : c.StandsAt g input γ a) (h' : c'.StandsAt g input γ a) :
    c = c' := by
  have hstack := h.spells.unique h'.spells
  have hinput := h.input_eq.trans h'.input_eq.symm
  have hposition := h.position_eq.trans h'.position_eq.symm
  cases c
  cases c'
  cases hinput
  cases hposition
  cases hstack
  rfl

end Config.StandsAt

section

variable {g : Grammar} {b : TableBuild}

/-! ## 2. Every step -/

/-- A reduction by a complete valid item takes its right-hand side off and goes on. -/
theorem ownStep_reduce (hb : TableBuild.ofGrammar g = .ok b) {c : Config} {γ δ : List Symbol}
    (hs : (Automaton.ofGrammar g).Spells c.stack γ) {i : Nat} {r : Rule} (he : Entered g δ i)
    (h0 : i ≠ 0) (hr : g.rules[i]? = some r) (hγ : γ = δ ++ r.rhs) :
    ∃ exposed rest target, c.stack.drop r.rhs.length = exposed :: rest ∧
      (Automaton.ofGrammar g).Spells (target :: exposed :: rest) (δ ++ [.nonterminal r.lhs]) ∧
      (Machine.mk g b.tables).reduce c i =
        .move (.reduce i target) ⟨target, exposed :: rest, c.input, c.position⟩ := by
  subst hγ
  have hdrop := hs.drop
  obtain ⟨exposed, rest, hd⟩ := hdrop.exists_cons
  rw [hd] at hdrop
  obtain ⟨j, hv, hx⟩ := he.exists_valid h0 hr
  obtain ⟨target, ht, hpush⟩ := hdrop.exists_push hv hx
  refine ⟨exposed, rest, target, hd, hpush, ?_⟩
  simp only [Machine.reduce, hr, hd, TableBuild.goto?_eq hb, ht]

/-- **One step of a machine with its own tables.** -/
theorem ownStep (hb : TableBuild.ofGrammar g = .ok b) {c : Config} {γ : List Symbol}
    (hs : (Automaton.ofGrammar g).Spells c.stack γ) :
    OwnStep g b.tables c γ ((Machine.mk g b.tables).step c) := by
  unfold Machine.step
  generalize hx : c.lookahead = x
  cases ha : b.tables.action? c.top x with
  | none => exact .reject
  | some act =>
    obtain ⟨items, hitems, i, hi, hasks⟩ := TableBuild.exists_asks_of_action? hb ha
    rw [TableBuild.automaton_eq hb] at hitems
    have hv : i.ValidFor g γ := (Automaton.Spells.mem_iff hs hitems).1 hi
    cases hasks with
    | shift hn ht =>
      rw [TableBuild.automaton_eq hb] at ht
      exact .shift (Config.head?_of_lookahead hx) (hs.push ht)
    | accept hn h0 =>
      obtain ⟨δ, r, he, hr, hγ⟩ := hv.exists_entered hn
      rw [h0] at he hr
      obtain rfl : r = _ := Option.some.inj (hr.symm.trans g.rule_zero)
      rw [he.eq_nil] at hγ
      exact .accept hγ hx
    | reduce hn h0 hr hf =>
      obtain ⟨δ, r, he, hr', hγ⟩ := hv.exists_entered hn
      obtain rfl := Option.some.inj (hr.symm.trans hr')
      obtain ⟨exposed, rest, target, hd, hpush, hred⟩ := ownStep_reduce hb hs he h0 hr hγ
      show OwnStep g b.tables c γ ((Machine.mk g b.tables).reduce c i.rule)
      rw [hred]
      exact .reduce hr h0 he hγ (hx ▸ hf) hd hpush

namespace Machine

/-- **The stack of a machine with its own tables always spells a string.** -/
theorem Moves.spells (hb : TableBuild.ofGrammar g = .ok b) {ms : List Move} {c c' : Config}
    (h : (Machine.mk g b.tables).Moves c ms c')
    (hs : ∃ γ, (Automaton.ofGrammar g).Spells c.stack γ) :
    ∃ γ, (Automaton.ofGrammar g).Spells c'.stack γ := by
  refine h.invariant (P := fun _ c => ∃ γ, (Automaton.ofGrammar g).Spells c.stack γ)
    (fun past c move c' hP hstep => ?_) [] hs
  obtain ⟨γ, hγ⟩ := hP
  have ho := ownStep hb hγ
  rw [hstep] at ho
  cases ho with
  | shift hx hs => exact ⟨_, hs⟩
  | reduce hr h0 he hγ hf hd hs => exact ⟨_, hs⟩

theorem spells_initial (g : Grammar) (input : List Symbol) :
    (Automaton.ofGrammar g).Spells (Config.initial input).stack [] := .start

/-- **A machine with its own tables never gets stuck on its way.** -/
theorem not_stuck_of_moves (hb : TableBuild.ofGrammar g = .ok b) {input : List Symbol}
    {ms : List Move} {c : Config} (h : (Machine.mk g b.tables).Moves (.initial input) ms c)
    (state : Nat) (defect : TableDefect) : (Machine.mk g b.tables).step c ≠ .stuck state defect := by
  obtain ⟨γ, hγ⟩ := h.spells hb ⟨[], spells_initial g input⟩
  intro hstep
  have ho := ownStep hb hγ
  rw [hstep] at ho
  cases ho

/-- **A machine with its own tables accepts or rejects** if all its moves stay below the bound. -/
theorem exists_run_of_length_lt (hb : TableBuild.ofGrammar g = .ok b) {input : List Symbol}
    {bound : Nat} (hlt : ∀ ms c, (Machine.mk g b.tables).Moves (.initial input) ms c →
      ms.length < bound) : ∃ r, (Machine.mk g b.tables).run bound input = .ok r := by
  obtain ⟨ms, c, hm, hend⟩ := (Machine.mk g b.tables).run_cases bound input
  rcases hend with ⟨hl, _⟩ | ⟨_, hf⟩
  · exact absurd hl (Nat.ne_of_lt (hlt ms c hm))
  · generalize (Machine.mk g b.tables).run bound input = result at hf
    cases hf with
    | accept hs => exact ⟨_, rfl⟩
    | reject hs => exact ⟨_, rfl⟩
    | stuck hs => exact absurd hs (not_stuck_of_moves hb hm _ _)

/-- A run of a machine with its own tables fails at its bound only. -/
theorem error_of_run (hb : TableBuild.ofGrammar g = .ok b) {input : List Symbol} {bound : Nat}
    {e : RunError} (h : (Machine.mk g b.tables).run bound input = .error e) :
    e = .boundExceeded bound := by
  obtain ⟨ms, c, hm, hend⟩ := (Machine.mk g b.tables).run_cases bound input
  rw [h] at hend
  rcases hend with ⟨_, he⟩ | ⟨_, hf⟩
  · exact Except.error.inj he
  · cases hf with
    | stuck hs => exact absurd hs (not_stuck_of_moves hb hm _ _)

end Machine

/-! ## 3. Without findings -/

/-- Without findings the table has whatever a valid item asks for. -/
theorem action?_of_valid (hb : TableBuild.ofGrammar g = .ok b) (hd : b.diagnostics = [])
    {c : Config} {γ : List Symbol} (hs : (Automaton.ofGrammar g).Spells c.stack γ) {i : Item}
    (hv : i.ValidFor g γ) {x : Symbol} {act : Action} (ha : i.Asks g b.tables c.top x act) :
    b.tables.action? c.top x = some act := by
  obtain ⟨items, hitems, hr⟩ := hs.represents
  rw [← TableBuild.automaton_eq hb] at hitems
  exact TableBuild.action?_of_asks hb hd hitems ((hr i).2 hv) ha

/-- **The next terminal of a valid item is shifted.** -/
theorem step_shift (hb : TableBuild.ofGrammar g = .ok b) (hd : b.diagnostics = []) {c : Config}
    {γ : List Symbol} (hs : (Automaton.ofGrammar g).Spells c.stack γ) {i : Item}
    (hv : i.ValidFor g γ) {id : Terminal} (hn : i.next? g = some (.terminal id))
    (hx : c.lookahead = .terminal id) :
    ∃ target, (Machine.mk g b.tables).step c = .move (.shift target c.position) (c.shift target) ∧
      (Automaton.ofGrammar g).Spells (c.shift target).stack (γ ++ [.terminal id]) := by
  obtain ⟨target, ht, hpush⟩ := hs.exists_push hv hn
  refine ⟨target, ?_, hpush⟩
  have ha := action?_of_valid hb hd hs hv (.shift hn ((TableBuild.automaton_eq hb).symm ▸ ht))
  rw [Machine.step, hx, ha]

/-- The item of a rule with its dot at the end. -/
theorem complete_valid {δ : List Symbol} {i : Nat} {r : Rule} (he : Entered g δ i)
    (hr : g.rules[i]? = some r) :
    Item.ValidFor g (δ ++ r.rhs) ⟨i, r.rhs.length⟩ ∧ Item.next? g ⟨i, r.rhs.length⟩ = none := by
  refine ⟨⟨δ, r, he, hr, Nat.le_refl _, by rw [List.take_length]⟩, ?_⟩
  cases hn : Item.next? g ⟨i, r.rhs.length⟩ with
  | none => rfl
  | some x =>
    obtain ⟨r', hr', hx⟩ := Item.next?_eq_some_iff.1 hn
    obtain rfl : r = r' := Option.some.inj (hr.symm.trans hr')
    exact absurd (List.getElem?_eq_some_iff.1 hx).1 (Nat.lt_irrefl _)

/-- **A right-hand side that was read is reduced** where its left-hand side can be followed by the
    lookahead. -/
theorem step_reduce (hb : TableBuild.ofGrammar g = .ok b) (hd : b.diagnostics = []) {c : Config}
    {δ : List Symbol} {i : Nat} {r : Rule} (he : Entered g δ i) (h0 : i ≠ 0)
    (hr : g.rules[i]? = some r) (hs : (Automaton.ofGrammar g).Spells c.stack (δ ++ r.rhs))
    (hf : b.tables.Follows r.lhs c.lookahead) :
    ∃ exposed rest target, (Machine.mk g b.tables).step c =
        .move (.reduce i target) ⟨target, exposed :: rest, c.input, c.position⟩ ∧
      (Automaton.ofGrammar g).Spells (target :: exposed :: rest) (δ ++ [.nonterminal r.lhs]) := by
  obtain ⟨hv, hn⟩ := complete_valid he hr
  have ha := action?_of_valid hb hd hs hv (.reduce hn h0 hr hf)
  obtain ⟨exposed, rest, target, _, hpush, hred⟩ := ownStep_reduce hb hs he h0 hr rfl
  refine ⟨exposed, rest, target, ?_, hpush⟩
  rw [Machine.step, ha]
  exact hred

/-- **The start symbol is accepted** at the end of the input. -/
theorem step_accept (hb : TableBuild.ofGrammar g = .ok b) (hd : b.diagnostics = []) {c : Config}
    (hs : (Automaton.ofGrammar g).Spells c.stack [.nonterminal g.start])
    (hx : c.lookahead = .endOfInput) : (Machine.mk g b.tables).step c = .accept := by
  obtain ⟨hv, hn⟩ := complete_valid .start g.rule_zero
  have ha := action?_of_valid hb hd hs hv (.accept hn rfl)
  rw [Machine.step, hx, ha]

end

end ShiftReduce
