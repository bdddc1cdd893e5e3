import ShiftReduce.Lookahead.First
import ShiftReduce.Proofs.LeastTable
import ShiftReduce.Proofs.Yields
/-!
# FIRST sets are exact

`Opens rules α m` says without any table that `m` can stand first in what `α` becomes, or, for `ε`,
that `α` can vanish. The table `firstSets` finds exactly these symbols.

* `firstOf_of_rewrites` -- in a table that is closed under the rules, what a string becomes opens
  with nothing that the string itself does not open with;
* `opens_of_firstOf` -- a table that has nothing too much for the symbols of a string has nothing
  too much for the string;
* `mem_firstSymbols_firstSets` -- `firstSets` is exact;
* `firstSets_exact` -- the same said symbol by symbol, and of the sets that the table lists.

The rules may be any list: marks, terminals without a slot and nonterminals without a rule are
symbols like others, which no rule replaces.
-/

namespace ShiftReduce

/-! ## 1. How a string can begin -/

/-- `m` stands first in something that `α` becomes; for `ε`, `α` can vanish. -/
inductive Opens (rules : List Rule) (α : List Symbol) : Symbol → Prop where
  | vanish (h : Rewrites rules α []) : Opens rules α .epsilon
  | begin {m : Symbol} {rest : List Symbol} (hm : m ≠ .epsilon) (h : Rewrites rules α (m :: rest)) :
      Opens rules α m

namespace Opens

variable {rules : List Rule} {α β : List Symbol} {m : Symbol}

theorem self (hm : m ≠ .epsilon) : Opens rules [m] m := .begin hm .refl

theorem vanishes (h : Opens rules α .epsilon) : Rewrites rules α [] := by
  cases h with
  | vanish h => exact h
  | begin hm _ => exact absurd rfl hm

theorem exists_rewrites (h : Opens rules α m) (hm : m ≠ .epsilon) :
    ∃ rest, Rewrites rules α (m :: rest) := by
  cases h with
  | vanish _ => exact absurd rfl hm
  | begin _ h => exact ⟨_, h⟩

theorem epsilon_iff : Opens rules α .epsilon ↔ Rewrites rules α [] := ⟨vanishes, .vanish⟩

theorem iff_exists_rewrites (hm : m ≠ .epsilon) :
    Opens rules α m ↔ ∃ rest, Rewrites rules α (m :: rest) :=
  ⟨fun h => h.exists_rewrites hm, fun ⟨_, h⟩ => .begin hm h⟩

/-- A string begins as what it becomes begins. -/
theorem of_rewrites (h : Rewrites rules α β) (hm : Opens rules β m) : Opens rules α m := by
  cases hm with
  | vanish hv => exact .vanish (h.trans hv)
  | begin hm hb => exact .begin hm (h.trans hb)

/-- A string begins as its front does, as long as that does not vanish. -/
theorem append_left (h : Opens rules α m) (hm : m ≠ .epsilon) (β : List Symbol) :
    Opens rules (α ++ β) m := by
  obtain ⟨rest, hr⟩ := h.exists_rewrites hm
  exact .begin hm (hr.append (.refl (α := β)))

/-- Behind a front that can vanish a string begins as the rest does. -/
theorem append_right (h : Rewrites rules α []) (hm : Opens rules β m) : Opens rules (α ++ β) m :=
  .of_rewrites (h.append (.refl (α := β))) hm

end Opens

/-! ## 2. The set of a string -/

variable {t : Slots}

theorem Slots.slot?_eq_zero_iff {x : Symbol} : t.slot? x = some 0 ↔ x = .epsilon := by
  rw [Slots.slot?_eq_some_iff]
  exact ⟨fun h => (Option.some.inj h).symm, fun h => congrArg some h.symm⟩

/-- The marks and the listed terminals have a slot, and no other symbol has. -/
theorem Slots.exists_slot?_iff {x : Symbol} : (∃ i, t.slot? x = some i) ↔
    x = .epsilon ∨ x = .endOfInput ∨ ∃ id ∈ t.terminals, x = .terminal id := by
  cases x with
  | epsilon => exact ⟨fun _ => .inl rfl, fun _ => ⟨0, rfl⟩⟩
  | endOfInput => exact ⟨fun _ => .inr (.inl rfl), fun _ => ⟨1, rfl⟩⟩
  | terminal id =>
    have hslot : (∃ i, t.slot? (.terminal id) = some i) ↔ id ∈ t.terminals := by
      rw [Numbering.mem_iff_number?]
      exact ⟨fun ⟨_, hi⟩ => (Option.map_eq_some_iff.1 hi).imp fun _ hj => hj.1,
        fun ⟨j, hj⟩ => ⟨j + 2, Option.map_eq_some_iff.2 ⟨j, hj, rfl⟩⟩⟩
    rw [hslot]
    simp
  | nonterminal n => simp [slot?]

theorem Slots.zero_lt_blocks (t : Slots) : 0 < 64 * t.blocks :=
  Slots.lt_blocks (t := t) (x := .epsilon) rfl

namespace SetTable

variable {T : SetTable t} {xs ys : List Symbol} {i : Nat}

theorem contains_firstOf_nil : (T.firstOf []).contains i = true ↔ i = 0 := by
  rw [firstOf, SlotSet.contains_singleton]
  simp [t.zero_lt_blocks, eq_comm]

/-- The set of a string has what its first symbol has, but `ε`, and what the rest has if the first
    symbol can vanish. -/
theorem contains_firstOf_cons {x : Symbol} : (T.firstOf (x :: xs)).contains i = true ↔
    (i ≠ 0 ∧ T.Has x i) ∨ (T.Has x 0 ∧ (T.firstOf xs).contains i = true) := by
  unfold Has
  rw [firstOf, set]
  cases hx : T.set? x with
  | none => simp
  | some s =>
    cases h0 : s.contains 0 with
    | true =>
      have hne : 0 ≠ i ↔ i ≠ 0 := ne_comm
      simp [h0, hne, and_comm]
    | false =>
      have hne : s.contains i = true → i ≠ 0 := by
        intro hi hi0
        rw [hi0, h0] at hi
        cases hi
      simp [h0]
      exact hne

theorem contains_firstOf_append : (T.firstOf (xs ++ ys)).contains i = true ↔
    (i ≠ 0 ∧ (T.firstOf xs).contains i = true) ∨
      ((T.firstOf xs).contains 0 = true ∧ (T.firstOf ys).contains i = true) := by
  induction xs with
  | nil => simp [contains_firstOf_nil]
  | cons x xs ih =>
    rw [List.cons_append, contains_firstOf_cons, contains_firstOf_cons, contains_firstOf_cons, ih]
    by_cases h0 : i = 0
    · simp [h0, and_assoc]
    · simp only [h0, ne_eq, not_false_eq_true, not_true_eq_false, true_and, false_and, false_or]
      constructor
      · intro h
        rcases h with h | ⟨hx, h | ⟨hxs, h⟩⟩
        · exact .inl (.inl h)
        · exact .inl (.inr ⟨hx, h⟩)
        · exact .inr ⟨⟨hx, hxs⟩, h⟩
      · intro h
        rcases h with (h | ⟨hx, h⟩) | ⟨⟨hx, hxs⟩, h⟩
        · exact .inl h
        · exact .inr ⟨hx, .inl h⟩
        · exact .inr ⟨hx, .inr ⟨hxs, h⟩⟩

theorem contains_firstOf_singleton {x : Symbol} :
    (T.firstOf [x]).contains i = true ↔ T.Has x i := by
  rw [contains_firstOf_cons, contains_firstOf_nil]
  by_cases h0 : i = 0
  · simp [h0]
  · simp [h0]

/-- The set of a key is the set of the string that it is. -/
theorem members?_eq_firstSymbols {x : Symbol} (hx : x ∈ T.keys) :
    T.members? x = some (T.firstSymbols [x]) := by
  cases hs : T.set? x with
  | none => exact absurd hx (set?_eq_none_iff.1 hs)
  | some s =>
    have hset : T.firstOf [x] = s := by
      refine SlotSet.ext_contains fun i => Bool.eq_iff_iff.2 ?_
      rw [contains_firstOf_singleton, Has, set, hs, Option.getD_some]
    rw [members?, hs, firstSymbols, hset]
    rfl

/-! ## 3. Nothing is missing -/

/-- The table is closed under the rules: a left-hand side has the set of each of its right-hand
    sides. -/
def Closed (T : SetTable t) (rules : List Rule) : Prop :=
  ∀ r ∈ rules, ∀ i, (T.firstOf r.rhs).contains i = true → T.Has (.nonterminal r.lhs) i

variable {rules : List Rule}

/-- **In a closed table a string has the set of whatever it becomes.** -/
theorem firstOf_of_rewrites (hc : T.Closed rules) {α β : List Symbol} (h : Rewrites rules α β)
    (hi : (T.firstOf β).contains i = true) : (T.firstOf α).contains i = true := by
  induction h generalizing i with
  | refl => exact hi
  | tail _ s ih =>
    refine ih ?_
    cases s with
    | replace front back r hr =>
      have hlhs := hc r hr
      rw [List.append_assoc, contains_firstOf_append, contains_firstOf_append] at hi
      rw [contains_firstOf_append, contains_firstOf_cons]
      rcases hi with hf | ⟨hf, hm | ⟨h0, hb⟩⟩
      · exact .inl hf
      · exact .inr ⟨hf, .inl ⟨hm.1, hlhs i hm.2⟩⟩
      · exact .inr ⟨hf, .inr ⟨hlhs 0 h0, hb⟩⟩

/-- A closed table in which a symbol begins with itself misses nothing. -/
theorem firstOf_of_opens (hc : T.Closed rules) {α : List Symbol} {m : Symbol}
    (hs : t.slot? m = some i) (hself : m ≠ .epsilon → T.Has m i) (h : Opens rules α m) :
    (T.firstOf α).contains i = true := by
  cases h with
  | vanish h =>
    obtain rfl : 0 = i := Option.some.inj hs
    exact firstOf_of_rewrites hc h (contains_firstOf_nil.2 rfl)
  | begin hm h =>
    have h0 : i ≠ 0 := fun h0 => hm (Slots.slot?_eq_zero_iff.1 (h0 ▸ hs))
    exact firstOf_of_rewrites hc h (contains_firstOf_cons.2 (.inl ⟨h0, hself hm⟩))

/-! ## 4. Nothing is too much -/

/-- All that the table has for `x` are slots of symbols that `x` can begin with. -/
def SoundFor (T : SetTable t) (rules : List Rule) (x : Symbol) : Prop :=
  ∀ i, T.Has x i → ∃ m, t.symbol? i = some m ∧ Opens rules [x] m

/-- A slot other than that of `ε` holds another symbol. -/
theorem ne_epsilon_of_symbol? {m : Symbol} (h : t.symbol? i = some m) (h0 : i ≠ 0) :
    m ≠ .epsilon := by
  intro hm
  subst hm
  have hs := Slots.slot?_eq_some_iff.2 h
  exact h0 (Option.some.inj hs).symm

/-- **A table that has nothing too much for the symbols of a string has nothing too much for the
    string.** -/
theorem opens_of_firstOf (hs : ∀ x ∈ xs, T.SoundFor rules x)
    (hi : (T.firstOf xs).contains i = true) :
    ∃ m, t.symbol? i = some m ∧ Opens rules xs m := by
  induction xs with
  | nil =>
    rw [contains_firstOf_nil.1 hi]
    exact ⟨.epsilon, rfl, .vanish .refl⟩
  | cons x xs ih =>
    obtain ⟨hx, hxs⟩ := List.forall_mem_cons.1 hs
    rcases contains_firstOf_cons.1 hi with ⟨h0, hi⟩ | ⟨h0, hi⟩
    · obtain ⟨m, hm, ho⟩ := hx i hi
      exact ⟨m, hm, ho.append_left (ne_epsilon_of_symbol? hm h0) xs⟩
    · obtain ⟨m, hm, ho⟩ := ih hxs hi
      obtain ⟨_, he, hv⟩ := hx 0 h0
      cases he
      exact ⟨m, hm, Opens.append_right hv.vanishes ho⟩

/-- A closed table without too much has for a string the slots of what the string can begin
    with. -/
theorem contains_firstOf_iff (hc : T.Closed rules)
    (hself : ∀ x i, t.slot? x = some i → x ≠ .epsilon → T.Has x i)
    (hs : ∀ x ∈ xs, T.SoundFor rules x) :
    (T.firstOf xs).contains i = true ↔ ∃ m, t.symbol? i = some m ∧ Opens rules xs m := by
  refine ⟨opens_of_firstOf hs, fun ⟨m, hm, ho⟩ => ?_⟩
  have hslot := Slots.slot?_eq_some_iff.2 hm
  exact firstOf_of_opens hc hslot (hself m i hslot) ho

/-- **A closed table without too much is exact**: the set of a string holds the symbols with a slot
    that the string can begin with, and `ε` exactly when it can vanish. -/
theorem mem_firstSymbols_iff (hc : T.Closed rules)
    (hself : ∀ x i, t.slot? x = some i → x ≠ .epsilon → T.Has x i)
    (hs : ∀ x ∈ xs, T.SoundFor rules x) {m : Symbol} :
    m ∈ T.firstSymbols xs ↔ (∃ i, t.slot? m = some i) ∧ Opens rules xs m := by
  rw [firstSymbols, Slots.mem_symbolsOf]
  constructor
  · intro ⟨i, hm, hi⟩
    obtain ⟨m', hm', ho⟩ := (contains_firstOf_iff hc hself hs).1 hi
    obtain rfl : m = m' := Option.some.inj ((Slots.slot?_eq_some_iff.1 hm).symm.trans hm')
    exact ⟨⟨i, hm⟩, ho⟩
  · intro ⟨⟨i, hm⟩, ho⟩
    exact ⟨i, hm, (contains_firstOf_iff hc hself hs).2 ⟨m, Slots.slot?_eq_some_iff.1 hm, ho⟩⟩

/-- The set of a symbol is the set of the string that it is. -/
theorem mem_firstSymbols_singleton {x m : Symbol} :
    m ∈ T.firstSymbols [x] ↔ T.contains x m = true := by
  rw [firstSymbols, Slots.mem_symbolsOf, contains_iff]
  simp only [contains_firstOf_singleton]

end SetTable

/-! ## 5. The table of a list of rules -/

section

open SetTable

variable {rules : List Rule} {x m : Symbol} {i : Nat}

/-- A listed terminal and `$` begin with themselves. -/
theorem has_firstSets_self (hs : t.slot? x = some i) (hx : x ≠ .epsilon) :
    (firstSets rules t).Has x i := by
  refine has_saturate (has_ofKeys.2 ⟨?_, ?_⟩)
  · rw [firstKeys, Numbering.mem_ofList]
    cases x with
    | terminal id =>
      obtain ⟨j, hj, _⟩ := Option.map_eq_some_iff.1 hs
      have hmem : id ∈ t.terminals.toList := Numbering.mem_iff_number?.2 ⟨j, hj⟩
      exact List.mem_append_left _ (List.mem_map_of_mem hmem)
    | nonterminal id => cases hs
    | endOfInput => exact List.mem_append_right _ List.mem_cons_self
    | epsilon => exact absurd rfl hx
  · rw [hs, Option.elim_some, SlotSet.contains_singleton]
    simp [Slots.lt_blocks hs]

theorem mem_keys_firstSets {n : Nonterminal} (hn : n ∈ nonterminalsOf rules) :
    .nonterminal n ∈ (firstSets rules t).keys := by
  rw [firstSets, keys_saturate]
  show _ ∈ firstKeys rules t
  rw [firstKeys, Numbering.mem_ofList]
  exact List.mem_append_right _ (List.mem_cons_of_mem _ (List.mem_map_of_mem hn))

/-- **The table is closed under its rules.** -/
theorem closed_firstSets (rules : List Rule) (t : Slots) : (firstSets rules t).Closed rules := by
  intro r hr
  have hn : r.lhs ∈ nonterminalsOf rules := mem_nonterminalsOf.2 ⟨r, hr, .inl rfl⟩
  have hc : r.firstInclusion t ∈ rules.map (Rule.firstInclusion t) := List.mem_map_of_mem hr
  exact holds_saturate (firstBase rules t) _ (mem_forth_and_back.2 hc) (mem_keys_firstSets hn)

/-- What the table starts with: listed terminals and `$`, each for itself. -/
theorem of_has_firstBase (h : (firstBase rules t).Has x i) : t.symbol? i = some x := by
  obtain ⟨_, hi⟩ := has_ofKeys.1 h
  cases hs : t.slot? x with
  | none =>
    rw [hs, Option.elim_none, SlotSet.contains_empty] at hi
    cases hi
  | some j =>
    rw [hs, Option.elim_some, SlotSet.contains_singleton] at hi
    have hj : j = i := by
      simp only [Bool.and_eq_true, decide_eq_true_eq] at hi
      exact hi.2
    exact Slots.slot?_eq_some_iff.1 (hj ▸ hs)

/-- What holds of every symbol with a slot for itself, `ε` apart, and is handed on from right-hand
    sides to left-hand sides holds of all that the table has. -/
theorem firstSets_least {P : Symbol → Nat → Prop}
    (hself : ∀ x i, t.symbol? i = some x → x ≠ .epsilon → P x i)
    (hrule : ∀ r ∈ rules, ∀ T : SetTable t, Within P T → ∀ i,
      (T.firstOf r.rhs).contains i = true → P (.nonterminal r.lhs) i) :
    Within P (firstSets rules t) := by
  refine saturate_least (fun c hc T hT i hi => ?_) fun x i hx => ?_
  · obtain ⟨r, hr, rfl⟩ := List.mem_map.1 (mem_forth_and_back.1 hc)
    exact hrule r hr T hT i hi
  · refine hself x i (of_has_firstBase hx) fun he => ?_
    subst he
    have hk := (has_ofKeys.1 hx).1
    rw [firstKeys, Numbering.mem_ofList] at hk
    simp at hk

theorem soundFor_firstSets (rules : List Rule) (t : Slots) (x : Symbol) :
    (firstSets rules t).SoundFor rules x := by
  refine firstSets_least (P := fun x i => ∃ m, t.symbol? i = some m ∧ Opens rules [x] m)
    (fun x i hi hx => ⟨x, hi, .self hx⟩) (fun r hr T hT i hi => ?_) x
  obtain ⟨m, hm, ho⟩ := opens_of_firstOf (fun x _ => hT x) hi
  exact ⟨m, hm, .of_rewrites (.of_mem hr) ho⟩

/-- **FIRST is exact** for every list of rules. -/
theorem mem_firstSymbols_firstSets {α : List Symbol} : m ∈ (firstSets rules t).firstSymbols α ↔
    (∃ i, t.slot? m = some i) ∧ Opens rules α m :=
  mem_firstSymbols_iff (closed_firstSets rules t) (fun _ _ hs hm => has_firstSets_self hs hm)
    fun x _ => soundFor_firstSets rules t x

/-- **FIRST says how a string can begin**, whatever the rules are: `ε` exactly if the string can
    vanish, `$` or a listed terminal exactly if it stands first in something that the string becomes,
    and no other symbol. The set of a nonterminal of the rules is the set of the string that it is. -/
theorem firstSets_exact (rules : List Rule) (t : Slots) (β : List Symbol) :
    (.epsilon ∈ (firstSets rules t).firstSymbols β ↔ Rewrites rules β []) ∧
    (.endOfInput ∈ (firstSets rules t).firstSymbols β ↔
      ∃ rest, Rewrites rules β (.endOfInput :: rest)) ∧
    (∀ id, .terminal id ∈ (firstSets rules t).firstSymbols β ↔
      id ∈ t.terminals ∧ ∃ rest, Rewrites rules β (.terminal id :: rest)) ∧
    (∀ n, .nonterminal n ∉ (firstSets rules t).firstSymbols β) ∧
    ∀ n ∈ nonterminalsOf rules, (firstSets rules t).members? (.nonterminal n) =
      some ((firstSets rules t).firstSymbols [.nonterminal n]) := by
  have hmem : ∀ m, m ∈ (firstSets rules t).firstSymbols β ↔
      (∃ i, t.slot? m = some i) ∧ Opens rules β m := fun _ => mem_firstSymbols_firstSets
  refine ⟨?_, ?_, fun id => ?_, fun n h => ?_, fun n hn =>
    members?_eq_firstSymbols (mem_keys_firstSets hn)⟩
  · rw [hmem, Slots.exists_slot?_iff, Opens.epsilon_iff]
    simp
  · rw [hmem, Slots.exists_slot?_iff, Opens.iff_exists_rewrites (by simp)]
    simp
  · rw [hmem, Slots.exists_slot?_iff, Opens.iff_exists_rewrites (by simp)]
    simp
  · obtain ⟨_, hs⟩ := ((hmem _).1 h).1
    cases hs

end

/-- `A -> B $`, `B -> x B |`, `C -> ε D` and `C -> y B`, with `ε` written out: no rules of a grammar.
    Of the two terminals only `y`, terminal 1, will be listed. -/
def strayRules : List Rule :=
  [⟨0, [.nonterminal 1, .endOfInput]⟩,
    ⟨1, [.terminal 0, .nonterminal 1]⟩,
    ⟨1, []⟩,
    ⟨2, [.epsilon, .nonterminal 3]⟩,
    ⟨2, [.terminal 1, .nonterminal 1]⟩]

/-- `A` can begin with `$`, since `B` can vanish; an `ε` that is written out never vanishes, so `C`
    does not. Nothing is listed for `D`, which has no rule. -/
theorem strayRules_first :
    3 ∈ nonterminalsOf strayRules ∧
      (firstSets strayRules (.ofList [1])).members? (.nonterminal 3) = some [] ∧
      (∃ rest, Rewrites strayRules [.nonterminal 0] (.endOfInput :: rest)) ∧
      ¬ Rewrites strayRules [.nonterminal 2] [] := by
  obtain ⟨-, hend, -, -, hlisted⟩ := firstSets_exact strayRules (.ofList [1]) [.nonterminal 0]
  obtain ⟨hvanish, -⟩ := firstSets_exact strayRules (.ofList [1]) [.nonterminal 2]
  have hkey : 3 ∈ nonterminalsOf strayRules := by decide +kernel
  refine ⟨hkey, (hlisted 3 hkey).trans ?_, hend.1 ?_, mt hvanish.2 ?_⟩
  · decide +kernel
  · decide +kernel
  · decide +kernel

end ShiftReduce
