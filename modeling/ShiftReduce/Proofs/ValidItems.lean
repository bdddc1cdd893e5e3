import ShiftReduce.Item.Closure
import ShiftReduce.Item.Validity
/-!
# Closure and goto hold exactly the valid items

The valid items of a string are said by chains of rules (`Item.ValidFor`), the states of the
automaton are computed by closure and goto. Both are the same sets:

* `closure_closed`, `closure_induction` -- the closure is the least set that holds the given items
  and, for every nonterminal after a dot, the initial items of its rules;
* `represents_start` -- the closure of the initial item of rule 0 holds the items valid for the
  empty string;
* `Represents.goto` -- going over `x` leads from the items valid for `γ` to those valid for
  `γ ++ [x]`.
-/

namespace ShiftReduce

namespace Grammar

variable {g : Grammar}

/-! ## 1. The closure is the least closed set -/

/-- What a nonterminal after a dot of the closure pulls in is in the closure. -/
theorem closure_closed {items : List Item} {i : Item} {n : Nonterminal} {j : Nat}
    (hi : i ∈ g.closure items) (hn : i.next? g = some (.nonterminal n)) (hj : j ∈ g.rulesFor n) :
    ⟨j, 0⟩ ∈ g.closure items := by
  have hp : g.Pulls (g.nextNonterminals items) n := by
    rcases g.mem_closure.1 hi with hi | ⟨hd, m, hm, hi⟩
    · exact .wanted (g.mem_nextNonterminals.2 ⟨i, hi, hn⟩)
    · obtain ⟨r, d⟩ := i
      obtain rfl : d = 0 := hd
      exact .opens hm hi hn
  exact g.mem_closure.2 (.inr ⟨rfl, n, hp, hj⟩)

/-- **What holds of the given items and passes from an item to the initial items that it pulls in
    holds of the closure.** -/
theorem closure_induction {items : List Item} {P : Item → Prop} (hi : ∀ i ∈ items, P i)
    (hs : ∀ i n j, P i → i.next? g = some (.nonterminal n) → j ∈ g.rulesFor n → P ⟨j, 0⟩) :
    ∀ i ∈ g.closure items, P i := by
  have hp : ∀ n, g.Pulls (g.nextNonterminals items) n →
      ∃ i, P i ∧ i.next? g = some (.nonterminal n) := by
    intro n hn
    induction hn with
    | wanted h =>
      obtain ⟨i, him, hx⟩ := g.mem_nextNonterminals.1 h
      exact ⟨i, hi i him, hx⟩
    | @opens m n j _ hj hx ih =>
      obtain ⟨i, hP, hm⟩ := ih
      exact ⟨⟨j, 0⟩, hs i m j hP hm hj, hx⟩
  intro i him
  rcases g.mem_closure.1 him with him | ⟨hd, n, hn, hr⟩
  · exact hi i him
  · obtain ⟨j, hP, hx⟩ := hp n hn
    obtain ⟨r, d⟩ := i
    obtain rfl : d = 0 := hd
    exact hs j n r hP hx hr

end Grammar

/-! ## 2. Sets of valid items -/

/-- The set holds exactly the items valid for `γ`. -/
def ItemSet.Represents (g : Grammar) (s : ItemSet) (γ : List Symbol) : Prop :=
  ∀ i : Item, i ∈ s ↔ i.ValidFor g γ

namespace Item

variable {g : Grammar} {γ : List Symbol}

/-- A chain that goes on behind `η` makes the item in front of the next nonterminal valid. -/
theorem validFor_of_entered {δ η τ : List Symbol} {i : Nat} {r : Rule} (h : Entered g δ i)
    (hr : g.rules[i]? = some r) {x : Symbol} (hb : r.rhs = η ++ x :: τ) :
    Item.ValidFor g (δ ++ η) ⟨i, η.length⟩ ∧ Item.next? g ⟨i, η.length⟩ = some x := by
  constructor
  · exact ⟨δ, r, h, hr, by rw [hb]; simp, by rw [hb]; simp⟩
  · exact next?_eq_some_iff.2 ⟨r, hr, by rw [hb]; simp⟩

/-- A valid item with its dot behind a symbol was valid in front of that symbol. -/
theorem ValidFor.retreat {x : Symbol} {rule dot : Nat}
    (h : Item.ValidFor g (γ ++ [x]) ⟨rule, dot + 1⟩) :
    Item.ValidFor g γ ⟨rule, dot⟩ ∧ Item.next? g ⟨rule, dot⟩ = some x := by
  obtain ⟨δ, r, he, hr, hle, hγ⟩ := h
  have hlt : dot < r.rhs.length := hle
  have hget : r.rhs[dot]? = some r.rhs[dot] := List.getElem?_eq_getElem hlt
  have hsplit : γ ++ [x] = (δ ++ r.rhs.take dot) ++ [r.rhs[dot]] := by
    rw [hγ, List.take_add_one, hget, Option.toList_some, List.append_assoc]
  obtain ⟨hγ', hx⟩ := List.append_inj' hsplit rfl
  obtain rfl : x = r.rhs[dot] := List.singleton_inj.1 hx
  exact ⟨⟨δ, r, he, hr, Nat.le_of_lt hlt, hγ'⟩, next?_eq_some_iff.2 ⟨r, hr, hget⟩⟩

/-- **A closed set with the valid items whose dots have moved holds every valid item.** -/
theorem ValidFor.mem_of_closed {s : ItemSet}
    (hc : ∀ i n j, i ∈ s → i.next? g = some (.nonterminal n) → j ∈ g.rulesFor n → ⟨j, 0⟩ ∈ s)
    (hk : ∀ i : Item, i.ValidFor g γ → 0 < i.dot → i ∈ s) (h0 : γ = [] → ⟨0, 0⟩ ∈ s) {i : Item}
    (h : i.ValidFor g γ) : i ∈ s := by
  have hstart : ∀ δ j, Entered g δ j → δ = γ → ⟨j, 0⟩ ∈ s := by
    intro δ j he
    induction he with
    | start => exact fun hδ => h0 hδ.symm
    | @enter δ η τ i j r t hi hr hs hb ih =>
      intro hδ
      obtain ⟨hv, hx⟩ := validFor_of_entered hi hr hb
      have hm : (⟨i, η.length⟩ : Item) ∈ s := by
        cases η with
        | nil => exact ih (by simpa using hδ)
        | cons y ys => exact hk _ (hδ ▸ hv) (Nat.succ_pos _)
      exact hc _ _ j hm hx (g.mem_rulesFor.2 ⟨t, hs, rfl⟩)
  obtain ⟨rule, dot⟩ := i
  cases dot with
  | succ d => exact hk _ h (Nat.succ_pos d)
  | zero =>
    obtain ⟨δ, r, he, _, _, hγ⟩ := h
    exact hstart δ rule he (by simpa using hγ.symm)

end Item

/-! ## 3. How rules are entered -/

/-- A rule other than rule 0 is entered behind a valid item with its left-hand side next. -/
theorem Entered.exists_valid {g : Grammar} {δ : List Symbol} {j : Nat} (h : Entered g δ j)
    (hj : j ≠ 0) {s : Rule} (hs : g.rules[j]? = some s) :
    ∃ i : Item, i.ValidFor g δ ∧ i.next? g = some (.nonterminal s.lhs) := by
  cases h with
  | start => exact absurd rfl hj
  | @enter δ η τ i j r s' hi hr hs' hb =>
    obtain rfl : s = s' := Option.some.inj (hs.symm.trans hs')
    obtain ⟨hv, hx⟩ := Item.validFor_of_entered hi hr hb
    exact ⟨_, hv, hx⟩

/-- No right-hand side refers to the left-hand side of rule 0. -/
theorem Grammar.ne_zero_of_mem_rhs {g : Grammar} {i j : Nat} {r s : Rule}
    (hr : g.rules[i]? = some r) (hs : g.rules[j]? = some s)
    (hm : Symbol.nonterminal s.lhs ∈ r.rhs) : j ≠ 0 := by
  intro hj
  subst hj
  obtain rfl : s = _ := Option.some.inj (hs.symm.trans g.rule_zero)
  rcases g.mem_rhs hr hm with ⟨t, ht⟩ | ⟨n, hn, hne⟩
  · cases ht
  · exact absurd (Symbol.nonterminal.inj hn).symm hne

/-- Rule 0 is entered at the start only. -/
theorem Entered.eq_nil {g : Grammar} {δ : List Symbol} (h : Entered g δ 0) : δ = [] := by
  cases h with
  | start => rfl
  | @enter δ η τ i j r s hi hr hs hb =>
    have hm : Symbol.nonterminal s.lhs ∈ r.rhs := by rw [hb]; simp
    exact absurd rfl (Grammar.ne_zero_of_mem_rhs hr hs hm)

/-- A complete item that is valid for `γ` takes its right-hand side off the end of `γ`. -/
theorem Item.ValidFor.exists_entered {g : Grammar} {γ : List Symbol} {i : Item}
    (h : i.ValidFor g γ) (hx : i.next? g = none) :
    ∃ δ r, Entered g δ i.rule ∧ g.rules[i.rule]? = some r ∧ γ = δ ++ r.rhs := by
  obtain ⟨δ, r, he, hr, hle, rfl⟩ := h
  refine ⟨δ, r, he, hr, ?_⟩
  have hdot : i.dot = r.rhs.length := by
    refine Nat.le_antisymm hle (Nat.le_of_not_lt fun hlt => ?_)
    have hsome : i.next? g = some r.rhs[i.dot] :=
      Item.next?_eq_some_iff.2 ⟨r, hr, List.getElem?_eq_getElem hlt⟩
    rw [hx] at hsome
    cases hsome
  rw [hdot, List.take_length]

/-! ## 4. The states of the automaton -/

/-- **The initial state holds the items valid for the empty string.** -/
theorem represents_start (g : Grammar) : (g.closure [⟨0, 0⟩]).Represents g [] := by
  have hfirst : (⟨0, 0⟩ : Item) ∈ g.closure [⟨0, 0⟩] := g.mem_closure.2 (.inl (by simp))
  intro i
  constructor
  · intro hi
    refine Grammar.closure_induction (P := Item.ValidFor g []) (fun j hj => ?_)
      (fun j n k hv hx hk => ?_) i hi
    · obtain rfl := List.mem_singleton.1 hj
      exact Item.validFor_nil g
    · obtain ⟨s, hs, rfl⟩ := g.mem_rulesFor.1 hk
      exact hv.enter hx hs
  · intro hv
    refine hv.mem_of_closed (fun j n k hj hx hk => Grammar.closure_closed hj hx hk)
      (fun j hj hd => ?_) fun _ => hfirst
    obtain ⟨δ, r, _, _, hle, hγ⟩ := hj
    obtain ⟨_, htake⟩ := List.append_eq_nil_iff.1 hγ.symm
    have hlen := congrArg List.length htake
    rw [List.length_take, List.length_nil] at hlen
    omega

/-- **Going over `x` leads to the items valid behind `x`.** -/
theorem ItemSet.Represents.goto {g : Grammar} {s : ItemSet} {γ : List Symbol}
    (h : s.Represents g γ) (x : Symbol) : (g.goto s x).Represents g (γ ++ [x]) := by
  intro i
  constructor
  · intro hi
    refine Grammar.closure_induction (P := Item.ValidFor g (γ ++ [x])) (fun j hj => ?_)
      (fun j n k hv hx hk => ?_) i hi
    · obtain ⟨k, hk, hx, rfl⟩ := g.mem_kernel.1 hj
      exact ((h k).1 hk).advance hx
    · obtain ⟨t, ht, rfl⟩ := g.mem_rulesFor.1 hk
      exact hv.enter hx ht
  · intro hv
    refine hv.mem_of_closed (fun j n k hj hx hk => Grammar.closure_closed hj hx hk)
      (fun j hj hd => ?_) fun hnil => absurd hnil (by simp)
    obtain ⟨rule, dot⟩ := j
    obtain ⟨d, rfl⟩ : ∃ d, dot = d + 1 := ⟨dot - 1, (Nat.succ_pred_eq_of_pos hd).symm⟩
    obtain ⟨hv', hx⟩ := hj.retreat
    have hm : (⟨rule, d + 1⟩ : Item) ∈ g.kernel s x :=
      g.mem_kernel.2 ⟨⟨rule, d⟩, (h _).2 hv', hx, rfl⟩
    exact g.mem_closure.2 (.inl hm)

end ShiftReduce
