import Mathlib.Data.List.Nodup
import ShiftReduce.Proofs.TableCells
/-!
# What is proposed for one lookahead

The build of the tables goes through the proposals of a state item by item, each item with all its
lookaheads, and looks a lookahead up in the row. Here the same proposals are told lookahead by
lookahead:

* `Item.proposal?` -- what an item proposes for one lookahead;
* `Item.proposals_eq` -- what it proposes in all are these, in slot order, at most one for each
  lookahead;
* `Row.cell?_eq_head?` -- the entry for a lookahead is the first proposal for it;
* `conflictsAmong`, `Row.conflicts_filter` -- the conflicts of a row on one lookahead are told by the
  proposals for that lookahead: each later one of another action, once, against the first.
-/

namespace ShiftReduce

/-! ## 1. Lists -/

section Lists

variable {α β : Type}

/-- A list flattens to what comes of one of its members when nothing comes of the others. -/
theorem flatMap_eq_of_unique {l : List α} (hl : l.Nodup) {a : α} (ha : a ∈ l) {f : α → List β}
    (h : ∀ b ∈ l, b ≠ a → f b = []) : l.flatMap f = f a := by
  obtain ⟨front, back, rfl⟩ := List.append_of_mem ha
  have hnot : a ∉ front ++ back := (List.nodup_cons.1 (List.nodup_middle.1 hl)).1
  have hnil : ∀ b ∈ front ++ back, f b = [] := by
    intro b hb
    have hmem : b ∈ front ++ a :: back := by
      rcases List.mem_append.1 hb with hb | hb
      · exact List.mem_append_left _ hb
      · exact List.mem_append_right _ (List.mem_cons_of_mem a hb)
    exact h b hmem fun e => hnot (e ▸ hb)
  have hfront := List.flatMap_eq_nil_iff.2 fun b hb => hnil b (List.mem_append_left _ hb)
  have hback := List.flatMap_eq_nil_iff.2 fun b hb => hnil b (List.mem_append_right _ hb)
  rw [List.flatMap_append, List.flatMap_cons, hfront, hback, List.nil_append, List.append_nil]

variable [DecidableEq β]

/-- Where different members come to different things, repetitions are left out member by member. -/
theorem eraseDups_flatMap {f : α → List β} {l : List α}
    (h : l.Pairwise fun a b => ∀ c ∈ f b, c ∉ f a) :
    (l.flatMap f).eraseDups = l.flatMap fun a => (f a).eraseDups := by
  induction l with
  | nil => rfl
  | cons a l ih =>
    obtain ⟨ha, hl⟩ := List.pairwise_cons.1 h
    have hrest : (l.flatMap f).removeAll (f a) = l.flatMap f := by
      refine List.filter_eq_self.2 fun c hc => ?_
      obtain ⟨b, hb, hcb⟩ := List.mem_flatMap.1 hc
      rw [Bool.not_eq_true', Bool.eq_false_iff]
      exact fun hm => ha b hb c hcb (List.elem_iff.1 hm)
    rw [List.flatMap_cons, List.flatMap_cons, List.eraseDups_append, hrest, ih hl]

variable [DecidableEq α]

/-- Leaving members out before or after repetitions are left out is the same. -/
theorem filter_eraseDups (p : α → Bool) (l : List α) :
    l.eraseDups.filter p = (l.filter p).eraseDups := by
  match l with
  | [] => rfl
  | a :: as =>
    have ih := filter_eraseDups p (as.filter fun b => !b == a)
    rw [List.eraseDups_cons, List.filter_cons, List.filter_cons]
    split
    · rw [ih, List.filter_comm, List.eraseDups_cons]
    · rename_i hp
      rw [ih, List.filter_filter]
      refine congrArg List.eraseDups (List.filter_congr fun b _ => ?_)
      by_cases hb : b = a
      · rw [hb, Bool.eq_false_iff.2 hp, Bool.false_and]
      · rw [beq_eq_false_iff_ne.2 hb, Bool.not_false, Bool.and_true]
termination_by l.length
decreasing_by exact Nat.lt_succ_of_le (List.length_filter_le _ _)

/-- A map that keeps things apart keeps the first appearances. -/
theorem eraseDups_map {f : α → β} (hf : Function.Injective f) (l : List α) :
    (l.map f).eraseDups = l.eraseDups.map f := by
  match l with
  | [] => rfl
  | a :: as =>
    have ih := eraseDups_map hf (as.filter fun b => !b == a)
    have hsame : ∀ b, (!f b == f a) = !b == a := fun b => by
      rw [Bool.eq_iff_iff, Bool.not_eq_true', Bool.not_eq_true', beq_eq_false_iff_ne,
        beq_eq_false_iff_ne]
      exact not_congr hf.eq_iff
    rw [List.map_cons, List.eraseDups_cons, List.eraseDups_cons, List.map_cons, ← ih,
      List.filter_map]
    exact congrArg (fun l => f a :: (l.map f).eraseDups) (List.filter_congr fun b _ => hsame b)
termination_by l.length
decreasing_by exact Nat.lt_succ_of_le (List.length_filter_le _ _)

end Lists

/-! ## 2. Slot order -/

namespace Slots

/-- Every symbol with a slot, in slot order. -/
def symbols (t : Slots) : List Symbol := (List.range t.size).filterMap t.symbol?

/-- `x` has a slot in front of that of `y`. -/
def Before (t : Slots) (x y : Symbol) : Prop :=
  ∃ i j, t.slot? x = some i ∧ t.slot? y = some j ∧ i < j

variable {t : Slots}

theorem Before.asymm {x y : Symbol} (h : t.Before x y) : ¬ t.Before y x := by
  obtain ⟨i, j, hi, hj, hlt⟩ := h
  intro ⟨j', i', hj', hi', hgt⟩
  obtain rfl := Option.some.inj (hi.symm.trans hi')
  obtain rfl := Option.some.inj (hj.symm.trans hj')
  exact Nat.lt_asymm hlt hgt

theorem Before.ne {x y : Symbol} (h : t.Before x y) : x ≠ y := by
  intro e
  subst e
  exact h.asymm h

theorem mem_symbols {x : Symbol} : x ∈ t.symbols ↔ ∃ i, t.slot? x = some i := by
  rw [symbols, List.mem_filterMap]
  constructor
  · intro ⟨i, _, hi⟩
    exact ⟨i, slot?_eq_some_iff.2 hi⟩
  · intro ⟨i, hi⟩
    exact ⟨i, List.mem_range.2 (Slots.lt_size hi), slot?_eq_some_iff.1 hi⟩

/-- The symbols of increasing slots stand in slot order. -/
theorem pairwise_before {slots : List Nat} (h : slots.Pairwise (· < ·)) :
    (slots.filterMap t.symbol?).Pairwise t.Before := by
  refine List.pairwise_filterMap.2 (h.imp fun {i j} hlt x hx y hy => ?_)
  exact ⟨i, j, slot?_eq_some_iff.2 hx, slot?_eq_some_iff.2 hy, hlt⟩

theorem pairwise_symbols (t : Slots) : t.symbols.Pairwise t.Before :=
  pairwise_before List.pairwise_lt_range

theorem nodup_symbols (t : Slots) : t.symbols.Nodup :=
  t.pairwise_symbols.imp Before.ne

/-- Lists in slot order with the same entries are equal. -/
theorem eq_of_pairwise_before {l m : List (Symbol × β)}
    (hl : l.Pairwise fun p q => t.Before p.1 q.1) (hm : m.Pairwise fun p q => t.Before p.1 q.1)
    (h : ∀ p, p ∈ l ↔ p ∈ m) : l = m := by
  have hne : ∀ {p q : Symbol × β}, t.Before p.1 q.1 → p ≠ q := fun hb e =>
    hb.ne (congrArg Prod.fst e)
  exact ((List.perm_ext_iff_of_nodup (hl.imp hne) (hm.imp hne)).2 h).eq_of_pairwise
    (fun p q _ _ hpq hqp => absurd hqp hpq.asymm) hl hm

end Slots

/-! ## 3. What an item proposes -/

/-- What an item of a state proposes for one lookahead: a complete item of rule 0 to accept at the
    end of the input, any other complete item to reduce where the lookahead can follow its left-hand
    side, and an item with the lookahead, a terminal, behind its dot to shift it. -/
def Item.proposal? (g : Grammar) (t : Tables) (state : Nat) (x : Symbol) (i : Item) :
    Option Proposal :=
  if i.isComplete g then
    if i.rule = 0 then
      if x = .endOfInput then some ⟨.accept, i.rule⟩ else none
    else if (g.rules[i.rule]?).any fun r => t.follow.contains (.nonterminal r.lhs) x then
      some ⟨.reduce i.rule, i.rule⟩
    else none
  else if x.isTerminal ∧ i.next? g = some x then
    (t.automaton.transition? state x).map fun target => ⟨.shift target, i.rule⟩
  else none

namespace Item

variable {g : Grammar} {t : Tables} {state : Nat} {i : Item}

/-- What is proposed is what the item asks for. -/
theorem proposal?_eq_some_iff (hc : i.isComplete g = true ↔ i.next? g = none) {x : Symbol}
    {p : Proposal} :
    i.proposal? g t state x = some p ↔ p.rule = i.rule ∧ i.Asks g t state x p.action := by
  obtain ⟨action, rule⟩ := p
  unfold proposal?
  constructor
  · intro h
    split at h
    · rename_i hcomplete
      split at h
      · rename_i h0
        split at h
        · rename_i hx
          subst hx
          cases h
          exact ⟨rfl, .accept (hc.1 hcomplete) h0⟩
        · cases h
      · rename_i h0
        split at h
        · rename_i hf
          cases h
          obtain ⟨r, hr, hf⟩ := (Option.any_eq_true _ _).1 hf
          exact ⟨rfl, .reduce (hc.1 hcomplete) h0 hr hf⟩
        · cases h
    · split at h
      · rename_i hx
        obtain ⟨id, rfl⟩ := Symbol.isTerminal_iff.1 hx.1
        obtain ⟨target, ht, he⟩ := Option.map_eq_some_iff.1 h
        cases he
        exact ⟨rfl, .shift hx.2 ht⟩
      · cases h
  · intro ⟨hrule, hasks⟩
    obtain rfl : rule = i.rule := hrule
    cases hasks with
    | shift hx ht =>
      have hopen : ¬ i.isComplete g = true := fun h => by
        rw [hc.1 h] at hx
        cases hx
      rw [if_neg hopen, if_pos ⟨rfl, hx⟩, ht, Option.map_some]
    | accept hx h0 => rw [if_pos (hc.2 hx), if_pos h0, if_pos rfl]
    | reduce hx h0 hr hf =>
      have hany : (g.rules[i.rule]?).any
          (fun r => t.follow.contains (.nonterminal r.lhs) x) = true :=
        (Option.any_eq_true _ _).2 ⟨_, hr, hf⟩
      rw [if_pos (hc.2 hx), if_neg h0, if_pos hany]

/-- An item makes its proposals in slot order. -/
theorem pairwise_proposals :
    (i.proposals g t.automaton t.follow state).Pairwise fun p q => t.slots.Before p.1 q.1 := by
  unfold proposals
  split
  · split
    · exact List.pairwise_singleton _ _
    · exact .nil
  · exact .nil
  · split
    · exact List.pairwise_singleton _ _
    · split
      · exact List.pairwise_map.2 (Slots.pairwise_before (SlotSet.members_pairwise _))
      · exact .nil

/-- The dot is inside a rule of the grammar, and what stands behind it has a slot if it is a
    terminal. -/
structure IsPlaced (g : Grammar) (t : Tables) (i : Item) : Prop where
  isComplete_iff : i.isComplete g = true ↔ i.next? g = none
  exists_slot : ∀ id, i.next? g = some (.terminal id) → ∃ k, t.slots.slot? (.terminal id) = some k

namespace IsPlaced

/-- Only symbols with a slot are proposed for. -/
theorem mem_symbols (h : i.IsPlaced g t) {x : Symbol} {p : Proposal}
    (hp : i.proposal? g t state x = some p) : x ∈ t.slots.symbols := by
  obtain ⟨_, hasks⟩ := (proposal?_eq_some_iff h.isComplete_iff).1 hp
  generalize p.action = act at hasks
  cases hasks with
  | shift hx ht => exact Slots.mem_symbols.2 (h.exists_slot _ hx)
  | accept hx h0 => exact Slots.mem_symbols.2 ⟨1, rfl⟩
  | reduce hx h0 hr hf =>
    obtain ⟨k, hk, _⟩ := SetTable.contains_iff.1 hf
    exact Slots.mem_symbols.2 ⟨k, hk⟩

/-- **What an item proposes are its proposals for the single symbols, in slot order.** -/
theorem proposals_eq (h : i.IsPlaced g t) :
    i.proposals g t.automaton t.follow state =
      t.slots.symbols.filterMap fun x => (i.proposal? g t state x).map fun p => (x, p) := by
  refine Slots.eq_of_pairwise_before pairwise_proposals ?_ fun ⟨x, p⟩ => ?_
  · refine List.pairwise_filterMap.2 (t.slots.pairwise_symbols.imp fun {x y} hxy p hp q hq => ?_)
    obtain ⟨_, _, rfl⟩ := Option.map_eq_some_iff.1 hp
    obtain ⟨_, _, rfl⟩ := Option.map_eq_some_iff.1 hq
    exact hxy
  · rw [mem_proposals, ← proposal?_eq_some_iff h.isComplete_iff, List.mem_filterMap]
    constructor
    · intro hp
      exact ⟨x, h.mem_symbols hp, Option.map_eq_some_iff.2 ⟨p, hp, rfl⟩⟩
    · intro ⟨y, _, hy⟩
      obtain ⟨q, hq, he⟩ := Option.map_eq_some_iff.1 hy
      cases he
      exact hq

end IsPlaced

end Item

/-! ## 4. What a row holds for one lookahead -/

/-- The proposals of a list for one lookahead, in order. -/
def proposalsFor (x : Symbol) (ps : List (Symbol × Proposal)) : List Proposal :=
  ps.filterMap fun p => if p.1 = x then some p.2 else none

/-- **An item makes at most one proposal for a lookahead.** -/
theorem Item.IsPlaced.proposalsFor_eq {g : Grammar} {t : Tables} {i : Item} (h : i.IsPlaced g t)
    (state : Nat) (x : Symbol) :
    proposalsFor x (i.proposals g t.automaton t.follow state) =
      (i.proposal? g t state x).toList := by
  rw [proposalsFor, h.proposals_eq, List.filterMap_filterMap, List.filterMap_eq_flatMap_toList]
  have hother : ∀ y, y ≠ x → (((i.proposal? g t state y).map fun p => (y, p)).bind fun p =>
      if p.1 = x then some p.2 else none) = none := by
    intro y hy
    cases i.proposal? g t state y with
    | none => rfl
    | some p => exact if_neg hy
  cases hp : i.proposal? g t state x with
  | none =>
    refine List.flatMap_eq_nil_iff.2 fun y _ => ?_
    by_cases hy : y = x
    · subst hy
      rw [hp]
      rfl
    · rw [hother y hy]
      rfl
  | some p =>
    rw [flatMap_eq_of_unique t.slots.nodup_symbols (h.mem_symbols hp) fun y _ hy => by
      rw [hother y hy]
      rfl]
    rw [hp]
    simp

namespace Row

/-- The entry for a lookahead is the first proposal for it. -/
theorem cell?_eq_head? (ps : List (Symbol × Proposal)) (x : Symbol) :
    Row.cell? (.ofList ps) x = (proposalsFor x ps).head? := by
  rw [cell?_ofList]
  induction ps with
  | nil => rfl
  | cons p ps ih =>
    rw [List.lookup_cons, proposalsFor, List.filterMap_cons]
    by_cases hx : p.1 = x
    · rw [if_pos hx, hx, beq_self_eq_true]
      rfl
    · rw [if_neg hx, beq_eq_false_iff_ne.2 (Ne.symm hx)]
      exact ih

end Row

/-- The conflict of a proposal for a lookahead with the one that is kept. -/
def Proposal.against (p kept : Proposal) (state : Nat) (x : Symbol) : Conflict :=
  ⟨state, x, kept.action, kept.rule, p.action, p.rule⟩

theorem Proposal.against_injective (kept : Proposal) (state : Nat) (x : Symbol) :
    Function.Injective fun p : Proposal => p.against kept state x := by
  intro p q h
  obtain ⟨action, rule⟩ := p
  obtain ⟨action', rule'⟩ := q
  cases h
  rfl

/-- What the proposals for one lookahead leave to report: each that comes behind the first and asks
    for another action, once, in order. -/
def conflictsAmong (state : Nat) (x : Symbol) : List Proposal → List Conflict
  | [] => []
  | kept :: later =>
    ((later.filter fun p => p.action ≠ kept.action).eraseDups).map fun p => p.against kept state x

/-- The conflict of a proposal with the first one for its lookahead, if they ask for different
    actions. -/
def Proposal.conflictWithFirst? (p : Proposal) (state : Nat) (x : Symbol) (ps : List Proposal) :
    Option Conflict :=
  ps.head?.bind fun kept => if p.action = kept.action then none else some (p.against kept state x)

/-- Compared with the first one by one, the proposals leave the same to report. -/
theorem filterMap_conflictWithFirst? (state : Nat) (x : Symbol) (ps : List Proposal) :
    (ps.filterMap fun p => p.conflictWithFirst? state x ps).eraseDups =
      conflictsAmong state x ps := by
  cases ps with
  | nil => rfl
  | cons kept later =>
    have hcompare : ∀ p : Proposal, p.conflictWithFirst? state x (kept :: later) =
        (Option.guard (fun p => p.action ≠ kept.action) p).map fun p => p.against kept state x := by
      intro p
      by_cases hp : p.action = kept.action
      · simp [Proposal.conflictWithFirst?, Option.guard, hp]
      · simp [Proposal.conflictWithFirst?, Option.guard, hp]
    have hkept : kept.conflictWithFirst? state x (kept :: later) = none := if_pos rfl
    rw [List.filterMap_cons, hkept]
    show (later.filterMap fun p => p.conflictWithFirst? state x (kept :: later)).eraseDups = _
    rw [List.filterMap_congr fun p _ => hcompare p, ← List.map_filterMap,
      List.filterMap_eq_filter, eraseDups_map (kept.against_injective state x)]
    rfl

namespace Row

/-- A row compares a proposal with the first one for its lookahead. -/
theorem conflict?_ofList (ps : List (Symbol × Proposal)) (state : Nat) (x : Symbol)
    (p : Proposal) : Row.conflict? (.ofList ps) state x p =
      p.conflictWithFirst? state x (proposalsFor x ps) := by
  rw [conflict?, cell?_eq_head?, Proposal.conflictWithFirst?]
  cases (proposalsFor x ps).head? with
  | none => rfl
  | some kept =>
    by_cases hp : p.action = kept.action
    · exact (if_pos hp.symm).trans (if_pos hp).symm
    · exact (if_neg (Ne.symm hp)).trans (if_neg hp).symm

/-- A conflict of a row names the state of the row. -/
theorem state_of_mem_conflicts {ps : List (Symbol × Proposal)} {state : Nat} {c : Conflict}
    (h : c ∈ Row.conflicts (.ofList ps) state) : c.state = state := by
  obtain ⟨p, _, hc⟩ := List.mem_filterMap.1 (List.mem_eraseDups.1 h)
  rw [conflict?_ofList, Proposal.conflictWithFirst?] at hc
  obtain ⟨kept, _, hc⟩ := Option.bind_eq_some_iff.1 hc
  split at hc
  · cases hc
  · cases hc
    rfl

/-- **The conflicts of a row on one lookahead are told by the proposals for it.** -/
theorem conflicts_filter (ps : List (Symbol × Proposal)) (state : Nat) (x : Symbol) :
    (Row.conflicts (.ofList ps) state).filter (fun c => c.lookahead = x) =
      conflictsAmong state x (proposalsFor x ps) := by
  have hone : ∀ p : Symbol × Proposal,
      (Row.conflict? (.ofList ps) state p.1 p.2).filter (fun c => c.lookahead = x) =
        (if p.1 = x then some p.2 else none).bind fun p =>
          p.conflictWithFirst? state x (proposalsFor x ps) := by
    intro p
    rw [conflict?_ofList, Proposal.conflictWithFirst?]
    by_cases hx : p.1 = x
    · rw [if_pos hx, hx, Option.bind_some, Proposal.conflictWithFirst?]
      cases (proposalsFor x ps).head? with
      | none => rfl
      | some kept =>
        rw [Option.bind_some]
        split
        · rfl
        · exact Option.filter_some_pos (decide_eq_true rfl)
    · rw [if_neg hx, Option.bind_none]
      cases (proposalsFor p.1 ps).head? with
      | none => rfl
      | some kept =>
        rw [Option.bind_some]
        split
        · rfl
        · exact Option.filter_some_neg (by simp [Proposal.against, hx])
  rw [conflicts, filter_eraseDups, List.filter_filterMap, ← filterMap_conflictWithFirst?]
  refine congrArg List.eraseDups ?_
  rw [List.filterMap_congr fun p _ => hone p, ← List.filterMap_filterMap]
  rfl

end Row

end ShiftReduce
