import ShiftReduce.Proofs.FollowSets
import ShiftReduce.Proofs.OwnTables
/-!
# Stretches of the input

`Spans g input ξ a e` says that the string `ξ` becomes the terminals of the input from position `a`
to position `e`, in such a way that at the end of every rule the lookahead can follow its left-hand
side. This is what a machine without conflicts reads in front of the dot of a valid item
(`moves_of_spans`). Every derivation of a terminal string from the augmented start symbol spans it
(`spans_of_yields`). `SpansBy` has the numbers of the rules too, and the machine reduces by exactly
these rules, in this order (`moves_of_spansBy`).
-/

namespace ShiftReduce

/-- The string becomes the input from `a` to `e`, and every rule ends before a symbol that can
    follow its left-hand side. -/
inductive Spans (g : Grammar) (input : List Symbol) : List Symbol → Nat → Nat → Prop where
  | nil (a : Nat) : Spans g input [] a a
  | terminal {id : Terminal} {xs : List Symbol} {a e : Nat} (hx : input[a]? = some (.terminal id))
      (h : Spans g input xs (a + 1) e) : Spans g input (.terminal id :: xs) a e
  | nonterminal {r : Rule} {xs : List Symbol} {a d e : Nat} (hr : r ∈ g.rules.toList)
      (hd : Spans g input r.rhs a d) (hf : g.Follows r.lhs (lookaheadAt input d))
      (h : Spans g input xs d e) : Spans g input (.nonterminal r.lhs :: xs) a e

/-- `Spans` with the numbers of the rules, each behind those used for its right-hand side. -/
inductive SpansBy (g : Grammar) (input : List Symbol) :
    List Nat → List Symbol → Nat → Nat → Prop where
  | nil (a : Nat) : SpansBy g input [] [] a a
  | terminal {is : List Nat} {id : Terminal} {xs : List Symbol} {a e : Nat}
      (hx : input[a]? = some (.terminal id)) (h : SpansBy g input is xs (a + 1) e) :
      SpansBy g input is (.terminal id :: xs) a e
  | nonterminal {i : Nat} {r : Rule} {is js : List Nat} {xs : List Symbol} {a d e : Nat}
      (hr : g.rules[i]? = some r) (hd : SpansBy g input is r.rhs a d)
      (hf : g.Follows r.lhs (lookaheadAt input d)) (h : SpansBy g input js xs d e) :
      SpansBy g input (is ++ i :: js) (.nonterminal r.lhs :: xs) a e

/-! ## 1. Stretches side by side -/

theorem SpansBy.spans {g : Grammar} {input ξ : List Symbol} {is : List Nat} {a e : Nat}
    (h : SpansBy g input is ξ a e) : Spans g input ξ a e := by
  induction h with
  | nil a => exact .nil a
  | terminal hx _ ih => exact .terminal hx ih
  | nonterminal hr _ hf _ ihd ih => exact .nonterminal (Grammar.mem_rules hr) ihd hf ih

namespace Spans

variable {g : Grammar} {input : List Symbol} {α β : List Symbol} {a d e : Nat}

/-- The rules of a stretch have numbers. -/
theorem exists_spansBy (h : Spans g input α a e) : ∃ is, SpansBy g input is α a e := by
  induction h with
  | nil a => exact ⟨[], .nil a⟩
  | terminal hx _ ih =>
    obtain ⟨is, hi⟩ := ih
    exact ⟨is, .terminal hx hi⟩
  | nonterminal hr _ hf _ ihd ih =>
    obtain ⟨is, hi⟩ := ihd
    obtain ⟨js, hj⟩ := ih
    obtain ⟨k, hk⟩ := Grammar.mem_rules_iff.1 hr
    exact ⟨is ++ k :: js, .nonterminal hk hi hf hj⟩

theorem append (h : Spans g input α a d) (k : Spans g input β d e) :
    Spans g input (α ++ β) a e := by
  induction h with
  | nil => exact k
  | terminal hx _ ih => exact .terminal hx (ih k)
  | nonterminal hr hd hf _ _ ih => exact .nonterminal hr hd hf (ih k)

theorem exists_append (h : Spans g input (α ++ β) a e) :
    ∃ d, Spans g input α a d ∧ Spans g input β d e := by
  induction α generalizing a with
  | nil => exact ⟨a, .nil a, h⟩
  | cons x xs ih =>
    rw [List.cons_append] at h
    cases h with
    | terminal hx h =>
      obtain ⟨d, hl, hr⟩ := ih h
      exact ⟨d, .terminal hx hl, hr⟩
    | nonterminal hr hd hf h =>
      obtain ⟨d, hl, hr'⟩ := ih h
      exact ⟨d, .nonterminal hr hd hf hl, hr'⟩

theorem le (h : Spans g input α a e) : a ≤ e := by
  induction h with
  | nil => exact Nat.le_refl _
  | terminal _ _ ih => exact Nat.le_trans (Nat.le_succ _) ih
  | nonterminal _ _ _ _ ihd ih => exact Nat.le_trans ihd ih

/-- What spans nothing can vanish. -/
theorem vanishes (h : Spans g input α a e) (he : e ≤ a) : Rewrites g.rules.toList α [] := by
  induction h with
  | nil => exact .refl
  | terminal hx h ih => exact absurd (Nat.lt_of_lt_of_le (Nat.lt_succ_self _) h.le) (by omega)
  | nonterminal hr hd hf h ihd ih =>
    have hle := h.le
    have hled := hd.le
    have hbody := (Rewrites.of_mem hr).trans (ihd (by omega))
    exact hbody.append (ih (by omega))

end Spans

/-! ## 2. A machine without conflicts reads stretches -/

section

variable {g : Grammar} {b : TableBuild} {input : List Symbol}

/-- A terminal that comes next in a rule that was entered is shifted. -/
theorem Config.StandsAt.exists_shift (hb : TableBuild.ofGrammar g = .ok b)
    (hdiag : b.diagnostics = []) {c : Config} {γ : List Symbol} {a : Nat}
    (hc : c.StandsAt g input γ a) {i : Item} (hv : i.ValidFor g γ) {id : Terminal}
    (hn : i.next? g = some (.terminal id)) (hx : input[a]? = some (.terminal id)) :
    ∃ state c', (Machine.mk g b.tables).step c = .move (.shift state a) c' ∧
      c'.StandsAt g input (γ ++ [.terminal id]) (a + 1) := by
  have hlook : c.lookahead = .terminal id := by
    rw [hc.lookahead_eq, lookaheadAt, hx]
    rfl
  obtain ⟨target, hstep, hpush⟩ := step_shift hb hdiag hc.spells hv hn hlook
  rw [hc.position_eq] at hstep
  exact ⟨_, _, hstep, hc.shift hpush⟩

/-- A right-hand side that was read is reduced where the next symbol can follow the left-hand
    side. -/
theorem Config.StandsAt.exists_reduce (hb : TableBuild.ofGrammar g = .ok b)
    (hdiag : b.diagnostics = []) {c : Config} {δ : List Symbol} {a i : Nat} {r : Rule}
    (hr : g.rules[i]? = some r) (hc : c.StandsAt g input (δ ++ r.rhs) a) (he : Entered g δ i)
    (h0 : i ≠ 0) (hf : g.Follows r.lhs (lookaheadAt input a)) :
    ∃ target c', (Machine.mk g b.tables).step c = .move (.reduce i target) c' ∧
      c'.StandsAt g input (δ ++ [.nonterminal r.lhs]) a := by
  obtain ⟨exposed, rest, target, hstep, hpush⟩ := step_reduce hb hdiag he h0 hr hc.spells
    (TableBuild.follows_of_follows hb (hc.lookahead_eq ▸ hf))
  exact ⟨_, _, hstep, hc.reduce hpush⟩

/-- **A machine without conflicts reads what a string spans**, if the string comes next in a rule
    that was entered, and it reduces by the rules of the stretch in their order. -/
theorem moves_of_spansBy (hb : TableBuild.ofGrammar g = .ok b) (hdiag : b.diagnostics = [])
    {is : List Nat} {ξ : List Symbol} {a e : Nat} (h : SpansBy g input is ξ a e)
    {δ η ζ : List Symbol} {i : Nat} {r : Rule} (he : Entered g δ i) (hr : g.rules[i]? = some r)
    (hrhs : r.rhs = η ++ ξ ++ ζ) {c : Config} (hc : c.StandsAt g input (δ ++ η) a) :
    ∃ ms c', (Machine.mk g b.tables).Moves c ms c' ∧ c'.StandsAt g input (δ ++ η ++ ξ) e ∧
      reductionsIn (ms.flatMap Move.events) = is := by
  induction h generalizing δ η ζ i r c with
  | nil a => exact ⟨[], c, .refl c, by rwa [List.append_nil], rfl⟩
  | @terminal is id xs a e hx _ ih =>
    rw [List.append_assoc, List.cons_append] at hrhs
    obtain ⟨hv, hn⟩ := Item.validFor_of_entered he hr hrhs
    obtain ⟨state, c₁, hstep, hc₁⟩ := hc.exists_shift hb hdiag hv hn hx
    rw [List.append_assoc] at hc₁
    have hrest : r.rhs = η ++ [.terminal id] ++ xs ++ ζ := by simp [hrhs]
    obtain ⟨ms, c', hm, hend, hrules⟩ := ih he hr hrest hc₁
    refine ⟨_, c', .step hstep hm, ?_, hrules⟩
    simpa using hend
  | @nonterminal k s is js xs a d e hk _ hf _ ihd ih =>
    rw [List.append_assoc, List.cons_append] at hrhs
    -- the rule of the nonterminal is read first, then reduced, then the rest is read
    have hent : Entered g (δ ++ η) k := .enter he hr hk hrhs
    obtain ⟨ms, c₁, hm, hc₁, hms⟩ :=
      ihd (η := []) (ζ := []) hent hk (by simp) (by simpa using hc)
    rw [List.append_nil] at hc₁
    have hk0 : k ≠ 0 := Grammar.ne_zero_of_mem_rhs hr hk (by rw [hrhs]; simp)
    obtain ⟨target, c₂, hstep, hc₂⟩ := hc₁.exists_reduce hb hdiag hk hent hk0 hf
    rw [List.append_assoc] at hc₂
    have hrest : r.rhs = η ++ [.nonterminal s.lhs] ++ xs ++ ζ := by simp [hrhs]
    obtain ⟨ns, c', hm', hend, hns⟩ := ih he hr hrest hc₂
    refine ⟨_, c', hm.trans (.step hstep hm'), by simpa using hend, ?_⟩
    rw [List.flatMap_append, List.flatMap_cons, reductionsIn_append, reductionsIn_append, hms, hns]
    rfl

theorem moves_of_spans (hb : TableBuild.ofGrammar g = .ok b) (hdiag : b.diagnostics = [])
    {ξ : List Symbol} {a e : Nat} (h : Spans g input ξ a e) {δ η ζ : List Symbol} {i : Nat}
    {r : Rule} (he : Entered g δ i) (hr : g.rules[i]? = some r) (hrhs : r.rhs = η ++ ξ ++ ζ)
    {c : Config} (hc : c.StandsAt g input (δ ++ η) a) :
    ∃ ms c', (Machine.mk g b.tables).Moves c ms c' ∧ c'.StandsAt g input (δ ++ η ++ ξ) e := by
  obtain ⟨is, hi⟩ := h.exists_spansBy
  obtain ⟨ms, c', hm, hc', _⟩ := moves_of_spansBy hb hdiag hi he hr hrhs hc
  exact ⟨ms, c', hm, hc'⟩

end

end ShiftReduce
