import ShiftReduce.Rule
/-!
# Grammars

A grammar is a list of rules that passed the checks of `Grammar.ofRules`: rule 0 rewrites the
augmented start symbol to the start symbol alone, no other rule mentions the augmented start
symbol, and no right-hand side holds `$` or `ε`. The rules are numbered by their place. Beside the
rules a grammar keeps two views of them: right-hand sides as arrays, and the rule numbers of each
nonterminal.
-/

namespace ShiftReduce

/-! ## 1. What can be wrong with a list of rules -/

/-- Why a list of rules is no grammar. -/
inductive GrammarError where
  | noRules
  | badAugmentingRule
  | startRedefined (rule : Nat)
  | startReferenced (rule : Nat)
  | reservedSymbol (rule : Nat) (symbol : Symbol)
  deriving DecidableEq, Repr

namespace GrammarError

/-- The finding in words. -/
def detail : GrammarError → String
  | .noRules => "grammar has no rules"
  | .badAugmentingRule => "rule 0 must derive exactly one nonterminal"
  | .startRedefined rule => s!"rule {rule} redefines the augmented start symbol"
  | .startReferenced rule => s!"rule {rule} refers to the augmented start symbol"
  | .reservedSymbol rule symbol => s!"rule {rule} contains the reserved symbol {symbol}"

def message (e : GrammarError) : String :=
  "malformed grammar: " ++ e.detail

end GrammarError

/-- What is wrong with one symbol of the right-hand side of rule `i`. -/
def Symbol.defect? (augmented : Nonterminal) (i : Nat) : Symbol → Option GrammarError
  | .terminal _ => none
  | .nonterminal n => if n = augmented then some (.startReferenced i) else none
  | .endOfInput => some (.reservedSymbol i .endOfInput)
  | .epsilon => some (.reservedSymbol i .epsilon)

/-- The first thing wrong with rule `i`: its left-hand side, then its symbols from left to right. -/
def Rule.defect? (augmented : Nonterminal) (i : Nat) (r : Rule) : Option GrammarError :=
  if i ≠ 0 ∧ r.lhs = augmented then some (.startRedefined i)
  else r.rhs.findSome? (Symbol.defect? augmented i)

/-- The first thing wrong with the rules, taken in order. -/
def firstDefect? (augmented : Nonterminal) (rules : List Rule) : Option GrammarError :=
  rules.zipIdx.findSome? fun p => p.1.defect? augmented p.2

theorem firstDefect?_eq_none_iff {augmented : Nonterminal} {rules : List Rule} :
    firstDefect? augmented rules = none ↔
      ∀ (i : Nat) (r : Rule), rules[i]? = some r → r.defect? augmented i = none := by
  simp only [firstDefect?, List.findSome?_eq_none_iff, Prod.forall, List.mem_zipIdx_iff_getElem?]
  exact ⟨fun h i r hr => h r i hr, fun h r i hr => h i r hr⟩

/-! ## 2. The rules of each nonterminal -/

/-- The numbers of the rules of each nonterminal that has any, in order. -/
def groupByLhs (rules : List (Rule × Nat)) : Std.TreeMap Nonterminal (List Nat) :=
  rules.foldr (fun p m => m.alter p.1.lhs fun is => some (p.2 :: is.getD [])) ∅

theorem getD_groupByLhs (rules : List (Rule × Nat)) (n : Nonterminal) :
    (groupByLhs rules)[n]?.getD [] = (rules.filter fun p => p.1.lhs == n).map Prod.snd := by
  induction rules with
  | nil => simp [groupByLhs]
  | cons p ps ih =>
    have hc : groupByLhs (p :: ps) =
        (groupByLhs ps).alter p.1.lhs fun is => some (p.2 :: is.getD []) := rfl
    rw [hc, Std.TreeMap.getElem?_alter]
    by_cases h : p.1.lhs = n
    · subst h
      simp [ih]
    · rw [if_neg fun e => h (Std.LawfulEqOrd.eq_of_compare e), ih]
      simp [h]

theorem mem_groupByLhs {rules : List (Rule × Nat)} {n : Nonterminal} :
    n ∈ groupByLhs rules ↔ ∃ p ∈ rules, p.1.lhs = n := by
  induction rules with
  | nil => simp [groupByLhs]
  | cons p ps ih =>
    have hc : groupByLhs (p :: ps) =
        (groupByLhs ps).alter p.1.lhs fun is => some (p.2 :: is.getD []) := rfl
    rw [hc, Std.TreeMap.mem_alter]
    by_cases h : p.1.lhs = n
    · subst h
      simp
    · rw [if_neg fun e => h (Std.LawfulEqOrd.eq_of_compare e), ih]
      simp [h]

/-! ## 3. Grammars -/

/-- An augmented context-free grammar. -/
structure Grammar where
  rules : Array Rule
  /-- The left-hand side of rule 0. -/
  augmentedStart : Nonterminal
  /-- The right-hand side of rule 0. -/
  start : Nonterminal
  rule_zero : rules[0]? = some ⟨augmentedStart, [.nonterminal start]⟩
  no_defect : firstDefect? augmentedStart rules.toList = none
  /-- The right-hand sides, by rule and place. -/
  bodies : Array (Array Symbol) := rules.map fun r => r.rhs.toArray
  bodies_eq : bodies = rules.map fun r => r.rhs.toArray := by rfl
  /-- The rule numbers of each nonterminal that has rules. -/
  alternatives : Std.TreeMap Nonterminal (List Nat) := groupByLhs rules.toList.zipIdx
  alternatives_eq : alternatives = groupByLhs rules.toList.zipIdx := by rfl

namespace Grammar

/-- Reads a list of rules as a grammar. The checks run in order, and the first failure is the
    answer: an empty list, the shape of rule 0, then rule by rule. -/
def ofRules : List Rule → Except GrammarError Grammar
  | [] => .error .noRules
  | ⟨augmented, [.nonterminal start]⟩ :: rest =>
    match h : firstDefect? augmented (⟨augmented, [.nonterminal start]⟩ :: rest) with
    | some e => .error e
    | none => .ok {
        rules := (⟨augmented, [.nonterminal start]⟩ :: rest).toArray
        augmentedStart := augmented
        start := start
        rule_zero := by simp
        no_defect := by simpa using h }
  | _ :: _ => .error .badAugmentingRule

/-- Terminals, each once, in order of first appearance. -/
def terminals (g : Grammar) : List Terminal :=
  terminalsOf g.rules.toList

/-- Nonterminals, each once, in order of first appearance, with rules or without. -/
def nonterminals (g : Grammar) : List Nonterminal :=
  nonterminalsOf g.rules.toList

/-- Every terminal, then every nonterminal. -/
def symbols (g : Grammar) : List Symbol :=
  g.terminals.map .terminal ++ g.nonterminals.map .nonterminal

/-- Every rule with its number. -/
def numbered (g : Grammar) : List (Rule × Nat) :=
  g.rules.toList.zipIdx

theorem mem_numbered {g : Grammar} {r : Rule} {i : Nat} :
    (r, i) ∈ g.numbered ↔ g.rules[i]? = some r := by
  simp [numbered, List.mem_zipIdx_iff_getElem?]

/-- The rules are those that have a number. -/
theorem mem_rules_iff {g : Grammar} {r : Rule} :
    r ∈ g.rules.toList ↔ ∃ i : Nat, g.rules[i]? = some r := by
  rw [List.mem_iff_getElem?]
  simp only [Array.getElem?_toList]

theorem mem_rules {g : Grammar} {r : Rule} {i : Nat} (hr : g.rules[i]? = some r) :
    r ∈ g.rules.toList :=
  mem_rules_iff.2 ⟨i, hr⟩

/-- The symbol at a place of the right-hand side of a rule. -/
def symbolAt? (g : Grammar) (rule place : Nat) : Option Symbol :=
  g.bodies[rule]?.bind fun body => body[place]?

theorem symbolAt?_eq (g : Grammar) (rule place : Nat) :
    g.symbolAt? rule place = g.rules[rule]?.bind fun r => r.rhs[place]? := by
  rw [symbolAt?, g.bodies_eq, Array.getElem?_map]
  cases g.rules[rule]? with
  | none => rfl
  | some r => simp

/-- How long the right-hand side of a rule is. -/
def rhsLength? (g : Grammar) (rule : Nat) : Option Nat :=
  g.bodies[rule]?.map Array.size

theorem rhsLength?_eq (g : Grammar) (rule : Nat) :
    g.rhsLength? rule = g.rules[rule]?.map fun r => r.rhs.length := by
  rw [rhsLength?, g.bodies_eq, Array.getElem?_map]
  cases g.rules[rule]? with
  | none => rfl
  | some r => simp

/-- The rules of a nonterminal, by increasing number. -/
def rulesFor (g : Grammar) (n : Nonterminal) : List Nat :=
  g.alternatives[n]?.getD []

theorem rulesFor_eq (g : Grammar) (n : Nonterminal) :
    g.rulesFor n = (g.numbered.filter fun p => p.1.lhs == n).map Prod.snd := by
  rw [rulesFor, g.alternatives_eq, getD_groupByLhs]
  rfl

theorem mem_rulesFor {g : Grammar} {n : Nonterminal} {i : Nat} :
    i ∈ g.rulesFor n ↔ ∃ r, g.rules[i]? = some r ∧ r.lhs = n := by
  simp [rulesFor_eq, mem_numbered]

/-- The rules of a nonterminal, in order. -/
def rulesOf (g : Grammar) (n : Nonterminal) : List Rule :=
  (g.rulesFor n).filterMap fun i => g.rules[i]?

theorem rulesOf_eq (g : Grammar) (n : Nonterminal) :
    g.rulesOf n = g.rules.toList.filter fun r => r.lhs == n := by
  have h : ∀ l : List (Rule × Nat), (∀ p ∈ l, g.rules[p.2]? = some p.1) →
      ((l.filter fun p => p.1.lhs == n).map Prod.snd).filterMap (fun i => g.rules[i]?) =
        (l.map Prod.fst).filter fun r => r.lhs == n := by
    intro l
    induction l with
    | nil => simp
    | cons p l ih =>
      intro hl
      obtain ⟨hp, hl⟩ := List.forall_mem_cons.1 hl
      cases hn : p.1.lhs == n with
      | true => simp [hn, hp, ih hl]
      | false => simp [hn, ih hl]
  rw [rulesOf, rulesFor_eq, h _ fun p hp => mem_numbered.1 hp, numbered, List.zipIdx_map_fst]

/-- The first rule with this left-hand side and this right-hand side. -/
def findRule? (g : Grammar) (lhs : Nonterminal) (rhs : List Symbol) : Option Nat :=
  g.rules.toList.idxOf? ⟨lhs, rhs⟩

/-- Some rule has `n` on its left. -/
def isDefined (g : Grammar) (n : Nonterminal) : Bool :=
  g.alternatives.contains n

theorem isDefined_iff {g : Grammar} {n : Nonterminal} :
    g.isDefined n = true ↔ ∃ r ∈ g.rules, r.lhs = n := by
  rw [isDefined, Std.TreeMap.contains_iff_mem, g.alternatives_eq, mem_groupByLhs]
  constructor
  · rintro ⟨p, hp, hn⟩
    exact ⟨p.1, Array.mem_toList_iff.1 (List.fst_mem_of_mem_zipIdx hp), hn⟩
  · rintro ⟨r, hr, hn⟩
    obtain ⟨i, hi⟩ := List.mem_iff_getElem?.1 (Array.mem_toList_iff.2 hr)
    exact ⟨(r, i), List.mem_zipIdx_iff_getElem?.2 hi, hn⟩

/-- The first rule with `n` on its right. -/
def firstReference? (g : Grammar) (n : Nonterminal) : Option Nat :=
  g.rules.toList.findIdx? fun r => r.rhs.contains (.nonterminal n)

/-- Every nonterminal that no rule rewrites, with the first rule that refers to it, in order of
    first reference. -/
def undefinedNonterminals (g : Grammar) : List (Nonterminal × Nat) :=
  (g.nonterminals.filter fun n => !g.isDefined n).filterMap fun n =>
    (g.firstReference? n).map fun i => (n, i)

/-! ## 4. What the checks promise -/

theorem defect?_eq_none {g : Grammar} {i : Nat} {r : Rule} (hr : g.rules[i]? = some r) :
    r.defect? g.augmentedStart i = none :=
  firstDefect?_eq_none_iff.1 g.no_defect i r (by simpa using hr)

/-- Only rule 0 rewrites the augmented start symbol. -/
theorem lhs_ne_augmentedStart {g : Grammar} {i : Nat} {r : Rule} (hr : g.rules[i]? = some r)
    (hi : i ≠ 0) : r.lhs ≠ g.augmentedStart := by
  intro hl
  have h := defect?_eq_none hr
  simp [Rule.defect?, hi, hl] at h

/-- A right-hand side holds terminals and nonterminals only, and never the augmented start
    symbol. -/
theorem mem_rhs {g : Grammar} {i : Nat} {r : Rule} {x : Symbol} (hr : g.rules[i]? = some r)
    (hx : x ∈ r.rhs) :
    (∃ t, x = .terminal t) ∨ ∃ n, x = .nonterminal n ∧ n ≠ g.augmentedStart := by
  have h := defect?_eq_none hr
  unfold Rule.defect? at h
  split at h
  · exact absurd h (by simp)
  · have hx := List.findSome?_eq_none_iff.1 h x hx
    cases x with
    | terminal t => exact .inl ⟨t, rfl⟩
    | nonterminal n =>
      refine .inr ⟨n, rfl, fun hn => ?_⟩
      simp [Symbol.defect?, hn] at hx
    | endOfInput => simp [Symbol.defect?] at hx
    | epsilon => simp [Symbol.defect?] at hx

/-- A grammar is its rules. -/
theorem eq_of_rules {g g' : Grammar} (h : g.rules = g'.rules) : g = g' := by
  obtain ⟨rules, augmented, start, hzero, _, bodies, hbodies, alternatives, halternatives⟩ := g
  obtain ⟨_, augmented', start', hzero', _, bodies', hbodies', alternatives', halternatives'⟩ := g'
  obtain rfl : rules = _ := h
  obtain ⟨rfl, rfl⟩ : augmented = augmented' ∧ start = start' := by
    simpa using hzero.symm.trans hzero'
  subst hbodies hbodies' halternatives halternatives'
  rfl

/-- **A list of rules is read as the grammar with these rules**, if there is one. -/
theorem ofRules_eq_ok_iff {g : Grammar} {rules : List Rule} :
    ofRules rules = .ok g ↔ g.rules.toList = rules := by
  constructor
  · intro h
    unfold ofRules at h
    split at h
    · cases h
    · split at h
      · cases h
      · cases h
        rfl
    · cases h
  · rintro rfl
    obtain ⟨rest, hrest⟩ := List.head?_eq_some_iff.1
      (List.head?_eq_getElem?.trans (Array.getElem?_toList.trans g.rule_zero))
    have hdefect := g.no_defect
    rw [hrest] at hdefect ⊢
    unfold ofRules
    split
    · rename_i h
      cases h
    · rename_i augmented start rest' h
      cases h
      split
      · rename_i e he
        rw [hdefect] at he
        cases he
      · exact congrArg _ (eq_of_rules (by simp [← hrest]))
    · rename_i hne h
      cases h
      exact (hne _ _ rfl).elim

end Grammar

end ShiftReduce
