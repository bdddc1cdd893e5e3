import ShiftReduce.Automaton
import ShiftReduce.LeftRecursion.Elimination
import ShiftReduce.Table.Action
/-!
# ACTION and GOTO tables

The items of a state propose actions in item order: a terminal after the dot proposes to shift it,
the complete item of rule 0 to accept at the end of the input, and any other complete item to
reduce on every lookahead that can follow its left-hand side. The first proposal for a lookahead
is the table entry; each later one with another action is a conflict. The GOTO row of a state is
filled from its transitions, of which it takes those on nonterminals.
-/

namespace ShiftReduce

/-! ## 1. Proposals -/

/-- The actions that one item of a state asks for, each with its lookahead, with FOLLOW sets
    given. -/
def Item.proposals (g : Grammar) (a : Automaton) {t : Slots} (follow : SetTable t) (state : Nat)
    (i : Item) : List (Symbol × Proposal) :=
  match i.next? g with
  | some (.terminal id) =>
    match a.transition? state (.terminal id) with
    | some target => [(.terminal id, ⟨.shift target, i.rule⟩)]
    | none => []
  | some _ => []
  | none =>
    if i.rule = 0 then [(.endOfInput, ⟨.accept, i.rule⟩)]
    else match g.rules[i.rule]? with
      | some r =>
        let p : Proposal := ⟨.reduce i.rule, i.rule⟩
        (t.symbolsOf (follow.set (.nonterminal r.lhs))).map fun x => (x, p)
      | none => []

/-! ## 2. Rows -/

/-- What the items of one state propose, in order. The first proposal for a lookahead is the entry
    of the state. -/
abbrev Row := Directory Symbol Proposal

/-- The entry for a lookahead. -/
def Row.cell? (row : Row) (x : Symbol) : Option Proposal := row.find? x

/-- **The first proposal for a lookahead is the entry.** -/
theorem Row.cell?_ofList (ps : List (Symbol × Proposal)) (x : Symbol) :
    Row.cell? (.ofList ps) x = ps.lookup x :=
  Directory.find?_ofList ps x

/-- The actions of the row, each lookahead once, in the order they were proposed. -/
def Row.actions (row : Row) : List (Symbol × Action) :=
  row.firsts.map fun p => (p.1, p.2.action)

/-- The conflict between a proposal and the entry in its place, if they ask for different
    actions. -/
def Row.conflict? (row : Row) (state : Nat) (x : Symbol) (p : Proposal) : Option Conflict :=
  match row.cell? x with
  | some q =>
    if q.action = p.action then none
    else some ⟨state, x, q.action, q.rule, p.action, p.rule⟩
  | none => none

/-- The conflicts of a row, each once, in the order of the proposals. -/
def Row.conflicts (row : Row) (state : Nat) : List Conflict :=
  (row.entries.filterMap fun p => row.conflict? state p.1 p.2).eraseDups

/-- The GOTO entries of one state: the state to enter by nonterminal. -/
abbrev GotoRow := Directory Nonterminal Nat

/-- The transitions on nonterminals, in their order. -/
def GotoRow.ofTransitions (row : Transitions) : GotoRow :=
  .ofList (row.entries.filterMap fun p => p.1.nonterminal?.map fun n => (n, p.2))

/-! ## 3. Tables -/

/-- The automaton of a grammar with its ACTION and GOTO rows, indexed by state, and the FOLLOW sets
    behind the reductions. -/
structure Tables where
  automaton : Automaton
  slots : Slots
  follow : SetTable slots
  rows : Array Row
  gotos : Array GotoRow

namespace Tables

/-- The row of a state. -/
def row? (t : Tables) (state : Nat) : Option Row := t.rows[state]?

/-- What to do in a state on a lookahead. -/
def action? (t : Tables) (state : Nat) (x : Symbol) : Option Action :=
  ((t.row? state).bind fun row => row.cell? x).map Proposal.action

/-- The GOTO row of a state. -/
def gotos? (t : Tables) (state : Nat) : Option GotoRow := t.gotos[state]?

/-- The state to enter from `state` after a reduction to `n`. -/
def goto? (t : Tables) (state : Nat) (n : Nonterminal) : Option Nat :=
  (t.gotos? state).bind fun row => row.find? n

/-- The entries of the GOTO row of a state, in transition order. -/
def gotoRow? (t : Tables) (state : Nat) : Option (List (Nonterminal × Nat)) :=
  (t.gotos? state).map Directory.entries

/-- The state to enter is the one listed in the row. -/
theorem goto?_eq_lookup (t : Tables) (state : Nat) (n : Nonterminal) :
    t.goto? state n = (t.gotoRow? state).bind fun row => row.lookup n := by
  rw [goto?, gotoRow?]
  cases t.gotos? state with
  | none => rfl
  | some row => exact row.find?_eq n

end Tables

/-! ## 4. Building -/

/-- Tables together with everything found on the way. -/
structure TableBuild where
  tables : Tables
  diagnostics : List Diagnostic

namespace TableBuild

/-- The row of every state. -/
def rows (g : Grammar) (a : Automaton) {t : Slots} (follow : SetTable t) : List Row :=
  a.states.toList.zipIdx.map fun p =>
    .ofList (p.1.toList.flatMap (Item.proposals g a follow p.2))

/-- The GOTO row of every state. -/
def gotos (a : Automaton) : Array GotoRow := a.transitions.map GotoRow.ofTransitions

/-- The diagnostics of a table: nonterminals without rules first, then the conflicts by state. -/
def findings (g : Grammar) (rows : List Row) : List Diagnostic :=
  g.undefinedNonterminals.map (fun p => .undefined p.1 p.2) ++
    rows.zipIdx.flatMap fun p => (p.1.conflicts p.2).map .conflict

/-- Builds the tables of a grammar whose left recursion can be eliminated. FIRST comes from the
    rewritten rules, FOLLOW from the grammar's own. -/
def ofGrammar (g : Grammar) : Except LeftRecursionError TableBuild := do
  let e ← Elimination.ofGrammar g
  let follow := followSets g.rules.toList g.augmentedStart e.first
  let a := Automaton.ofGrammar g
  let rows := rows g a follow
  return {
    tables := ⟨a, e.slots, follow, rows.toArray, gotos a⟩
    diagnostics := findings g rows }

end TableBuild

end ShiftReduce
