import ShiftReduce.Symbol
/-!
# Actions and diagnostics

What a table cell tells the machine to do, and what can be found wrong with a grammar while its
table is built: a nonterminal without rules, or two actions that compete for one cell.
-/

namespace ShiftReduce

/-- What the machine does in a state on a lookahead. -/
inductive Action where
  | shift (state : Nat)
  | reduce (rule : Nat)
  | accept
  deriving DecidableEq, Repr

/-- Written form: `shift 5`, `reduce by rule 2`, `accept`. -/
def Action.text : Action → String
  | .shift state => s!"shift {state}"
  | .reduce rule => s!"reduce by rule {rule}"
  | .accept => "accept"

instance : ToString Action := ⟨Action.text⟩

/-- An action with the rule of the item that asks for it. -/
structure Proposal where
  action : Action
  rule : Nat
  deriving DecidableEq, Repr

/-- Two different actions for one cell. The kept one is in the table. -/
structure Conflict where
  state : Nat
  lookahead : Symbol
  kept : Action
  keptRule : Nat
  rejected : Action
  rejectedRule : Nat
  deriving DecidableEq, Repr

def Conflict.message (c : Conflict) : String :=
  s!"conflict in state {c.state} on {c.lookahead}: {c.kept} (rule {c.keptRule}) vs " ++
    s!"{c.rejected} (rule {c.rejectedRule})"

/-- A finding of a table build. -/
inductive Diagnostic where
  | undefined (nonterminal : Nonterminal) (rule : Nat)
  | conflict (conflict : Conflict)
  deriving DecidableEq, Repr

def Diagnostic.message : Diagnostic → String
  | .undefined n rule => "nonterminal " ++ Symbol.text (.nonterminal n) ++
      s!" referenced by rule {rule} has no producing rule"
  | .conflict c => c.message

def Diagnostic.conflict? : Diagnostic → Option Conflict
  | .conflict c => some c
  | .undefined _ _ => none

end ShiftReduce
