import ShiftReduce.Table.Tables
/-!
# The shift-reduce machine

A machine is a grammar with tables, its own or others. A configuration is a stack of states, never
empty, and the input still to be read. `Machine.step` makes the one move that the tables ask for,
or says how the run ends; `Machine.run` makes moves up to a bound. The end of the input reads as
`$`, so a closing `$` may be left out.
-/

namespace ShiftReduce

/-! ## 1. Configurations and moves -/

/-- A configuration of the machine. -/
structure Config where
  /-- The state on top of the stack. -/
  top : Nat
  /-- The states below it, nearest first. -/
  below : List Nat
  /-- The symbols still to be read. -/
  input : List Symbol
  /-- How many symbols have been read. -/
  position : Nat
  deriving DecidableEq, Repr

namespace Config

/-- State 0 before the whole input. -/
def initial (input : List Symbol) : Config := ⟨0, [], input, 0⟩

/-- The states from the top down. -/
def stack (c : Config) : List Nat := c.top :: c.below

/-- The next symbol to be read, `$` at the end. -/
def lookahead (c : Config) : Symbol := c.input.head?.getD .endOfInput

/-- Reads one symbol and enters a state. -/
def shift (c : Config) (state : Nat) : Config :=
  ⟨state, c.stack, c.input.tail, c.position + 1⟩

end Config

/-- A move: a shift of the symbol at a position, a reduction with the state entered after it, or
    acceptance. -/
inductive Move where
  | shift (state position : Nat)
  | reduce (rule target : Nat)
  | accept
  deriving DecidableEq, Repr

/-- One entry of a trace. -/
inductive Event where
  | shift (state position : Nat)
  | reduce (rule : Nat)
  | goto (state : Nat)
  | accept
  deriving DecidableEq, Repr

/-- What a trace records of a move: a reduction leaves two entries. -/
def Move.events : Move → List Event
  | .shift state position => [.shift state position]
  | .reduce rule target => [.reduce rule, .goto target]
  | .accept => [.accept]

/-! ## 2. One step -/

/-- What a table entry can ask for that cannot be done. -/
inductive TableDefect where
  | missingRule (rule : Nat)
  | underflow (rule : Nat)
  | missingGoto (nonterminal : Nonterminal)
  deriving DecidableEq, Repr

def TableDefect.detail : TableDefect → String
  | .missingRule rule => s!"rule {rule} is not in the grammar"
  | .underflow rule => s!"reducing rule {rule} underflows the stack"
  | .missingGoto n => "no GOTO on " ++ Symbol.text (.nonterminal n)

/-- What comes of one step. -/
inductive Step where
  | move (m : Move) (c : Config)
  | accept
  | reject
  | stuck (state : Nat) (defect : TableDefect)
  deriving DecidableEq, Repr

/-- Tables with the grammar whose rules they reduce by. -/
structure Machine where
  grammar : Grammar
  tables : Tables

namespace Machine

/-- Takes the right-hand side of a rule off the stack and enters the state that GOTO names for the
    exposed state and the left-hand side. -/
def reduce (m : Machine) (c : Config) (rule : Nat) : Step :=
  match m.grammar.rules[rule]? with
  | none => .stuck c.top (.missingRule rule)
  | some r =>
    match c.stack.drop r.rhs.length with
    | [] => .stuck c.top (.underflow rule)
    | exposed :: rest =>
      match m.tables.goto? exposed r.lhs with
      | none => .stuck exposed (.missingGoto r.lhs)
      | some target => .move (.reduce rule target) ⟨target, exposed :: rest, c.input, c.position⟩

/-- The step that the tables ask for. -/
def step (m : Machine) (c : Config) : Step :=
  match m.tables.action? c.top c.lookahead with
  | none => .reject
  | some (.shift state) => .move (.shift state c.position) (c.shift state)
  | some (.reduce rule) => m.reduce c rule
  | some .accept => .accept

end Machine

/-! ## 3. Runs -/

/-- How a finished run ended. A rejection names the state, the lookahead and the position at which
    no entry was found. -/
inductive Outcome where
  | accepted
  | rejected (state : Nat) (lookahead : Symbol) (position : Nat)
  deriving DecidableEq, Repr

/-- A finished run with its moves in order. -/
structure Run where
  outcome : Outcome
  moves : List Move
  deriving DecidableEq, Repr

/-- The trace of a run: what each move records, in order. -/
def Run.trace (r : Run) : List Event := r.moves.flatMap Move.events

def Run.isAccepted (r : Run) : Bool := r.outcome == .accepted

/-- Why a run did not finish. -/
inductive RunError where
  | boundExceeded (bound : Nat)
  | corruptTable (state : Nat) (defect : TableDefect)
  deriving DecidableEq, Repr

def RunError.message : RunError → String
  | .boundExceeded bound => s!"parse did not finish within {bound} steps"
  | .corruptTable state defect => s!"corrupt table at state {state}: " ++ defect.detail

namespace Machine

/-- Goes on from `c` for at most `left` of `bound` steps; `past` holds the moves made, last move
    first. -/
def runFrom (m : Machine) (bound : Nat) :
    (left : Nat) → (past : List Move) → Config → Except RunError Run
  | 0, _, _ => .error (.boundExceeded bound)
  | left + 1, past, c =>
    match m.step c with
    | .move move c' => m.runFrom bound left (move :: past) c'
    | .accept => .ok ⟨.accepted, (.accept :: past).reverse⟩
    | .reject => .ok ⟨.rejected c.top c.lookahead c.position, past.reverse⟩
    | .stuck state defect => .error (.corruptTable state defect)

/-- Runs the machine over an input for at most `bound` steps. -/
def run (m : Machine) (bound : Nat) (input : List Symbol) : Except RunError Run :=
  m.runFrom bound bound [] (.initial input)

end Machine

/-! ## 4. Step bounds -/

/-- The most steps a run may be given: the largest number of 64 bits. -/
def maxBound : Nat := 18446744073709551615

/-- Steps per symbol of the input and for its end unless the caller chooses. -/
def defaultStepsPerToken : Nat := 1024

/-- The steps allowed for an input of `length` symbols: so many for each symbol and for the end,
    but never more than `maxBound`. -/
def stepBound (length stepsPerToken : Nat) : Nat :=
  min ((length + 1) * stepsPerToken) maxBound

/-- Runs the machine over an input with a number of steps for each symbol of it. -/
def Machine.parse (m : Machine) (stepsPerToken : Nat) (input : List Symbol) :
    Except RunError Run :=
  m.run (stepBound input.length stepsPerToken) input

end ShiftReduce
