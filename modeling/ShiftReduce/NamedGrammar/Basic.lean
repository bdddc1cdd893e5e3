import ShiftReduce.Grammar
import ShiftReduce.Text.Pieces
/-!
# Grammars with names

A grammar whose symbols have names: terminal `i` has the `i`-th token name, and nonterminal `i` the
`i`-th nonterminal name. The name `$` always reads as the end of the input in a stream of tokens.
-/

namespace ShiftReduce

/-- A grammar with the names of its terminals and of its nonterminals. -/
structure NamedGrammar where
  grammar : Grammar
  tokens : Numbering String
  nonterminals : Numbering String

/-- A symbol of an input with the name it came from. -/
structure Token where
  symbol : Symbol
  name : String
  deriving DecidableEq, Repr

/-- A name in a stream of tokens that is no token. -/
structure UnknownToken where
  name : String
  deriving DecidableEq, Repr

def UnknownToken.message (e : UnknownToken) : String := s!"unknown token `{e.name}`"

namespace NamedGrammar

variable (n : NamedGrammar)

/-! ## 1. From names to symbols -/

/-- The terminal of a token name. -/
def terminal? (name : String) : Option Terminal := n.tokens.number? name

/-- The nonterminal of a name. -/
def nonterminal? (name : String) : Option Nonterminal := n.nonterminals.number? name

/-- The symbol of a name; tokens come first. -/
def symbol? (name : String) : Option Symbol :=
  (n.terminal? name).map .terminal <|> (n.nonterminal? name).map .nonterminal

/-- The first rule that reads as this text, written `A -> x y z`. -/
def rule? (text : String) : Option Nat := do
  let (before, after) ← Text.cutArrow? text.toList
  let lhs ← n.nonterminal? (String.ofList (Text.trim before))
  let rhs ← (Text.names after).mapM n.symbol?
  n.grammar.findRule? lhs rhs

/-- The token of a name. -/
def token (name : String) : Except UnknownToken Token :=
  if name = "$" then .ok ⟨.endOfInput, name⟩
  else match n.terminal? name with
    | some id => .ok ⟨.terminal id, name⟩
    | none => .error ⟨name⟩

/-- A stream of tokens with `$` at its end; one that is there already is not doubled. -/
def tokenize (names : List String) : Except UnknownToken (List Token) := do
  let ts ← names.mapM n.token
  if ts.getLast?.map Token.symbol = some .endOfInput then return ts
  else return ts ++ [⟨.endOfInput, "$"⟩]

/-! ## 2. From symbols to names -/

/-- The name of a symbol; one without a name is written with its number. -/
def symbolName (x : Symbol) : String :=
  match x with
  | .terminal id => (n.tokens.member? id).getD x.text
  | .nonterminal id => (n.nonterminals.member? id).getD x.text
  | _ => x.text

/-- A left-hand side, an arrow, and each word after a blank. -/
def renderWords (lhs : Nonterminal) (words : List String) : String :=
  words.foldl (fun s w => s ++ " " ++ w) (n.symbolName (.nonterminal lhs) ++ " ->")

/-- A rule with names: `E -> E + T`. -/
def renderRule (r : Rule) : String := n.renderWords r.lhs (r.rhs.map n.symbolName)

end NamedGrammar

end ShiftReduce
