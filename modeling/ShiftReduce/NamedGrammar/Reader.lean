import ShiftReduce.NamedGrammar.Basic
/-!
# Reading grammars

A grammar is written line by line:

    %token + id
    S -> E
    E -> E + id
       | id

Lines are trimmed; blank lines and lines that start with `#` are left out. A line that starts with
`%` declares tokens. Every other line holds alternatives between bars, for the nonterminal before
its arrow, or, if it starts with a bar, for that of the line before. Names declared as tokens
anywhere are terminals, and all others but `$` are nonterminals, numbered as they appear.
-/

namespace ShiftReduce

/-! ## 1. What can be wrong with a line -/

/-- Why a line cannot be read. -/
inductive LineDefect where
  | unknownDirective (word : String)
  | noTokenNames
  | strayAlternative
  | noArrow
  | notOneName
  | ruleForToken (name : String)
  deriving DecidableEq, Repr

def LineDefect.detail : LineDefect → String
  | .unknownDirective word => s!"unknown directive `{word}`"
  | .noTokenNames => "`%token` without any names"
  | .strayAlternative => "alternative without a rule"
  | .noArrow => "expected `->`"
  | .notOneName => "expected exactly one name before `->`"
  | .ruleForToken name => s!"token `{name}` cannot have rules"

/-- Why a text is no grammar. -/
inductive ReadError where
  | badLine (number : Nat) (defect : LineDefect)
  | malformed (e : GrammarError)
  deriving DecidableEq, Repr

def ReadError.message : ReadError → String
  | .badLine number defect => s!"line {number}: " ++ defect.detail
  | .malformed e => e.message

/-! ## 2. Lines -/

/-- A line that is neither blank nor a comment, trimmed, with its number in the text. -/
structure Line where
  number : Nat
  content : Text
  deriving DecidableEq, Repr

namespace Line

/-- The trimmed text of a line counts: it is not empty and does not start with `#`. -/
def counts (content : Text) : Bool := !content.isEmpty && content.head? != some '#'

/-- The lines of a text that count, numbered from 1 with all lines counted. -/
def ofText (text : Text) : List Line :=
  (((text.pieces (· == '\n')).zipIdx 1).map fun p => ⟨p.2, p.1.trim⟩).filter fun l =>
    counts l.content

def isDirective (l : Line) : Bool := l.content.head? == some '%'

def isAlternative (l : Line) : Bool := l.content.head? == some '|'

/-- The token names that a directive declares. -/
def declared (l : Line) : Except LineDefect (List String) :=
  match l.content.names with
  | [] => .ok []
  | word :: names =>
    if word = "%token" then
      if names = [] then .error .noTokenNames else .ok names
    else .error (.unknownDirective word)

/-- The left-hand side of a rule line with the text of its alternatives. A line of alternatives
    only takes the left-hand side `last` of the line before. -/
def head (tokens : Numbering String) (last : Option String) (l : Line) :
    Except LineDefect (String × Text) :=
  if l.isAlternative then
    match last with
    | none => .error .strayAlternative
    | some lhs => .ok (lhs, l.content.tail)
  else
    match l.content.cutArrow? with
    | none => .error .noArrow
    | some (before, after) =>
      if before.trim = [] ∨ before.trim.any isBlank then .error .notOneName
      else if String.ofList before.trim ∈ tokens then
        .error (.ruleForToken (String.ofList before.trim))
      else .ok (String.ofList before.trim, after)

end Line

/-! ## 3. Rules by name -/

/-- A rule with names in place of symbols. -/
structure NamedRule where
  lhs : String
  rhs : List String
  deriving DecidableEq, Repr

namespace NamedRule

/-- One rule for each alternative. -/
def ofAlternatives (lhs : String) (text : Text) : List NamedRule :=
  (text.pieces (· == '|')).map fun alternative => ⟨lhs, alternative.names⟩

/-- The rules of a list of rule lines, or the first line that is wrong. -/
def ofLines (tokens : Numbering String) : Option String → List Line →
    Except ReadError (List NamedRule)
  | _, [] => .ok []
  | last, l :: ls => do
    let (lhs, text) ← (l.head tokens last).mapError (.badLine l.number)
    let rest ← ofLines tokens (some lhs) ls
    return ofAlternatives lhs text ++ rest

/-- The nonterminal names of a rule: its left-hand side, then every name that is neither a token
    nor `$`. -/
def nonterminals (tokens : Numbering String) (r : NamedRule) : List String :=
  r.lhs :: r.rhs.filter fun name => !tokens.contains name && name != "$"

/-- The number of a nonterminal name. -/
def idOf (nonterminals : Numbering String) (name : String) : Nonterminal :=
  (nonterminals.number? name).getD 0

/-- The symbol of a name on a right-hand side. -/
def symbol (tokens nonterminals : Numbering String) (name : String) : Symbol :=
  match tokens.number? name with
  | some id => .terminal id
  | none => if name = "$" then .endOfInput else .nonterminal (idOf nonterminals name)

/-- The rule with symbols in place of names. -/
def resolve (tokens nonterminals : Numbering String) (r : NamedRule) : Rule :=
  ⟨idOf nonterminals r.lhs, r.rhs.map (symbol tokens nonterminals)⟩

end NamedRule

/-! ## 4. Grammars -/

/-- The token names of a list of directives, each once, in order of declaration, or the first
    directive that is wrong. -/
def tokenNames (ls : List Line) : Except ReadError (Numbering String) := do
  let names ← ls.mapM fun l => l.declared.mapError (.badLine l.number)
  return .ofList names.flatten

/-- Reads a grammar. Directives are checked first, then rule lines, then the rules as a whole. -/
def NamedGrammar.read (text : String) : Except ReadError NamedGrammar := do
  let lines := Line.ofText text.toList
  let tokens ← tokenNames (lines.filter Line.isDirective)
  let rules ← NamedRule.ofLines tokens none (lines.filter fun l => !l.isDirective)
  let nonterminals := Numbering.ofList (rules.flatMap (NamedRule.nonterminals tokens))
  let grammar ← (Grammar.ofRules (rules.map (NamedRule.resolve tokens nonterminals))).mapError
    .malformed
  return ⟨grammar, tokens, nonterminals⟩

end ShiftReduce
