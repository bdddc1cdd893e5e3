import ShiftReduce.Machine
/-!
# Parsers

A parser is a machine with the tables of its own grammar, built without any finding.
`Parser.build` fails on left recursion that cannot be eliminated and else on the first diagnostic
of the table build.
-/

namespace ShiftReduce

/-- Why no parser can be built for a grammar. -/
inductive BuildError where
  | leftRecursion (e : LeftRecursionError)
  | diagnostic (d : Diagnostic)
  deriving DecidableEq, Repr

def BuildError.message : BuildError → String
  | .leftRecursion e => e.message
  | .diagnostic d => d.message

/-- The first diagnostic of a table build, as an error. -/
def TableBuild.check (b : TableBuild) : Except BuildError Unit :=
  match b.diagnostics with
  | [] => .ok ()
  | d :: _ => .error (.diagnostic d)

/-- A machine whose tables are those of its grammar, without findings. -/
structure Parser extends Machine where
  own_tables : TableBuild.ofGrammar grammar = .ok ⟨tables, []⟩

/-- Builds the tables of a grammar and refuses any finding. -/
def Parser.build (g : Grammar) : Except BuildError Parser :=
  match h : TableBuild.ofGrammar g with
  | .error e => .error (.leftRecursion e)
  | .ok ⟨_, d :: _⟩ => .error (.diagnostic d)
  | .ok ⟨tables, []⟩ => .ok ⟨⟨g, tables⟩, h⟩

/-- A parser that was built is a parser for its grammar. -/
theorem Parser.grammar_of_build {g : Grammar} {p : Parser} (h : Parser.build g = .ok p) :
    p.grammar = g := by
  unfold Parser.build at h
  split at h
  · cases h
  · cases h
  · cases h; rfl

/-- A grammar has a parser exactly when its tables can be built without findings. -/
theorem Parser.exists_build_iff {g : Grammar} :
    (∃ p, Parser.build g = .ok p) ↔ ∃ tables, TableBuild.ofGrammar g = .ok ⟨tables, []⟩ := by
  constructor
  · rintro ⟨p, hp⟩
    exact ⟨p.tables, Parser.grammar_of_build hp ▸ p.own_tables⟩
  · rintro ⟨tables, ht⟩
    unfold Parser.build
    split
    · rename_i e he
      rw [he] at ht
      cases ht
    · rename_i d ds he
      rw [he] at ht
      cases ht
    · exact ⟨_, rfl⟩

end ShiftReduce
