import Mathlib.Order.Bounds.Defs
import ShiftReduce.Proofs.Reading
import ShiftReduce.Proofs.Runs
/-!
# Writing a grammar and reading it again

A grammar is written as one directive that declares its tokens in order, if it has any, and one line
for each rule. What is written is read as the same grammar with the same names, whatever text it was
read from (`NamedGrammar.read_render`).

The names need no quoting: a name that was read before an arrow cannot be mistaken there again, and
a name behind an arrow is a word without bar (`NamedRule.Readable`). So every rule comes back from
its line as the one rule with these names (`NamedRule.ofLines_lines`), the directive declares the
tokens in their order, and equal rules by name lead to equal numbers.

A single rule is looked up by the same text. A name that is a token is none of the nonterminals, and
no rule holds `$` unless it is a token, so every name is looked up as the symbol it stands for
(`ReadFrom.symbol?_eq`), and the rule as the first one equal to it (`rule?_renderRule`).
-/

namespace ShiftReduce

/-! ## 1. Texts that are lines -/

namespace Line

/-- A text that is a line of its own: it counts, and neither cutting nor trimming changes it. -/
structure Stays (cs : Text) : Prop where
  noBreak : '\n' ∉ cs
  trim_eq : Text.trim cs = cs
  counts : counts cs = true

/-- **Lines that stay are the lines of the text they are joined to.** -/
theorem map_content_ofText_intercalate {contents : List Text} (hne : contents ≠ [])
    (h : ∀ cs ∈ contents, Stays cs) :
    (ofText (['\n'].intercalate contents)).map content = contents := by
  have hpieces : Text.pieces (· == '\n') (['\n'].intercalate contents) = contents :=
    Text.pieces_intercalate (by decide) hne fun cs hcs c hc =>
      beq_eq_false_iff_ne.2 fun he => (h cs hcs).noBreak (he ▸ hc)
  have htrim : contents.map Text.trim = contents :=
    (List.map_congr_left fun cs hcs => (h cs hcs).trim_eq).trans (List.map_id _)
  rw [map_content_ofText, hpieces, htrim]
  exact List.filter_eq_self.2 fun cs hcs => (h cs hcs).counts

/-- Words behind a text that opens a line and ends without a blank. -/
theorem stays_append_spaced {c : Char} {cs : Text} {ws : List Text} (hc : isBlank c = false)
    (hcomment : c ≠ '#') (hlast : ∀ d ∈ (c :: cs).getLast?, isBlank d = false)
    (hbreak : '\n' ∉ c :: cs) (hws : ∀ w ∈ ws, Text.IsWord w) :
    Stays (c :: cs ++ Text.spaced ws) where
  noBreak hmem := by
    rcases List.mem_append.1 hmem with h | h
    · exact hbreak h
    · rcases Text.eq_or_mem_of_mem_spaced h with h | ⟨w, hw, h⟩
      · exact absurd h (by decide)
      · exact absurd ((hws w hw).2 _ h) (by decide)
  trim_eq := Text.trim_eq_self (by simpa using hc) (Text.getLast?_append_spaced hlast hws)
  counts := by simp [Line.counts, hcomment]

end Line

/-! ## 2. Rules -/

namespace NamedRule

variable {tokens : Numbering String} {r : NamedRule} {rules : List NamedRule} {ls : List Line}

/-- The line of one rule: its left-hand side, an arrow, and every name after a blank. -/
def line (r : NamedRule) : Text :=
  r.lhs.toList ++ ' ' :: '-' :: '>' :: Text.spaced (r.rhs.map String.toList)

namespace Readable

theorem exists_cons (h : r.Readable tokens) :
    ∃ c cs, r.lhs.toList = c :: cs ∧ isBlank c = false ∧ c ≠ '#' ∧ c ≠ '%' ∧ c ≠ '|' := by
  obtain ⟨c, cs, hcs⟩ := List.exists_cons_of_ne_nil h.lhs.isWord.1
  exact ⟨c, cs, hcs, h.lhs.isWord.2 c (hcs ▸ List.mem_cons_self), h.lhs.head_ne c (hcs ▸ rfl)⟩

theorem isWord_of_mem (h : r.Readable tokens) :
    ∀ w ∈ r.rhs.map String.toList, Text.IsWord w := by
  simpa using fun name hname => (h.rhs name hname).1

theorem stays_line (h : r.Readable tokens) : Line.Stays r.line := by
  obtain ⟨c, cs, hcs, hc, hcomment, -⟩ := h.exists_cons
  have hline : r.line = c :: (cs ++ [' ', '-', '>']) ++ Text.spaced (r.rhs.map String.toList) := by
    simp [line, hcs]
  have hbreak : '\n' ∉ c :: cs := fun hmem =>
    absurd (h.lhs.isWord.2 _ (hcs ▸ hmem)) (by decide)
  rw [hline]
  refine Line.stays_append_spaced hc hcomment ?_ ?_ h.isWord_of_mem
  · rw [← List.cons_append, List.getLast?_append]
    rintro d ⟨⟩
    decide
  · rw [← List.cons_append, List.mem_append, not_or]
    exact ⟨hbreak, by decide⟩

theorem head?_line (h : r.Readable tokens) : r.line.head? = r.lhs.toList.head? := by
  obtain ⟨c, cs, hcs, -⟩ := h.exists_cons
  rw [line, hcs]
  rfl

theorem head?_line_ne (h : r.Readable tokens) : r.line.head? ≠ some '%' := by
  obtain ⟨c, cs, hcs, -, -, hdirective, -⟩ := h.exists_cons
  rw [h.head?_line, hcs]
  simpa using hdirective

/-- The first arrow of the line stands behind the left-hand side. -/
theorem cutArrow?_line (h : r.Readable tokens) : Text.cutArrow? r.line =
    some (r.lhs.toList ++ [' '], Text.spaced (r.rhs.map String.toList)) :=
  Text.cutArrow?_write h.lhs.noArrow _

/-- **The left-hand side of a rule comes back from its line**, and leaves the words behind the
    arrow. -/
theorem head_line (h : r.Readable tokens) {l : Line} (hl : l.content = r.line)
    (last : Option String) :
    l.head tokens last = .ok (r.lhs, Text.spaced (r.rhs.map String.toList)) := by
  have halternative : l.isAlternative = false := by
    obtain ⟨c, cs, hcs, -, -, -, hbar⟩ := h.exists_cons
    rw [Line.isAlternative, hl, h.head?_line, hcs]
    simpa using hbar
  have htrim := Text.trim_concat_space h.lhs.isWord
  refine Line.head_eq_ok_iff.2
    (.inr ⟨halternative, _, hl ▸ h.cutArrow?_line, ?_, ?_, h.lhs.notToken⟩)
  · rw [htrim]
    exact h.lhs.isWord
  · rw [htrim, String.ofList_toList]

/-- The words behind the arrow are the right-hand side, as the only alternative. -/
theorem ofAlternatives_line (h : r.Readable tokens) :
    ofAlternatives r.lhs (Text.spaced (r.rhs.map String.toList)) = [r] := by
  have hbars : ∀ c ∈ Text.spaced (r.rhs.map String.toList), (c == '|') = false := by
    intro c hc
    rcases Text.eq_or_mem_of_mem_spaced hc with rfl | ⟨w, hw, hc⟩
    · decide
    · obtain ⟨name, hname, rfl⟩ := List.mem_map.1 hw
      exact beq_eq_false_iff_ne.2 fun he => (h.rhs name hname).2 (he ▸ hc)
  rw [ofAlternatives, Text.pieces_of_forall hbars, List.map_singleton,
    Text.names_spaced fun name hname => (h.rhs name hname).1]

end Readable

/-- **The rules come back from their lines.** -/
theorem ofLines_lines (h : ∀ r ∈ rules, r.Readable tokens)
    (hls : ls.map Line.content = rules.map line) (last : Option String) :
    ofLines tokens last ls = .ok rules := by
  induction rules generalizing ls last with
  | nil =>
    rw [List.map_nil, List.map_eq_nil_iff] at hls
    rw [hls]
    rfl
  | cons r rules ih =>
    obtain ⟨hr, hrules⟩ := List.forall_mem_cons.1 h
    obtain ⟨l, ls, rfl, hl, hls⟩ := List.map_eq_cons_iff.1 hls
    refine bind_eq_ok_iff.2 ⟨_, mapError_eq_ok_iff.2 (hr.head_line hl last), ?_⟩
    refine bind_eq_ok_iff.2 ⟨rules, ih hrules hls _, ?_⟩
    rw [hr.ofAlternatives_line]
    rfl

end NamedRule

/-! ## 3. Directives -/

/-- The directive that declares these names. -/
def directive (names : List String) : Text :=
  "%token".toList ++ Text.spaced (names.map String.toList)

section Directive

variable {names : List String}

theorem isWord_token : Text.IsWord "%token".toList := by
  have hall : "%token".toList.all (fun c => !isBlank c) = true := by decide +kernel
  exact ⟨by decide +kernel, fun c hc => by simpa using List.all_eq_true.1 hall c hc⟩

theorem stays_directive (h : ∀ name ∈ names, Text.IsWord name.toList) :
    Line.Stays (directive names) :=
  Line.stays_append_spaced (by decide) (by decide)
    (fun d hd => isWord_token.2 d (List.mem_of_getLast? hd))
    (fun hbreak => absurd (isWord_token.2 _ hbreak) (by decide)) (by simpa using h)

theorem declared_directive (h : ∀ name ∈ names, Text.IsWord name.toList) (hne : names ≠ [])
    {l : Line} (hl : l.content = directive names) : l.declared = .ok names := by
  refine Line.declared_eq_ok_iff.2 (.inr ⟨?_, hne⟩)
  rw [hl]
  exact Text.names_append_spaced "%token" isWord_token h

end Directive

/-! ## 4. Grammars -/

namespace NamedGrammar

/-- One directive that declares the tokens in order, if there are any. -/
def declarations (n : NamedGrammar) : List String :=
  if n.tokens.toList = [] then [] else [" ".intercalate ("%token" :: n.tokens.toList)]

/-- A text for the grammar: its tokens, then its rules, each in a line. -/
def render (n : NamedGrammar) : String :=
  "\n".intercalate (n.declarations ++ n.grammar.rules.toList.map n.renderRule)

variable {n : NamedGrammar} {text : String} {rules : List NamedRule}

theorem toList_renderWords (lhs : Nonterminal) (words : List String) :
    (n.renderWords lhs words).toList = (n.symbolName (.nonterminal lhs)).toList ++
      ' ' :: '-' :: '>' :: Text.spaced (words.map String.toList) := by
  have hfold : ∀ s : String, (words.foldl (fun s w => s ++ " " ++ w) s).toList =
      s.toList ++ Text.spaced (words.map String.toList) := by
    induction words with
    | nil => simp [Text.spaced]
    | cons w ws ih =>
      intro s
      rw [List.foldl_cons, ih]
      simp [Text.spaced]
  rw [renderWords, hfold]
  simp

namespace ReadFrom

/-- Every rule is written as the line of the rule by name it came from. -/
theorem toList_renderRule (h : n.ReadFrom text rules) {r : NamedRule} (hr : r ∈ rules) :
    (n.renderRule (r.resolve n.tokens n.nonterminals)).toList = r.line := by
  have hwords : (r.resolve n.tokens n.nonterminals).rhs.map n.symbolName = r.rhs := by
    rw [NamedRule.resolve, List.map_map]
    exact (List.map_congr_left fun name hname => h.symbolName_symbol hr hname).trans (List.map_id _)
  rw [renderRule, hwords, toList_renderWords, NamedRule.line]
  exact congrArg (fun s : String => s.toList ++ _) (h.symbolName_lhs hr)

theorem isWord_of_mem_tokens (h : n.ReadFrom text rules) {name : String}
    (hname : name ∈ n.tokens.toList) : Text.IsWord name.toList := by
  obtain ⟨l, -, hdecl⟩ := h.mem_tokens_iff.1 (Numbering.mem_def.2 hname)
  exact hdecl.isWord

/-- The lines of the text that tokens and rules are written as. -/
def linesOf (tokens : List String) (rules : List NamedRule) : List Text :=
  (if tokens = [] then [] else [directive tokens]) ++ rules.map NamedRule.line

theorem toList_render (h : n.ReadFrom text rules) :
    n.render.toList = ['\n'].intercalate (linesOf n.tokens.toList rules) := by
  have hrules : (n.grammar.rules.toList.map n.renderRule).map String.toList =
      rules.map NamedRule.line := by
    rw [h.toList_rules, List.map_map, List.map_map]
    exact List.map_congr_left fun r hr => h.toList_renderRule hr
  have htokens : n.declarations.map String.toList =
      if n.tokens.toList = [] then [] else [directive n.tokens.toList] := by
    rw [declarations]
    split
    · rfl
    · rw [List.map_singleton, String.toList_intercalate, List.map_cons]
      exact congrArg (fun cs => [cs]) (Text.intercalate_space _ _)
  rw [render, String.toList_intercalate, List.map_append, hrules, htokens, linesOf]
  rfl

/-- What is written has these lines again. -/
theorem map_content_render (h : n.ReadFrom text rules) :
    (Line.ofText n.render.toList).map Line.content = linesOf n.tokens.toList rules := by
  have hrules : rules ≠ [] := by
    rintro rfl
    exact nomatch h.ofRules_eq
  rw [h.toList_render]
  refine Line.map_content_ofText_intercalate (by simp [linesOf, hrules]) fun cs hcs => ?_
  rcases List.mem_append.1 hcs with hcs | hcs
  · split at hcs
    · cases hcs
    · rw [List.mem_singleton.1 hcs]
      exact stays_directive fun name => h.isWord_of_mem_tokens
  · obtain ⟨r, hr, rfl⟩ := List.mem_map.1 hcs
    exact (h.readable hr).stays_line

/-- The directive among the lines. -/
theorem filter_linesOf (h : n.ReadFrom text rules) :
    (linesOf n.tokens.toList rules).filter (fun cs => cs.head? == some '%') =
      if n.tokens.toList = [] then [] else [directive n.tokens.toList] := by
  have hrules : (rules.map NamedRule.line).filter (fun cs => cs.head? == some '%') = [] := by
    refine List.filter_eq_nil_iff.2 fun cs hcs => ?_
    obtain ⟨r, hr, rfl⟩ := List.mem_map.1 hcs
    simpa using (h.readable hr).head?_line_ne
  rw [linesOf, List.filter_append, hrules, List.append_nil]
  split <;> rfl

/-- The rules among the lines. -/
theorem filter_not_linesOf (h : n.ReadFrom text rules) :
    (linesOf n.tokens.toList rules).filter (fun cs => !(cs.head? == some '%')) =
      rules.map NamedRule.line := by
  have hrules : (rules.map NamedRule.line).filter (fun cs => !(cs.head? == some '%')) =
      rules.map NamedRule.line := by
    refine List.filter_eq_self.2 fun cs hcs => ?_
    obtain ⟨r, hr, rfl⟩ := List.mem_map.1 hcs
    simpa using (h.readable hr).head?_line_ne
  rw [linesOf, List.filter_append, hrules]
  split <;> rfl

/-- The token names are numbered in their own order. -/
theorem ofList_tokens (h : n.ReadFrom text rules) : .ofList n.tokens.toList = n.tokens := by
  obtain ⟨names, -, hret⟩ := bind_eq_ok_iff.1 h.tokenNames_eq
  rw [← Except.ok.inj hret]
  exact Numbering.ofList_toList_ofList _

/-- The directive that is written declares the tokens. -/
theorem tokenNames_render (h : n.ReadFrom text rules) :
    tokenNames ((Line.ofText n.render.toList).filter Line.isDirective) = .ok n.tokens := by
  have hlines : ((Line.ofText n.render.toList).filter Line.isDirective).map Line.content =
      if n.tokens.toList = [] then [] else [directive n.tokens.toList] := by
    rw [← h.filter_linesOf, ← h.map_content_render, List.filter_map]
    rfl
  rw [← h.ofList_tokens]
  split at hlines
  · rename_i hnone
    rw [List.map_eq_nil_iff.1 hlines, hnone]
    rfl
  · rename_i hsome
    obtain ⟨l, hl, hcontent⟩ := List.map_eq_singleton_iff.1 hlines
    have hdecl : l.declared = .ok n.tokens.toList :=
      declared_directive (fun name => h.isWord_of_mem_tokens) hsome hcontent
    rw [hl]
    refine bind_eq_ok_iff.2 ⟨[n.tokens.toList], mapM_eq_ok_iff.2 ?_, ?_⟩
    · exact .cons (mapError_eq_ok_iff.2 hdecl) .nil
    · rw [List.flatten_singleton]
      rfl

/-- The lines that are written for rules are read as these rules. -/
theorem ofLines_render (h : n.ReadFrom text rules) :
    NamedRule.ofLines n.tokens none
      ((Line.ofText n.render.toList).filter fun l => !l.isDirective) = .ok rules := by
  refine NamedRule.ofLines_lines (fun r hr => h.readable hr) ?_ none
  rw [← h.filter_not_linesOf, ← h.map_content_render, List.filter_map]
  rfl

end ReadFrom

/-- **What is written is read as the same grammar with the same names**: the same rules in their
    order, and the same numbers for tokens and nonterminals. -/
theorem read_render (h : read text = .ok n) : read n.render = .ok n := by
  obtain ⟨rules, h⟩ := read_eq_ok_iff.1 h
  exact read_eq_ok_iff.2
    ⟨rules, h.tokenNames_render, h.ofLines_render, h.nonterminals_eq, h.ofRules_eq⟩

/-- A text with tokens `->` and `|`, nonterminals `#`, `%`, `$` and `A|%`, and empty alternatives. -/
def oddText : String :=
  "%token -> |\n%token ->\n\n# rules\n S -> A\nA->-> |# % A |\n|\n  A|% -> A\n$ -> ->"

/-- The names in `oddText`. -/
def oddNamed : NamedGrammar := (read oddText).toOption.get (by decide +kernel)

/-- `oddText` is written with one alternative a line, and what is written is read as `oddText` is. -/
theorem oddText_render : read oddText = .ok oddNamed ∧
    oddNamed.render = "%token -> |\nS -> A\nA -> ->\nA -> # % A\nA ->\nA ->\nA|% -> A\n$ -> ->" ∧
    read oddNamed.render = .ok oddNamed :=
  have hread : read oddText = .ok oddNamed := eq_ok_of_toOption (Option.some_get _).symm
  ⟨hread, by decide +kernel, read_render hread⟩

/-! ## 5. Looking rules up -/

namespace ReadFrom

variable {r : NamedRule} {name : String}

theorem nonterminal?_eq (hname : name ∈ n.nonterminals) :
    n.nonterminal? name = some (NamedRule.idOf n.nonterminals name) := by
  obtain ⟨i, hi⟩ := Numbering.mem_iff_number?.1 hname
  rw [nonterminal?, NamedRule.idOf, hi]
  rfl

/-- The rules by name make up the rules of the grammar, one for each. -/
theorem resolve_mem_rules (h : n.ReadFrom text rules) (hr : r ∈ rules) :
    r.resolve n.tokens n.nonterminals ∈ n.grammar.rules := by
  rw [← Array.mem_toList_iff, h.toList_rules]
  exact List.mem_map_of_mem hr

/-- **A name behind an arrow is looked up as its symbol.** A `$` that is no token would be the end of
    the input there, and no rule of a grammar holds it. -/
theorem symbol?_eq (h : n.ReadFrom text rules) (hr : r ∈ rules) (hname : name ∈ r.rhs) :
    n.symbol? name = some (NamedRule.symbol n.tokens n.nonterminals name) := by
  obtain ⟨i, hi⟩ := Array.mem_iff_getElem?.1 (h.resolve_mem_rules hr)
  have hsymbol := Grammar.mem_rhs hi (List.mem_map_of_mem hname)
  unfold NamedRule.symbol at hsymbol ⊢
  split at hsymbol
  · rename_i id hid
    rw [symbol?, terminal?, hid]
    rfl
  · rename_i hnone
    split at hsymbol
    · simp at hsymbol
    · rename_i hend
      rw [symbol?, terminal?, hnone,
        nonterminal?_eq (h.mem_nonterminals_of_mem_rhs hr hname hnone hend), if_neg hend]
      rfl

/-- A rule that is written is searched for as the rule that it is. -/
theorem rule?_renderRule_resolve (h : n.ReadFrom text rules) (hr : r ∈ rules) :
    n.rule? (n.renderRule (r.resolve n.tokens n.nonterminals)) =
      n.grammar.rules.toList.idxOf? (r.resolve n.tokens n.nonterminals) := by
  have hread := h.readable hr
  have hlhs : n.nonterminal? r.lhs = some (NamedRule.idOf n.nonterminals r.lhs) :=
    nonterminal?_eq (h.mem_nonterminals hr List.mem_cons_self)
  have hrhs : r.rhs.mapM n.symbol? =
      some (r.rhs.map (NamedRule.symbol n.tokens n.nonterminals)) :=
    mapM_eq_pure_map fun name hname => h.symbol?_eq hr hname
  have hnames : Text.names (Text.spaced (r.rhs.map String.toList)) = r.rhs :=
    Text.names_spaced fun name hname => (hread.rhs name hname).1
  rw [rule?, h.toList_renderRule hr, hread.cutArrow?_line]
  simp only [Option.bind_eq_bind, Option.bind_some]
  rw [Text.trim_concat_space hread.lhs.isWord, String.ofList_toList, hlhs, hnames, hrhs]
  rfl

end ReadFrom

/-- **A rule that is written is looked up as the first rule equal to it.** -/
theorem rule?_renderRule (h : read text = .ok n) {r : Rule} (hr : r ∈ n.grammar.rules) :
    ∃ i, n.rule? (n.renderRule r) = some i ∧ IsLeast {i | n.grammar.rules[i]? = some r} i := by
  obtain ⟨rules, h⟩ := read_eq_ok_iff.1 h
  obtain ⟨nr, hnr, rfl⟩ : ∃ nr ∈ rules, nr.resolve n.tokens n.nonterminals = r := by
    rwa [← Array.mem_toList_iff, h.toList_rules, List.mem_map] at hr
  rw [h.rule?_renderRule_resolve hnr]
  obtain ⟨i, hi⟩ := Option.isSome_iff_exists.1 (List.isSome_idxOf?.2 (Array.mem_toList_iff.2 hr))
  obtain ⟨hlt, hget, hfirst⟩ := List.idxOf?_eq_some_iff.1 hi
  simp only [← Array.getElem?_toList]
  refine ⟨i, hi, List.getElem?_eq_some_iff.2 ⟨hlt, hget⟩, fun j hj => not_lt.1 fun hji => ?_⟩
  obtain ⟨hjlt, hj⟩ := List.getElem?_eq_some_iff.1 hj
  exact hfirst j hji hj

/-- `oddText` holds the empty rule of `A` twice, and it is looked up as the first of the two. -/
theorem oddText_lookup : read oddText = .ok oddNamed ∧ oddNamed.renderRule ⟨1, []⟩ = "A ->" ∧
    oddNamed.rule? "A ->" = some 3 ∧ oddNamed.grammar.rules[4]? = some ⟨1, []⟩ ∧
    IsLeast {i | oddNamed.grammar.rules[i]? = some ⟨1, []⟩} 3 := by
  have hread : read oddText = .ok oddNamed := eq_ok_of_toOption (Option.some_get _).symm
  obtain ⟨hwritten, hfound, hagain⟩ : oddNamed.renderRule ⟨1, []⟩ = "A ->" ∧
      oddNamed.rule? "A ->" = some 3 ∧ oddNamed.grammar.rules[4]? = some ⟨1, []⟩ := by
    decide +kernel
  obtain ⟨i, hi, hleast⟩ := rule?_renderRule hread (Array.mem_of_getElem? hagain)
  rw [hwritten, hfound] at hi
  exact ⟨hread, hwritten, hfound, hagain, Option.some.inj hi ▸ hleast⟩

end NamedGrammar

end ShiftReduce
