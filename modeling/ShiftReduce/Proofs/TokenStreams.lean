import ShiftReduce.Proofs.Reading
import ShiftReduce.Proofs.Runs
/-!
# Declared names in token streams

A name is resolved in two places: in the rules, and in a stream of tokens. Both know the declared
names, but in a stream `$` is the end of the input before it is looked up. So a stream of declared
names is the terminals that the rules mean, closed by one end of the input, except at a token that
is itself called `$` (`tokenize_declared`, `dollarText_tokenize`).
-/

namespace ShiftReduce

namespace NamedGrammar

variable {n : NamedGrammar} {text : String} {names : List String}

/-! ## 1. One name -/

/-- The symbol a name has in a stream: `$` is the end of the input, even as a token. -/
def streamSymbol (n : NamedGrammar) (name : String) : Symbol :=
  if name = "$" then .endOfInput else NamedRule.symbol n.tokens n.nonterminals name

/-- In a rule a token is its terminal. -/
theorem symbol_of_terminal? {name : String} {id : Terminal} (h : n.terminal? name = some id) :
    NamedRule.symbol n.tokens n.nonterminals name = .terminal id := by
  rw [terminal?] at h
  rw [NamedRule.symbol, h]

/-- In a stream a token is accepted. -/
theorem token_of_terminal? {name : String} {id : Terminal} (h : n.terminal? name = some id) :
    n.token name = .ok ⟨n.streamSymbol name, name⟩ := by
  unfold token streamSymbol
  split
  · rfl
  · rw [symbol_of_terminal? h]
    simp only [h]

theorem streamSymbol_of_ne {name : String} (h : name ≠ "$") :
    n.streamSymbol name = NamedRule.symbol n.tokens n.nonterminals name :=
  if_neg h

/-! ## 2. Streams -/

/-- **The stream of tokens**: what each of them is in a stream, and the end of the input behind them
    unless it is there. -/
theorem tokenize_of_mem_tokens (h : ∀ name ∈ names, name ∈ n.tokens) :
    ∃ ts, n.tokenize names = .ok ts ∧ ts.map Token.symbol = names.map n.streamSymbol ++
      if (names.map n.streamSymbol).getLast? = some .endOfInput then [] else [.endOfInput] := by
  have htokens : names.mapM n.token = .ok (names.map fun name => ⟨n.streamSymbol name, name⟩) := by
    rw [mapM_eq_ok_iff, List.forall₂_map_right_iff, List.forall₂_same]
    intro name hname
    obtain ⟨id, hid⟩ := Numbering.mem_iff_number?.1 (h name hname)
    exact token_of_terminal? hid
  have hsymbols : (names.map fun name => (⟨n.streamSymbol name, name⟩ : Token)).map Token.symbol =
      names.map n.streamSymbol := by
    rw [List.map_map]
    rfl
  rw [tokenize, htokens, ← hsymbols, List.getLast?_map]
  refine (em _).elim (fun hend => ⟨_, if_pos hend, ?_⟩) fun hend => ⟨_, if_neg hend, ?_⟩
  · rw [if_pos hend, List.append_nil]
  · rw [if_neg hend, List.map_append]
    rfl

/-- A stream is the symbols that the rules mean, closed by one end of the input, exactly if no name
    in it is `$`. -/
theorem stream_eq_iff {ids : List Terminal}
    (h : names.map (NamedRule.symbol n.tokens n.nonterminals) = ids.map .terminal) :
    (names.map n.streamSymbol ++
      if (names.map n.streamSymbol).getLast? = some .endOfInput then [] else [.endOfInput]) =
        ids.map .terminal ++ [.endOfInput] ↔ "$" ∉ names := by
  constructor
  · intro heq hmem
    have hend : .endOfInput ∈ names.map n.streamSymbol := List.mem_map.2 ⟨"$", hmem, if_pos rfl⟩
    have hlength : (names.map n.streamSymbol).length = (ids.map Symbol.terminal).length := by
      rw [← h, List.length_map, List.length_map]
    -- the names are as many as the terminals, so one of the terminals would be the end
    obtain ⟨hterminals, -⟩ := List.append_inj heq hlength
    rw [hterminals] at hend
    obtain ⟨id, -, hid⟩ := List.mem_map.1 hend
    cases hid
  · intro hnone
    have hsame : names.map n.streamSymbol = ids.map .terminal := by
      rw [← h]
      exact List.map_congr_left fun name hname => streamSymbol_of_ne fun he => hnone (he ▸ hname)
    rw [hsame, if_neg]
    rw [List.getLast?_map]
    intro hlast
    obtain ⟨id, -, hid⟩ := Option.map_eq_some_iff.1 hlast
    cases hid

/-! ## 3. Declared names -/

/-- **A list of declared names is a stream of the terminals that they mean in the rules, closed by
    one end of the input**, unless `$` is among them: this one is the end of the input in a stream,
    and a terminal in the rules. -/
theorem tokenize_declared (h : read text = .ok n)
    (hdecl : ∀ name ∈ names, ∃ l ∈ Line.ofText text.toList, l.Declares name) :
    ∃ ts ids, n.tokenize names = .ok ts ∧
      List.Forall₂ (fun name id => n.terminal? name = some id ∧
        NamedRule.symbol n.tokens n.nonterminals name = .terminal id) names ids ∧
      (ts.map Token.symbol = ids.map .terminal ++ [.endOfInput] ↔ "$" ∉ names) := by
  obtain ⟨rules, hread⟩ := read_eq_ok_iff.1 h
  have htokens : ∀ name ∈ names, name ∈ n.tokens := fun name hname =>
    hread.mem_tokens_iff.2 (hdecl name hname)
  obtain ⟨ts, hts, hsymbols⟩ := tokenize_of_mem_tokens htokens
  have hids : List.Forall₂ (fun name id => n.terminal? name = some id ∧
      NamedRule.symbol n.tokens n.nonterminals name = .terminal id) names
      (names.map fun name => (n.terminal? name).getD 0) := by
    rw [List.forall₂_map_right_iff, List.forall₂_same]
    intro name hname
    obtain ⟨id, hid⟩ : ∃ id, n.terminal? name = some id :=
      Numbering.mem_iff_number?.1 (htokens name hname)
    rw [hid, Option.getD_some]
    exact ⟨rfl, symbol_of_terminal? hid⟩
  refine ⟨ts, _, hts, hids, ?_⟩
  rw [hsymbols]
  refine stream_eq_iff ?_
  rw [← List.forall₂_eq_eq_eq, List.forall₂_map_left_iff, List.forall₂_map_right_iff]
  exact hids.imp fun _ _ hid => hid.2

/-- A text whose tokens are `+` and `id`. -/
def sumsText : String := "%token + id\nS -> E\nE -> E + id | id"

/-- The names in `sumsText`. -/
def sumsNamed : NamedGrammar := (read sumsText).toOption.get (by decide +kernel)

theorem read_sumsText : read sumsText = .ok sumsNamed :=
  eq_ok_of_toOption (Option.some_get _).symm

/-- The stream of `id + id` is its terminals, `1 0 1`, and the end of the input. -/
theorem sumsText_tokenize : ∃ ts, sumsNamed.tokenize ["id", "+", "id"] = .ok ts ∧
    ts.map Token.symbol = [.terminal 1, .terminal 0, .terminal 1, .endOfInput] := by
  have hdecl : ∀ name ∈ ["id", "+", "id"], ∃ l ∈ Line.ofText sumsText.toList, l.Declares name := by
    intro name hname
    refine ⟨⟨1, "%token + id".toList⟩, by decide +kernel, rfl, ["+", "id"], by decide +kernel, ?_⟩
    simp only [List.mem_cons, List.not_mem_nil, or_false] at hname ⊢
    tauto
  obtain ⟨ts, ids, hts, hids, hstream⟩ := tokenize_declared read_sumsText hdecl
  have hnumbers : ["id", "+", "id"].map sumsNamed.terminal? = ids.map some := by
    rw [← List.forall₂_eq_eq_eq, List.forall₂_map_left_iff, List.forall₂_map_right_iff]
    exact hids.imp fun _ _ hid => hid.1
  have hvalues : ["id", "+", "id"].map sumsNamed.terminal? = [1, 0, 1].map some := by decide +kernel
  obtain rfl : ids = [1, 0, 1] :=
    List.map_injective_iff.2 (fun _ _ => Option.some.inj) (hnumbers.symm.trans hvalues)
  exact ⟨ts, hts, hstream.2 (by decide)⟩

/-- A text with a token called `$`. -/
def dollarText : String := "%token $\nS -> A\nA -> $"

/-- The names in `dollarText`. -/
def dollarNamed : NamedGrammar := (read dollarText).toOption.get (by decide +kernel)

/-- The declared name `$` is a terminal in the rules, but its stream is the end of the input
    alone. -/
theorem dollarText_tokenize : read dollarText = .ok dollarNamed ∧
    (∃ l ∈ Line.ofText dollarText.toList, l.Declares "$") ∧
    NamedRule.symbol dollarNamed.tokens dollarNamed.nonterminals "$" = .terminal 0 ∧
    ∀ ts, dollarNamed.tokenize ["$"] = .ok ts → ts.map Token.symbol ≠ [.terminal 0, .endOfInput] := by
  refine ⟨eq_ok_of_toOption (Option.some_get _).symm, ?_, by decide +kernel, fun ts hts => ?_⟩
  · exact ⟨⟨1, "%token $".toList⟩, by decide +kernel, rfl, ["$"], by decide +kernel, by decide⟩
  · have hvalue : dollarNamed.tokenize ["$"] = .ok [⟨.endOfInput, "$"⟩] :=
      eq_ok_of_toOption (by decide +kernel)
    obtain rfl := Except.ok.inj (hvalue.symm.trans hts)
    decide

end NamedGrammar

end ShiftReduce
