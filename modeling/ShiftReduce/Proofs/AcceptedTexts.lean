import ShiftReduce.Proofs.RuleLines
/-!
# Which texts are grammars

The verdict on a text, said line by line (`NamedGrammar.read_verdict`). A directive is good if it
declares something. A rule line is good if it can open rules, or if it holds alternatives and some
rule line before it does not. The first bad directive is the error, else the first bad rule line, and
else the verdict is that on the rules that the good lines hold together.

* `Line.allGood_or_exists` -- either all lines are good or one of them is the first bad one;
* `NamedRule.spells_of_allGood` -- what good rule lines hold, by induction on the lines: behind them
  holds the left-hand side of the last line that opened rules (`Line.lastLhs?`);
* `NamedRule.resolve_eq` -- the numbers of names, as places in lists without repetitions.
-/

namespace ShiftReduce

/-! ## 1. Good lines -/

namespace Line

/-- A directive that declares something: its first word is `%token`, and a name follows. -/
def IsDeclaration (l : Line) : Prop :=
  ∃ name names, l.content.names = "%token" :: name :: names

/-- The line has an arrow, and before its first arrow stands one name, which no line declares. -/
def OpensRules (ls : List Line) (l : Line) : Prop :=
  ∃ before after, Text.cutArrow? l.content = some (before, after) ∧ Text.IsWord before.trim ∧
    ∀ k ∈ ls, ¬ k.Declares (String.ofList before.trim)

/-- A good rule line of the lines `ls`, with the rule lines `earlier` before it. -/
def IsRuleLine (ls earlier : List Line) (l : Line) : Prop :=
  (l.isAlternative = true ∧ ∃ k ∈ earlier, k.isAlternative = false) ∨
    (l.isAlternative = false ∧ l.OpensRules ls)

section

variable {good : List Line → Line → Prop} {ls earlier : List Line} {l : Line}

/-- Every line is good behind the lines before it. -/
def AllGood (good : List Line → Line → Prop) (ls : List Line) : Prop :=
  ∀ earlier l later, ls = earlier ++ l :: later → good earlier l

/-- The line is not good, and all lines before it are. -/
def IsFirstBad (good : List Line → Line → Prop) (ls : List Line) (l : Line) : Prop :=
  ∃ earlier later, ls = earlier ++ l :: later ∧ AllGood good earlier ∧ ¬ good earlier l

theorem allGood_nil : AllGood good [] := by
  intro earlier l later h
  simp at h

theorem allGood_concat : AllGood good (ls ++ [l]) ↔ AllGood good ls ∧ good ls l := by
  constructor
  · intro h
    refine ⟨fun earlier k later hk => h earlier k (later ++ [l]) ?_, h ls l [] rfl⟩
    rw [hk, List.append_assoc]
    rfl
  · rintro ⟨hls, hl⟩ earlier k later h
    rcases List.eq_nil_or_concat later with rfl | ⟨later, k', rfl⟩
    · obtain ⟨rfl, hk⟩ := List.append_inj' h rfl
      obtain rfl := List.singleton_inj.1 hk
      exact hl
    · rw [List.concat_eq_append, ← List.cons_append, ← List.append_assoc] at h
      exact hls earlier k later (List.append_inj' h rfl).1

theorem allGood_const {P : Line → Prop} : AllGood (fun _ => P) ls ↔ ∀ l ∈ ls, P l := by
  constructor
  · intro h l hl
    obtain ⟨earlier, later, hsplit⟩ := List.append_of_mem hl
    exact h earlier l later hsplit
  · rintro h earlier l later rfl
    exact h l (List.mem_append_right _ List.mem_cons_self)

/-- **Either all lines are good or one of them is the first bad one.** -/
theorem allGood_or_exists (good : List Line → Line → Prop) (ls : List Line) :
    AllGood good ls ∨ ∃ l, IsFirstBad good ls l := by
  induction ls using List.reverseRecOn with
  | nil => exact .inl allGood_nil
  | append_singleton ls l ih =>
    rcases ih with hall | ⟨k, earlier, later, rfl, hearlier, hk⟩
    · by_cases hl : good ls l
      · exact .inl (allGood_concat.2 ⟨hall, hl⟩)
      · exact .inr ⟨l, ls, [], rfl, hall, hl⟩
    · exact .inr ⟨k, earlier, later ++ [l], List.append_assoc _ _ _, hearlier, hk⟩

end

/-! ## 2. Rule lines -/

/-- The name before the first arrow. -/
def lhs? (l : Line) : Option String :=
  (Text.cutArrow? l.content).map fun p => String.ofList p.1.trim

/-- What holds the alternatives: the text behind the bar that opens the line, or else behind the
    first arrow. -/
def body (l : Line) : Text :=
  if l.isAlternative then l.content.tail else ((Text.cutArrow? l.content).map Prod.snd).getD []

/-- The left-hand side of the last of the lines that is not one of alternatives only. -/
def lastLhs? (ls : List Line) : Option String :=
  (ls.filter fun l => !l.isAlternative).getLast?.bind lhs?

variable {ls earlier : List Line} {l : Line} {tokens : Numbering String}

theorem lastLhs?_concat_of_alternative (h : l.isAlternative = true) :
    lastLhs? (earlier ++ [l]) = lastLhs? earlier := by
  simp [lastLhs?, List.filter_append, h]

theorem lastLhs?_concat (h : l.isAlternative = false) : lastLhs? (earlier ++ [l]) = l.lhs? := by
  simp [lastLhs?, List.filter_append, h]

/-- Behind good lines that are not all alternatives there is a left-hand side. -/
theorem exists_lastLhs? (hall : AllGood (IsRuleLine ls) earlier)
    (h : ∃ k ∈ earlier, k.isAlternative = false) : ∃ lhs, lastLhs? earlier = some lhs := by
  induction earlier using List.reverseRecOn with
  | nil =>
    obtain ⟨k, hk, -⟩ := h
    cases hk
  | append_singleton earlier l ih =>
    obtain ⟨hearlier, ⟨hbar, hopen⟩ | ⟨hbar, before, after, hcut, -⟩⟩ := allGood_concat.1 hall
    · rw [lastLhs?_concat_of_alternative hbar]
      exact ih hearlier hopen
    · rw [lastLhs?_concat hbar, lhs?, hcut]
      exact ⟨_, rfl⟩

/-- **A good rule line is read** behind good rule lines: it gives its body, for the last left-hand
    side there is. -/
theorem exists_head (htokens : ∀ name, name ∈ tokens ↔ ∃ k ∈ ls, k.Declares name)
    (hall : AllGood (IsRuleLine ls) earlier) (h : IsRuleLine ls earlier l) :
    ∃ lhs, l.head tokens (lastLhs? earlier) = .ok (lhs, l.body) ∧
      lastLhs? (earlier ++ [l]) = some lhs := by
  rcases h with ⟨hbar, hopen⟩ | ⟨hbar, before, after, hcut, hword, hnone⟩
  · obtain ⟨lhs, hlhs⟩ := exists_lastLhs? hall hopen
    refine ⟨lhs, head_eq_ok_iff.2 (.inl ⟨hbar, hlhs, ?_⟩), ?_⟩
    · rw [body, if_pos hbar]
    · rw [lastLhs?_concat_of_alternative hbar, hlhs]
  · have hbody : l.body = after := by rw [body, hbar, hcut]; rfl
    have htoken : String.ofList before.trim ∉ tokens := fun hmem => by
      obtain ⟨k, hk, hdecl⟩ := (htokens _).1 hmem
      exact hnone k hk hdecl
    refine ⟨_, head_eq_ok_iff.2 (.inr ⟨hbar, before, ?_, hword, rfl, htoken⟩), ?_⟩
    · rw [hbody, hcut]
    · rw [lastLhs?_concat hbar, lhs?, hcut]
      rfl

/-- **A bad rule line is an error.** -/
theorem exists_head_error (htokens : ∀ name, name ∈ tokens ↔ ∃ k ∈ ls, k.Declares name)
    (h : ¬ IsRuleLine ls earlier l) : ∃ d, l.head tokens (lastLhs? earlier) = .error d := by
  cases hhead : l.head tokens (lastLhs? earlier) with
  | error d => exact ⟨d, rfl⟩
  | ok p =>
    refine absurd ?_ h
    obtain ⟨hbar, hlast, -⟩ | ⟨hbar, before, hcut, hword, hlhs, htoken⟩ :=
      head_eq_ok_iff.1 (show l.head tokens _ = .ok (p.1, p.2) from hhead)
    · obtain ⟨k, hk, -⟩ := Option.bind_eq_some_iff.1 hlast
      obtain ⟨hmem, hopen⟩ := List.mem_filter.1 (List.mem_of_getLast? hk)
      exact .inl ⟨hbar, k, hmem, by simpa using hopen⟩
    · refine .inr ⟨hbar, before, p.2, hcut, hword, fun k hk hdecl => htoken ?_⟩
      exact (htokens _).2 ⟨k, hk, hlhs ▸ hdecl⟩

end Line

namespace NamedRule

variable {ls rs : List Line} {l : Line} {tokens : Numbering String}

/-- One rule for each alternative of a rule line, for the last left-hand side up to this line. -/
def ofLine (earlier : List Line) (l : Line) : List NamedRule :=
  ((Line.lastLhs? (earlier ++ [l])).map fun lhs => ofAlternatives lhs l.body).getD []

/-- The rules of rule lines, in order. -/
def ofRuleLines (rs : List Line) : List NamedRule :=
  rs.zipIdx.flatMap fun p => ofLine (rs.take p.2) p.1

theorem ofRuleLines_concat (rs : List Line) (l : Line) :
    ofRuleLines (rs ++ [l]) = ofRuleLines rs ++ ofLine rs l := by
  have hearlier : (rs.zipIdx.flatMap fun p => ofLine ((rs ++ [l]).take p.2) p.1) = ofRuleLines rs := by
    refine List.flatMap_congr fun p hp => ?_
    have hlt : p.2 < rs.length := by simpa using List.snd_lt_of_mem_zipIdx hp
    rw [List.take_append_of_le_length (Nat.le_of_lt hlt)]
  rw [ofRuleLines, List.zipIdx_append, List.flatMap_append, hearlier]
  simp

/-- **What good rule lines hold.** The induction adds the last line; the lines before it are good, so
    it is read behind their last left-hand side. -/
theorem spells_of_allGood (htokens : ∀ name, name ∈ tokens ↔ ∃ k ∈ ls, k.Declares name)
    (hall : Line.AllGood (Line.IsRuleLine ls) rs) :
    Spells tokens none (rs.map Line.content) (Line.lastLhs? rs) (ofRuleLines rs) := by
  induction rs using List.reverseRecOn with
  | nil => exact .nil none
  | append_singleton rs l ih =>
    obtain ⟨hrs, hl⟩ := Line.allGood_concat.1 hall
    obtain ⟨lhs, hhead, hlast⟩ := Line.exists_head htokens hrs hl
    have hrules : ofLine rs l = ofAlternatives lhs l.body := by rw [ofLine, hlast]; rfl
    rw [List.map_append, ofRuleLines_concat, hlast, hrules]
    exact (ih hrs).append (Spells.singleton_iff.2 ⟨lhs, _, (Line.head_congr rfl).trans hhead, rfl, rfl⟩)

theorem ofLines_of_allGood (htokens : ∀ name, name ∈ tokens ↔ ∃ k ∈ ls, k.Declares name)
    (hall : Line.AllGood (Line.IsRuleLine ls) rs) : ofLines tokens none rs = .ok (ofRuleLines rs) :=
  ofLines_eq_ok_iff.2 ⟨_, spells_of_allGood htokens hall⟩

theorem ofLines_of_isFirstBad (htokens : ∀ name, name ∈ tokens ↔ ∃ k ∈ ls, k.Declares name)
    (h : Line.IsFirstBad (Line.IsRuleLine ls) rs l) :
    ∃ d, ofLines tokens none rs = .error (.badLine l.number d) := by
  obtain ⟨earlier, later, rfl, hall, hl⟩ := h
  obtain ⟨d, hd⟩ := Line.exists_head_error htokens hl
  refine ⟨d, ?_⟩
  rw [ofLines_append (spells_of_allGood htokens hall), ofLines_cons_of_error hd]
  rfl

/-! ## 3. Names and numbers -/

/-- The names in the rules that are nonterminals, as they appear. -/
def othersIn (declared : List String) (rules : List NamedRule) : List String :=
  rules.flatMap fun r => r.lhs :: r.rhs.filter fun name => name ∉ declared ∧ name ≠ "$"

/-- The symbol of a name behind an arrow: a declared name is a terminal, `$` is the end of the input
    unless it is declared, and any other name is a nonterminal. Their numbers are the places of the
    names among the different names of their kind. -/
def symbolAmong (declared others : List String) (name : String) : Symbol :=
  if name ∈ declared then .terminal (declared.eraseDups.idxOf name)
  else if name = "$" then .endOfInput
  else .nonterminal (others.eraseDups.idxOf name)

/-- The rule with symbols for names. -/
def numbered (declared others : List String) (r : NamedRule) : Rule :=
  ⟨others.eraseDups.idxOf r.lhs, r.rhs.map (symbolAmong declared others)⟩

variable {declared others names : List String} {name : String} {r : NamedRule}
  {rules : List NamedRule}

theorem number?_ofList (h : name ∈ names) :
    (Numbering.ofList names).number? name = some (names.eraseDups.idxOf name) := by
  rw [Numbering.number?_eq_some_iff, ← Numbering.getElem?_toList, Numbering.toList_ofList]
  exact List.getElem?_idxOf (List.mem_eraseDups.2 h)

theorem idOf_ofList (h : name ∈ names) :
    idOf (.ofList names) name = names.eraseDups.idxOf name := by
  rw [idOf, number?_ofList h, Option.getD_some]

theorem nonterminals_ofList (declared : List String) (r : NamedRule) :
    nonterminals (.ofList declared) r =
      r.lhs :: r.rhs.filter fun name => name ∉ declared ∧ name ≠ "$" := by
  refine congrArg (r.lhs :: ·) (List.filter_congr fun name _ => ?_)
  have hiff : (Numbering.ofList declared).contains name = decide (name ∈ declared) := by
    rw [Bool.eq_iff_iff, Numbering.contains_iff_mem, Numbering.mem_ofList, decide_eq_true_iff]
  rw [hiff, Bool.decide_and, decide_not, decide_not]
  rfl

theorem symbol_ofList (h : name ∉ declared → name ≠ "$" → name ∈ others) :
    symbol (.ofList declared) (.ofList others) name = symbolAmong declared others name := by
  unfold symbol symbolAmong
  by_cases hdecl : name ∈ declared
  · rw [number?_ofList hdecl, if_pos hdecl]
  · have hnone : (Numbering.ofList declared).number? name = none :=
      Numbering.number?_eq_none_iff.2 fun hmem => hdecl (Numbering.mem_ofList.1 hmem)
    rw [hnone, if_neg hdecl]
    by_cases hend : name = "$"
    · simp only [if_pos hend]
    · simp only [if_neg hend, idOf_ofList (h hdecl hend)]

/-- **The numbers of names are their places among the different names of their kind.** -/
theorem resolve_eq (hr : r ∈ rules) :
    r.resolve (.ofList declared) (.ofList (othersIn declared rules)) =
      r.numbered declared (othersIn declared rules) := by
  have hmem : ∀ name ∈ r.lhs :: r.rhs.filter fun name => name ∉ declared ∧ name ≠ "$",
      name ∈ othersIn declared rules := fun name hname => List.mem_flatMap.2 ⟨r, hr, hname⟩
  rw [resolve, numbered, idOf_ofList (hmem _ List.mem_cons_self)]
  refine congrArg (Rule.mk _) (List.map_congr_left fun name hname => symbol_ofList fun hdecl hend => ?_)
  exact hmem name (List.mem_cons_of_mem _ (List.mem_filter.2 ⟨hname, by simp [hdecl, hend]⟩))

end NamedRule

/-! ## 4. Directives -/

section Directives

variable {text : Text} {ls : List Line} {l : Line}

theorem Line.IsDeclaration.declared_eq (h : l.IsDeclaration) :
    l.declared = .ok l.content.names.tail := by
  obtain ⟨name, names, hwords⟩ := h
  rw [hwords]
  exact Line.declared_eq_ok_iff.2 (.inr ⟨hwords, List.cons_ne_nil _ _⟩)

/-- A line that declares nothing is an error. -/
theorem Line.exists_declared_error (hl : l ∈ Line.ofText text) (h : ¬ l.IsDeclaration) :
    ∃ d, l.declared = .error d := by
  cases hdecl : l.declared with
  | error d => exact ⟨d, rfl⟩
  | ok names =>
    refine absurd ?_ h
    obtain ⟨c, cs, hc, hblank, -⟩ := Line.exists_cons_of_mem_ofText hl
    obtain ⟨hnil, -⟩ | ⟨hwords, hne⟩ := Line.declared_eq_ok_iff.1 hdecl
    · exact absurd (hc ▸ hnil) (Text.names_ne_nil hblank cs)
    · obtain ⟨name, rest, rfl⟩ := List.exists_cons_of_ne_nil hne
      exact ⟨name, rest, hwords⟩

theorem mapM_declared (h : ∀ l ∈ ls, l.IsDeclaration) :
    ls.mapM (fun l => l.declared.mapError (ReadError.badLine l.number)) =
      .ok (ls.map fun l => l.content.names.tail) :=
  mapM_eq_pure_map fun l hl => mapError_eq_ok_iff.2 (h l hl).declared_eq

theorem tokenNames_of_allGood (h : Line.AllGood (fun _ => Line.IsDeclaration) ls) :
    tokenNames ls = .ok (.ofList (ls.flatMap fun l => l.content.names.tail)) := by
  rw [tokenNames, mapM_declared (Line.allGood_const.1 h), List.flatMap_def]
  rfl

theorem tokenNames_of_isFirstBad (hls : ∀ l ∈ ls, l ∈ Line.ofText text)
    (h : Line.IsFirstBad (fun _ => Line.IsDeclaration) ls l) :
    ∃ d, tokenNames ls = .error (.badLine l.number d) := by
  obtain ⟨earlier, later, rfl, hall, hl⟩ := h
  obtain ⟨d, hd⟩ := Line.exists_declared_error (hls l (by simp)) hl
  refine ⟨d, ?_⟩
  rw [tokenNames, List.mapM_append, mapM_declared (Line.allGood_const.1 hall), List.mapM_cons, hd]
  rfl

end Directives

/-! ## 5. Texts -/

namespace NamedGrammar

/-- The directives of a text. -/
def directivesOf (text : String) : List Line :=
  (Line.ofText text.toList).filter Line.isDirective

/-- The rule lines of a text. -/
def ruleLinesOf (text : String) : List Line :=
  (Line.ofText text.toList).filter fun l => !l.isDirective

/-- The names that the directives declare, as they stand there. -/
def declaredOf (text : String) : List String :=
  (directivesOf text).flatMap fun l => l.content.names.tail

/-- The rules by name that the rule lines hold. -/
def rulesOf (text : String) : List NamedRule :=
  NamedRule.ofRuleLines (ruleLinesOf text)

/-- The names in the rules that are nonterminals, as they appear. -/
def othersOf (text : String) : List String := NamedRule.othersIn (declaredOf text) (rulesOf text)

variable {text : String} {tokens : Numbering String}

theorem read_of_tokenNames_error {e : ReadError} (h : tokenNames (directivesOf text) = .error e) :
    read text = .error e := by
  rw [directivesOf] at h
  rw [read, h]
  rfl

theorem read_of_ofLines_error {e : ReadError} (htokens : tokenNames (directivesOf text) = .ok tokens)
    (h : NamedRule.ofLines tokens none (ruleLinesOf text) = .error e) : read text = .error e := by
  rw [directivesOf] at htokens
  rw [ruleLinesOf] at h
  simp only [read, htokens, bind, Except.bind, h]

theorem read_of_ofLines_ok {rules : List NamedRule}
    (htokens : tokenNames (directivesOf text) = .ok tokens)
    (h : NamedRule.ofLines tokens none (ruleLinesOf text) = .ok rules) :
    read text = ((Grammar.ofRules (rules.map (NamedRule.resolve tokens
      (.ofList (rules.flatMap (NamedRule.nonterminals tokens)))))).mapError .malformed).map
        fun g => ⟨g, tokens, .ofList (rules.flatMap (NamedRule.nonterminals tokens))⟩ := by
  rw [directivesOf] at htokens
  rw [ruleLinesOf] at h
  simp only [read, htokens, bind, Except.bind, h]
  rfl

/-- Good directives leave the declared names as tokens. -/
theorem tokenNames_directivesOf (h : Line.AllGood (fun _ => Line.IsDeclaration) (directivesOf text)) :
    tokenNames (directivesOf text) = .ok (.ofList (declaredOf text)) ∧
      ∀ name, name ∈ Numbering.ofList (declaredOf text) ↔
        ∃ l ∈ Line.ofText text.toList, l.Declares name :=
  ⟨tokenNames_of_allGood h, fun _ => mem_tokenNames_iff (tokenNames_of_allGood h)⟩

/-- **Good lines leave the verdict to their rules.** -/
theorem read_of_allGood (hdirectives : Line.AllGood (fun _ => Line.IsDeclaration) (directivesOf text))
    (hrules : Line.AllGood (Line.IsRuleLine (Line.ofText text.toList)) (ruleLinesOf text)) :
    read text = ((Grammar.ofRules ((rulesOf text).map
      (NamedRule.numbered (declaredOf text) (othersOf text)))).mapError .malformed).map
        fun g => ⟨g, .ofList (declaredOf text), .ofList (othersOf text)⟩ := by
  obtain ⟨htokens, hdeclared⟩ := tokenNames_directivesOf hdirectives
  have hothers : (rulesOf text).flatMap (NamedRule.nonterminals (.ofList (declaredOf text))) =
      othersOf text := List.flatMap_congr fun r _ => NamedRule.nonterminals_ofList _ r
  have hnumbers : (rulesOf text).map (NamedRule.resolve (.ofList (declaredOf text))
      (.ofList (othersOf text))) = (rulesOf text).map
        (NamedRule.numbered (declaredOf text) (othersOf text)) :=
    List.map_congr_left fun r hr => NamedRule.resolve_eq hr
  rw [← hnumbers, ← hothers]
  exact read_of_ofLines_ok htokens (NamedRule.ofLines_of_allGood hdeclared hrules)

/-- **The verdict on a text.** The first directive that declares nothing is an error in its line. If
    there is none, then the first rule line is one that neither opens rules nor holds alternatives
    behind a line that does. If there is none either, the verdict is that on the rules of the lines,
    with terminals numbered by declaration and nonterminals by first appearance. -/
theorem read_verdict (text : String) :
    (∀ l, Line.IsFirstBad (fun _ => Line.IsDeclaration) (directivesOf text) l →
      ∃ d, read text = .error (.badLine l.number d)) ∧
    (Line.AllGood (fun _ => Line.IsDeclaration) (directivesOf text) →
      (∀ l, Line.IsFirstBad (Line.IsRuleLine (Line.ofText text.toList)) (ruleLinesOf text) l →
        ∃ d, read text = .error (.badLine l.number d)) ∧
      (Line.AllGood (Line.IsRuleLine (Line.ofText text.toList)) (ruleLinesOf text) →
        (read text).map NamedGrammar.grammar = (Grammar.ofRules ((rulesOf text).map
          (NamedRule.numbered (declaredOf text) (othersOf text)))).mapError .malformed ∧
        ∀ n, read text = .ok n → n.tokens.toList = (declaredOf text).eraseDups ∧
          n.nonterminals.toList = (othersOf text).eraseDups)) := by
  refine ⟨fun l hl => ?_, fun hdirectives => ⟨fun l hl => ?_, fun hrules => ?_⟩⟩
  · obtain ⟨d, hd⟩ := tokenNames_of_isFirstBad (fun k hk => (List.mem_filter.1 hk).1) hl
    exact ⟨d, read_of_tokenNames_error hd⟩
  · obtain ⟨htokens, hdeclared⟩ := tokenNames_directivesOf hdirectives
    obtain ⟨d, hd⟩ := NamedRule.ofLines_of_isFirstBad hdeclared hl
    exact ⟨d, read_of_ofLines_error htokens hd⟩
  · rw [read_of_allGood hdirectives hrules]
    cases Grammar.ofRules ((rulesOf text).map
        (NamedRule.numbered (declaredOf text) (othersOf text))) with
    | error e => exact ⟨rfl, fun n hn => nomatch hn⟩
    | ok g =>
      refine ⟨rfl, ?_⟩
      rintro n ⟨⟩
      exact ⟨Numbering.toList_ofList _, Numbering.toList_ofList _⟩

/-- A text whose only line holds alternatives and an arrow. -/
def barText : String := "|A -> B"

/-- The line of `barText` has one name before its arrow, and with it as a rule of that name there is a
    grammar. But nothing stands before the line, so that it is an error. -/
theorem barText_read : read barText = .error (.badLine 1 .strayAlternative) ∧
    directivesOf barText = [] ∧
    (∀ l ∈ ruleLinesOf barText, l.OpensRules (Line.ofText barText.toList)) ∧
    ∃ g, Grammar.ofRules [⟨0, [.nonterminal 1]⟩] = .ok g := by
  have hlines : Line.ofText barText.toList = [⟨1, barText.toList⟩] := by decide +kernel
  have hrules : ruleLinesOf barText = [⟨1, barText.toList⟩] := by rw [ruleLinesOf, hlines]; rfl
  have hdirectives : directivesOf barText = [] := by rw [directivesOf, hlines]; rfl
  have htokens : tokenNames (directivesOf barText) = .ok (.ofList []) := by rw [hdirectives]; rfl
  have hread : read barText = .error (.badLine 1 .strayAlternative) := by
    refine read_of_ofLines_error htokens ?_
    rw [hrules]
    exact NamedRule.ofLines_cons_of_error rfl
  have hcut : Text.cutArrow? barText.toList = some ("|A ".toList, " B".toList) := by decide +kernel
  have htrim : Text.trim "|A ".toList = ['|', 'A'] := by decide +kernel
  refine ⟨hread, hdirectives, fun l hl => ?_, _, rfl⟩
  rw [hrules, List.mem_singleton] at hl
  subst hl
  refine ⟨_, _, hcut, ?_, fun k hk hdecl => ?_⟩
  · rw [htrim]
    exact ⟨by decide, List.forall_mem_cons.2 ⟨by decide, List.forall_mem_singleton.2 (by decide)⟩⟩
  · rw [hlines, List.mem_singleton] at hk
    subst hk
    exact absurd hdecl.1 (by decide +kernel)

end NamedGrammar

end ShiftReduce
