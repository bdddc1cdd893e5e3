import Mathlib.Logic.Relation
import ShiftReduce.Proofs.RuleLines
import ShiftReduce.Proofs.Runs
/-!
# Layout does not change the grammar

Blank lines and comments may come and go, directives may stand anywhere as long as their order stays,
and a rule line may be broken at a bar into two lines (`Relaid`). However often this is done somewhere
in a text, it is read as the same grammar with the same names, or not at all before and after
(`NamedGrammar.read_relaid`).

What is read depends on two things (`SameReading`): the directives as they stand, and what the rule
lines spell behind any left-hand side. Both are read piece by piece, so a change in one place is all
that has to be looked at. A rule line, one of alternatives or one that opens rules, spells its body
for one left-hand side (`spellsBody_alternatives`, `spellsBody_rule`), and a body is as good as its
two parts around a bar (`SpellsBody.append`).
-/

namespace ShiftReduce

/-! ## 1. Changes of layout -/

/-- What stands before the first arrow of a rule line that does not begin with a bar. -/
structure Text.IsOpening (front : Text) : Prop where
  noArrow : ¬ ['-', '>'] <:+: front
  first : ∀ c ∈ (front.dropWhile isBlank).head?, c ≠ '#' ∧ c ≠ '%' ∧ c ≠ '|'

/-- Lines that other lines may be replaced with. -/
inductive Relaid : List Text → List Text → Prop where
  /-- A blank line or a comment comes. -/
  | insert {line : Text} (h : line.trim = [] ∨ line.trim.head? = some '#') : Relaid [] [line]
  /-- A blank line or a comment goes. -/
  | delete {line : Text} (h : line.trim = [] ∨ line.trim.head? = some '#') : Relaid [line] []
  /-- A directive moves behind a line that is none. -/
  | moveDown {directive line : Text} (hd : directive.trim.head? = some '%')
      (hl : line.trim.head? ≠ some '%') : Relaid [directive, line] [line, directive]
  /-- A directive moves in front of a line that is none. -/
  | moveUp {directive line : Text} (hd : directive.trim.head? = some '%')
      (hl : line.trim.head? ≠ some '%') : Relaid [line, directive] [directive, line]
  /-- A line that begins with a bar is broken at a later bar. -/
  | breakAlternatives {margin a b : Text} (h : ∀ c ∈ margin, isBlank c = true) :
      Relaid [margin ++ '|' :: (a ++ '|' :: b)] [margin ++ '|' :: a, '|' :: b]
  /-- Any other rule line is broken at a bar behind its first arrow. -/
  | breakRule {front a b : Text} (h : front.IsOpening) :
      Relaid [front ++ '-' :: '>' :: (a ++ '|' :: b)] [front ++ '-' :: '>' :: a, '|' :: b]
  /-- It is broken there, and all up to the arrow is repeated in place of the bar. -/
  | repeatRule {front a b : Text} (h : front.IsOpening) :
      Relaid [front ++ '-' :: '>' :: (a ++ '|' :: b)]
        [front ++ '-' :: '>' :: a, front ++ '-' :: '>' :: b]
  /-- Blanks around a line come and go. -/
  | margins {line line' : Text} (h : line.trim = line'.trim) : Relaid [line] [line']

/-- Some lines are replaced, and all others stay. -/
def RelaidIn (lines lines' : List Text) : Prop :=
  ∃ before mid mid' after, Relaid mid mid' ∧ lines = before ++ mid ++ after ∧
    lines' = before ++ mid' ++ after

/-! ## 2. What is read of lines -/

/-- The directives among the lines, trimmed. -/
def directiveTexts (lines : List Text) : List Text :=
  ((lines.map Text.trim).filter Line.counts).filter fun cs => cs.head? == some '%'

/-- The rule lines among the lines, trimmed. -/
def ruleTexts (lines : List Text) : List Text :=
  ((lines.map Text.trim).filter Line.counts).filter fun cs => !(cs.head? == some '%')

theorem directiveTexts_append (ls ms : List Text) :
    directiveTexts (ls ++ ms) = directiveTexts ls ++ directiveTexts ms := by
  simp [directiveTexts]

theorem ruleTexts_append (ls ms : List Text) :
    ruleTexts (ls ++ ms) = ruleTexts ls ++ ruleTexts ms := by
  simp [ruleTexts]

theorem directiveTexts_pair (line line' : Text) :
    directiveTexts [line, line'] = directiveTexts [line] ++ directiveTexts [line'] :=
  directiveTexts_append [line] [line']

theorem ruleTexts_pair (line line' : Text) :
    ruleTexts [line, line'] = ruleTexts [line] ++ ruleTexts [line'] :=
  ruleTexts_append [line] [line']

section

variable {line : Text} {c : Char}

theorem texts_of_idle (h : line.trim = [] ∨ line.trim.head? = some '#') :
    directiveTexts [line] = [] ∧ ruleTexts [line] = [] := by
  have hcounts : Line.counts line.trim = false := by
    rcases h with h | h <;> simp [Line.counts, h]
  simp [directiveTexts, ruleTexts, hcounts]

theorem ruleTexts_of_directive (h : line.trim.head? = some '%') : ruleTexts [line] = [] := by
  rw [ruleTexts, List.filter_filter, List.map_singleton]
  simp [h]

theorem directiveTexts_of_ne (h : line.trim.head? ≠ some '%') : directiveTexts [line] = [] := by
  rw [directiveTexts, List.filter_filter, List.map_singleton]
  simp [h]

theorem ruleTexts_of_head? (h : line.trim.head? = some c) (hc : c ≠ '#' ∧ c ≠ '%') :
    ruleTexts [line] = [line.trim] := by
  have hne : line.trim ≠ [] := fun hnil => by simp [hnil] at h
  simp [ruleTexts, Line.counts, h, hne, hc.1, hc.2]

end

/-- Around a bar behind blanks a line is trimmed at its end only. -/
theorem Text.trim_bar {margin : Text} (h : ∀ c ∈ margin, isBlank c = true) (a : Text) :
    Text.trim (margin ++ '|' :: a) = '|' :: a.rdropWhile isBlank := by
  rw [Text.trim_append_cons (by decide), List.dropWhile_eq_nil_iff.2 h, List.nil_append]

/-- Around an arrow both sides are trimmed apart. -/
theorem Text.trim_arrow (front a : Text) : Text.trim (front ++ '-' :: '>' :: a) =
    front.dropWhile isBlank ++ '-' :: '>' :: a.rdropWhile isBlank := by
  rw [Text.trim_append_cons (by decide)]
  exact congrArg (fun cs => _ ++ '-' :: cs) (Text.rdropWhile_append_cons (by decide) [] a)

namespace Text.IsOpening

variable {front : Text}

theorem cutArrow?_eq (h : front.IsOpening) (a : Text) :
    Text.cutArrow? (front.dropWhile isBlank ++ '-' :: '>' :: a) =
      some (front.dropWhile isBlank, a) :=
  Text.cutArrow?_append (Text.cutArrow?_eq_none_iff.2 fun harrow =>
    h.noArrow (harrow.trans (List.dropWhile_suffix isBlank).isInfix)) a

theorem exists_head? (h : front.IsOpening) (a : Text) :
    ∃ c, (Text.trim (front ++ '-' :: '>' :: a)).head? = some c ∧ c ≠ '#' ∧ c ≠ '%' ∧ c ≠ '|' := by
  rw [Text.trim_arrow]
  cases hfront : front.dropWhile isBlank with
  | nil => exact ⟨'-', rfl, by decide⟩
  | cons c cs => exact ⟨c, rfl, h.first c (by rw [hfront]; rfl)⟩

end Text.IsOpening

/-- Lines that are read alike wherever they stand. -/
structure SameReading (lines lines' : List Text) : Prop where
  directives : directiveTexts lines = directiveTexts lines'
  spells : ∀ (tokens : Numbering String) (last next : Option String) (rules : List NamedRule),
    NamedRule.Spells tokens last (ruleTexts lines) next rules ↔
      NamedRule.Spells tokens last (ruleTexts lines') next rules

namespace SameReading

variable {ls ls' ms ms' : List Text}

theorem of_eq (hd : directiveTexts ls = directiveTexts ls') (hr : ruleTexts ls = ruleTexts ls') :
    SameReading ls ls' :=
  ⟨hd, fun tokens last next rules => by rw [hr]⟩

theorem refl (ls : List Text) : SameReading ls ls := of_eq rfl rfl

theorem symm (h : SameReading ls ls') : SameReading ls' ls :=
  ⟨h.directives.symm, fun tokens last next rules => (h.spells tokens last next rules).symm⟩

theorem trans (h : SameReading ls ls') (k : SameReading ls' ms) : SameReading ls ms :=
  ⟨h.directives.trans k.directives, fun tokens last next rules =>
    (h.spells tokens last next rules).trans (k.spells tokens last next rules)⟩

/-- **Lines are read alike piece by piece.** -/
theorem append (h : SameReading ls ls') (k : SameReading ms ms') :
    SameReading (ls ++ ms) (ls' ++ ms') where
  directives := by rw [directiveTexts_append, directiveTexts_append, h.directives, k.directives]
  spells tokens last next rules := by
    rw [ruleTexts_append, ruleTexts_append, NamedRule.Spells.append_iff,
      NamedRule.Spells.append_iff]
    simp only [h.spells, k.spells]

/-- A directive and a line that is none may change places. -/
theorem swap {directive line : Text} (hd : directive.trim.head? = some '%')
    (hl : line.trim.head? ≠ some '%') : SameReading [directive, line] [line, directive] := by
  refine of_eq ?_ ?_
  · rw [directiveTexts_pair, directiveTexts_pair, directiveTexts_of_ne hl]
    exact List.append_nil _
  · rw [ruleTexts_pair, ruleTexts_pair, ruleTexts_of_directive hd]
    exact (List.append_nil _).symm

end SameReading

/-! ## 3. Broken lines -/

namespace NamedRule

variable {tokens : Numbering String} {last : Option String} {css dss : List Text} {a b : Text}
  {P : String → Prop}

theorem ofAlternatives_append (lhs : String) (a b : Text) :
    ofAlternatives lhs (a ++ '|' :: b) = ofAlternatives lhs a ++ ofAlternatives lhs b := by
  rw [ofAlternatives, Text.pieces_append (by decide), List.map_append]
  rfl

/-- Blanks at the end belong to no alternative. -/
theorem ofAlternatives_rdropWhile (lhs : String) (a : Text) :
    ofAlternatives lhs (a.rdropWhile isBlank) = ofAlternatives lhs a := by
  have hblank : ∀ c ∈ a.rtakeWhile isBlank, isBlank c = true := fun c => List.mem_rtakeWhile_imp
  have hbar : ∀ c ∈ a.rtakeWhile isBlank, (c == '|') = false := by
    intro c hc
    refine beq_eq_false_iff_ne.2 fun he => ?_
    rw [he] at hc
    exact absurd (hblank _ hc) (by decide)
  obtain ⟨qs, q, hq, hqb⟩ := Text.exists_pieces_append hbar (a.rdropWhile isBlank)
  rw [List.rdropWhile_append_rtakeWhile] at hqb
  rw [ofAlternatives, ofAlternatives, hq, hqb, List.map_append, List.map_append, List.map_singleton,
    List.map_singleton, Text.names_append_of_isBlank hblank]

/-- The lines spell this body, for a left-hand side with this property. -/
def SpellsBody (tokens : Numbering String) (last : Option String) (css : List Text)
    (P : String → Prop) (body : Text) : Prop :=
  ∀ next rules, Spells tokens last css next rules ↔
    ∃ lhs, P lhs ∧ next = some lhs ∧ rules = ofAlternatives lhs body

/-- **Two bodies for one left-hand side are one body with a bar between.** -/
theorem SpellsBody.append (h : SpellsBody tokens last css P a)
    (k : ∀ lhs, P lhs → SpellsBody tokens (some lhs) dss (fun name => name = lhs) b) :
    SpellsBody tokens last (css ++ dss) P (a ++ '|' :: b) := by
  intro next rules
  rw [Spells.append_iff]
  constructor
  · rintro ⟨mid, r, r', hr, hr', rfl⟩
    obtain ⟨lhs, hlhs, rfl, rfl⟩ := (h mid r).1 hr
    obtain ⟨name, rfl, rfl, rfl⟩ := (k lhs hlhs next r').1 hr'
    exact ⟨name, hlhs, rfl, (ofAlternatives_append name a b).symm⟩
  · rintro ⟨lhs, hlhs, rfl, rfl⟩
    exact ⟨some lhs, _, _, (h _ _).2 ⟨lhs, hlhs, rfl, rfl⟩,
      (k lhs hlhs _ _).2 ⟨lhs, rfl, rfl, rfl⟩, (ofAlternatives_append _ a b).symm⟩

theorem SpellsBody.congr {Q : String → Prop} (h : SpellsBody tokens last css P a)
    (hPQ : ∀ lhs, P lhs ↔ Q lhs) : SpellsBody tokens last css Q a := by
  intro next rules
  simp only [h next rules, hPQ]

/-- A line that begins with a bar spells its body for the last left-hand side. -/
theorem spellsBody_alternatives {margin : Text} (h : ∀ c ∈ margin, isBlank c = true)
    (tokens : Numbering String) (last : Option String) (a : Text) :
    SpellsBody tokens last (ruleTexts [margin ++ '|' :: a]) (fun lhs => last = some lhs) a := by
  have htrim := Text.trim_bar h a
  intro next rules
  rw [ruleTexts_of_head? (c := '|') (by rw [htrim]; rfl) (by decide), htrim, Spells.singleton_iff]
  constructor
  · rintro ⟨lhs, after, hhead, rfl, rfl⟩
    obtain ⟨-, hlast, rfl⟩ | ⟨hbar, -⟩ := Line.head_eq_ok_iff.1 hhead
    · exact ⟨lhs, hlast, rfl, ofAlternatives_rdropWhile lhs a⟩
    · cases hbar
  · rintro ⟨lhs, hlast, rfl, rfl⟩
    exact ⟨lhs, _, Line.head_eq_ok_iff.2 (.inl ⟨rfl, hlast, rfl⟩), rfl,
      (ofAlternatives_rdropWhile lhs a).symm⟩

/-- The text before an arrow is the name of a left-hand side. -/
def Names (tokens : Numbering String) (front : Text) (lhs : String) : Prop :=
  Text.IsWord front.trim ∧ String.ofList front.trim = lhs ∧ lhs ∉ tokens

/-- A line that opens rules spells its body for the name before its arrow. -/
theorem spellsBody_rule {front : Text} (h : front.IsOpening) (tokens : Numbering String)
    (last : Option String) (a : Text) :
    SpellsBody tokens last (ruleTexts [front ++ '-' :: '>' :: a]) (Names tokens front) a := by
  have htrim := Text.trim_arrow front a
  have hcut := h.cutArrow?_eq (a.rdropWhile isBlank)
  obtain ⟨c, hc, hcomment, hdirective, hbar⟩ := h.exists_head? a
  have halternative : Line.isAlternative ⟨0, Text.trim (front ++ '-' :: '>' :: a)⟩ = false := by
    rw [Line.isAlternative, hc]
    simpa using hbar
  rw [htrim] at halternative
  intro next rules
  rw [ruleTexts_of_head? hc ⟨hcomment, hdirective⟩, htrim, Spells.singleton_iff]
  constructor
  · rintro ⟨lhs, after, hhead, rfl, rfl⟩
    obtain ⟨htrue, -⟩ | ⟨-, before, hbefore, hword, hlhs, htoken⟩ := Line.head_eq_ok_iff.1 hhead
    · rw [halternative] at htrue
      cases htrue
    · obtain ⟨rfl, rfl⟩ := Prod.mk.inj (Option.some.inj (hcut.symm.trans hbefore))
      rw [Text.trim_dropWhile] at hword hlhs
      exact ⟨lhs, ⟨hword, hlhs, htoken⟩, rfl, ofAlternatives_rdropWhile lhs a⟩
  · rintro ⟨lhs, ⟨hword, hlhs, htoken⟩, rfl, rfl⟩
    rw [← Text.trim_dropWhile] at hword hlhs
    exact ⟨lhs, _, Line.head_eq_ok_iff.2 (.inr ⟨halternative, _, hcut, hword, hlhs, htoken⟩), rfl,
      (ofAlternatives_rdropWhile lhs a).symm⟩

end NamedRule

theorem directiveTexts_alternatives {margin : Text} (h : ∀ c ∈ margin, isBlank c = true) (a : Text) :
    directiveTexts [margin ++ '|' :: a] = [] :=
  directiveTexts_of_ne (by rw [Text.trim_bar h]; simp)

theorem directiveTexts_rule {front : Text} (h : front.IsOpening) (a : Text) :
    directiveTexts [front ++ '-' :: '>' :: a] = [] := by
  obtain ⟨c, hc, -, hdirective, -⟩ := h.exists_head? a
  exact directiveTexts_of_ne (by rw [hc]; simpa using hdirective)

open NamedRule in
/-- **A rule line is read as two lines** that have its two parts as bodies, for the same left-hand
    side. -/
theorem SameReading.of_bodies {line first second a b : Text}
    {P : Numbering String → Option String → String → Prop}
    (hline : directiveTexts [line] = []) (hfirst : directiveTexts [first] = [])
    (hsecond : directiveTexts [second] = [])
    (h : ∀ tokens last, SpellsBody tokens last (ruleTexts [line]) (P tokens last) (a ++ '|' :: b))
    (ha : ∀ tokens last, SpellsBody tokens last (ruleTexts [first]) (P tokens last) a)
    (hb : ∀ tokens last lhs, P tokens last lhs →
      SpellsBody tokens (some lhs) (ruleTexts [second]) (fun name => name = lhs) b) :
    SameReading [line] [first, second] where
  directives := by rw [directiveTexts_pair, hline, hfirst, hsecond, List.append_nil]
  spells tokens last next rules := by
    rw [ruleTexts_pair]
    exact (h tokens last next rules).trans
      ((ha tokens last).append (hb tokens last) next rules).symm

/-! ## 4. Texts -/

section

open NamedRule

/-- **Lines are read as those they may be replaced with.** -/
theorem Relaid.sameReading {lines lines' : List Text} (h : Relaid lines lines') :
    SameReading lines lines' := by
  have hnil : ∀ c ∈ ([] : Text), isBlank c = true := fun c hc => nomatch hc
  -- a line that begins with the bar of the break
  have hbar : ∀ b, directiveTexts ['|' :: b] = [] := directiveTexts_alternatives hnil
  have hrest : ∀ (tokens : Numbering String) (lhs : String) (b : Text),
      SpellsBody tokens (some lhs) (ruleTexts ['|' :: b]) (fun name => name = lhs) b :=
    fun tokens lhs b => (spellsBody_alternatives hnil tokens (some lhs) b).congr fun name => by
      rw [Option.some.injEq, eq_comm]
  cases h with
  | insert h => exact .of_eq (texts_of_idle h).1.symm (texts_of_idle h).2.symm
  | delete h => exact .of_eq (texts_of_idle h).1 (texts_of_idle h).2
  | moveDown hd hl => exact .swap hd hl
  | moveUp hd hl => exact (SameReading.swap hd hl).symm
  | breakAlternatives h =>
    exact .of_bodies (directiveTexts_alternatives h _) (directiveTexts_alternatives h _) (hbar _)
      (fun tokens last => spellsBody_alternatives h tokens last _)
      (fun tokens last => spellsBody_alternatives h tokens last _)
      fun tokens _ lhs _ => hrest tokens lhs _
  | breakRule h =>
    exact .of_bodies (directiveTexts_rule h _) (directiveTexts_rule h _) (hbar _)
      (fun tokens last => spellsBody_rule h tokens last _)
      (fun tokens last => spellsBody_rule h tokens last _) fun tokens _ lhs _ => hrest tokens lhs _
  | @repeatRule front a b h =>
    refine .of_bodies (directiveTexts_rule h _) (directiveTexts_rule h _) (directiveTexts_rule h _)
      (fun tokens last => spellsBody_rule h tokens last _)
      (fun tokens last => spellsBody_rule h tokens last _) fun tokens _ lhs hlhs => ?_
    -- the repeated front names the same left-hand side
    refine (spellsBody_rule h tokens (some lhs) b).congr fun name => ⟨fun hname => ?_, fun he => ?_⟩
    · exact hname.2.1.symm.trans hlhs.2.1
    · exact he ▸ hlhs
  | margins h =>
    refine .of_eq ?_ ?_
    · rw [directiveTexts, directiveTexts, List.map_singleton, h, List.map_singleton]
    · rw [ruleTexts, ruleTexts, List.map_singleton, h, List.map_singleton]

end

theorem RelaidIn.sameReading {lines lines' : List Text} (h : RelaidIn lines lines') :
    SameReading lines lines' := by
  obtain ⟨before, mid, mid', after, hmid, rfl, rfl⟩ := h
  exact ((SameReading.refl before).append hmid.sameReading).append (.refl after)

/-- **What one change keeps, any number of changes keeps.** -/
theorem sameReading_of_reflTransGen {lines lines' : List Text}
    (h : Relation.ReflTransGen RelaidIn lines lines') : SameReading lines lines' := by
  induction h with
  | refl => exact .refl _
  | tail _ hstep ih => exact ih.trans hstep.sameReading

/-- The lines of a text, as they stand. -/
def Text.lines (cs : Text) : List Text := cs.pieces (· == '\n')

theorem map_content_directives (text : Text) :
    ((Line.ofText text).filter Line.isDirective).map Line.content = directiveTexts text.lines := by
  rw [directiveTexts, Text.lines, ← Line.map_content_ofText, List.filter_map]
  rfl

theorem map_content_ruleLines (text : Text) :
    ((Line.ofText text).filter fun l => !l.isDirective).map Line.content = ruleTexts text.lines := by
  rw [ruleTexts, Text.lines, ← Line.map_content_ofText, List.filter_map]
  rfl

/-- The token names are read off the contents of the directives. -/
theorem tokenNames_eq_ok_iff {ls : List Line} {tokens : Numbering String} :
    tokenNames ls = .ok tokens ↔ ∃ names, List.Forall₂ (fun cs ns => Line.declared ⟨0, cs⟩ = .ok ns)
      (ls.map Line.content) names ∧ .ofList names.flatten = tokens := by
  rw [tokenNames, bind_eq_ok_iff]
  refine exists_congr fun names => ?_
  rw [mapM_eq_ok_iff, List.forall₂_map_left_iff]
  refine and_congr ?_ ⟨Except.ok.inj, congrArg _⟩
  simp only [mapError_eq_ok_iff]
  rfl

namespace NamedGrammar

theorem ReadFrom.of_sameReading {n : NamedGrammar} {text text' : String} {rules : List NamedRule}
    (h : n.ReadFrom text rules) (hsame : SameReading (Text.lines text.toList) (Text.lines text'.toList)) :
    n.ReadFrom text' rules where
  tokenNames_eq := by
    have hnames := tokenNames_eq_ok_iff.1 h.tokenNames_eq
    rw [map_content_directives, hsame.directives, ← map_content_directives] at hnames
    exact tokenNames_eq_ok_iff.2 hnames
  ofLines_eq := by
    obtain ⟨next, hrules⟩ := NamedRule.ofLines_eq_ok_iff.1 h.ofLines_eq
    rw [map_content_ruleLines, hsame.spells, ← map_content_ruleLines] at hrules
    exact NamedRule.ofLines_eq_ok_iff.2 ⟨next, hrules⟩
  nonterminals_eq := h.nonterminals_eq
  ofRules_eq := h.ofRules_eq

/-- **Layout does not change the grammar.** Texts that come from each other by changes of layout are
    both read as the same grammar with the same names and numbers, or neither is read. -/
theorem read_relaid {text text' : String}
    (h : Relation.ReflTransGen RelaidIn (Text.lines text.toList) (Text.lines text'.toList))
    (n : NamedGrammar) : read text = .ok n ↔ read text' = .ok n := by
  have hsame := sameReading_of_reflTransGen h
  rw [read_eq_ok_iff, read_eq_ok_iff]
  exact exists_congr fun rules => ⟨fun hread => hread.of_sameReading hsame,
    fun hread => hread.of_sameReading hsame.symm⟩

/-- A grammar on three lines. -/
def tightText : String := "%token + id\nS -> E\nE -> E + id | id |"

/-- The same on six: the directive stands behind the first rule, with a comment behind it, and both
    bars begin a line, one of them replaced with the left-hand side. -/
def wideText : String := "S -> E\n%token + id\n# sums\nE -> E + id \nE -> id \n|"

/-- `wideText` comes from `tightText` by four changes. -/
theorem relaid_tightText : Relation.ReflTransGen RelaidIn (Text.lines tightText.toList)
    (Text.lines wideText.toList) := by
  have htight : Text.lines tightText.toList = ["%token + id".toList, "S -> E".toList,
      "E ".toList ++ '-' :: '>' :: (" E + id ".toList ++ '|' :: " id |".toList)] := by
    decide +kernel
  have hwide : Text.lines wideText.toList = ["S -> E".toList, "%token + id".toList, "# sums".toList,
      "E ".toList ++ '-' :: '>' :: " E + id ".toList, "E ".toList ++ '-' :: '>' :: " id ".toList,
      ['|']] := by decide +kernel
  have hbar : " id |".toList = " id ".toList ++ ['|'] := by decide +kernel
  have hcomment : Relaid [] ["# sums".toList] := .insert (by decide +kernel)
  have hhead : ("E ".toList.dropWhile isBlank).head? = some 'E' := by decide +kernel
  have hopening : Text.IsOpening "E ".toList := by
    refine ⟨by decide +kernel, ?_⟩
    rw [hhead]
    rintro c ⟨⟩
    decide
  rw [htight, hwide]
  refine .head ⟨[], _, _, _, .moveDown (by decide +kernel) (by decide +kernel), rfl, rfl⟩ ?_
  refine .head ⟨["S -> E".toList, "%token + id".toList], _, _, _, hcomment, rfl, rfl⟩ ?_
  refine .head ⟨["S -> E".toList, "%token + id".toList, "# sums".toList], _, _, [],
    .repeatRule hopening, rfl, rfl⟩ ?_
  rw [hbar]
  exact .single ⟨["S -> E".toList, "%token + id".toList, "# sums".toList,
    "E ".toList ++ '-' :: '>' :: " E + id ".toList], _, _, [], .breakRule hopening, rfl, rfl⟩

/-- Both texts are read, as the same grammar. -/
theorem wideText_read : Relation.ReflTransGen RelaidIn (Text.lines tightText.toList)
    (Text.lines wideText.toList) ∧ ∃ n, read tightText = .ok n ∧ read wideText = .ok n := by
  have hsome : (read tightText).toOption.isSome = true := by decide +kernel
  obtain ⟨n, hsome⟩ := Option.isSome_iff_exists.1 hsome
  have hn : read tightText = .ok n := eq_ok_of_toOption hsome
  exact ⟨relaid_tightText, n, hn, (read_relaid relaid_tightText n).1 hn⟩

end NamedGrammar

end ShiftReduce
