import Mathlib.Data.List.Forall2
import ShiftReduce.NamedGrammar.Reader
import ShiftReduce.Proofs.CutText
/-!
# What an accepted text holds

A text that is read as a grammar has a list of rules by name, from which everything else follows.
Here the reader is taken apart, and the names it lets through are described.

* `NamedGrammar.read_eq_ok_iff` -- an accepted text gives token names and rules by name, and the
  grammar is these rules with symbols for names;
* `mem_tokenNames_iff` -- the token names are the names some directive declares;
* `Line.head_eq_ok_iff` -- what a rule line gives, and when it gives anything;
* `NamedRule.readable_of_ofLines` -- a left-hand side is one word without arrow that could open no
  other kind of line and is no token, and the names behind an arrow are words without bar;
* `ReadFrom.symbolName_symbol` -- every name of a rule is the name of its symbol.
-/

namespace ShiftReduce

/-! ## 1. Answers without error -/

section Answers

variable {ε ε' α β : Type}

theorem bind_eq_ok_iff {x : Except ε α} {f : α → Except ε β} {b : β} :
    x >>= f = .ok b ↔ ∃ a, x = .ok a ∧ f a = .ok b := by
  cases x with
  | error e => exact ⟨fun h => (nomatch h), fun ⟨_, h, _⟩ => (nomatch h)⟩
  | ok a => exact ⟨fun h => ⟨a, rfl, h⟩, fun ⟨_, h, hb⟩ => Except.ok.inj h ▸ hb⟩

theorem mapError_eq_ok_iff {x : Except ε α} {f : ε → ε'} {a : α} :
    x.mapError f = .ok a ↔ x = .ok a := by
  cases x with
  | error e => exact ⟨fun h => (nomatch h), fun h => (nomatch h)⟩
  | ok b => exact ⟨fun h => congrArg _ (Except.ok.inj h), fun h => congrArg _ (Except.ok.inj h)⟩

theorem mapM_eq_ok_iff {f : α → Except ε β} {as : List α} {bs : List β} :
    as.mapM f = .ok bs ↔ List.Forall₂ (fun a b => f a = .ok b) as bs := by
  induction as generalizing bs with
  | nil =>
    rw [List.mapM_nil, List.forall₂_nil_left_iff]
    exact ⟨fun h => (Except.ok.inj h).symm, fun h => congrArg _ h.symm⟩
  | cons a as ih =>
    rw [List.mapM_cons, bind_eq_ok_iff, List.forall₂_cons_left_iff]
    refine exists_congr fun b => ?_
    rw [bind_eq_ok_iff, ← exists_and_left]
    refine exists_congr fun cs => and_congr_right fun _ => and_congr ih ?_
    exact ⟨fun h => (Except.ok.inj h).symm, fun h => congrArg _ h.symm⟩

/-- Questions that all have answers give the list of them. -/
theorem mapM_eq_pure_map {m : Type → Type} [Monad m] [LawfulMonad m] {f : α → m β} {g : α → β}
    {as : List α} (h : ∀ a ∈ as, f a = pure (g a)) : as.mapM f = pure (as.map g) := by
  induction as with
  | nil => exact List.mapM_nil
  | cons a as ih =>
    obtain ⟨ha, has⟩ := List.forall_mem_cons.1 h
    rw [List.mapM_cons, ha, ih has, pure_bind, pure_bind, List.map_cons]

/-- What stands in the answers to a list of questions. -/
theorem mem_flatten_of_mapM {f : α → Except ε (List β)} {as : List α} {bss : List (List β)}
    (h : as.mapM f = .ok bss) {b : β} :
    b ∈ bss.flatten ↔ ∃ a ∈ as, ∃ bs, f a = .ok bs ∧ b ∈ bs := by
  have hall := mapM_eq_ok_iff.1 h
  clear h
  induction hall with
  | nil => simp
  | cons hab _ ih => simp [List.flatten_cons, List.mem_append, ih, hab, -List.mem_flatten]

end Answers

/-! ## 2. Lines -/

namespace Line

variable {text : Text} {l : Line} {names : List String}

theorem map_content_ofText (text : Text) :
    (ofText text).map content = ((text.pieces (· == '\n')).map Text.trim).filter counts := by
  have hfst : ((text.pieces (· == '\n')).zipIdx 1).map Prod.fst = text.pieces (· == '\n') :=
    List.zipIdx_map_fst 1 _
  conv_rhs => rw [← hfst]
  rw [ofText, List.filter_map, List.map_map, List.map_map, List.filter_map]
  rfl

/-- A line that counts begins with a character that is neither a blank nor `#`. -/
theorem exists_cons_of_mem_ofText (hl : l ∈ ofText text) :
    ∃ c cs, l.content = c :: cs ∧ isBlank c = false ∧ c ≠ '#' := by
  have hmem : l.content ∈ (ofText text).map content := List.mem_map_of_mem hl
  rw [map_content_ofText] at hmem
  obtain ⟨htrim, hcounts⟩ := List.mem_filter.1 hmem
  obtain ⟨cs, -, hcs⟩ := List.mem_map.1 htrim
  cases hc : l.content with
  | nil =>
    rw [hc] at hcounts
    cases hcounts
  | cons c ds =>
    rw [hc] at hcounts hcs
    refine ⟨c, ds, rfl, Text.head?_trim cs (hcs ▸ rfl), fun h => ?_⟩
    rw [h] at hcounts
    cases hcounts

theorem declared_eq_ok_iff :
    l.declared = .ok names ↔
      (l.content.names = [] ∧ names = []) ∨ (l.content.names = "%token" :: names ∧ names ≠ []) := by
  unfold declared
  split
  · rename_i h
    simp [h, eq_comm]
  · rename_i word ns h
    split
    · rename_i hw
      split
      · rename_i hns
        simp [h, hw, hns, eq_comm]
      · rename_i hns
        rw [h, hw, Except.ok.injEq]
        simp only [reduceCtorEq, false_and, false_or, List.cons.injEq, true_and]
        exact ⟨fun e => ⟨e, e ▸ hns⟩, And.left⟩
    · rename_i hw
      simp [h, hw]

/-- **What a rule line gives**: a line of alternatives takes the last left-hand side, and any other
    line has one name in front of its first arrow, which is no token. -/
theorem head_eq_ok_iff {tokens : Numbering String} {last : Option String} {lhs : String}
    {after : Text} : l.head tokens last = .ok (lhs, after) ↔
      (l.isAlternative = true ∧ last = some lhs ∧ l.content.tail = after) ∨
      (l.isAlternative = false ∧ ∃ before, Text.cutArrow? l.content = some (before, after) ∧
        Text.IsWord (Text.trim before) ∧ String.ofList (Text.trim before) = lhs ∧ lhs ∉ tokens) := by
  constructor
  · intro h
    unfold head at h
    split at h
    · rename_i hbar
      split at h
      · cases h
      · cases h
        exact .inl ⟨hbar, rfl, rfl⟩
    · rename_i hbar
      split at h
      · cases h
      · rename_i before rest hcut
        split at h
        · cases h
        · rename_i hname
          obtain ⟨hne, hblank⟩ := not_or.1 hname
          split at h
          · cases h
          · rename_i htoken
            cases h
            exact .inr ⟨Bool.eq_false_iff.2 hbar, before, hcut, ⟨hne, by simpa using hblank⟩, rfl,
              htoken⟩
  · rintro (⟨hbar, rfl, rfl⟩ | ⟨hbar, before, hcut, hword, rfl, htoken⟩)
    · rw [head, if_pos hbar]
    · have hname : ¬ (before.trim = [] ∨ before.trim.any isBlank = true) :=
        not_or.2 ⟨hword.1, by simpa using hword.2⟩
      unfold head
      rw [hbar, hcut, if_neg Bool.false_ne_true]
      simp only [if_neg hname, if_neg htoken]

end Line

/-! ## 3. Token names -/

/-- The line declares the name as a token. -/
def Line.Declares (l : Line) (name : String) : Prop :=
  l.isDirective = true ∧ ∃ names, l.content.names = "%token" :: names ∧ name ∈ names

/-- **The token names are the names some directive declares.** -/
theorem mem_tokenNames_iff {text : Text} {tokens : Numbering String} {name : String}
    (h : tokenNames ((Line.ofText text).filter Line.isDirective) = .ok tokens) :
    name ∈ tokens ↔ ∃ l ∈ Line.ofText text, l.Declares name := by
  obtain ⟨names, hnames, hret⟩ := bind_eq_ok_iff.1 h
  obtain rfl := Except.ok.inj hret
  rw [Numbering.mem_ofList, mem_flatten_of_mapM hnames]
  constructor
  · rintro ⟨l, hl, ns, hdecl, hname⟩
    obtain ⟨hmem, hdir⟩ := List.mem_filter.1 hl
    obtain ⟨-, rfl⟩ | ⟨hwords, -⟩ := Line.declared_eq_ok_iff.1 (mapError_eq_ok_iff.1 hdecl)
    · cases hname
    · exact ⟨l, hmem, hdir, ns, hwords, hname⟩
  · rintro ⟨l, hl, hdir, ns, hwords, hname⟩
    exact ⟨l, List.mem_filter.2 ⟨hl, hdir⟩, ns, mapError_eq_ok_iff.2
      (Line.declared_eq_ok_iff.2 (.inr ⟨hwords, List.ne_nil_of_mem hname⟩)), hname⟩

/-- A declared name is a word. -/
theorem Line.Declares.isWord {l : Line} {name : String} (h : l.Declares name) :
    Text.IsWord name.toList := by
  obtain ⟨-, names, hwords, hname⟩ := h
  exact Text.isWord_of_mem_names (hwords ▸ List.mem_cons_of_mem _ hname)

/-! ## 4. Rules -/

namespace NamedRule

/-- A name a rule line can open with: one word without arrow that is no token, and that opens
    neither a comment nor a directive nor a line of alternatives. -/
structure IsHead (tokens : Numbering String) (name : String) : Prop where
  isWord : Text.IsWord name.toList
  noArrow : Text.cutArrow? name.toList = none
  notToken : name ∉ tokens
  head_ne : ∀ c ∈ name.toList.head?, c ≠ '#' ∧ c ≠ '%' ∧ c ≠ '|'

/-- A name an alternative can hold: a word without bar. -/
def IsPart (name : String) : Prop := Text.IsWord name.toList ∧ '|' ∉ name.toList

/-- A rule that some rule line holds. -/
structure Readable (tokens : Numbering String) (r : NamedRule) : Prop where
  lhs : IsHead tokens r.lhs
  rhs : ∀ name ∈ r.rhs, IsPart name

variable {tokens : Numbering String} {last : Option String} {l : Line} {ls : List Line}
  {lhs : String} {text : Text} {rules : List NamedRule} {r : NamedRule}

theorem isHead_of_head (h : l.head tokens last = .ok (lhs, text))
    (hlast : ∀ name ∈ last, IsHead tokens name) {c : Char} {cs : Text} (hl : l.content = c :: cs)
    (hc : isBlank c = false ∧ c ≠ '#' ∧ c ≠ '%') : IsHead tokens lhs := by
  obtain ⟨-, hlhs, -⟩ | ⟨hbar, before, hcut, hword, rfl, htoken⟩ := Line.head_eq_ok_iff.1 h
  · exact hlast lhs hlhs
  · obtain ⟨hsplit, hnone⟩ := Text.cutArrow?_eq_some hcut
    -- the name before the arrow opens with the first character of the line
    obtain ⟨d, ds, rfl⟩ : ∃ d ds, before = d :: ds :=
      List.exists_cons_of_ne_nil fun he => hword.1 (by rw [he]; rfl)
    obtain rfl : c = d := (List.cons.inj (hl.symm.trans hsplit)).1
    obtain ⟨es, hes⟩ := Text.trim_cons hc.1 ds
    refine ⟨?_, ?_, htoken, ?_⟩
    · rwa [String.toList_ofList]
    · rw [String.toList_ofList, Text.cutArrow?_eq_none_iff]
      exact fun harrow => Text.cutArrow?_eq_none_iff.1 hnone (harrow.trans (Text.trim_isInfix _))
    · rw [String.toList_ofList, hes]
      rintro e ⟨⟩
      refine ⟨hc.2.1, hc.2.2, fun he => ?_⟩
      rw [Line.isAlternative, hl, he] at hbar
      cases hbar

theorem readable_of_mem_ofAlternatives (hlhs : IsHead tokens lhs)
    (hr : r ∈ ofAlternatives lhs text) : Readable tokens r := by
  obtain ⟨alternative, halt, rfl⟩ := List.mem_map.1 hr
  refine ⟨hlhs, fun name hname => ⟨Text.isWord_of_mem_names hname, fun hbar => ?_⟩⟩
  obtain ⟨w, hw, rfl⟩ := List.mem_map.1 hname
  rw [String.toList_ofList] at hbar
  exact absurd (Text.mem_of_mem_pieces halt (Text.mem_of_mem_words hw hbar)).2 (by decide)

/-- **Every rule read is readable.** -/
theorem readable_of_ofLines (h : ofLines tokens last ls = .ok rules)
    (hlast : ∀ name ∈ last, IsHead tokens name)
    (hls : ∀ l ∈ ls, ∃ c cs, l.content = c :: cs ∧ isBlank c = false ∧ c ≠ '#' ∧ c ≠ '%')
    (hr : r ∈ rules) : Readable tokens r := by
  induction ls generalizing last rules with
  | nil =>
    cases h
    cases hr
  | cons l ls ih =>
    obtain ⟨⟨lhs, text⟩, hhead, h⟩ := bind_eq_ok_iff.1 h
    obtain ⟨rest, hrest, hret⟩ := bind_eq_ok_iff.1 h
    obtain rfl := Except.ok.inj hret
    obtain ⟨⟨c, cs, hl, hc⟩, hls⟩ := List.forall_mem_cons.1 hls
    have hlhs : IsHead tokens lhs := isHead_of_head (mapError_eq_ok_iff.1 hhead) hlast hl hc
    rcases List.mem_append.1 hr with hr | hr
    · exact readable_of_mem_ofAlternatives hlhs hr
    · exact ih hrest (by simpa using hlhs) hls hr

end NamedRule

/-! ## 5. Texts -/

namespace NamedGrammar

/-- The text is read as these rules by name, and they make up the grammar. -/
structure ReadFrom (n : NamedGrammar) (text : String) (rules : List NamedRule) : Prop where
  tokenNames_eq : tokenNames ((Line.ofText text.toList).filter Line.isDirective) = .ok n.tokens
  ofLines_eq : NamedRule.ofLines n.tokens none
    ((Line.ofText text.toList).filter fun l => !l.isDirective) = .ok rules
  nonterminals_eq : n.nonterminals = .ofList (rules.flatMap (NamedRule.nonterminals n.tokens))
  ofRules_eq : Grammar.ofRules (rules.map (NamedRule.resolve n.tokens n.nonterminals)) = .ok n.grammar

variable {n : NamedGrammar} {text : String} {rules : List NamedRule} {name : String}

/-- **An accepted text is token names and rules by name, resolved.** -/
theorem read_eq_ok_iff : read text = .ok n ↔ ∃ rules, n.ReadFrom text rules := by
  constructor
  · intro h
    obtain ⟨tokens, htokens, h⟩ := bind_eq_ok_iff.1 h
    obtain ⟨rules, hrules, h⟩ := bind_eq_ok_iff.1 h
    obtain ⟨grammar, hgrammar, h⟩ := bind_eq_ok_iff.1 h
    obtain rfl := Except.ok.inj h
    exact ⟨rules, htokens, hrules, rfl, mapError_eq_ok_iff.1 hgrammar⟩
  · rintro ⟨rules, h⟩
    refine bind_eq_ok_iff.2 ⟨n.tokens, h.tokenNames_eq, bind_eq_ok_iff.2 ⟨rules, h.ofLines_eq, ?_⟩⟩
    rw [← h.nonterminals_eq]
    exact bind_eq_ok_iff.2 ⟨n.grammar, mapError_eq_ok_iff.2 h.ofRules_eq, rfl⟩

namespace ReadFrom

variable {r : NamedRule}

theorem mem_tokens_iff (h : n.ReadFrom text rules) :
    name ∈ n.tokens ↔ ∃ l ∈ Line.ofText text.toList, l.Declares name :=
  mem_tokenNames_iff h.tokenNames_eq

theorem readable (h : n.ReadFrom text rules) (hr : r ∈ rules) : r.Readable n.tokens := by
  refine NamedRule.readable_of_ofLines h.ofLines_eq (fun _ hn => nomatch hn) (fun l hl => ?_) hr
  obtain ⟨hmem, hrule⟩ := List.mem_filter.1 hl
  obtain ⟨c, cs, hc, hblank, hcomment⟩ := Line.exists_cons_of_mem_ofText hmem
  refine ⟨c, cs, hc, hblank, hcomment, fun hdir => ?_⟩
  rw [Line.isDirective, hc, hdir] at hrule
  cases hrule

theorem toList_rules (h : n.ReadFrom text rules) :
    n.grammar.rules.toList = rules.map (NamedRule.resolve n.tokens n.nonterminals) :=
  Grammar.ofRules_eq_ok_iff.1 h.ofRules_eq

theorem mem_nonterminals (h : n.ReadFrom text rules) (hr : r ∈ rules)
    (hname : name ∈ r.nonterminals n.tokens) : name ∈ n.nonterminals := by
  rw [h.nonterminals_eq, Numbering.mem_ofList]
  exact List.mem_flatMap.2 ⟨r, hr, hname⟩

/-- A name behind an arrow that is neither a token nor `$` is a nonterminal name. -/
theorem mem_nonterminals_of_mem_rhs (h : n.ReadFrom text rules) (hr : r ∈ rules)
    (hname : name ∈ r.rhs) (htoken : n.tokens.number? name = none) (hend : name ≠ "$") :
    name ∈ n.nonterminals := by
  have hcontains : n.tokens.contains name = false := by rw [Numbering.contains, htoken]; rfl
  refine h.mem_nonterminals hr (List.mem_cons_of_mem _ ?_)
  exact List.mem_filter.2 ⟨hname, by simp [hcontains, hend]⟩

/-- A nonterminal name is the name of its number. -/
theorem symbolName_idOf (hname : name ∈ n.nonterminals) :
    n.symbolName (.nonterminal (NamedRule.idOf n.nonterminals name)) = name := by
  obtain ⟨i, hi⟩ := Numbering.mem_iff_number?.1 hname
  rw [NamedRule.idOf, hi, Option.getD_some, symbolName, Numbering.number?_eq_some_iff.1 hi,
    Option.getD_some]

theorem symbolName_lhs (h : n.ReadFrom text rules) (hr : r ∈ rules) :
    n.symbolName (.nonterminal (NamedRule.idOf n.nonterminals r.lhs)) = r.lhs :=
  symbolName_idOf (h.mem_nonterminals hr List.mem_cons_self)

/-- **Every name behind an arrow is the name of its symbol.** -/
theorem symbolName_symbol (h : n.ReadFrom text rules) (hr : r ∈ rules) (hname : name ∈ r.rhs) :
    n.symbolName (NamedRule.symbol n.tokens n.nonterminals name) = name := by
  unfold NamedRule.symbol
  split
  · rename_i id hid
    rw [symbolName, Numbering.number?_eq_some_iff.1 hid, Option.getD_some]
  · rename_i hnone
    split
    · rename_i hend
      rw [hend]
      rfl
    · rename_i hend
      exact symbolName_idOf (h.mem_nonterminals_of_mem_rhs hr hname hnone hend)

end ReadFrom

end NamedGrammar

end ShiftReduce
