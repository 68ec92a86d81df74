import FlowCanvas.Proofs.CallLosses
import FlowCanvas.Proofs.Lossless

/-!
# Texts that an editor puts in

The properties of a node may hold any text. A name, a path of names and the name of a type are read
as their parts, and a text that is tokenized up to its last character is read as its tokens without
the blanks around it.
-/

namespace FlowCanvas

namespace Lexer

/-! ### Names -/

/-- Whether a text is spelled like a name. -/
def spellsName (text : String) : Bool :=
  match text.toList with
  | [] => false
  | c :: cs => isWordStart c && cs.all isWordChar

lemma starts_of_tokenAt {kind : TokenKind} {c : Char} {cs rest : List Char}
    (hsolid : Solid (c :: cs ++ rest)) (h : TokenAt kind (c :: cs) rest) :
    Starts kind (c :: cs) rest :=
  ⟨hsolid, c, cs, rfl, splitToken_eq_ok_iff.mpr ⟨rfl, h⟩⟩

lemma isName_of_spellsName {name : String} (h : spellsName name) : IsName name := by
  unfold spellsName at h
  cases hname : name.toList with
  | nil => simp [hname] at h
  | cons c cs =>
    simp only [hname, Bool.and_eq_true, List.all_eq_true] at h
    have hsolid : Solid (c :: cs ++ [' ']) := by
      refine (solid_cons_iff c _).mpr ⟨?_, ?_, ?_⟩
      · by_contra hblank
        rw [Bool.not_eq_false] at hblank
        simp only [Text.isLayoutBlank, Bool.or_eq_true, beq_iff_eq] at hblank
        rcases hblank with (((rfl | rfl) | rfl) | rfl) | rfl <;> exact absurd h.1 (by decide)
      · rintro rfl
        exact absurd h.1 (by decide)
      · rintro ⟨rfl, -⟩
        exact absurd h.1 (by decide)
    have hstart : Starts .identifier (c :: cs) [' '] :=
      starts_of_tokenAt hsolid (.identifier h.1 h.2 (by simp; decide))
    refine ⟨fun rest hrest => ?_, hname ▸ hstart.trimmed⟩
    have hrun := Run.token (hstart.tame (hrest.tame [' ']))
    rwa [← hname, String.ofList_toList] at hrun

/-! ### Paths -/

/-- The lexemes of names with points between them. -/
def pathLexemes (names : List String) : List Lexeme :=
  (names.map fun name => (.identifier, name)).intersperse (.punctuation, ".")

/-- A point ends in front of a name. -/
lemma run_point {c : Char} (hc : isWordStart c) (cs : List Char) :
    Run ['.'] [(.punctuation, ".")] (c :: cs) := by
  have hlongest : LongestMark ['.'] (['.'] ++ c :: cs) := by
    refine ⟨by decide, ⟨_, rfl⟩, fun m hm hstarts => ?_⟩
    have htails : ∀ m ∈ marks, m.toList.head? = some '.' → 1 < m.toList.length →
        m.toList[1]? = some '.' := by
      decide
    by_contra hlength
    obtain ⟨rest, hrest⟩ := hstarts
    match hchars : m.toList, hrest with
    | [], _ => simp [hchars] at hlength
    | [_], _ => simp [hchars] at hlength
    | d :: e :: es, hrest =>
      obtain ⟨rfl, htail⟩ := List.cons.inj hrest
      obtain ⟨rfl, -⟩ := List.cons.inj htail
      have hpoint := htails m hm (by simp [hchars]) (by simp [hchars])
      obtain rfl : e = '.' := by simpa [hchars] using hpoint
      exact absurd hc (by decide)
  exact Run.token (starts_of_tokenAt 
    ((solid_cons_iff '.' _).mpr ⟨by decide, by decide, by simp⟩) (.mark hlongest))

/-- A name in front of a path. -/
lemma IsName.dotted {name : String} {ys : List Char} {ms : List Lexeme} (hname : IsName name)
    (hys : Legible ys ms) (hhead : ys.head?.any isWordStart) :
    Legible (name.toList ++ '.' :: ys) ((.identifier, name) :: (.punctuation, ".") :: ms) := by
  obtain ⟨c, cs, rfl⟩ := List.exists_cons_of_ne_nil hys.trimmed.ne_nil
  have hpoint : Legible ('.' :: c :: cs) ((.punctuation, ".") :: ms) :=
    @Legible.append ['.'] _ [(.punctuation, ".")] _
      ⟨⟨'.', rfl, by decide⟩, ⟨'.', rfl, by decide⟩⟩
      (fun rest _ => run_point (by simpa using hhead) (cs ++ rest)) hys
  refine @Legible.append _ _ [(.identifier, name)] _ hname.trimmed (fun rest _ => ?_) hpoint
  have hstart : Starts .identifier name.toList ('.' :: c :: cs ++ rest) := by
    refine hname.starts fun d hd => ?_
    obtain rfl := Option.some.inj hd
    decide
  simpa using Run.token hstart

lemma head_of_spellsName {name : String} (h : spellsName name) (rest : List Char) :
    (name.toList ++ rest).head?.any isWordStart := by
  unfold spellsName at h
  cases hname : name.toList with
  | nil => simp [hname] at h
  | cons c cs =>
    simp only [hname, Bool.and_eq_true] at h
    simpa using h.1

/-- Names with points between them are read as such. -/
lemma legible_path {name : String} {names : List String} (h : ∀ n ∈ name :: names, spellsName n) :
    Legible (String.intercalate "." (name :: names)).toList (pathLexemes (name :: names)) := by
  rw [String.toList_intercalate]
  induction names generalizing name with
  | nil =>
    have hname : IsName name := isName_of_spellsName (h name (by simp))
    simpa [pathLexemes, List.intercalate, IsName] using hname
  | cons next names ih =>
    have hrest := ih fun n hn => h n (List.mem_cons_of_mem _ hn)
    have hhead : ((".".toList).intercalate ((next :: names).map String.toList)).head?.any
        isWordStart := by
      have hnext := head_of_spellsName (h next (by simp))
      cases names with
      | nil => simpa [List.intercalate] using hnext []
      | cons after names =>
        rw [List.map_cons, Write.intercalate_cons (by simp)]
        exact hnext _
    have hpath := (isName_of_spellsName (h name (by simp))).dotted hrest hhead
    rw [List.map_cons, Write.intercalate_cons (by simp)]
    simpa [pathLexemes] using hpath

/-! ### Texts with blanks around them -/

/-- A text without the blanks at its end. -/
def trimEnd (cs : List Char) : List Char := (cs.reverse.dropWhile Text.isBlank).reverse

lemma trimEnd_prefix (cs : List Char) :
    ∃ blanks, cs = trimEnd cs ++ blanks ∧ ∀ c ∈ blanks, Text.isBlank c := by
  refine ⟨(cs.reverse.takeWhile Text.isBlank).reverse, ?_, fun c hc => ?_⟩
  · rw [trimEnd, ← List.reverse_append, List.takeWhile_append_dropWhile, List.reverse_reverse]
  · exact List.mem_takeWhile_imp (List.mem_reverse.mp hc)

/-- Beginnings of one text that take the same bytes are the same. -/
lemma eq_of_byteLength_eq {xs ys zs : List Char} (hxs : xs <+: zs) (hys : ys <+: zs)
    (h : byteLength xs = byteLength ys) : xs = ys := by
  have hsame : ∀ {us vs : List Char}, us <+: vs → byteLength us = byteLength vs → us = vs := by
    rintro us - ⟨ws, rfl⟩ hlength
    rw [byteLength_append] at hlength
    by_contra hne
    have hpos := byteLength_pos (show ws ≠ [] by
      rintro rfl
      simp at hne)
    omega
  rcases List.prefix_or_prefix_of_prefix hxs hys with hprefix | hprefix
  · exact hsame hprefix h
  · exact (hsame hprefix h.symm).symm

lemma isBlank_of_isLayoutBlank {c : Char} (h : Text.isLayoutBlank c) : Text.isBlank c := by
  simp only [Text.isLayoutBlank, Bool.or_eq_true, beq_iff_eq] at h
  rcases h with (((rfl | rfl) | rfl) | rfl) | rfl <;> decide

/-- The blanks that layout starts with are layout themselves. -/
lemma Gap.dropBlanks {gap : List Char} (h : Gap false gap) {cs : List Char}
    (hcs : cs.dropWhile Text.isBlank = cs) :
    ∃ gap', Gap false gap' ∧ (gap ++ cs).dropWhile Text.isBlank = gap' ++ cs := by
  generalize hcomment : false = comment at h
  induction h with
  | nil => exact ⟨[], .nil, hcs⟩
  | @blank c gap hblank hgap ih =>
    obtain ⟨gap', hgap', hdrop⟩ := ih hcomment
    exact ⟨gap', hgap', by rw [List.cons_append, List.dropWhile_cons_of_pos
      (isBlank_of_isLayoutBlank hblank), hdrop]⟩
  | hash hgap => exact ⟨_, .hash hgap, List.dropWhile_cons_of_neg (by decide)⟩
  | slashes hgap => exact ⟨_, .slashes hgap, List.dropWhile_cons_of_neg (by decide)⟩
  | newLine => simp at hcomment
  | comment => simp at hcomment

lemma Run.ne_nil {xs rest : List Char} {l : Lexeme} {ls : List Lexeme}
    (h : Run xs (l :: ls) rest) : xs ≠ [] := by
  cases h with
  | cons hgap hstart hrest => simp [hstart.trimmed.ne_nil]

/-- Blanks in front of a run are no part of it. -/
lemma Run.dropBlanks {xs rest : List Char} {l : Lexeme} {ls : List Lexeme}
    (h : Run xs (l :: ls) rest) : Run (xs.dropWhile Text.isBlank) (l :: ls) rest := by
  cases h with
  | @cons gap text cs _ kind _ hgap hstart hrest =>
    have hsolid : (text ++ cs).dropWhile Text.isBlank = text ++ cs := by
      obtain ⟨c, hc, hblank⟩ := hstart.trimmed.head
      obtain ⟨tail, rfl⟩ := List.head?_eq_some_iff.mp hc
      exact List.dropWhile_cons_of_neg (by simp [hblank])
    obtain ⟨gap', hgap', hdrop⟩ := hgap.dropBlanks hsolid
    rw [hdrop]
    exact .cons hgap' hstart hrest

/-- The text of an argument: it is tokenized up to its last character that is no blank, its brackets
match, no comma stands outside of them, and its second token is no equality mark. -/
structure ArgumentText (text : String) (ts : Phrase) : Prop where
  tokens : tokenize text = .ok ts
  ne_nil : ts ≠ []
  ends : ∀ t ∈ ts.getLast?, t.span.stop.byte = byteLength (trimEnd text.toList)
  free : Brackets.Free "," ts
  unnamed : ∀ t ∈ ts[1]?, t.text ≠ "="

instance (text : String) : Decidable (∃ ts, ArgumentText text ts) :=
  decidable_of_iff
    ((tokenize text).toOption.any fun ts => decide (ts ≠ [] ∧
      (∀ t ∈ ts.getLast?, t.span.stop.byte = byteLength (trimEnd text.toList)) ∧
        Brackets.depthAfter? "," 0 ts = some 0 ∧ ∀ t ∈ ts[1]?, t.text ≠ "="))
    (by
      constructor
      · intro h
        obtain ⟨ts, htokens, hcheck⟩ := (Option.any_eq_true _ _).mp h
        obtain ⟨hne, hends, hfree, hunnamed⟩ := of_decide_eq_true hcheck
        cases hts : tokenize text with
        | error e => simp [hts, Except.toOption] at htokens
        | ok ts' =>
          obtain rfl : ts' = ts := by simpa [hts, Except.toOption] using htokens
          exact ⟨ts', hts, hne, hends, hfree, hunnamed⟩
      · rintro ⟨ts, h⟩
        simp only [h.tokens, Except.toOption, Option.any_some, decide_eq_true_eq]
        exact ⟨h.ne_nil, h.ends, h.free, h.unnamed⟩)

lemma head_dropBlanks {cs : List Char} {c : Char}
    (h : (cs.dropWhile Text.isBlank).head? = some c) : Text.isBlank c = false := by
  have hnot := List.head?_dropWhile_not Text.isBlank cs
  rwa [h] at hnot

/-- A text is trimmed at its end and then at its start. -/
lemma trimChars_of_append {front ys blanks : List Char} (hys : Trimmed ys)
    (hfront : ∀ c ∈ front, Text.isBlank c) (hblanks : ∀ c ∈ blanks, Text.isBlank c) :
    Text.trimChars (front ++ (ys ++ blanks)) = ys := by
  obtain ⟨c, hc, hfirst⟩ := hys.head
  obtain ⟨d, hd, hlast⟩ := hys.last
  have hstart : (ys ++ blanks).dropWhile Text.isBlank = ys ++ blanks := by
    obtain ⟨tail, rfl⟩ := List.head?_eq_some_iff.mp hc
    exact List.dropWhile_cons_of_neg (by simp [hfirst])
  have hend : ys.reverse.dropWhile Text.isBlank = ys.reverse := by
    obtain ⟨tail, htail⟩ := List.head?_eq_some_iff.mp (List.head?_reverse.trans hd)
    rw [htail, List.dropWhile_cons_of_neg (by simp [hlast])]
  rw [Text.trimChars, List.dropWhile_append_of_pos hfront, hstart, List.reverse_append,
    List.dropWhile_append_of_pos (by simpa using hblanks), hend, List.reverse_reverse]

/-- The text of an argument is read as its tokens without the blanks around it. -/
lemma ArgumentText.legible {text : String} {ts : Phrase} (h : ArgumentText text ts) :
    Legible (Text.trim text).toList ts.lexemes := by
  obtain ⟨cs, last, hsource, hscanned, -⟩ := scanned_of_tokenize h.tokens
  obtain ⟨t, us, rfl⟩ := List.exists_cons_of_ne_nil h.ne_nil
  obtain ⟨blanks, htext, hblanks⟩ := trimEnd_prefix text.toList
  have hcs : cs = trimEnd text.toList := by
    refine eq_of_byteLength_eq ⟨last, hsource.symm⟩ ⟨blanks, htext.symm⟩ ?_
    obtain ⟨init, final, hfinal⟩ := (List.eq_nil_or_concat' (t :: us)).resolve_left (by simp)
    have hstop := h.ends final (by simp [hfinal])
    rw [hfinal] at hscanned
    rwa [hscanned.stop, Place.byte_origin_advance] at hstop
  have hrun : Run (cs.dropWhile Text.isBlank) ((t.kind, t.text) :: Phrase.lexemes us) last :=
    hscanned.run.dropBlanks
  have hne := hrun.ne_nil
  have htrimmed : Trimmed (cs.dropWhile Text.isBlank) := by
    obtain ⟨c, rest, hcons⟩ := List.exists_cons_of_ne_nil hne
    have hc : (cs.dropWhile Text.isBlank).head? = some c := by rw [hcons]; rfl
    refine ⟨⟨c, hc, head_dropBlanks hc⟩, ?_⟩
    obtain ⟨d, hd⟩ : ∃ d, (cs.dropWhile Text.isBlank).getLast? = some d :=
      ⟨_, List.getLast?_eq_some_getLast hne⟩
    have hlast : cs.getLast? = some d := by
      obtain ⟨init, hinit⟩ := List.getLast?_eq_some_iff.mp hd
      rw [← @List.takeWhile_append_dropWhile _ Text.isBlank cs, hinit]
      simp
    refine ⟨d, hd, @head_dropBlanks text.toList.reverse d ?_⟩
    rwa [hcs, trimEnd, List.getLast?_reverse] at hlast
  have htrim : (Text.trim text).toList = cs.dropWhile Text.isBlank := by
    rw [Text.trim, String.toList_ofList, htext, ← hcs]
    have hfront : ∀ c ∈ cs.takeWhile Text.isBlank, Text.isBlank c :=
      fun c hc => List.mem_takeWhile_imp hc
    have happend := trimChars_of_append htrimmed hfront hblanks
    rwa [← List.append_assoc, List.takeWhile_append_dropWhile] at happend
  rw [htrim]
  exact ⟨fun rest hrest => hrun.of_safe hrest, htrimmed⟩

end Lexer

namespace Parser

open Lexer Brackets

/-! ### Names that are no keywords -/

/-- The words that a statement or an expression starts with. -/
def reservedWords : List String :=
  unsupportedWords ++ ["if", "while", "return", "fail", "panic", "break", "continue", "final"] ++
    expressionWords

/-- Whether a text is a name and no keyword. -/
def isPlainName (text : String) : Bool := spellsName text && !reservedWords.contains text

lemma isName_of_isPlainName {name : String} (h : isPlainName name) : IsName name := by
  rw [isPlainName, Bool.and_eq_true] at h
  exact isName_of_spellsName h.1

/-- A token that is a name and no keyword. -/
structure IsPlain (t : Token) : Prop where
  isIdentifier : t.isIdentifier
  text : isPlainName t.text

lemma isPlain_of_lexeme {t : Token} {name : String} (h : isPlainName name)
    (ht : (t.kind, t.text) = (.identifier, name)) : IsPlain t := by
  obtain ⟨hkind, htext⟩ := Prod.mk.inj ht
  exact ⟨beq_iff_eq.mpr hkind, htext ▸ h⟩

lemma IsPlain.not_isWord {t : Token} (h : IsPlain t) {words : List String}
    (hwords : ∀ word ∈ words, word ∈ reservedWords) : t.isWord words = false := by
  have htext := h.text
  rw [isPlainName, Bool.and_eq_true, Bool.not_eq_true', ← Bool.not_eq_true,
    List.contains_iff_mem] at htext
  rw [Token.isWord, h.isIdentifier, Bool.true_and, ← Bool.not_eq_true, List.contains_iff_mem]
  exact fun hmem => htext.2 (hwords _ hmem)

lemma IsPlain.not_is {t : Token} (h : IsPlain t) {mark : String}
    (hmark : isPlainName mark = false) : t.is mark = false := by
  have hne : t.text ≠ mark := by
    rintro rfl
    rw [h.text] at hmark
    exact absurd hmark (by decide)
  simp [Token.is, hne]

lemma IsPlain.leads {t : Token} (h : IsPlain t) : leads t = false := by
  rw [Parser.leads, h.not_isWord (by decide), h.not_isWord (by decide), h.not_is (by decide),
    h.not_is (by decide), h.not_is (by decide)]
  rfl

lemma IsPlain.endsType {t : Token} (h : IsPlain t) : endsType t := by
  have hword : t.isWord expressionWords = false := h.not_isWord (by decide)
  rw [Token.isWord, h.isIdentifier, Bool.true_and] at hword
  rw [Parser.endsType, beq_iff_eq.mp h.isIdentifier]
  simpa using hword

/-! ### Callees and types -/

/-- A callee whose names are no keywords. -/
inductive IsPlainCallee : Callee → Prop
  | function {qualifier : Option String} {name : String}
    (hqualifier : ∀ q ∈ qualifier, isPlainName q) (hname : isPlainName name) :
    IsPlainCallee (.function qualifier name)
  | action {first method : String} {names : List String}
    (hnames : ∀ name ∈ first :: names, isPlainName name) (hmethod : isPlainName method) :
    IsPlainCallee (.action (pathLexemes (first :: names)) method)

lemma isPath_of_lexemes {first : String} {names : List String}
    (h : ∀ name ∈ first :: names, isPlainName name) {phrase : Phrase}
    (hphrase : phrase.lexemes = pathLexemes (first :: names)) :
    Shape.isPath phrase ∧ ∀ t ∈ phrase.head?, IsPlain t := by
  induction names generalizing first phrase with
  | nil =>
    obtain ⟨t, none, rfl, ht, hnone⟩ := Phrase.lexemes_eq_cons hphrase
    obtain rfl : none = [] := List.map_eq_nil_iff.mp hnone
    have hplain := isPlain_of_lexeme (h first (by simp)) ht
    exact ⟨hplain.isIdentifier, by simpa using hplain⟩
  | cons next names ih =>
    obtain ⟨t, rest, rfl, ht, hrest⟩ := Phrase.lexemes_eq_cons hphrase
    obtain ⟨point, path, rfl, hpoint, hpath⟩ := Phrase.lexemes_eq_cons hrest
    have hplain := isPlain_of_lexeme (h first (by simp)) ht
    obtain ⟨htail, -⟩ := ih (fun name hname => h name (List.mem_cons_of_mem _ hname)) hpath
    refine ⟨?_, by simpa using hplain⟩
    simp [Shape.isPath, hplain.isIdentifier, htail, Token.is, Prod.mk.inj hpoint]

/-- A callee without keywords is read from its lexemes. -/
lemma IsPlainCallee.spells {callee : Callee} (h : IsPlainCallee callee) {phrase : Phrase}
    (hphrase : phrase.lexemes = callee.lexemes) :
    SpellsCallee callee phrase ∧ ∀ t ∈ phrase.head?, IsPlain t := by
  cases h with
  | @function qualifier name hqualifier hname =>
    cases qualifier with
    | none =>
      obtain ⟨t, none, rfl, ht, hnone⟩ := Phrase.lexemes_eq_cons hphrase
      obtain rfl : none = [] := List.map_eq_nil_iff.mp hnone
      have hplain := isPlain_of_lexeme hname ht
      obtain ⟨-, rfl⟩ := Prod.mk.inj ht
      exact ⟨.plain hplain.isIdentifier, by simpa using hplain⟩
    | some q =>
      obtain ⟨t, rest, rfl, ht, hrest⟩ := Phrase.lexemes_eq_cons hphrase
      obtain ⟨colon, rest', rfl, hcolon, hrest'⟩ := Phrase.lexemes_eq_cons hrest
      obtain ⟨u, none, rfl, hu, hnone⟩ := Phrase.lexemes_eq_cons hrest'
      obtain rfl : none = [] := List.map_eq_nil_iff.mp hnone
      have hplain := isPlain_of_lexeme (hqualifier q rfl) ht
      have hplain' := isPlain_of_lexeme hname hu
      obtain ⟨-, rfl⟩ := Prod.mk.inj ht
      obtain ⟨-, rfl⟩ := Prod.mk.inj hu
      exact ⟨.qualified hplain.isIdentifier (by simp [Token.is, Prod.mk.inj hcolon])
        hplain'.isIdentifier, by simpa using hplain⟩
  | action hnames hmethod =>
    obtain ⟨client, rest, rfl, hclient, hrest⟩ := Phrase.lexemes_eq_append hphrase
    obtain ⟨arrow, rest', rfl, harrow, hrest'⟩ := Phrase.lexemes_eq_cons hrest
    obtain ⟨u, none, rfl, hu, hnone⟩ := Phrase.lexemes_eq_cons hrest'
    obtain rfl : none = [] := List.map_eq_nil_iff.mp hnone
    obtain ⟨hpath, hhead⟩ := isPath_of_lexemes hnames hclient
    have hplain := isPlain_of_lexeme hmethod hu
    obtain ⟨-, rfl⟩ := Prod.mk.inj hu
    rw [← hclient]
    refine ⟨.action hpath (by simp [Token.is, Prod.mk.inj harrow]) hplain.isIdentifier, ?_⟩
    obtain ⟨t, ts, rfl⟩ := List.exists_cons_of_ne_nil (isPath_ne_nil hpath)
    exact hhead

lemma text_of_mem_path {names : List String} {l : Lexeme} (h : l ∈ pathLexemes names) :
    l.2 = "." ∨ l.2 ∈ names := by
  induction names with
  | nil => simp [pathLexemes] at h
  | cons name names ih =>
    cases names with
    | nil =>
      obtain rfl : l = (.identifier, name) := by simpa [pathLexemes] using h
      simp
    | cons next names =>
      have hcases : l = (.identifier, name) ∨ l = (.punctuation, ".") ∨
          l ∈ pathLexemes (next :: names) := by
        simpa [pathLexemes] using h
      rcases hcases with rfl | rfl | hmem
      · simp
      · exact .inl rfl
      · exact (ih hmem).imp_right (List.mem_cons_of_mem _)

/-- No mark apart from the ones between its names is a token of a callee without keywords. -/
lemma IsPlainCallee.free {callee : Callee} (h : IsPlainCallee callee) {mark : String}
    (hname : isPlainName mark = false) (hmark : mark ∉ [":", ".", "->"]) {phrase : Phrase}
    (hphrase : phrase.lexemes = callee.lexemes) : Free mark phrase := by
  have hne : ∀ name : String, isPlainName name → name ≠ mark := by
    rintro name hplain rfl
    simp [hplain] at hname
  simp only [List.mem_cons, not_or] at hmark
  have htexts : ∀ l ∈ callee.lexemes, l.2 ≠ mark := by
    intro l hl
    cases h with
    | @function qualifier name hqualifier hname =>
      cases qualifier with
      | none =>
        obtain rfl : l = (.identifier, name) := by simpa [Callee.lexemes] using hl
        exact hne _ hname
      | some q =>
        have hcases : l = (.identifier, q) ∨ l = (.punctuation, ":") ∨ l = (.identifier, name) := by
          simpa [Callee.lexemes] using hl
        rcases hcases with rfl | rfl | rfl
        · exact hne _ (hqualifier q rfl)
        · exact Ne.symm hmark.1
        · exact hne _ hname
    | @action first method names hnames hmethod =>
      have hcases : l ∈ pathLexemes (first :: names) ∨ l = (.punctuation, "->") ∨
          l = (.identifier, method) := by
        simpa [Callee.lexemes] using hl
      rcases hcases with hpath | rfl | rfl
      · rcases text_of_mem_path hpath with htext | hmem
        · exact htext ▸ Ne.symm hmark.2.1
        · exact hne _ (hnames _ hmem)
      · exact Ne.symm hmark.2.2.1
      · exact hne _ hmethod
  refine (h.spells hphrase).1.matched.free fun t ht his => ?_
  simp only [Token.is, Bool.and_eq_true, beq_iff_eq] at his
  exact absurd his.2 (htexts (t.kind, t.text) (hphrase ▸ List.mem_map_of_mem ht))

/-- What may stand behind the name of a type, and its lexemes. -/
def typeMarks : List (String × List Lexeme) :=
  [("", []), ("[]", [(.punctuation, "["), (.punctuation, "]")]), ("?", [(.punctuation, "?")])]

/-- The name of a type, qualified or not, alone, of an array or of an optional value. -/
def IsPlainType (text : String) : Prop :=
  ∃ qualifier name, ∃ marks ∈ typeMarks, (∀ q ∈ qualifier, isPlainName q) ∧ isPlainName name ∧
    text = Write.functionText name qualifier ++ marks.1

lemma legible_type {qualifier : Option String} {name : String} {marks : String × List Lexeme}
    (hqualifier : ∀ q ∈ qualifier, isPlainName q) (hname : isPlainName name)
    (hmarks : marks ∈ typeMarks) :
    Legible (Write.functionText name qualifier ++ marks.1).toList
      ((Callee.function qualifier name).lexemes ++ marks.2) := by
  have hbase := Write.legible_function (fun q hq => isName_of_isPlainName (hqualifier q hq))
    (isName_of_isPlainName hname)
  have hbefore : ∀ {c : Char} {cs : List Char} {ms : List Lexeme}, isBreak c →
      Legible (c :: cs) ms → Legible ((Write.functionText name qualifier).toList ++ c :: cs)
        ((Callee.function qualifier name).lexemes ++ ms) := fun hc hms =>
    Legible.append hbase.trimmed (fun rest _ => hbase.run _ (safe_cons hc _)) hms
  have hclose : Legible [']'] [(.punctuation, "]")] :=
    ⟨fun rest _ => Run.token (starts_of_split (by decide) (by decide) (by decide) rfl),
      ⟨']', rfl, by decide⟩, ⟨']', rfl, by decide⟩⟩
  have harray : Legible ['[', ']'] [(.punctuation, "["), (.punctuation, "]")] :=
    @Legible.append ['['] [']'] [(.punctuation, "[")] _
      ⟨⟨'[', rfl, by decide⟩, ⟨'[', rfl, by decide⟩⟩
      (fun rest _ => Run.token (starts_of_split (by decide) (by decide) (by decide) rfl)) hclose
  have hoptional : Legible ['?'] [(.punctuation, "?")] := by
    have hstart : Starts .punctuation ['?'] [' '] :=
      starts_of_split (by decide) (by decide) (by decide) rfl
    exact ⟨fun rest hrest => Run.token (hstart.tame (hrest.tame [' '])), ⟨'?', rfl, by decide⟩,
      ⟨'?', rfl, by decide⟩⟩
  simp only [typeMarks, List.mem_cons, List.not_mem_nil, or_false] at hmarks
  rcases hmarks with rfl | rfl | rfl
  · simpa using hbase
  · simpa using hbefore (by decide) harray
  · simpa using hbefore (by decide) hoptional

lemma getLast?_of_function {qualifier : Option String} {name : String} (hname : isPlainName name)
    {base : Phrase} (hbase : base.lexemes = (Callee.function qualifier name).lexemes) :
    ∃ init t, base = init ++ [t] ∧ IsPlain t := by
  obtain ⟨front, hfront⟩ : ∃ front : List Lexeme,
      (Callee.function qualifier name).lexemes = front ++ [(.identifier, name)] := by
    cases qualifier with
    | none => exact ⟨[], rfl⟩
    | some q => exact ⟨[(.identifier, q), (.punctuation, ":")], rfl⟩
  obtain ⟨init, lasts, rfl, -, hlasts⟩ := Phrase.lexemes_eq_append (hbase.trans hfront)
  obtain ⟨t, none, rfl, ht, hnone⟩ := Phrase.lexemes_eq_cons hlasts
  obtain rfl : none = [] := List.map_eq_nil_iff.mp hnone
  exact ⟨init, t, rfl, isPlain_of_lexeme hname ht⟩

/-- The marks behind the name of a type are free of others, and end the type. -/
lemma ends_of_typeMarks {marks : String × List Lexeme} (h : marks ∈ typeMarks) {ends : Phrase}
    (hends : ends.lexemes = marks.2) :
    (∀ mark ∈ ["=", ";"], Free mark ends) ∧ ∀ t ∈ ends.getLast?, endsType t := by
  simp only [typeMarks, List.mem_cons, List.not_mem_nil, or_false] at h
  rcases h with rfl | rfl | rfl
  · obtain rfl : ends = [] := List.map_eq_nil_iff.mp hends
    exact ⟨fun mark _ => .nil mark, by simp⟩
  · obtain ⟨left, rest, rfl, hleft, hrest⟩ := Phrase.lexemes_eq_cons hends
    obtain ⟨right, none, rfl, hright, hnone⟩ := Phrase.lexemes_eq_cons hrest
    obtain rfl : none = [] := List.map_eq_nil_iff.mp hnone
    refine ⟨fun mark hmark => ?_, by simp [endsType, Prod.mk.inj hright]⟩
    refine @free_group mark left right [] ?_ ?_ .nil ?_
    · simp [Token.isOpener, Prod.mk.inj hleft]
    · rcases List.mem_pair.mp hmark with rfl | rfl <;> simp [Token.is, Prod.mk.inj hleft]
    · simp [Token.isCloser, Prod.mk.inj hright]
  · obtain ⟨t, none, rfl, ht, hnone⟩ := Phrase.lexemes_eq_cons hends
    obtain rfl : none = [] := List.map_eq_nil_iff.mp hnone
    refine ⟨fun mark hmark => ?_, by simp [endsType, Prod.mk.inj ht]⟩
    have hmatched : Matched [t] :=
      @matched_mark t "?" (by simp [Token.is, Prod.mk.inj ht]) (by decide)
    refine free_singleton hmatched ?_
    rcases List.mem_pair.mp hmark with rfl | rfl <;> simp [Token.is, Prod.mk.inj ht]

/-- The name of a type declares a variable. -/
lemma declares_of_type {qualifier : Option String} {name : String} {marks : String × List Lexeme}
    (hqualifier : ∀ q ∈ qualifier, isPlainName q) (hname : isPlainName name)
    (hmarks : marks ∈ typeMarks) {type : Phrase} {bound : Token}
    (htype : type.lexemes = (Callee.function qualifier name).lexemes ++ marks.2)
    (hbound : IsPlain bound) (final : Bool) : Analysis.LeftSide final type bound := by
  obtain ⟨base, ends, rfl, hbase, hends⟩ := Phrase.lexemes_eq_append htype
  have hcallee : IsPlainCallee (.function qualifier name) := .function hqualifier hname
  obtain ⟨hspells, hhead⟩ := hcallee.spells hbase
  obtain ⟨hfree, hlast⟩ := ends_of_typeMarks hmarks hends
  have hnames : ∀ mark ∈ ["=", ";"], isPlainName mark = false ∧ mark ∉ [":", ".", "->"] := by decide
  have hfirst : ∀ t ∈ (base ++ ends).head?, IsPlain t := by
    intro t ht
    obtain ⟨first, rest, rfl⟩ := List.exists_cons_of_ne_nil hspells.ne_nil
    exact hhead t ht
  refine ⟨hbound.isIdentifier, by simp [hspells.ne_nil], fun mark hmark => ?_,
    fun _ => ⟨?_, fun t ht => (hfirst t ht).leads⟩⟩
  · obtain ⟨hmarkName, hbetween⟩ := hnames mark hmark
    refine ((hcallee.free hmarkName hbetween hbase).append (hfree mark hmark)).append ?_
    exact free_singleton (matched_identifier hbound.isIdentifier) (hbound.not_is hmarkName)
  · have hends' : (base ++ ends).getLast?.any endsType := by
      rcases List.eq_nil_or_concat' ends with rfl | ⟨init, t, rfl⟩
      · obtain ⟨init, t, rfl, hplain⟩ := getLast?_of_function hname hbase
        simpa using hplain.endsType
      · simpa [← List.append_assoc] using hlast t (by simp)
    have hstart : (base ++ ends).head?.any (·.isWord expressionWords) = false := by
      rw [Option.any_eq_false]
      exact fun t ht => by simp [(hfirst t ht).not_isWord (show ∀ word ∈ expressionWords,
        word ∈ reservedWords by decide)]
    rw [looksDeclared_append hbound.isIdentifier, hends', hstart]
    rfl

end Parser

end FlowCanvas
