import FlowCanvas.Proofs.Exchanging
import FlowCanvas.Proofs.Seams
import FlowCanvas.Proofs.CallWriting

/-!
# Edits at one statement

The edit of a node goes to the place of its statement: a new node in front of it, another one in
its place. A text of statements put there is read as these statements, and the rest of the document
stays what it is.
-/

namespace FlowCanvas

namespace Lexer

lemma Gap.head_ne_bar {gap : List Char} (h : Gap false gap) : gap.head? ≠ some '|' := by
  cases h with
  | nil => simp
  | @blank c cs hblank _ =>
    intro hc
    obtain rfl : c = '|' := by simpa using hc
    exact absurd hblank (by decide)
  | hash => simp
  | slashes => simp

/-- Every token starts in front of the end of its text. -/
lemma Scanned.starts_before {here : Place} {xs rest : List Char} {ts : Phrase}
    (h : Scanned here xs ts rest) {t : Token} (ht : t ∈ ts) :
    t.span.start.byte < (here.advance xs).byte := by
  obtain ⟨us, vs, rfl⟩ := List.append_of_mem ht
  obtain ⟨ys, zs, rfl, -, hzs⟩ := h.split
  obtain ⟨-, hstart, -, hstarts⟩ := hzs.head
  obtain ⟨-, c, cs, htext, -⟩ := hstarts
  have hchars := hzs.chars
  rw [Phrase.tail_cons] at hchars
  have hbytes := c.utf8Size_pos
  rw [hstart, hchars]
  simp only [Place.byte_advance, String.toList_append, htext, byteLength_append, byteLength_cons]
  omega

/-- A text whose last byte ends its last token is its tokens, with no layout behind them. -/
lemma scanned_of_last {text : String} {ts : Phrase} {t : Token} (h : tokenize text = .ok ts)
    (ht : t ∈ ts.getLast?) (hbyte : t.span.stop.byte = byteLength text.toList) :
    Scanned .origin text.toList ts [] := by
  obtain ⟨cs, last, htext, hscanned, -⟩ := scanned_of_tokenize h
  obtain ⟨init, rfl⟩ := List.getLast?_eq_some_iff.mp ht
  have hlast : byteLength last = 0 := by
    rw [hscanned.stop, Place.byte_advance, htext, byteLength_append] at hbyte
    simp only [Place.origin] at hbyte
    omega
  obtain rfl : last = [] := by
    cases last with
    | nil => rfl
    | cons c last =>
      have hpos := c.utf8Size_pos
      rw [byteLength_cons] at hlast
      omega
  rw [htext, List.append_nil]
  exact hscanned

end Lexer

namespace Document

/-- The first token of a document that starts at a byte or behind it. -/
def tokenFrom? (d : Document) (byte : Nat) : Option Token :=
  match Lexer.tokenize d.text with
  | .ok ts => ts.find? fun t => byte ≤ t.span.start.byte
  | .error _ => none

end Document

namespace Parser

open Brackets Construct Lexer

/-! ### Where statements end -/

lemma skipStatement_closes {depth : Nat} {ts rest : Phrase} {last : Token}
    (h : skipStatement depth ts = .ok (last, rest)) : last.is ";" ∨ last.is "\x7d" := by
  fun_induction skipStatement depth ts with
  | case1 depth => simp at h
  | case2 depth t ts hopen ih => exact ih h
  | case3 t ts hopen hclose => simp at h
  | case4 t ts hopen hclose depth hend =>
    obtain ⟨rfl, rfl⟩ := h
    simp only [Bool.and_eq_true, beq_iff_eq, Bool.not_eq_true'] at hend
    exact .inr hend.1.2
  | case5 t ts hopen hclose depth hend ih => exact ih h
  | case6 depth t ts hopen hclose hend =>
    obtain ⟨rfl, rfl⟩ := h
    simp only [Bool.and_eq_true, beq_iff_eq] at hend
    exact .inl hend.2
  | case7 depth t ts hopen hclose hend ih => exact ih h

lemma SpellsBlock.closes {b : Block} {ts : Phrase} (h : SpellsBlock b ts) : Closes ts := by
  cases h with
  | @mk brace close list ts _ hclose => exact closes_concat (.inr hclose) (brace :: ts)

lemma SpellsBlock.ne_nil {b : Block} {ts : Phrase} (h : SpellsBlock b ts) : ts ≠ [] := by
  cases h
  simp

lemma SpellsConditional.closes {c : Conditional} {word : Token} {ts rest : Phrase}
    (h : SpellsConditional c word ts rest) : Closes ts ∧ ts ≠ [] := by
  match h with
  | .absent _ hbody _ => exact ⟨closes_append hbody.closes hbody.ne_nil _, by simp [hbody.ne_nil]⟩
  | @SpellsConditional.block _ other value _ _ used us _ _ _ _ hlast =>
    have hcloses := closes_append hlast.closes hlast.ne_nil (value.tokens ++ (used ++ [other]))
    exact ⟨by simpa using hcloses, by simp⟩
  | @SpellsConditional.chained _ other word' value _ _ used us _ _ _ _ _ hnext =>
    have hcloses := closes_append hnext.closes.1 hnext.closes.2
      (value.tokens ++ (used ++ [other, word']))
    exact ⟨by simpa using hcloses, by simp⟩

lemma SpellsLeaf.closes {s : Statement} {ts rest : Phrase} (h : SpellsLeaf s ts rest) :
    Closes ts := by
  have hskipped {last : Token} {ts : Phrase} (hskip : skipStatement 0 ts = .ok (last, [])) :
      Closes ts := by
    obtain ⟨used, hused, hlast, -, -⟩ := skipStatement_spec hskip
    rw [List.append_nil] at hused
    subst hused
    intro t ht
    obtain rfl : last = t := by simpa [hlast] using ht
    exact skipStatement_closes hskip
  cases h with
  | declaration _ _ _ hsemicolon => exact closes_concat (.inl hsemicolon) _
  | @marked _ _ semicolon annotated finals body _ _ _ _ _ _ _ _ _ _ hsemicolon =>
    have hcloses := closes_concat (.inl hsemicolon) (annotated ++ (finals ++ body))
    simpa using hcloses
  | assignment _ _ _ hsemicolon => exact closes_concat (.inl hsemicolon) _
  | expression _ _ hsemicolon => exact closes_concat (.inl hsemicolon) _
  | @exit _ word _ value _ _ _ hsemicolon =>
    exact closes_concat (.inl hsemicolon) (word :: operand value)
  | @jump _ word _ _ _ hsemicolon => exact closes_concat (.inl hsemicolon) [word]
  | unsupported _ hskip => exact hskipped hskip
  | braces _ hskip => exact hskipped hskip

/-- A statement ends with a semicolon or a closing brace. -/
lemma Spells.closes {s : Statement} {ts rest : Phrase} (h : Spells s ts rest) : Closes ts := by
  cases h with
  | leaf h => exact h.closes
  | @conditional word _ _ _ _ h => exact closes_append h.closes.1 h.closes.2 [word]
  | @loop word value _ _ _ _ _ hbody =>
    exact closes_append hbody.closes hbody.ne_nil (word :: value.tokens)

lemma SpellsAll.closes {list : List Statement} {ts rest : Phrase} (h : SpellsAll list ts rest) :
    Closes ts := by
  match h with
  | .nil => simp [Closes]
  | @SpellsAll.cons _ _ ts us _ _ hs hlist =>
    cases us with
    | nil => simpa using hs.closes
    | cons u us => exact closes_append hlist.closes (by simp) ts

/-! ### Statements one after the other -/

lemma SpellsAll.append {list list' : List Statement} {ts us rest : Phrase}
    (h : SpellsAll list ts (us ++ rest)) (h' : SpellsAll list' us rest) :
    SpellsAll (list ++ list') (ts ++ us) rest := by
  match h with
  | .nil => exact h'
  | @SpellsAll.cons s list ts vs _ hfirst hs hlist =>
    rw [List.append_assoc, List.cons_append]
    exact .cons hfirst (by simpa using hs) (hlist.append h')

/-- Statements divide at each of them. -/
lemma SpellsAll.split {front back : List Statement} {s : Statement} {ts rest : Phrase}
    (h : SpellsAll (front ++ s :: back) ts rest) :
    ∃ before used after, ts = before ++ (used ++ after) ∧
      SpellsAll front before (used ++ after ++ rest) ∧ sees "\x7d" used = false ∧
      Spells s used (after ++ rest) ∧ SpellsAll back after rest := by
  induction front generalizing ts with
  | nil =>
    cases h with
    | @cons _ _ ts us _ hfirst hs hlist => exact ⟨[], ts, us, rfl, .nil, hfirst, hs, hlist⟩
  | cons first front ih =>
    cases h with
    | @cons _ _ ts us _ hfirst hs hlist =>
      obtain ⟨before, used, after, rfl, hfront, hused, hspells, hback⟩ := ih hlist
      exact ⟨ts ++ before, used, after, by simp, .cons hfirst (by simpa using hs) hfront, hused,
        hspells, hback⟩

/-! ### A text of statements -/

/-- The statements of a text that stands alone in the body of a function. -/
def statementsOf? (text : String) : Option (List Statement) :=
  match parse ("function f() \x7b\n" ++ text ++ "\n\x7d") with
  | .ok ⟨[], [.function f], _⟩ => some f.body.statements
  | _ => none

/-- Parts without an import and a member are stray semicolons. -/
lemma SpellsParts.strays {ts rest : Phrase} (h : SpellsParts [] [] ts rest) :
    ∀ t ∈ ts, t.is ";" := by
  generalize himports : ([] : List Import) = imports at h
  generalize hmembers : ([] : List Member) = members at h
  induction h with
  | nil => simp
  | importing => simp at himports
  | stray hsemicolon _ ih => exact List.forall_mem_cons.mpr ⟨hsemicolon, ih himports hmembers⟩
  | member => simp at hmembers

/-- The tokens in front of the text. -/
def header : List Lexeme :=
  [(.identifier, "function"), (.identifier, "f"), (.punctuation, "("), (.punctuation, ")"),
    (.punctuation, "\x7b")]

lemma run_header (rest : List Char) :
    Run "function f() \x7b".toList header ('\n' :: rest) := by
  have hblank : Gap false [' '] := .blank rfl .nil
  have hword : Run "function".toList [(.identifier, "function")]
      (" f() \x7b".toList ++ '\n' :: rest) :=
    Run.token (starts_of_split (by decide) (by decide) (by decide) rfl)
  have hname : Run "f".toList [(.identifier, "f")] ("() \x7b".toList ++ '\n' :: rest) :=
    Run.token (starts_of_split (by decide) (by decide) (by decide) rfl)
  exact hword.append ((hname.gap hblank).append ((run_openParen _).append
    ((run_closeParen _).append ((run_openBrace rest).gap hblank))))

lemma lexemes_eq_cons {ts : Phrase} {kind : TokenKind} {text : String} {ls : List Lexeme}
    (h : ts.lexemes = (kind, text) :: ls) :
    ∃ gap span, ∃ us : Phrase, ts = ⟨kind, text, gap, span⟩ :: us ∧ us.lexemes = ls := by
  obtain ⟨⟨kind', text', gap, span⟩, us, rfl, hfirst, hus⟩ := List.map_eq_cons_iff.mp h
  obtain ⟨rfl, rfl⟩ := hfirst
  exact ⟨gap, span, us, rfl, hus⟩

/-- Behind these tokens the body of a function is read. -/
lemma member_header {word : Token} {front ts rest : Phrase} {m : Member}
    (hfront : Phrase.lexemes (word :: front) = header)
    (h : member word (front ++ ts) = .ok (m, rest)) :
    ∃ f brace, m = .function f ∧ block (brace :: ts) = .ok (f.body, rest) := by
  obtain ⟨gap₁, span₁, us₁, heq, h₁⟩ := lexemes_eq_cons hfront
  obtain ⟨rfl, rfl⟩ := List.cons.inj heq
  obtain ⟨gap₂, span₂, us₂, rfl, h₂⟩ := lexemes_eq_cons h₁
  obtain ⟨gap₃, span₃, us₃, rfl, h₃⟩ := lexemes_eq_cons h₂
  obtain ⟨gap₄, span₄, us₄, rfl, h₄⟩ := lexemes_eq_cons h₃
  obtain ⟨gap₅, span₅, us₅, rfl, h₅⟩ := lexemes_eq_cons h₄
  obtain rfl : us₅ = [] := List.map_eq_nil_iff.mp h₅
  obtain ⟨⟨names, after⟩, ⟨rfl, rfl⟩, hread⟩ := bind_eq_ok_iff.mp h
  obtain ⟨⟨f, left⟩, hf, ⟨rfl, rfl⟩⟩ := bind_eq_ok_iff.mp hread
  obtain ⟨⟨name, after⟩, ⟨rfl, rfl⟩, hread⟩ := bind_eq_ok_iff.mp hf
  obtain ⟨⟨list, after⟩, ⟨rfl, rfl⟩, hread⟩ := bind_eq_ok_iff.mp hread
  obtain ⟨⟨type, after⟩, ⟨rfl, rfl⟩, hread⟩ := bind_eq_ok_iff.mp hread
  obtain ⟨⟨body, after⟩, hbody, ⟨rfl, rfl⟩⟩ := bind_eq_ok_iff.mp hread
  exact ⟨_, _, rfl, hbody⟩

/-- The body of a function that is all of a module. -/
lemma spellsAll_of_parts {front us : Phrase} {close : Token} {f : FunctionDefinition}
    (hfront : front.lexemes = header) (hclose : close.is "\x7d")
    (h : SpellsParts [] [.function f] (front ++ (us ++ [close])) []) :
    SpellsAll f.body.statements us [close] := by
  obtain ⟨imports₁, imports₂, before, start, used, after, heq, himports, hbefore, -, -, hmember,
    hafter⟩ := @SpellsParts.split [] [] [] _ _ _ h
  obtain ⟨rfl, rfl⟩ := List.append_eq_nil_iff.mp himports.symm
  obtain ⟨gap, span, front', rfl, hfront'⟩ := lexemes_eq_cons hfront
  -- The function starts with the first token and ends with the last: neither is a semicolon.
  obtain rfl : before = [] := by
    cases before with
    | nil => rfl
    | cons t before =>
      obtain ⟨rfl, -⟩ := List.cons.inj heq
      exact absurd (hbefore.strays _ List.mem_cons_self) (by simp [Token.is])
  obtain ⟨rfl, hused⟩ := List.cons.inj heq
  have hused' : used ++ (after ++ []) = front' ++ (us ++ [close]) := by
    rw [List.append_nil]
    exact hused.symm
  rw [hused'] at hmember
  obtain ⟨f', brace, hf, hblock⟩ := member_header hfront hmember
  obtain rfl := Member.function.inj hf
  obtain ⟨body, hbody, hspells⟩ := readsBlocks_block hblock
  obtain rfl : after = [] := by
    rcases List.eq_nil_or_concat' after with rfl | ⟨init, last, rfl⟩
    · rfl
    · have hlast := congrArg List.getLast? hbody
      rw [List.append_nil, ← List.append_assoc, List.getLast?_concat, ← List.cons_append,
        List.getLast?_concat] at hlast
      obtain rfl := Option.some.inj hlast
      exact absurd (is_inj hclose (hafter.strays _ (by simp))) (by decide)
  rw [List.append_nil, List.append_nil] at hbody
  generalize f.body = b at hspells
  cases hspells with
  | @mk brace' close' list ts hbrace' hclose' hlist =>
    obtain ⟨rfl, hts⟩ := List.cons.inj hbody
    obtain ⟨rfl, hlast⟩ := List.append_inj' hts rfl
    obtain rfl := List.singleton_inj.mp hlast
    exact hlist

/-- The statements of a text are spelled by its tokens. -/
lemma spells_of_statementsOf {text : String} {ts : Phrase} {list : List Statement}
    (hne : ts ≠ []) (hts : Scanned .origin text.toList ts [])
    (h : statementsOf? text = some list) :
    ∃ us close, ts.Copy us ∧ close.is "\x7d" ∧ SpellsAll list us [close] := by
  have hline : Gap false ['\n'] := .blank rfl .nil
  have hsafe : Safe ['\n', '\x7d'] := safe_cons (by decide) _
  obtain ⟨front, hfront, hlexemes⟩ :=
    (run_header (text.toList ++ ['\n', '\x7d'])).scanned .origin
  obtain ⟨us, hus, hcopy⟩ := (hts.tame (hsafe.tame [])).padded hline hne
    (Place.origin.advance "function f() \x7b".toList)
  obtain ⟨back, hback, hlexeme⟩ := ((run_closeBrace []).gap hline).scanned
    ((Place.origin.advance "function f() \x7b".toList).advance ('\n' :: text.toList))
  have hscanned := Scanned.append (by simpa using hfront) (hus.append hback)
  obtain ⟨gap, span, back', rfl, hnil⟩ := lexemes_eq_cons hlexeme
  obtain rfl : back' = [] := List.map_eq_nil_iff.mp hnil
  unfold statementsOf? at h
  split at h
  · rename_i f span hparse
    obtain rfl := Option.some.inj h
    obtain ⟨ts', hts', hparts, -⟩ := parse_eq_ok_iff.mp hparse
    rw [tokenize_of_scanned (by simp) hscanned rfl] at hts'
    obtain rfl := Except.ok.inj hts'
    exact ⟨us, _, hcopy, rfl, spellsAll_of_parts hlexemes rfl hparts⟩
  · simp at h

/-- No statement goes on with the phrase. -/
def Quiet (ts : Phrase) : Prop := ∀ word ∈ ["else", "on"], sees word ts = false

lemma Quiet.quieter {ts : Phrase} (h : Quiet ts) (rest : Phrase) : Quieter rest ts :=
  fun word hword _ => h word hword

lemma quiet_cons {t : Token} (h : t.is "else" = false ∧ t.is "on" = false) (ts : Phrase) :
    Quiet (t :: ts) := by
  intro word hword
  simp only [List.mem_cons, List.not_mem_nil, or_false] at hword
  rcases hword with rfl | rfl
  · exact h.1
  · exact h.2

/-- Only the first token of a phrase could go on with a statement. -/
lemma Quiet.front {ts us : Phrase} {t : Token} (h : Quiet (ts ++ t :: us)) :
    Quiet (ts ++ [t]) := by
  cases ts with
  | nil => exact h
  | cons => exact h

/-- A text of statements that can be put into any block. Alone in the body of a function it is read
as these statements, its last byte ends its last token, and its first token could not belong to what
stands in front of it. -/
structure Insertable (text : String) (ts : Phrase) (list : List Statement) : Prop where
  tokens : tokenize text = .ok ts
  alone : statementsOf? text = some list
  last : ∃ t ∈ ts.getLast?, t.span.stop.byte = byteLength text.toList
  bar : ∀ t ∈ ts.head?, t.text.toList.head? ≠ some '|'
  first : ∀ t ∈ ts.head?, t.is "else" = false ∧ t.is "on" = false

namespace Insertable

variable {text : String} {ts : Phrase} {list : List Statement}

lemma ne_nil (h : Insertable text ts list) : ts ≠ [] := by
  rintro rfl
  obtain ⟨t, ht, -⟩ := h.last
  simp at ht

/-- The text is its tokens. -/
lemma scanned (h : Insertable text ts list) : Scanned .origin text.toList ts [] := by
  obtain ⟨t, ht, hbyte⟩ := h.last
  exact scanned_of_last h.tokens ht hbyte

/-- No bar stands at the front of the text, nor of layout in front of it. -/
lemma head_ne_bar (h : Insertable text ts list) {gap : List Char} (hgap : Gap false gap)
    (rest : List Char) : (gap ++ text.toList ++ rest).head? ≠ some '|' := by
  have hscanned := h.scanned
  obtain ⟨t, us, rfl⟩ := List.exists_cons_of_ne_nil h.ne_nil
  have hbar := h.bar t rfl
  obtain ⟨hlayout, -, -, -, c, cs, htext, -⟩ := hscanned.head
  have hchars := hscanned.chars
  rw [Phrase.tail_cons, String.toList_append, String.toList_append, htext] at hchars
  have hfront := (hgap.append hlayout).head_ne_bar
  rw [hchars]
  rw [htext] at hbar
  generalize hg : gap ++ t.gap.toList = front at hfront
  cases front with
  | nil =>
    obtain ⟨rfl, hnil⟩ := List.append_eq_nil_iff.mp hg
    simpa [hnil] using hbar
  | cons d front =>
    rw [← List.append_assoc, ← List.append_assoc, hg]
    exact hfront

lemma quiet (h : Insertable text ts list) {us : Phrase} (hcopy : ts.Copy us) (rest : Phrase) :
    Quiet (us ++ rest) := by
  have hfirst := h.first
  obtain ⟨t, ts, rfl⟩ := List.exists_cons_of_ne_nil h.ne_nil
  obtain ⟨u, us, rfl, hsame, -⟩ := hcopy.cons_left
  have hwords := hfirst t rfl
  rw [hsame.is, hsame.is] at hwords
  exact quiet_cons hwords _

/-- The statements put into a block between others. -/
lemma spells (h : Insertable text ts list) {us before after after' left : Phrase}
    {close close' : Token} {front back : List Statement} (hcopy : ts.Copy us)
    (hfront : SpellsAll front before left) (hback : SpellsAll back after [close])
    (hquiet : Quiet (after ++ [close])) (hafter : after.Copy after')
    (hclose : Token.Same close close') :
    ∃ read, SpellsAll read (before ++ (us ++ after')) [close'] ∧
      read.map Statement.unplaced = (front ++ (list ++ back)).map Statement.unplaced := by
  obtain ⟨vs, last, hvs, -, hlist⟩ := spells_of_statementsOf h.ne_nil h.scanned h.alone
  have hlast : Quieter [close] [close'] := Quieter.copy (quieter_nil []) (.singleton hclose)
  have hquiet' : Quiet (after' ++ [close']) := fun word hword =>
    (hlast.copy hafter) word hword (hquiet word hword)
  obtain ⟨back', hback', hbacks⟩ := hback.copy hafter hlast
  obtain ⟨list', hlist', hlists⟩ := hlist.copy (hvs.symm.trans hcopy) (hquiet'.quieter [last])
  have hfront' := hfront.quieter ((h.quiet hcopy (after' ++ [close'])).quieter left)
  refine ⟨front ++ (list' ++ back'), ?_, ?_⟩
  · exact SpellsAll.append (by simpa using hfront') (hlist'.append hback')
  · simp [hlists, hbacks]

/-- The text put into the text of a block: the block is read with the statements in it, and all
around it is copied. -/
lemma put (h : Insertable text ts list) {xs gap zs left last : List Char} {there : Place}
    {before inner outer after vs left' : Phrase} {brace close : Token}
    {front back : List Statement} (hbrace : brace.is "\x7b") (hclose : close.is "\x7d")
    (hfront : SpellsAll front inner left')
    (hback : SpellsAll back outer [close]) (hquiet : Quiet (outer ++ [close]))
    (hbefore : Scanned .origin xs (before ++ brace :: inner) left) (hgap : Gap false gap)
    (hafter : Scanned there zs vs last) (hvs : (outer ++ close :: after).Copy vs) (span : Span) :
    ∃ used read after', Scanned .origin (xs ++ (gap ++ text.toList ++ zs))
        (before ++ (brace :: used ++ after')) last ∧ after.Copy after' ∧
      SpellsBlock read (brace :: used) ∧
      read.unplaced = (Block.mk (front ++ (list ++ back)) span).unplaced := by
  have hends : Ends (before ++ brace :: inner) (gap ++ text.toList ++ zs ++ last) := by
    rcases List.eq_nil_or_concat' inner with rfl | ⟨init, t, rfl⟩
    · intro t ht
      obtain rfl : brace = t := by simpa using ht
      refine .inr (.inr ⟨text_of_is hbrace, ?_⟩)
      simpa using h.head_ne_bar hgap (zs ++ last)
    · have hcloses := closes_append hfront.closes (by simp) (before ++ [brace])
      simpa using hcloses.ends _
  have hcloses : Closes ts := by
    obtain ⟨vs, last, hvs, -, hlist⟩ := spells_of_statementsOf h.ne_nil h.scanned h.alone
    exact hlist.closes.copy hvs.symm
  obtain ⟨us, vs', hscanned, hus, hvs'⟩ := hbefore.splice hends hgap h.scanned h.ne_nil
    (hcloses.ends _) hafter
  obtain ⟨outer', ws, rfl, houter, hws⟩ := (hvs.trans hvs').append_left
  obtain ⟨close', after', rfl, hsame, hafter'⟩ := hws.cons_left
  obtain ⟨read, hread, hunplaced⟩ := h.spells hus hfront hback hquiet houter hsame
  refine ⟨inner ++ (us ++ outer') ++ [close'], _, after', by simpa using hscanned, hafter',
    .mk hbrace (hsame.is "\x7d" ▸ hclose) hread, ?_⟩
  rw [Block.unplaced_mk, hunplaced, Block.unplaced_mk]

end Insertable

end Parser

namespace Document

open Lexer FlowCanvas.Parser Construct

lemma parse_eq_ok_iff {path : Path} {text : String} {d : Document} :
    parse path text = .ok d ↔ ∃ tree, Parser.parse text = .ok tree ∧ d = ⟨path, text, tree⟩ := by
  unfold parse
  cases Parser.parse text with
  | error e => simp [Except.map]
  | ok tree => simp [Except.map, eq_comm]

/-- A text of scanned tokens that spell the parts of a module is read as the module. -/
lemma parse_of_scanned {cs last : List Char} {ts : Phrase} {imports : List Import}
    {members : List Member} (hts : Scanned .origin cs ts last) (hlast : Final last)
    (hparts : SpellsParts imports members ts []) (path : Path) :
    ∃ d, parse path (.ofList (cs ++ last)) = .ok d ∧ d.tree.imports = imports ∧
      d.tree.members = members := by
  have htokens : tokenize (.ofList (cs ++ last)) = .ok ts :=
    tokenize_of_scanned String.toList_ofList hts hlast
  have hparse : Parser.parse (.ofList (cs ++ last)) = .ok ⟨imports, members, _⟩ :=
    Parser.parse_eq_ok_iff.mpr ⟨ts, htokens, hparts, rfl⟩
  exact ⟨_, parse_eq_ok_iff.mpr ⟨_, hparse, rfl⟩, rfl, rfl⟩

/-- What follows a place between two stretches of tokens is what the first token behind the place
starts. -/
lemma quiet_of_tokenFrom {d : Document} {xs ys rest rest' : List Char} {ts us : Phrase}
    {place : Place} (htokens : tokenize d.text = .ok (ts ++ us)) (hts : Scanned .origin xs ts rest)
    (hus : Scanned (Place.origin.advance xs) ys us rest')
    (hplace : ∃ gap, place = (Place.origin.advance xs).advance gap)
    (hfirst : ∀ u ∈ us.head?, place.byte ≤ u.span.start.byte)
    (hnext : ∀ t ∈ d.tokenFrom? place.byte, t.is "else" = false ∧ t.is "on" = false) :
    Quiet us := by
  obtain ⟨gap, rfl⟩ := hplace
  have hnone : ts.find? (fun t =>
      decide (((Place.origin.advance xs).advance gap).byte ≤ t.span.start.byte)) = none := by
    refine List.find?_eq_none.mpr fun t ht hbyte => ?_
    have hstart := hts.starts_before ht
    have hbyte := of_decide_eq_true hbyte
    rw [Place.byte_advance] at hbyte
    omega
  cases us with
  | nil =>
    intro word _
    rfl
  | cons u us =>
    refine quiet_cons (hnext u ?_) us
    simp only [tokenFrom?, htokens, List.find?_append, hnone, Option.none_or]
    simp [hfirst u rfl]

/-- The text of a module divided at the statement `s` of the block `b`. The tokens `inner`, `used`
and `outer` are those of the statements `front`, of `s` and of the statements `back`; `gap` is the
layout in front of `used`, and `xs` and `zs` are the texts of the tokens around it. -/
structure Division (text : String) (m : SourceModule) (b : Block) (front : List Statement)
    (s : Statement) (back : List Statement) where
  (xs gap zs last : List Char)
  (before inner used outer after : Phrase)
  (brace close : Token)
  chars : text.toList = xs ++ gap ++ ((Phrase.text used).toList ++ (zs ++ last))
  tokens : tokenize text = .ok (before ++ brace :: inner ++ (used ++ (outer ++ close :: after)))
  opens : brace.is "\x7b"
  closes : close.is "\x7d"
  spells_front : SpellsAll front inner (used ++ outer ++ [close])
  goes_on : sees "\x7d" used = false
  spells : Spells s used (outer ++ [close])
  spells_back : SpellsAll back outer [close]
  scanned_front : Scanned .origin xs (before ++ brace :: inner)
    (gap ++ (Phrase.text used).toList ++ zs ++ last)
  scanned : Scanned (Place.origin.advance xs) (gap ++ (Phrase.text used).toList) used (zs ++ last)
  scanned_back : Scanned s.span.stop zs (outer ++ close :: after) last
  final : Final last
  layout : Gap false gap
  start : s.span.start = Place.origin.advance (xs ++ gap)
  stop : s.span.stop = Place.origin.advance (xs ++ gap ++ (Phrase.text used).toList)
  again : ∀ ⦃used' after' : Phrase⦄ ⦃read b' : Block⦄, after.Copy after' →
    SpellsBlock read used' → read.unplaced = b'.unplaced →
    Like (brace :: (inner ++ (used ++ outer) ++ [close])) used' →
    ∃ imports members m', SpellsParts imports members (before ++ (used' ++ after')) [] ∧
      Swap b b' (.module m) (.module m') ∧
      imports.map Import.unplaced = m'.imports.map Import.unplaced ∧
      members.map Member.unplaced = m'.members.map Member.unplaced

/-- A text is divided at each statement of its module. -/
lemma exists_division {text : String} {m : SourceModule} {b : Block} {s : Statement}
    {front back : List Statement} (hm : Parser.parse text = .ok m)
    (hb : Inside (.module m) (.block b)) (hs : b.statements = front ++ s :: back) :
    Nonempty (Division text m b front s back) := by
  obtain ⟨tokens, htokens, hparts, -⟩ := Parser.parse_eq_ok_iff.mp hm
  obtain ⟨cs, last, htext, hscanned, hlast⟩ := scanned_of_tokenize htokens
  obtain ⟨before, used, after, rfl, hused, hagain⟩ := hparts.plug hb
  cases hused with
  | @mk brace close statements inner hbrace hclose hlist =>
  obtain rfl : statements = front ++ s :: back := hs
  obtain ⟨fs, us, bs, rfl, hfront, hfirst, hspells, hback⟩ := hlist.split
  have hscanned' : Scanned .origin cs
      (before ++ brace :: fs ++ (us ++ (bs ++ close :: after))) last := by
    simpa using hscanned
  obtain ⟨xs, ws, rfl, hxs, hws⟩ := hscanned'.split
  obtain ⟨ys, zs, rfl, hys, hzs⟩ := hws.split
  obtain ⟨gap, hgap, rfl, hstart, hstop⟩ := hys.covered hspells.covers
  rw [← hstop] at hzs
  rw [← Place.advance_append] at hstart hstop
  exact ⟨{
    xs, gap, zs, last, before, inner := fs, used := us, outer := bs, after, brace, close
    chars := by simpa using htext
    tokens := by simpa using htokens
    opens := hbrace
    closes := hclose
    spells_front := hfront
    goes_on := hfirst
    spells := hspells
    spells_back := hback
    scanned_front := by simpa using hxs
    scanned := hys
    scanned_back := hzs
    final := hlast
    layout := hgap
    start := hstart
    stop := by simpa using hstop
    again := fun _ _ _ _ hafter hread hunplaced hlike =>
      hagain (.refl before) hafter hread hunplaced hlike }⟩

namespace Division

variable {text new : String} {m : SourceModule} {b : Block} {s : Statement}
  {front back others list : List Statement} {ts outer vs : Phrase} {zs : List Char} {there : Place}

/-- Behind the layout in front of the statement a text of statements can be put; other statements
may stand behind it. -/
lemma put (x : Division text m b front s back) (hnew : Insertable new ts list)
    (hothers : SpellsAll others outer [x.close]) (hquiet : Quiet (outer ++ [x.close]))
    (hvs : Scanned there zs vs x.last) (hcopy : (outer ++ x.close :: x.after).Copy vs)
    (path : Path) :
    ∃ d m', parse path (.ofList (x.xs ++ (x.gap ++ new.toList ++ zs) ++ x.last)) = .ok d ∧
      Swap b (.mk (front ++ (list ++ others)) b.span) (.module m) (.module m') ∧
      d.tree.unplaced = m'.unplaced := by
  obtain ⟨used, read, after, hscanned, hafter, hread, hunplaced⟩ :=
    hnew.put x.opens x.closes x.spells_front hothers hquiet x.scanned_front x.layout hvs hcopy
      b.span
  obtain ⟨imports, members, m', hparts, hswap, himports, hmembers⟩ :=
    x.again hafter hread hunplaced (like_cons ⟨rfl, rfl⟩ _ _)
  obtain ⟨d, hd, himports', hmembers'⟩ := parse_of_scanned hscanned x.final hparts path
  refine ⟨d, m', hd, hswap, ?_⟩
  rw [SourceModule.unplaced, SourceModule.unplaced, himports', hmembers', himports, hmembers]

/-- The tokens of the statement and those behind it. -/
lemma scanned_from (x : Division text m b front s back) :
    Scanned (Place.origin.advance x.xs) (x.gap ++ (Phrase.text x.used).toList ++ x.zs)
      (x.used ++ (x.outer ++ x.close :: x.after)) x.last := by
  refine Scanned.append x.scanned ?_
  rw [← Place.advance_append, ← List.append_assoc, ← x.stop]
  exact x.scanned_back

/-- What stands at the statement does not go on with what is put in front of it. -/
lemma quiet_from (x : Division text m b front s back) {path : Path}
    (hnext : ∀ t ∈ tokenFrom? ⟨path, text, m⟩ s.span.start.byte,
      t.is "else" = false ∧ t.is "on" = false) :
    Quiet (x.used ++ x.outer ++ [x.close]) := by
  obtain ⟨first, final, hfirst, -, hspan⟩ := x.spells.covers
  obtain ⟨more, hused⟩ := List.head?_eq_some_iff.mp hfirst
  have hquiet : Quiet (x.used ++ (x.outer ++ x.close :: x.after)) := by
    refine quiet_of_tokenFrom (d := ⟨path, text, m⟩) x.tokens (by simpa using x.scanned_front)
      x.scanned_from ⟨x.gap, by rw [x.start, Place.advance_append]⟩ ?_ hnext
    intro u hu
    obtain rfl : first = u := by simpa [hused] using hu
    rw [hspan]
    exact Nat.le_refl _
  exact (by simpa using hquiet : Quiet (x.used ++ x.outer ++ x.close :: x.after)).front

/-- What stands behind the statement does not go on with what is put in its place. -/
lemma quiet_behind (x : Division text m b front s back) {path : Path}
    (hnext : ∀ t ∈ tokenFrom? ⟨path, text, m⟩ s.span.stop.byte,
      t.is "else" = false ∧ t.is "on" = false) :
    Quiet (x.outer ++ [x.close]) := by
  have hscanned := Scanned.append (by simpa using x.scanned_front) x.scanned
  have hback := x.scanned_back
  rw [x.stop, List.append_assoc] at hback
  refine Quiet.front (quiet_of_tokenFrom (d := ⟨path, text, m⟩) (by simpa using x.tokens) hscanned
    hback ⟨[], by simpa using x.stop⟩ ?_ hnext)
  intro u hu
  obtain ⟨others, hothers⟩ := List.head?_eq_some_iff.mp hu
  have hhead := x.scanned_back
  rw [hothers] at hhead
  rw [hhead.head.2.1, Place.byte_advance]
  exact Nat.le_add_right _ _

/-- Statements in the place of the statement. -/
lemma replace (x : Division text m b front s back) (hnew : Insertable new ts list)
    (hquiet : Quiet (x.outer ++ [x.close])) (path : Path) :
    ∃ text' d m', TextEdit.apply ⟨s.span.start.position, s.span.stop.position, new⟩ text =
        some text' ∧ parse path text' = .ok d ∧
      Swap b (.mk (front ++ (list ++ back)) b.span) (.module m) (.module m') ∧
      d.tree.unplaced = m'.unplaced := by
  obtain ⟨d, m', hd, hswap, hunplaced⟩ :=
    x.put hnew x.spells_back hquiet x.scanned_back (.refl _) path
  refine ⟨_, d, m', ?_, hd, hswap, hunplaced⟩
  rw [x.start, x.stop, TextEdit.apply_eq x.chars]
  simp

/-- Statements in front of the statement. -/
lemma insert (x : Division text m b front s back) (hnew : Insertable new ts list)
    (hquiet : Quiet (x.used ++ x.outer ++ [x.close])) (path : Path) :
    ∃ text' d m', TextEdit.apply ⟨s.span.start.position, s.span.start.position, new⟩ text =
        some text' ∧ parse path text' = .ok d ∧
      Swap b (.mk (front ++ (list ++ s :: back)) b.span) (.module m) (.module m') ∧
      d.tree.unplaced = m'.unplaced := by
  obtain ⟨first, -, hfirst, -, -⟩ := x.spells.covers
  obtain ⟨more, hused⟩ := List.head?_eq_some_iff.mp hfirst
  have hne : x.used ≠ [] := by simp [hused]
  obtain ⟨vs, hvs, hcopy⟩ := x.scanned_from.copy (Tame.refl x.last) Gap.nil (by simp) .origin
  obtain ⟨d, m', hd, hswap, hunplaced⟩ :=
    x.put hnew (.cons x.goes_on x.spells x.spells_back) hquiet hvs (by simpa using hcopy) path
  refine ⟨_, d, m', ?_, hd, hswap, hunplaced⟩
  have happly := @TextEdit.apply_eq text (x.xs ++ x.gap) [] _ x.chars new
  rw [List.append_nil, ← x.start] at happly
  rw [happly, Phrase.text_append hne, String.toList_append, ← x.scanned_back.chars]
  simp

end Division

/-- An edit at a statement changes the list of statements that it stands in, and nothing else: the
statement is replaced by those of the new text, or, when the node is new, they are put in front of
it. -/
theorem edit_at_statement {path : Path} {text new : String} {d : Document} {b : Block}
    {s : Statement} {front back list : List Statement} {ts : Phrase} {codedata : Codedata}
    {target : Target} {name : String} (hd : parse path text = .ok d)
    (hb : Inside (.module d.tree) (.block b)) (hs : b.statements = front ++ s :: back)
    (hnew : Insertable new ts list)
    (hrange : codedata.lineRange.filter (TextEdit.inTarget target) =
      some ⟨name, s.span.start.position, s.span.stop.position⟩)
    (hnext : ∀ t ∈ d.tokenFrom? (if codedata.isNew then s.span.start else s.span.stop).byte,
      t.is "else" = false ∧ t.is "on" = false) :
    ∃ text' d' tree, (TextEdit.ofNode codedata target new).apply text = some text' ∧
      parse path text' = .ok d' ∧
      Swap b (.mk (front ++ (list ++ if codedata.isNew then s :: back else back)) b.span)
        (.module d.tree) (.module tree) ∧
      d'.tree.unplaced = tree.unplaced := by
  obtain ⟨tree, htree, rfl⟩ := parse_eq_ok_iff.mp hd
  obtain ⟨x⟩ := exists_division htree hb hs
  cases hisNew : codedata.isNew with
  | true =>
    have hedit : TextEdit.ofNode codedata target new =
        ⟨s.span.start.position, s.span.start.position, new⟩ := by
      simp [TextEdit.ofNode, hrange, hisNew, TextEdit.insertion]
    rw [hedit]
    rw [hisNew, if_pos rfl] at hnext
    exact x.insert hnew (x.quiet_from hnext) path
  | false =>
    have hedit : TextEdit.ofNode codedata target new =
        ⟨s.span.start.position, s.span.stop.position, new⟩ := by
      simp [TextEdit.ofNode, hrange, hisNew]
    rw [hedit]
    rw [hisNew, if_neg Bool.false_ne_true] at hnext
    exact x.replace hnew (x.quiet_behind hnext) path

/-- The document of a text, and the only statement of the block at a range of it with the block's
span. -/
def soleStatementAt? (text : String) (start stop : Position) :
    Option (Document × Statement × Span) :=
  match parse ⟨"main.bal"⟩ text with
  | .ok d =>
    match d.enclosing start stop with
    | some (.block (.mk [s] span)) => some (d, s, span)
    | _ => none
  | .error _ => none

lemma exists_of_soleStatementAt? {text : String} {start stop : Position}
    {test : Document × Statement × Span → Bool}
    (h : (soleStatementAt? text start stop).any test = true) :
    ∃ d s span, parse ⟨"main.bal"⟩ text = .ok d ∧
      Inside (.module d.tree) (.block (.mk [s] span)) ∧ test (d, s, span) = true := by
  obtain ⟨⟨d, s, span⟩, hfound, htest⟩ := Option.any_eq_true _ _ |>.mp h
  rw [soleStatementAt?] at hfound
  split at hfound
  · rename_i d' hparse
    split at hfound
    · rename_i s' span' hat
      simp only [Option.some.injEq, Prod.mk.injEq] at hfound
      obtain ⟨rfl, rfl, rfl⟩ := hfound
      exact ⟨_, _, _, hparse, inside_enclosing hat, htest⟩
    · simp at hfound
  · simp at hfound

/-- The only statement of a block, between its braces, replaced by two others. -/
theorem edit_at_statement_alone :
    ∃ text' d d' tree b s ts list,
      parse ⟨"main.bal"⟩ "function f()\x7bif a \x7bx=1;\x7delse\x7b\x7dy=2;\x7d" = .ok d ∧
      Inside (.module d.tree) (.block b) ∧ b.statements = [s] ∧
      Insertable "z=3;foreach int i in r \x7b\x7d" ts list ∧
      (∀ t ∈ d.tokenFrom? s.span.stop.byte, t.is "else" = false ∧ t.is "on" = false) ∧
      TextEdit.apply ⟨s.span.start.position, s.span.stop.position,
          "z=3;foreach int i in r \x7b\x7d"⟩
        "function f()\x7bif a \x7bx=1;\x7delse\x7b\x7dy=2;\x7d" = some text' ∧
      parse ⟨"main.bal"⟩ text' = .ok d' ∧
      Swap b (.mk list b.span) (.module d.tree) (.module tree) ∧
      d'.tree.unplaced = tree.unplaced := by
  have hcheck : (soleStatementAt? "function f()\x7bif a \x7bx=1;\x7delse\x7b\x7dy=2;\x7d"
        ⟨0, 18⟩ ⟨0, 24⟩).any
      (fun found => (found.1.tokenFrom? found.2.1.span.stop.byte).all fun t =>
        !t.is "else" && !t.is "on") = true := by
    decide +kernel
  obtain ⟨d, s, span, hparse, hinside, hblock⟩ := exists_of_soleStatementAt? hcheck
  have hcheck' : (tokenize "z=3;foreach int i in r \x7b\x7d").toOption.any
      (fun ts =>
        ts.getLast?.any (·.span.stop.byte == byteLength "z=3;foreach int i in r \x7b\x7d".toList) &&
        ts.head?.all fun t => t.text.toList.head? != some '|' && (!t.is "else" && !t.is "on")) =
        true := by
    decide +kernel
  obtain ⟨ts, hts, hends⟩ := Option.any_eq_true _ _ |>.mp hcheck'
  have htokens : tokenize "z=3;foreach int i in r \x7b\x7d" = .ok ts := by
    cases hread : tokenize "z=3;foreach int i in r \x7b\x7d" with
    | error e => simp [hread, Except.toOption] at hts
    | ok us => simpa [hread, Except.toOption] using hts
  obtain ⟨list, halone⟩ : ∃ list, statementsOf? "z=3;foreach int i in r \x7b\x7d" = some list :=
    Option.isSome_iff_exists.mp (by decide +kernel)
  obtain ⟨hlast, hfirst⟩ := Bool.and_eq_true _ _ ▸ hends
  have hnext : ∀ t ∈ d.tokenFrom? s.span.stop.byte, t.is "else" = false ∧ t.is "on" = false := by
    simpa [Option.all_eq_true] using hblock
  have hnew : Insertable "z=3;foreach int i in r \x7b\x7d" ts list := by
    refine ⟨htokens, halone, ?_, ?_, ?_⟩
    · obtain ⟨t, ht, hbyte⟩ := Option.any_eq_true _ _ |>.mp hlast
      exact ⟨t, ht, beq_iff_eq.mp hbyte⟩
    · intro t ht
      have hall := Option.all_eq_true _ _ |>.mp hfirst t ht
      simp only [Bool.and_eq_true, bne_iff_ne] at hall
      exact hall.1
    · intro t ht
      have hall := Option.all_eq_true _ _ |>.mp hfirst t ht
      simp only [Bool.and_eq_true, Bool.not_eq_true'] at hall
      exact hall.2
  obtain ⟨text', d', tree, hedit, hd', hswap, hunplaced⟩ :=
    @edit_at_statement _ _ _ _ _ s [] [] list ts
      { node := .return
        lineRange := some ⟨"main.bal", s.span.start.position, s.span.stop.position⟩ }
      .current _ hparse hinside rfl hnew rfl hnext
  rw [List.nil_append, if_neg Bool.false_ne_true, List.append_nil] at hswap
  exact ⟨text', d, d', tree, _, s, ts, list, hparse, hinside, rfl, hnew, hnext, hedit, hd',
    hswap, hunplaced⟩

end Document

end FlowCanvas
