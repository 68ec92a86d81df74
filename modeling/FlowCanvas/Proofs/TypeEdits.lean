import FlowCanvas.Proofs.Spans
import FlowCanvas.Proofs.TypeRoundTrip

/-!
# Edits at a type definition

The edit of a type puts its source in the place of the first definition of its name, or on a line
of its own at the end of the document. The document is then read with that definition in its list of
members, and all around it stays what it is. Members end with a semicolon or a closing brace, so
that no token grows together with another at the seams, and a definition is read alike in front of
any tokens.
-/

namespace FlowCanvas

namespace Lexer

lemma gap_concat_newLine {comment : Bool} {cs : List Char}
    (h : splitLayout comment cs = (cs, [])) : Gap comment (cs ++ ['\n']) := by
  induction cs generalizing comment with
  | nil =>
    cases comment with
    | true => exact .newLine .nil
    | false => exact .blank rfl .nil
  | cons c cs ih =>
    cases comment with
    | true =>
      simp only [splitLayout, if_true, Prod.mk.injEq, List.cons.injEq, true_and] at h
      have hrest := ih (Prod.ext h.1 h.2)
      by_cases hc : c = '\n'
      · subst hc
        exact .newLine (by simpa using hrest)
      · exact .comment hc (by simpa [bne_iff_ne.mpr hc] using hrest)
    | false =>
      simp only [splitLayout, Bool.false_eq_true, if_false] at h
      split at h
      · rename_i hblank
        simp only [Prod.mk.injEq, List.cons.injEq, true_and] at h
        exact .blank hblank (ih (Prod.ext h.1 h.2))
      · split at h
        · rename_i hstart
          simp only [Prod.mk.injEq, List.cons.injEq, true_and] at h
          have hrest := ih (Prod.ext h.1 h.2)
          rcases Bool.or_eq_true _ _ ▸ hstart with hc | hc
          · rw [beq_iff_eq] at hc
            subst hc
            exact .hash hrest
          · obtain ⟨rfl, hhead⟩ : c = '/' ∧ cs.head? = some '/' := by simpa using hc
            obtain ⟨ds, rfl⟩ := List.head?_eq_some_iff.mp hhead
            cases hrest with
            | comment _ hrest => exact .slashes hrest
        · simp at h

/-- A line end closes the layout at the end of a text, also when that is an open comment. -/
lemma Final.gap {last : List Char} (h : Final last) : Gap false (last ++ ['\n']) :=
  gap_concat_newLine h

end Lexer

namespace Parser

open Brackets Lexer

/-! ### Where members end -/

/-- The tokens that were taken end with a semicolon or a closing brace. -/
def EndsBefore (ts rest : Phrase) : Prop :=
  ∃ init last, ts = init ++ last :: rest ∧ (last.is ";" ∨ last.is "\x7d")

lemma Passes.endsBefore {ts us rest : Phrase} {bs : List Block} (h : Passes ts us bs)
    (hus : EndsBefore us rest) : EndsBefore ts rest := by
  obtain ⟨before, rfl, -⟩ := h
  obtain ⟨init, last, rfl, hlast⟩ := hus
  exact ⟨before ++ init, last, by simp, hlast⟩

lemma endsBefore_declaration {start : Token} {names words : List String} {ts rest : Phrase}
    {d : Declaration} (h : declaration start names words ts = .ok (d, rest)) :
    EndsBefore ts rest := by
  obtain ⟨body, semicolon, -, -, -, rfl, -, hsemicolon, -⟩ := declaration_eq_ok_iff.mp h
  exact ⟨body, semicolon, rfl, .inl hsemicolon⟩

lemma endsBefore_functionDefinition {start : Token} {words : List String} {ts rest : Phrase}
    {f : FunctionDefinition} (h : functionDefinition start words ts = .ok (f, rest)) :
    EndsBefore ts rest := by
  obtain ⟨used, hbefore, hspells, -⟩ := body_of_functionDefinition h
  obtain ⟨init, last, rfl⟩ := (List.eq_nil_or_concat' used).resolve_left hspells.ne_nil
  exact hbefore.endsBefore ⟨init, last, by simp, hspells.closes last (by simp)⟩

lemma endsBefore_objectBody {ts rest : Phrase} {body : ObjectBody}
    (h : objectBody ts = .ok (body, rest)) :
    body.close.is "\x7d" ∧ ∃ init, ts = init ++ body.close :: rest := by
  obtain ⟨brace, after, rfl, -, hread⟩ := objectBody_spec h
  obtain ⟨used, ps, rfl, -⟩ := hread.spread
  exact ⟨hread.close_is, brace :: used, rfl⟩

lemma endsBefore_serviceDefinition {start : Token} {ts rest : Phrase} {s : ServiceDefinition}
    (h : serviceDefinition start ts = .ok (s, rest)) : EndsBefore ts rest := by
  obtain ⟨path, on, after, listener, after', body, left, last, hpath, hlistener, hbody, hlast, -⟩ :=
    serviceDefinition_spec h
  obtain ⟨hclose, init, rfl⟩ := endsBefore_objectBody hbody
  refine ((passes_of_through hpath).trans (passes_of_upTo hlistener)).endsBefore ?_
  rcases hlast with ⟨-, rfl⟩ | ⟨rfl, hsemicolon⟩
  · exact ⟨init, body.close, rfl, .inr hclose⟩
  · exact ⟨init ++ [body.close], last, by simp, .inl hsemicolon⟩

lemma endsBefore_classDefinition {start : Token} {words : List String} {ts rest : Phrase}
    {c : ClassDefinition} (h : classDefinition start words ts = .ok (c, rest)) :
    EndsBefore ts rest := by
  obtain ⟨name, after, body, rfl, -, hbody, -⟩ := classDefinition_spec h
  obtain ⟨hclose, init, rfl⟩ := endsBefore_objectBody hbody
  exact ⟨name :: init, body.close, rfl, .inr hclose⟩

lemma endsBefore_typeDefinition {start : Token} {words : List String} {ts rest : Phrase}
    {t : TypeDefinition} (h : typeDefinition start words ts = .ok (t, rest)) :
    EndsBefore ts rest := by
  obtain ⟨name, after, descriptor, semicolon, rfl, -, hdescriptor, hsemicolon, -⟩ :=
    typeDefinition_spec h
  exact ((passes_cons name after).trans (passes_of_typeDescriptor hdescriptor)).endsBefore
    ⟨[], semicolon, rfl, .inl hsemicolon⟩

lemma endsBefore_enumDefinition {start : Token} {words : List String} {ts rest : Phrase}
    {t : TypeDefinition} (h : enumDefinition start words ts = .ok (t, rest)) :
    EndsBefore ts rest := by
  obtain ⟨name, brace, inner, close, rfl, -, -, -, hclose, -⟩ := enumDefinition_spec h
  exact ⟨name :: brace :: inner, close, rfl, .inr hclose⟩

lemma endsBefore_memberAfter {start : Token} {names words : List String} {ts rest : Phrase}
    {m : Member} (h : memberAfter start names words ts = .ok (m, rest)) : EndsBefore ts rest := by
  cases readsMember_of_memberAfter h with
  | function _ hf => exact (passes_cons _ _).endsBefore (endsBefore_functionDefinition hf)
  | service _ hs => exact (passes_cons _ _).endsBefore (endsBefore_serviceDefinition hs)
  | classDefinition _ hc => exact (passes_cons _ _).endsBefore (endsBefore_classDefinition hc)
  | typeDefinition _ ht => exact (passes_cons _ _).endsBefore (endsBefore_typeDefinition ht)
  | enumDefinition _ ht => exact (passes_cons _ _).endsBefore (endsBefore_enumDefinition ht)
  | constant _ hd => exact (passes_cons _ _).endsBefore (endsBefore_declaration hd)
  | declaration _ hd => exact endsBefore_declaration hd

lemma endsBefore_member {start : Token} {ts rest : Phrase} {m : Member}
    (h : member start ts = .ok (m, rest)) : EndsBefore (start :: ts) rest := by
  obtain ⟨names, words, after, hfront, hread⟩ := member_spec h
  exact (passes_of_front hfront).endsBefore (endsBefore_memberAfter hread)

lemma endsBefore_importDeclaration {start : Token} {ts rest : Phrase} {i : Import}
    (h : importDeclaration start ts = .ok (i, rest)) : EndsBefore ts rest := by
  obtain ⟨used, semicolon, rfl, -, hsemicolon, -⟩ := importDeclaration_spec h
  exact ⟨used, semicolon, rfl, .inl hsemicolon⟩

lemma EndsBefore.closes {ts rest us : Phrase} (h : EndsBefore (ts ++ (us ++ rest)) (us ++ rest))
    (hus : Closes us) : Closes (ts ++ us) := by
  obtain ⟨init, last, heq, hlast⟩ := h
  have hsplit : ts ++ (us ++ rest) = (init ++ [last]) ++ (us ++ rest) := by simpa using heq
  obtain rfl := List.append_cancel_right hsplit
  cases us with
  | nil => simpa using closes_concat hlast init
  | cons u us => exact closes_append hus (by simp) (init ++ [last])

/-- Imports, members and stray semicolons end with a semicolon or a closing brace. -/
theorem SpellsParts.closes {imports : List Import} {members : List Member} {ts rest : Phrase}
    (h : SpellsParts imports members ts rest) : Closes ts := by
  induction h with
  | nil => simp [Closes]
  | @importing word i imports members used ts rest hword hi _ ih =>
    have hends := (passes_cons word _).endsBefore (endsBefore_importDeclaration hi)
    exact @EndsBefore.closes (word :: used) rest ts (by simpa using hends) ih
  | @stray semicolon imports members ts rest hsemicolon _ ih =>
    exact @EndsBefore.closes [semicolon] rest ts ⟨[], semicolon, by simp, .inl hsemicolon⟩ ih
  | @member start m imports members used ts rest _ _ hm _ ih =>
    have hends := endsBefore_member hm
    exact @EndsBefore.closes (start :: used) rest ts (by simpa using hends) ih

/-! ### Type definitions in front of other tokens -/

section

variable {start word : Token} {names words : List String} {ts us rest : Phrase} {t : TypeDefinition}

/-- A type definition is read from a copy of its tokens in front of any rest. -/
def RereadsType (names words : List String) (ts rest : Phrase) (t : TypeDefinition) : Prop :=
  ∃ used, ts = used ++ rest ∧ used ≠ [] ∧ ∀ ⦃used' rest' start'⦄, used.Copy used' →
    ∃ t', memberAfter start' names words (used' ++ rest') = .ok (.typeDefinition t', rest') ∧
      t'.unplaced = t.unplaced

lemma rereadsType_of_frames {read : Token → Reader TypeDefinition}
    (hframes : ∀ start', Frames Any Like TypeDefinition.unplaced (read start) (read start'))
    (h : read start ts = .ok (t, rest))
    (hread : ∀ start' word' us, word'.text = word.text →
      memberAfter start' names words (word' :: us) =
        do let (t, ts) ← read start' us; return (.typeDefinition t, ts)) :
    RereadsType names words (word :: ts) rest t := by
  obtain ⟨used, rfl, -⟩ := hframes start h
  refine ⟨word :: used, rfl, by simp, fun used' rest' start' hcopy => ?_⟩
  obtain ⟨word', used', rfl, hsame, hused'⟩ := hcopy.cons_left
  obtain ⟨used'', hcancel, hframe⟩ := hframes start' h
  obtain rfl := List.append_cancel_right hcancel
  obtain ⟨-, t', ht', hunplaced⟩ := @hframe _ rest' hused' trivial
  refine ⟨t', ?_, hunplaced⟩
  rw [List.cons_append, hread start' word' _ hsame.2.symm]
  exact bind_eq_ok_iff.mpr ⟨_, ht', rfl⟩

lemma rereadsType_of_memberAfter (h : memberAfter start names words ts =
    .ok (.typeDefinition t, rest)) : RereadsType names words ts rest t := by
  cases readsMember_of_memberAfter h with
  | typeDefinition hword hread =>
    refine @rereadsType_of_frames _ _ _ _ _ _ _ (typeDefinition · words)
      (frames_typeDefinition start · words Any) hread fun start' word' us htext => ?_
    rw [memberAfter, htext, hword]
    rfl
  | enumDefinition hword hread =>
    refine @rereadsType_of_frames _ _ _ _ _ _ _ (enumDefinition · words)
      (frames_enumDefinition start · words Any) hread fun start' word' us htext => ?_
    rw [memberAfter, htext, hword]
    rfl

lemma covers_of_member {used : Phrase}
    (h : member start (used ++ rest) = .ok (.typeDefinition t, rest)) :
    Covers t.span (start :: used) := by
  obtain ⟨taken, htaken, hlaid⟩ := laid_of_member h
  rw [← List.cons_append] at htaken
  obtain rfl := List.append_cancel_right htaken
  cases hlaid with
  | mk hspan => exact hspan

/-- A copy of the tokens of a type definition is the same definition in front of any tokens: its
last token tells that it ends. -/
lemma member_copy_typeDefinition {used : Phrase}
    (h : member start (used ++ rest) = .ok (.typeDefinition t, rest))
    (hcopy : Phrase.Copy (start :: used) us) (rest' : Phrase) :
    ∃ start' used' t', us = start' :: used' ∧ Token.Same start start' ∧
      member start' (used' ++ rest') = .ok (.typeDefinition t', rest') ∧
      t'.unplaced = t.unplaced := by
  obtain ⟨⟨names, after⟩, hnames, hread⟩ := bind_eq_ok_iff.mp h
  obtain ⟨annotated, hannotated, hannotations⟩ := frames_annotations hnames
  obtain ⟨words, hwords, hqualifiers⟩ := qualifiers_spec after
  obtain ⟨named, hnamed, hne, hagain⟩ := rereadsType_of_memberAfter hread
  have hsplit : (start :: used) ++ rest = (annotated ++ (words ++ named)) ++ rest := by
    rw [List.cons_append, hannotated, hwords, hnamed]
    simp
  have hused := List.append_cancel_right hsplit
  rw [hused] at hcopy
  obtain ⟨annotated', vs, rfl, hannotated', hvs⟩ := hcopy.append_left
  obtain ⟨words', named', rfl, hwords', hnamed'⟩ := hvs.append_left
  have hlike := like_of_copy hnamed' hne rest rest'
  rw [← hnamed] at hlike
  have hlike' := hlike.append hwords'
  rw [← hwords] at hlike'
  obtain ⟨-, names', hnames', rfl⟩ := hannotations hannotated' hlike'
  obtain ⟨start', used', hstart, hsame, -⟩ := Phrase.Copy.cons_left (hused ▸ hcopy)
  rw [hstart]
  rw [← List.append_assoc, ← List.append_assoc, List.append_assoc annotated', hstart] at hnames'
  obtain ⟨t', ht', hunplaced⟩ := @hagain named' rest' start' hnamed'
  refine ⟨start', used', t', rfl, hsame, bind_eq_ok_iff.mpr ⟨_, hnames', ?_⟩, hunplaced⟩
  simp only [hqualifiers hwords' hlike]
  exact ht'

/-- A copy of the tokens of imports has the same imports in front of any tokens. -/
lemma SpellsParts.copy_imports {imports : List Import} (h : SpellsParts imports [] ts rest)
    (hcopy : ts.Copy us) (rest' : Phrase) :
    ∃ imports', SpellsParts imports' [] us rest' ∧
      imports'.map Import.unplaced = imports.map Import.unplaced := by
  generalize hmembers : ([] : List Member) = members at h
  induction h generalizing us with
  | nil =>
    obtain rfl := hcopy.nil_left
    exact ⟨[], .nil, rfl⟩
  | @importing word i imports members used ts rest hword hi _ ih =>
    obtain ⟨vs, ws, rfl, hvs, hws⟩ := hcopy.append_left
    obtain ⟨word', used', rfl, hsame, hused⟩ := hvs.cons_left
    obtain ⟨imports', h', himports⟩ := ih hws hmembers
    obtain ⟨used'', hcancel, hframe⟩ := frames_importDeclaration word word' Any hi
    obtain rfl := List.append_cancel_right hcancel
    obtain ⟨-, i', hi', hunplaced⟩ := @hframe _ (ws ++ rest') hused trivial
    exact ⟨i' :: imports', .importing (hsame.is "import" ▸ hword) hi' h',
      by rw [List.map_cons, List.map_cons, hunplaced, himports]⟩
  | @stray semicolon imports members ts rest hsemicolon _ ih =>
    obtain ⟨semicolon', ws, rfl, hsame, hws⟩ := hcopy.cons_left
    obtain ⟨imports', h', himports⟩ := ih hws hmembers
    exact ⟨imports', .stray (hsame.is ";" ▸ hsemicolon) h', himports⟩
  | member => simp at hmembers

end

/-! ### A text of one definition -/

/-- A text that is, alone, a module of one type definition with imports behind it. It is all of its
tokens, and its first character starts a word of the definition. -/
structure DefinesType (text : String) (imports : List Import) (t : TypeDefinition) (ts : Phrase) :
    Prop where
  scanned : Scanned .origin text.toList ts []
  spells : SpellsParts imports [.typeDefinition t] ts []
  front : ∃ c ∈ text.toList.head?, c ∈ ['e', 'p', 't']

namespace DefinesType

variable {text : String} {imports : List Import} {t : TypeDefinition} {ts us : Phrase}

lemma ne_nil (h : DefinesType text imports t ts) : ts ≠ [] := by
  rintro rfl
  have hspells := h.spells
  cases hspells

/-- The text starts with its first token, which is no semicolon and no import. -/
lemma first {first : Token} (h : DefinesType text imports t (first :: ts)) :
    first.gap.toList = [] ∧ first.is ";" = false ∧ first.is "import" = false := by
  obtain ⟨c, hc, hmem⟩ := h.front
  obtain ⟨hgap, -, -, -, d, ds, htext, -⟩ := h.scanned.head
  have hchars := h.scanned.chars
  rw [Phrase.tail_cons, String.toList_append, String.toList_append, htext] at hchars
  generalize first.gap.toList = gap at hgap hchars
  rw [hchars] at hc
  have hnot {mark : String} {m : Char} (hmark : mark.toList.head? = some m)
      (hm : m ∉ ['e', 'p', 't']) (hd : d ∈ ['e', 'p', 't']) : first.is mark = false := by
    rw [Bool.eq_false_iff]
    intro his
    have hhead := congrArg (List.head? ∘ String.toList) (text_of_is his)
    rw [Function.comp_apply, Function.comp_apply, htext, hmark] at hhead
    obtain rfl : d = m := by simpa using hhead
    exact hm hd
  cases hgap with
  | nil =>
    obtain rfl : d = c := by simpa using hc
    exact ⟨rfl, hnot rfl (by decide) hmem, hnot rfl (by decide) hmem⟩
  | @blank b _ hblank =>
    obtain rfl : b = c := by simpa using hc
    simp only [List.mem_cons, List.not_mem_nil, or_false] at hmem
    rcases hmem with rfl | rfl | rfl <;> exact absurd hblank (by decide)
  | hash =>
    obtain rfl : '#' = c := by simpa using hc
    exact absurd hmem (by decide)
  | slashes =>
    obtain rfl : '/' = c := by simpa using hc
    exact absurd hmem (by decide)

/-- The definition comes first, and the imports and stray semicolons behind it. -/
lemma split (h : DefinesType text imports t ts) :
    ∃ start used tail, ts = start :: used ++ tail ∧
      member start (used ++ tail) = .ok (.typeDefinition t, tail) ∧
      SpellsParts imports [] tail [] := by
  obtain ⟨first, us, rfl⟩ := List.exists_cons_of_ne_nil h.ne_nil
  obtain ⟨-, hstray, himport⟩ := h.first
  obtain ⟨imports₁, imports₂, before, start, used, tail, heq, rfl, hbefore, -, -, hmember, htail⟩ :=
    @SpellsParts.split imports [] [] _ _ _ h.spells
  obtain ⟨rfl, rfl⟩ : before = [] ∧ imports₁ = [] := by
    cases hbefore with
    | nil => exact ⟨rfl, rfl⟩
    | importing hword =>
      obtain ⟨rfl, -⟩ := List.cons.inj heq
      simp [hword] at himport
    | stray hsemicolon =>
      obtain ⟨rfl, -⟩ := List.cons.inj heq
      simp [hsemicolon] at hstray
  exact ⟨start, used, tail, heq, by simpa using hmember, htail⟩

/-- Where the definition stands in a copy of the text. -/
lemma span_of_copy (h : DefinesType text imports t ts) {here : Place} {gap rest : List Char}
    (hus : Scanned here (gap ++ text.toList) us rest) (hcopy : ts.Copy us) {span : Span}
    {used tail : Phrase} (hsplit : us = used ++ tail) (hcovers : Covers span used) :
    span.start = here.advance gap ∧
      (tail = [] → span.stop = here.advance (gap ++ text.toList)) := by
  obtain ⟨first, final, hfirst, hfinal, rfl⟩ := hcovers
  obtain ⟨more, rfl⟩ := List.head?_eq_some_iff.mp hfirst
  constructor
  · obtain ⟨t', ts', rfl⟩ := List.exists_cons_of_ne_nil h.ne_nil
    have hsource := h.scanned.chars
    have hchars := hus.chars
    rw [Phrase.tail_eq_gap_append_text, String.toList_append, h.first.1, List.nil_append] at hsource
    rw [hsplit, List.cons_append, Phrase.tail_eq_gap_append_text, ← List.cons_append, ← hsplit,
      String.toList_append, ← hcopy.text, ← hsource] at hchars
    rw [List.append_cancel_right hchars]
    rw [hsplit, List.cons_append] at hus
    exact hus.head.2.1
  · rintro rfl
    obtain ⟨init, hinit⟩ := List.getLast?_eq_some_iff.mp hfinal
    rw [hsplit, List.append_nil, hinit] at hus
    exact hus.stop

/-- A definition that ends with the text has nothing behind it. -/
lemma tail_eq_nil (h : DefinesType text imports t ts) {used tail : Phrase}
    (hsplit : ts = used ++ tail) (hcovers : Covers t.span used)
    (hstop : t.span.stop = Place.origin.advance text.toList) : tail = [] := by
  have hscanned := h.scanned
  rw [hsplit] at hscanned
  obtain ⟨xs, ys, htext, hxs, hys⟩ := hscanned.split
  obtain ⟨gap, -, -, -, hend⟩ := hxs.covered hcovers
  rw [hend, htext, Place.advance_append] at hstop
  cases tail with
  | nil => rfl
  | cons u tail =>
    have hbefore := hys.starts_before List.mem_cons_self
    rw [hys.head.2.1, ← hstop, Place.byte_advance] at hbefore
    omega

lemma closes (h : DefinesType text imports t ts) : Closes ts := h.spells.closes

/-- A copy of the text's tokens in front of any tokens is the same definition with the same
imports. -/
lemma copy (h : DefinesType text imports t ts) {here : Place} {gap left : List Char}
    (hus : Scanned here (gap ++ text.toList) us left) (hcopy : ts.Copy us) (rest : Phrase) :
    ∃ imports' t', SpellsParts imports' [.typeDefinition t'] us rest ∧
      imports'.map Import.unplaced = imports.map Import.unplaced ∧ t'.unplaced = t.unplaced ∧
      t'.span.start = here.advance gap ∧ (t.span.stop = Place.origin.advance text.toList →
        t'.span.stop = here.advance (gap ++ text.toList)) := by
  obtain ⟨start, used, tail, rfl, hmember, htail⟩ := h.split
  have hcopy' := hcopy
  obtain ⟨vs, ws, rfl, hvs, hws⟩ := hcopy'.append_left
  obtain ⟨imports', himports, hsame⟩ := htail.copy_imports hws rest
  obtain ⟨start', used', t', rfl, hstart, ht', hunplaced⟩ :=
    member_copy_typeDefinition hmember hvs (ws ++ rest)
  obtain ⟨-, hstray, himport⟩ := h.first
  obtain ⟨hfront, hback⟩ := h.span_of_copy hus hcopy rfl (covers_of_member ht')
  refine ⟨imports', t',
    .member (hstart.is "import" ▸ himport) (hstart.is ";" ▸ hstray) ht' himports,
    hsame, hunplaced, hfront, fun hstop => hback ?_⟩
  obtain rfl := h.tail_eq_nil rfl (covers_of_member hmember) hstop
  exact hws.nil_left

/-- The text put between two texts of parts: the definition stands between their parts. -/
lemma put (h : DefinesType text imports t ts) {xs gap zs last left : List Char} {there : Place}
    {before after rest : Phrase} {imports₁ imports₂ : List Import} {front back : List Member}
    (hbefore : Scanned .origin xs before left) (hfront : SpellsParts imports₁ front before rest)
    (hrest : sees ";" rest = false) (hgap : Gap false gap) (hafter : Scanned there zs after last)
    (hback : SpellsParts imports₂ back after []) :
    ∃ tokens imports' front' t' back',
      Scanned .origin (xs ++ (gap ++ text.toList ++ zs)) tokens last ∧
      SpellsParts imports' (front' ++ .typeDefinition t' :: back') tokens [] ∧
      imports'.map Import.unplaced = (imports₁ ++ imports ++ imports₂).map Import.unplaced ∧
      front'.map Member.unplaced = front.map Member.unplaced ∧ t'.unplaced = t.unplaced ∧
      back'.map Member.unplaced = back.map Member.unplaced ∧
      t'.span.start = Place.origin.advance (xs ++ gap) ∧
      (t.span.stop = Place.origin.advance text.toList →
        t'.span.stop = Place.origin.advance (xs ++ gap ++ text.toList)) := by
  obtain ⟨us, hus, hcopy⟩ := (h.scanned.of_ends (h.closes.ends (zs ++ last))).padded hgap h.ne_nil
    (Place.origin.advance xs)
  obtain ⟨vs, hvs, hsame⟩ := hafter.moved ((Place.origin.advance xs).advance (gap ++ text.toList))
  have hbefore' := hbefore.of_ends (hfront.closes.ends (gap ++ text.toList ++ zs ++ last))
  have hscanned := hbefore'.append (by simpa using hus.append hvs)
  obtain ⟨imports₂', back', hback', himports₂, hbacks⟩ :=
    hback.copy (Phrase.copy_of_unspanned hsame) rfl
  obtain ⟨imports', t', ht', himports, hunplaced, hstart, hstop⟩ := h.copy hus hcopy (vs ++ [])
  have hparts := ht'.append hback'
  have hclosed : Closed rest (us ++ vs ++ []) := by
    obtain ⟨first, ts', rfl⟩ := List.exists_cons_of_ne_nil h.ne_nil
    obtain ⟨first', us', rfl, hfirst, -⟩ := hcopy.cons_left
    exact hrest.trans ((hfirst.is ";").symm.trans h.first.2.1).symm
  obtain ⟨imports₁', front', hfront', himports₁, hfronts⟩ := hfront.copy (.refl before) hclosed
  refine ⟨_, _, front', t', back', hscanned, hfront'.append hparts, ?_, hfronts,
    hunplaced, hbacks, ?_, fun hend => ?_⟩
  · simp [himports₁, himports, himports₂]
  · rw [hstart, Place.advance_append]
  · rw [hstop hend, List.append_assoc, Place.advance_append _ xs]

end DefinesType

end Parser

/-! ### Lists with a keyed entry -/

section

variable {α β : Type}

/-- Puts `x` in the place of the first entry with `p`, or behind all of them. -/
def putFirst (p : α → Bool) (x : α) : List α → List α
  | [] => [x]
  | y :: ys => if p y then x :: ys else y :: putFirst p x ys

lemma putFirst_append {p : α → Bool} (x : α) {y : α} {front : List α} (back : List α)
    (hfront : ∀ z ∈ front, p z = false) (hy : p y) :
    putFirst p x (front ++ y :: back) = front ++ x :: back := by
  induction front with
  | nil => simp [putFirst, hy]
  | cons z front ih =>
    obtain ⟨hz, hothers⟩ := List.forall_mem_cons.mp hfront
    rw [List.cons_append, putFirst, if_neg (by simp [hz]), ih hothers, List.cons_append]

lemma putFirst_of_forall {p : α → Bool} (x : α) {list : List α} (h : ∀ z ∈ list, p z = false) :
    putFirst p x list = list ++ [x] := by
  induction list with
  | nil => rfl
  | cons z list ih =>
    obtain ⟨hz, hothers⟩ := List.forall_mem_cons.mp h
    rw [putFirst, if_neg (by simp [hz]), ih hothers, List.cons_append]

lemma filterMap_putFirst {p : α → Bool} {q : β → Bool} {f : α → Option β} {x : α} {y : β}
    (hp : ∀ a, p a = (f a).any q) (hx : f x = some y) (list : List α) :
    (putFirst p x list).filterMap f = putFirst q y (list.filterMap f) := by
  induction list with
  | nil => simp [putFirst, hx]
  | cons a list ih =>
    rw [putFirst, hp]
    cases ha : f a with
    | none => simp [ha, ih]
    | some b =>
      rw [List.filterMap_cons_some ha, putFirst, Option.any_some]
      split
      · rw [List.filterMap_cons_some hx]
      · rw [List.filterMap_cons_some ha, ih]

end

namespace TypeData

open Lexer FlowCanvas.Parser

/-! ### The edit of a definition -/

/-- Whether a member is the type definition of a name. -/
def defines (name : String) (m : Member) : Bool := (definition? m).any (·.name == name)

lemma defines_unplaced (name : String) (m : Member) : defines name m.unplaced = defines name m := by
  cases m <;> rfl

lemma definition?_unplaced (m : Member) :
    definition? m.unplaced = (definition? m).map TypeDefinition.unplaced := by
  cases m <;> rfl

lemma defines_iff {name : String} {m : Member} :
    defines name m ↔ ∃ t, m = .typeDefinition t ∧ t.name = name := by
  cases m <;> simp [defines, definition?]

lemma forall_defines_congr {name : String} {list list' : List Member}
    (h : list'.map Member.unplaced = list.map Member.unplaced)
    (hlist : ∀ m ∈ list, defines name m = false) : ∀ m ∈ list', defines name m = false := by
  intro m hm
  have hmem : m.unplaced ∈ list.map Member.unplaced := h ▸ List.mem_map_of_mem hm
  obtain ⟨m', hm', hsame⟩ := List.mem_map.mp hmem
  rw [← defines_unplaced, ← hsame, defines_unplaced]
  exact hlist m' hm'

variable {d d' : Document} {data : TypeData} {t : TypeDefinition}

lemma find_definitions (d : Document) (name : String) :
    (definitions d).find? (·.name == name) =
      (d.tree.members.find? (defines name)).bind definition? := List.find?_filterMap ..

lemma edit_of_split {front back : List Member}
    (h : d.tree.members = front ++ .typeDefinition t :: back)
    (hfront : ∀ m ∈ front, defines data.name m = false) (hname : t.name = data.name) :
    edit d data = ⟨t.span.start.position, t.span.stop.position, data.source⟩ := by
  have hfind : d.tree.members.find? (defines data.name) = some (.typeDefinition t) :=
    List.find?_eq_some_iff_append.mpr ⟨defines_iff.mpr ⟨t, rfl, hname⟩, front, back, h,
      fun m hm => by simp [hfront m hm]⟩
  rw [edit, find_definitions, hfind]
  rfl

lemma edit_of_forall (h : ∀ m ∈ d.tree.members, defines data.name m = false) :
    ∃ separator, (separator = "" ∨ separator = "\n") ∧
      edit d data = .insertion d.endPosition (separator ++ "\n" ++ data.source ++ "\n") := by
  have hfind : d.tree.members.find? (defines data.name) = none :=
    List.find?_eq_none.mpr fun m hm => by simp [h m hm]
  rw [edit, find_definitions, hfind]
  refine ⟨_, ?_, rfl⟩
  split
  · exact .inl rfl
  · split
    · exact .inl rfl
    · exact .inr rfl

/-- A new definition comes behind the last token: what stands there, closed by line ends, is layout
in front of it. -/
lemma apply_edit_of_forall {cs last : List Char} (htext : d.text.toList = cs ++ last)
    (hlast : Final last) (h : ∀ m ∈ d.tree.members, defines data.name m = false) :
    ∃ gap, Gap false gap ∧ (edit d data).apply d.text =
      some (.ofList (cs ++ gap ++ (data.source.toList ++ ([] ++ ['\n'])))) := by
  obtain ⟨separator, hseparator, hedit⟩ := edit_of_forall h
  have hchars : d.text.toList = cs ++ last ++ ([] ++ []) := by simp [htext]
  have happly := TextEdit.apply_eq hchars (separator ++ "\n" ++ data.source ++ "\n")
  refine ⟨last ++ separator.toList ++ ['\n'], ?_, ?_⟩
  · rcases hseparator with rfl | rfl
    · simpa using hlast.gap
    · exact hlast.gap.append (.blank rfl .nil)
  · rw [hedit, TextEdit.insertion, Document.endPosition, Text.endPosition, htext]
    simpa using happly

/-- What an editor sees of the definitions does not depend on where they stand. -/
lemma unranged_list_congr {list : List TypeDefinition}
    (h : (definitions d').map TypeDefinition.unplaced = list.map TypeDefinition.unplaced) :
    (TypeData.list d').map unranged = list.map fun t => (ofDefinition d t).unranged := by
  have hunplaced (list : List TypeDefinition) (d d' : Document) :
      (list.map TypeDefinition.unplaced).map (fun t => (ofDefinition d' t).unranged) =
        list.map fun t => (ofDefinition d t).unranged := by
    rw [List.map_map]
    exact List.map_congr_left fun t _ => unranged_unplaced d d' t
  rw [TypeData.list, List.map_map, ← hunplaced list d d', ← h, hunplaced _ d' d']
  rfl

/-- The source of the data, alone, is a module with one member, the definition `t` of its name. The
text ends with its last token. -/
structure StandsAlone (data : TypeData) (m : SourceModule) (t : TypeDefinition) : Prop where
  parse : Parser.parse data.source = .ok m
  members : m.members = [.typeDefinition t]
  name : t.name = data.name
  last : ∃ ts, tokenize data.source = .ok ts ∧ ∃ u ∈ ts.getLast?, u.span.stop = m.span.stop

/-- The source of a definition starts with a word. -/
lemma source_head (data : TypeData) : ∃ c ∈ data.source.toList.head?, c ∈ ['e', 'p', 't'] := by
  unfold source
  cases data.kind <;> cases data.isPublic <;> simp

lemma StandsAlone.definesType {m : SourceModule} (h : StandsAlone data m t) :
    m.span = ⟨.origin, Place.origin.advance data.source.toList⟩ ∧
      ∃ ts, DefinesType data.source m.imports t ts := by
  obtain ⟨ts, hts, hspells, hspan⟩ := Parser.parse_eq_ok_iff.mp h.parse
  obtain ⟨ts', hts', last, hlast, hend⟩ := h.last
  obtain rfl := Except.ok.inj (hts.symm.trans hts')
  refine ⟨hspan, ts, scanned_of_last hts hlast ?_, h.members ▸ hspells, source_head data⟩
  rw [hend, hspan, Place.byte_origin_advance]

/-- The module of the source of the data and its definition, when the source stands alone. -/
def alone? (data : TypeData) : Option (SourceModule × TypeDefinition) := do
  let m ← (Parser.parse data.source).toOption
  let last ← (← (tokenize data.source).toOption).getLast?
  let t ← definition? (← m.members.head?)
  guard (m.members.length = 1 ∧ t.name = data.name ∧ last.span.stop = m.span.stop)
  return (m, t)

/-- The data of a type with a descriptor. -/
def ofDescriptor (name descriptor : String) : TypeData :=
  ⟨name, true, .empty, none, .other, false, false, [], [], none, some descriptor⟩

/-- The data of an enumeration. -/
def enumeration (name : String) (members : List String) : TypeData :=
  ⟨name, true, .empty, none, .enum, false, false, members.map (⟨·, "", false, none⟩), [], none,
    none⟩

lemma eq_ok_of_toOption {α : Type} {read : Except SyntaxError α} {x : α}
    (h : read.toOption = some x) : read = .ok x := by
  cases read with
  | error e => simp [Except.toOption] at h
  | ok y => exact congrArg Except.ok (Option.some.inj h)

lemma standsAlone_of_alone? {m : SourceModule} (h : alone? data = some (m, t)) :
    StandsAlone data m t := by
  obtain ⟨m', hm, h⟩ := Option.bind_eq_some_iff.mp h
  obtain ⟨ts, hts, h⟩ := Option.bind_eq_some_iff.mp h
  obtain ⟨last, hlast, h⟩ := Option.bind_eq_some_iff.mp h
  obtain ⟨first, hfirst, h⟩ := Option.bind_eq_some_iff.mp h
  obtain ⟨t', ht', h⟩ := Option.bind_eq_some_iff.mp h
  obtain ⟨_, hguard, h⟩ := Option.bind_eq_some_iff.mp h
  obtain ⟨rfl, rfl⟩ := Prod.mk.inj (Option.some.inj h)
  obtain ⟨hlength, hname, hend⟩ := (Option.guard_eq_some' _).mp hguard
  obtain ⟨others, hothers⟩ := List.head?_eq_some_iff.mp hfirst
  refine ⟨eq_ok_of_toOption hm, ?_, hname, ts, eq_ok_of_toOption hts, last, hlast, hend⟩
  obtain rfl : others = [] := by simpa [hothers] using hlength
  obtain ⟨t₀, rfl, -⟩ := (@defines_iff t'.name first).mp (by simp [defines, ht'])
  obtain rfl := Option.some.inj ht'
  exact hothers

lemma ofDefinition_name (d : Document) (t : TypeDefinition) : (ofDefinition d t).name = t.name := by
  unfold ofDefinition
  cases t.descriptor <;> rfl

lemma list_putFirst (hmembers : d'.tree.members.map Member.unplaced =
      (putFirst (defines data.name) (.typeDefinition t) d.tree.members).map Member.unplaced) :
    (TypeData.list d').map unranged =
      (putFirst (·.name == data.name) (ofDefinition d t) (TypeData.list d)).map unranged := by
  have hcommutes (list : List Member) :
      (list.filterMap definition?).map TypeDefinition.unplaced =
        (list.map Member.unplaced).filterMap definition? := by
    rw [List.map_filterMap, List.filterMap_map]
    exact congrArg (List.filterMap · list) (funext fun m => (definition?_unplaced m).symm)
  have hdefinitions : (definitions d').map TypeDefinition.unplaced =
      (putFirst (·.name == data.name) t (definitions d)).map TypeDefinition.unplaced := by
    rw [definitions, hcommutes, hmembers, ← hcommutes, definitions]
    exact congrArg _ (filterMap_putFirst (fun m => Eq.refl (defines data.name m)) rfl _)
  have hlist : (putFirst (·.name == data.name) t (definitions d)).map (ofDefinition d) =
      putFirst (·.name == data.name) (ofDefinition d t) (TypeData.list d) := by
    rw [TypeData.list, ← List.filterMap_eq_map]
    exact filterMap_putFirst (f := some ∘ ofDefinition d) (fun t => by simp [ofDefinition_name])
      rfl _
  rw [unranged_list_congr (d := d) hdefinitions, ← hlist, List.map_map]
  rfl

/-- The document with the definition between the parts of two texts. -/
lemma parse_put {imports imports₁ imports₂ : List Import} {ts before after rest : Phrase}
    {front back : List Member} {xs gap zs last left : List Char} {there : Place}
    (h : DefinesType data.source imports t ts) (hname : t.name = data.name)
    (hbefore : Scanned .origin xs before left) (hfront : SpellsParts imports₁ front before rest)
    (hrest : sees ";" rest = false) (hgap : Gap false gap) (hafter : Scanned there zs after last)
    (hback : SpellsParts imports₂ back after []) (hlast : Final last)
    (hnone : ∀ m ∈ front, defines data.name m = false) (path : Path) {text : String}
    (htext : text = .ofList (xs ++ gap ++ (data.source.toList ++ (zs ++ last)))) :
    ∃ d', Document.parse path text = .ok d' ∧
      d'.tree.imports.map Import.unplaced = (imports₁ ++ imports ++ imports₂).map Import.unplaced ∧
      d'.tree.members.map Member.unplaced =
        (front ++ .typeDefinition t :: back).map Member.unplaced ∧
      (t.span.stop = Place.origin.advance data.source.toList →
        (edit d' data).apply text = some text) := by
  obtain ⟨tokens, imports', front', t', back', hscanned, hparts, himports, hfronts, hunplaced,
    hbacks, hstart, hstop⟩ := h.put hbefore hfront hrest hgap hafter hback
  obtain ⟨d', hd', himports', hmembers'⟩ := Document.parse_of_scanned hscanned hlast hparts path
  have hchars : text.toList = xs ++ gap ++ (data.source.toList ++ (zs ++ last)) := by simp [htext]
  refine ⟨d', ?_, himports' ▸ himports, ?_, fun hend => ?_⟩
  · rw [htext]
    simpa using hd'
  · rw [hmembers', List.map_append, List.map_append, hfronts, List.map_cons, List.map_cons, hbacks]
    simp [Member.unplaced, hunplaced]
  · have hname' : t'.name = data.name := (congrArg TypeDefinition.name hunplaced).trans hname
    rw [edit_of_split hmembers' (forall_defines_congr hfronts hnone) hname', hstart, hstop hend,
      TextEdit.apply_eq hchars, htext]

/-- The edit of a type is an update of the list of types. A source that stands alone as one
definition of its name, up to its last byte, takes the place of the first definition of that name,
or comes behind all members: everything else stays what it is, and the imports that the source
has, if any, come with it. When the source ends with its definition, editing once more changes
nothing. -/
theorem edit_puts_definition {path : Path} {text : String} {m : SourceModule}
    (hd : Document.parse path text = .ok d) (halone : StandsAlone data m t) :
    ∃ text' d' before after, (edit d data).apply text = some text' ∧
      Document.parse path text' = .ok d' ∧ d.tree.imports = before ++ after ∧
      d'.tree.imports.map Import.unplaced = (before ++ m.imports ++ after).map Import.unplaced ∧
      d'.tree.members.map Member.unplaced =
        (putFirst (defines data.name) (.typeDefinition t) d.tree.members).map Member.unplaced ∧
      (TypeData.list d').map unranged =
        (putFirst (·.name == data.name) (ofDefinition d t) (TypeData.list d)).map unranged ∧
      (t.span.stop = m.span.stop → (edit d' data).apply text' = some text') := by
  obtain ⟨tree, htree, rfl⟩ := Document.parse_eq_ok_iff.mp hd
  obtain ⟨tokens, htokens, hparts, -⟩ := Parser.parse_eq_ok_iff.mp htree
  obtain ⟨cs, final, htext, hscanned, hfinal⟩ := scanned_of_tokenize htokens
  obtain ⟨hspan, ts, hnew⟩ := halone.definesType
  have hname := halone.name
  rw [hspan]
  cases hfind : tree.members.find? (defines data.name) with
  | some found =>
    -- The layout in front of the old definition stays, and the source stands behind it.
    obtain ⟨hfound, front, back, hsplit, hfront⟩ := List.find?_eq_some_iff_append.mp hfind
    obtain ⟨t₀, rfl, hname₀⟩ := defines_iff.mp hfound
    have hnone : ∀ m ∈ front, defines data.name m = false := by simpa using hfront
    have hparts' := hparts
    rw [hsplit] at hparts'
    obtain ⟨imports₁, imports₂, before, start, used, after, rfl, himports, hbefore, -, hstray,
      hmember, hafter⟩ := hparts'.split
    obtain ⟨xs, ys, rfl, hxs, hys⟩ := hscanned.split
    obtain ⟨ys, zs, rfl, hus, hzs⟩ := hys.split
    obtain ⟨gap, hgap, rfl, hstart, hstop⟩ := hus.covered (covers_of_member hmember)
    have hedit := @edit_of_split ⟨path, text, tree⟩ data t₀ front back hsplit hnone hname₀
    have hchars : text.toList =
        xs ++ gap ++ ((Phrase.text (start :: used)).toList ++ (zs ++ final)) := by
      simp [htext]
    obtain ⟨d', hd', himports', hmembers', hagain⟩ :=
      parse_put hnew hname hxs hbefore hstray hgap hzs hafter hfinal hnone path rfl
    rw [← putFirst_append _ back hnone hfound, ← hsplit] at hmembers'
    refine ⟨_, d', imports₁, imports₂, ?_, hd', himports, himports', hmembers',
      list_putFirst hmembers', hagain⟩
    rw [hedit, hstart, hstop, ← Place.advance_append, ← Place.advance_append, ← List.append_assoc]
    exact TextEdit.apply_eq hchars data.source
  | none =>
    have hnone : ∀ m ∈ tree.members, defines data.name m = false := by
      simpa using List.find?_eq_none.mp hfind
    obtain ⟨gap, hgap, happly⟩ :=
      @apply_edit_of_forall ⟨path, text, tree⟩ data cs final htext hfinal hnone
    obtain ⟨d', hd', himports', hmembers', hagain⟩ := parse_put hnew hname hscanned hparts rfl hgap
      (.nil .origin ['\n']) .nil rfl hnone path rfl
    rw [← putFirst_of_forall _ hnone] at hmembers'
    exact ⟨_, d', tree.imports, [], happly, hd', (List.append_nil _).symm, himports', hmembers',
      list_putFirst hmembers', hagain⟩

/-- The first of two definitions of one name becomes an enumeration. -/
theorem edit_puts_definition_enum :
    ∃ d m t d', Document.parse ⟨"main.bal"⟩ "import a/b;type A int;type A string;// A" = .ok d ∧
      StandsAlone (enumeration "A" ["X", "Y"]) m t ∧ t.span.stop = m.span.stop ∧
      (edit d (enumeration "A" ["X", "Y"])).apply "import a/b;type A int;type A string;// A" =
        some "import a/b;enum A \x7b X, Y \x7dtype A string;// A" ∧
      Document.parse ⟨"main.bal"⟩ "import a/b;enum A \x7b X, Y \x7dtype A string;// A" = .ok d' ∧
      (TypeData.list d').map unranged = (putFirst (·.name == "A") (ofDefinition d t)
        (TypeData.list d)).map unranged ∧
      (edit d' (enumeration "A" ["X", "Y"])).apply
          "import a/b;enum A \x7b X, Y \x7dtype A string;// A" =
        some "import a/b;enum A \x7b X, Y \x7dtype A string;// A" := by
  have hcheck : (Document.parse ⟨"main.bal"⟩
      "import a/b;type A int;type A string;// A").toOption.any fun d =>
        (edit d (enumeration "A" ["X", "Y"])).apply "import a/b;type A int;type A string;// A" =
          some "import a/b;enum A \x7b X, Y \x7dtype A string;// A" := by
    decide +kernel
  obtain ⟨d, hd, happly⟩ := exists_ok_of_any hcheck
  have happly := of_decide_eq_true happly
  have halone : (alone? (enumeration "A" ["X", "Y"])).any fun found =>
      found.2.span.stop = found.1.span.stop := by
    decide +kernel
  obtain ⟨⟨m, t⟩, hfound, hstop⟩ := Option.any_eq_true _ _ |>.mp halone
  have hstop := of_decide_eq_true hstop
  have hnew := standsAlone_of_alone? hfound
  obtain ⟨text', d', before, after, htext', hd', -, -, -, hlist, hagain⟩ :=
    edit_puts_definition hd hnew
  obtain rfl := Option.some.inj (happly.symm.trans htext')
  exact ⟨d, m, t, d', hd, hnew, hstop, happly, hd', hlist, hagain hstop⟩

/-- A source that goes on behind its definition is not put in its own place: each edit leaves one
more semicolon, and an import of the source becomes one of the document. -/
theorem edit_leaves_rest :
    (∃ d d' m t, Document.parse ⟨"main.bal"⟩ "type A int;" = .ok d ∧
      StandsAlone (ofDescriptor "A" "int;") m t ∧
      (edit d (ofDescriptor "A" "int;")).apply "type A int;" = some "type A int;;" ∧
      Document.parse ⟨"main.bal"⟩ "type A int;;" = .ok d' ∧
      (edit d' (ofDescriptor "A" "int;")).apply "type A int;;" = some "type A int;;;") ∧
    ∃ d d' m t, Document.parse ⟨"main.bal"⟩ "type A int;" = .ok d ∧ d.tree.imports = [] ∧
      StandsAlone (ofDescriptor "A" "int; import c/d") m t ∧
      (edit d (ofDescriptor "A" "int; import c/d")).apply "type A int;" =
        some "type A int; import c/d;" ∧
      Document.parse ⟨"main.bal"⟩ "type A int; import c/d;" = .ok d' ∧
      d'.tree.imports ≠ [] := by
  have halone : (alone? (ofDescriptor "A" "int;")).isSome ∧
      (alone? (ofDescriptor "A" "int; import c/d")).isSome := by
    decide +kernel
  obtain ⟨⟨m, t⟩, hfound⟩ := Option.isSome_iff_exists.mp halone.1
  obtain ⟨⟨m₁, t₁⟩, hfound₁⟩ := Option.isSome_iff_exists.mp halone.2
  have hcheck : (Document.parse ⟨"main.bal"⟩ "type A int;").toOption.any fun d =>
      d.tree.imports.length = 0 ∧
      (edit d (ofDescriptor "A" "int;")).apply "type A int;" = some "type A int;;" ∧
      (edit d (ofDescriptor "A" "int; import c/d")).apply "type A int;" =
        some "type A int; import c/d;" := by
    decide +kernel
  obtain ⟨d, hd, htexts⟩ := exists_ok_of_any hcheck
  obtain ⟨himports, htext, htext₁⟩ := of_decide_eq_true htexts
  have hcheck' : (Document.parse ⟨"main.bal"⟩ "type A int;;").toOption.any fun d =>
      (edit d (ofDescriptor "A" "int;")).apply "type A int;;" = some "type A int;;;" := by
    decide +kernel
  obtain ⟨d', hd', hagain⟩ := exists_ok_of_any hcheck'
  have hcheck₁ : (Document.parse ⟨"main.bal"⟩ "type A int; import c/d;").toOption.any fun d =>
      d.tree.imports.length = 1 := by
    decide +kernel
  obtain ⟨d₁, hd₁, himports₁⟩ := exists_ok_of_any hcheck₁
  have hone := of_decide_eq_true himports₁
  refine ⟨⟨d, d', m, t, hd, standsAlone_of_alone? hfound, htext, hd', of_decide_eq_true hagain⟩,
    d, d₁, m₁, t₁, hd, List.length_eq_zero_iff.mp himports, standsAlone_of_alone? hfound₁, htext₁,
    hd₁, fun hnil => ?_⟩
  simp [hnil] at hone

end TypeData

end FlowCanvas
