import FlowCanvas.Proofs.EditedTexts
import FlowCanvas.Proofs.Requirements

/-!
# Calls that an editor puts in

The node of a call may come from an editor, with texts of its own in its properties. If its names
are no keywords and the texts of its arguments are read one by one, its text is read as the call
that the node describes, bound or returned as the node says.
-/

namespace FlowCanvas

namespace Text

/-! ### Trimmed texts -/

open Lexer

lemma trimmed_trimChars (cs : List Char) : trimChars cs = [] ∨ Trimmed (trimChars cs) := by
  have htrim : trimChars cs = Lexer.trimEnd (cs.dropWhile isBlank) := rfl
  obtain ⟨blanks, happend, -⟩ := trimEnd_prefix (cs.dropWhile isBlank)
  rw [← htrim] at happend
  rcases h : trimChars cs with _ | ⟨c, rest⟩
  · exact .inl rfl
  · rw [h] at happend htrim
    refine .inr ⟨⟨c, rfl, @head_dropBlanks cs c (by rw [happend]; rfl)⟩, ?_⟩
    obtain ⟨d, hd⟩ : ∃ d, (c :: rest).getLast? = some d :=
      ⟨_, List.getLast?_eq_some_getLast (by simp)⟩
    refine ⟨d, hd, @head_dropBlanks (cs.dropWhile isBlank).reverse d ?_⟩
    rwa [htrim, Lexer.trimEnd, List.getLast?_reverse] at hd

/-- A text that is trimmed once is trimmed. -/
lemma trim_trim (text : String) : trim (trim text) = trim text := by
  have hchars : trimChars (trimChars text.toList) = trimChars text.toList := by
    rcases trimmed_trimChars text.toList with h | h
    · rw [h]
      rfl
    · exact h.trimChars
  rw [trim, trim, String.toList_ofList, hchars]

end Text

namespace Write

open Lexer Brackets Argument

/-! ### Arguments without blanks around them -/

/-- A property with its text trimmed. -/
def trimmed (p : Property) : Property := p.withText (Text.trim p.sourceText)

/-- A piece with its text trimmed, if it is an expression. -/
def trimmedPiece : Piece → Piece
  | .expression text => .expression (Text.trim text)
  | p => p

lemma writeOn_trimmed (xs : List Char) (ps : List Piece) :
    Piece.writeOn xs (ps.map trimmedPiece) = Piece.writeOn xs ps := by
  have hwrite : ∀ out p, Piece.write out (trimmedPiece p) = Piece.write out p := by
    intro out p
    cases p <;> simp [trimmedPiece, Piece.write, Text.trim_trim]
  have hfold : ∀ out, (ps.map trimmedPiece).foldl Piece.write out = ps.foldl Piece.write out := by
    induction ps with
    | nil => exact fun _ => rfl
    | cons p ps ih =>
      intro out
      rw [List.map_cons, List.foldl_cons, List.foldl_cons, hwrite, ih]
  simp [Piece.writeOn, hfold]

lemma commaSeparated_map (f : Piece → Piece) (hcomma : f (.mark .comma) = .mark .comma) :
    ∀ list : List (List Piece),
      commaSeparated (list.map (·.map f)) = (commaSeparated list).map f
  | [] => rfl
  | [ps] => rfl
  | ps :: qs :: rest => by
    have hrest := commaSeparated_map f hcomma (qs :: rest)
    simp only [List.map_cons, commaSeparated, List.map_append, hcomma] at hrest ⊢
    rw [hrest]

lemma argument_trimmed (p : Property) : argument (trimmed p) = (argument p).map trimmedPiece := by
  have hoptional : (trimmed p).optional = p.optional := rfl
  rw [argument, argument, hoptional]
  split <;> rfl

/-- Arguments are written like the ones with trimmed texts. -/
lemma writesGroup_of_trimmed {n : FlowNode} (h : ∀ p ∈ argumentProperties n, Writable (trimmed p)) :
    WritesGroup (arguments n) (argumentsLexemes ((argumentProperties n).map trimmed)) := by
  have hwritable : ∀ q ∈ (argumentProperties n).map trimmed, Writable q := by
    intro q hq
    obtain ⟨p, hp, rfl⟩ := List.mem_map.mp hq
    exact h p hp
  have hgroup : commaSeparated (((argumentProperties n).map trimmed).map argument) =
      (commaSeparated ((argumentProperties n).map argument)).map trimmedPiece := by
    rw [← commaSeparated_map trimmedPiece rfl, List.map_map, List.map_map]
    exact congrArg commaSeparated (List.map_congr_left fun p _ => argument_trimmed p)
  refine ⟨_, fun rest hrest => run_arguments hwritable rest hrest, fun xs hxs => ?_⟩
  rw [← writeOn_group hwritable hxs, ← writeOn_trimmed, hgroup]
  simp [arguments, trimmedPiece]

/-! ### What a call node describes -/

/-- The properties that are given as arguments. -/
def givenProperties (n : FlowNode) : List Property :=
  n.properties.entries.filter fun p => !p.isStructural && !p.isBlank

/-- The arguments that a node describes: the required ones by place, then the optional ones by their
names. -/
def describedArguments (n : FlowNode) : List (Option String × List Lexeme) :=
  ((givenProperties n).filter (!·.optional)).map (fun p => (none, lexemesOf p.sourceText)) ++
    ((givenProperties n).filter (·.optional)).map fun p => (some p.key, lexemesOf p.sourceText)

/-- What a node calls: its symbol, or the label of an action without one. -/
def operation? (n : FlowNode) : Option String :=
  if n.kind = .actionCall then nonEmpty n.codedata.symbol <|> nonEmpty (some n.metadata.label)
  else nonEmpty n.codedata.symbol

/-- The callee that a node describes. -/
def callee? (n : FlowNode) : Option Callee :=
  if n.kind = .actionCall then
    (n.properties.text? "connection").bind fun connection =>
      (operation? n).map (.action (lexemesOf connection))
  else (operation? n).map (.function n.codedata.qualifier?)

/-- The variable that a node binds. -/
def bound? (n : FlowNode) : Option String :=
  if n.returning then none else n.properties.text? "variable"

/-- A call node whose names are no keywords and whose arguments are read one by one. -/
structure PlainCall (n : FlowNode) : Prop where
  operation : ∀ name ∈ operation? n, Parser.isPlainName name
  qualifier : n.kind = .functionCall → ∀ q ∈ n.codedata.qualifier?, Parser.isPlainName q
  connection : n.kind = .actionCall → ∀ text ∈ n.properties.text? "connection",
    ∃ first names, (∀ name ∈ first :: names, Parser.isPlainName name) ∧
      text = String.intercalate "." (first :: names)
  bound : ∀ name ∈ bound? n, Parser.isPlainName name
  type : (bound? n).isSome → Parser.IsPlainType (typeText n)
  argument : ∀ p ∈ givenProperties n, ∃ ts, ArgumentText p.sourceText ts
  key : ∀ p ∈ givenProperties n, p.optional → Parser.isPlainName p.key

/-- A statement is of the form that a node describes: it returns, declares the variable or is an
expression. -/
def HasForm (n : FlowNode) : Statement → Prop
  | .exit .return _ _ => n.returning
  | .declaration d =>
    bound? n = some d.name ∧ d.type.lexemes = lexemesOf (typeText n) ∧
      d.isFinal = n.hasFlag .final ∧ d.annotations = []
  | .expression _ _ => n.returning = false ∧ bound? n = none
  | _ => False

/-- A statement runs the call that a node describes. -/
structure Describes (n : FlowNode) (s : Statement) : Prop where
  form : HasForm n s
  wrapper : s.modifiers.wrapper? = if n.hasFlag .checked then some false else none
  called : ∃ callee arguments, callee? n = some callee ∧ s.called? = some (callee, arguments) ∧
    arguments.map Argument.parts = describedArguments n

/-! ### Arguments -/

lemma lexemesOf_trimmed {p : Property} {ts : Phrase} (h : ArgumentText p.sourceText ts) :
    lexemesOf (trimmed p).sourceText = ts.lexemes ∧ lexemesOf p.sourceText = ts.lexemes := by
  refine ⟨h.legible.lexemesOf, ?_⟩
  simp only [lexemesOf, h.tokens]

/-- A property with the text of an argument can be written and is read as one argument. -/
lemma separable_trimmed {p : Property} {ts : Phrase} (h : ArgumentText p.sourceText ts)
    (hkey : p.optional → Parser.isPlainName p.key) : Separable (trimmed p) := by
  obtain ⟨htrimmed, -⟩ := lexemesOf_trimmed h
  refine ⟨⟨?_, fun hoptional => Parser.isName_of_isPlainName (hkey hoptional)⟩, fun us hus => ?_⟩
  · rw [htrimmed]
    exact h.legible
  · rw [htrimmed] at hus
    have halike : ts.Alike us := Phrase.alike_iff.mpr hus.symm
    exact ⟨halike.ne_nil h.ne_nil, halike.free h.free⟩

lemma not_looksNamed {text : String} {ts : Phrase} (h : ArgumentText text ts) :
    looksNamed ts.lexemes = false := by
  have hunnamed := h.unnamed
  match ts with
  | [] => rfl
  | [_] => rfl
  | [_, _] => rfl
  | t :: u :: v :: us =>
    have hne : u.text ≠ "=" := hunnamed u rfl
    simp [looksNamed, hne]

/-- A written argument is read back with its name, if it has one, and its tokens. -/
lemma partsOf_trimmed {p : Property} {ts : Phrase} (h : ArgumentText p.sourceText ts) :
    partsOf (argumentLexemes (trimmed p)) =
      (if p.optional then some p.key else none, lexemesOf p.sourceText) := by
  obtain ⟨htrimmed, hplain⟩ := lexemesOf_trimmed h
  have hoptional : (trimmed p).optional = p.optional := rfl
  rw [argumentLexemes, hoptional, htrimmed, hplain]
  cases p.optional with
  | false => simp [partsOf, valueOf, not_looksNamed h]
  | true =>
    obtain ⟨t, us, rfl⟩ := List.exists_cons_of_ne_nil h.ne_nil
    simp [partsOf, valueOf, looksNamed, trimmed, Property.withText, Property.withValue]

section Described

variable {n : FlowNode}

lemma given_of_argument {p : Property} (h : p ∈ argumentProperties n) : p ∈ givenProperties n := by
  rcases List.mem_append.mp h with hmem | hmem
  · exact (List.mem_filter.mp hmem).1
  · exact (List.mem_filter.mp hmem).1

lemma PlainCall.separable (h : PlainCall n) :
    ∀ p ∈ (argumentProperties n).map trimmed, Separable p := by
  intro q hq
  obtain ⟨p, hp, rfl⟩ := List.mem_map.mp hq
  have hgiven := given_of_argument hp
  obtain ⟨ts, hts⟩ := h.argument p hgiven
  exact separable_trimmed hts (h.key p hgiven)

/-- What is read from the written arguments is what the node describes. -/
lemma PlainCall.parts (h : PlainCall n) :
    ((argumentProperties n).map trimmed).map (fun p => partsOf (argumentLexemes p)) =
      describedArguments n := by
  have hparts : ∀ p ∈ argumentProperties n, partsOf (argumentLexemes (trimmed p)) =
      (if p.optional then some p.key else none, lexemesOf p.sourceText) := by
    intro p hp
    obtain ⟨ts, hts⟩ := h.argument p (given_of_argument hp)
    exact partsOf_trimmed hts
  rw [List.map_map]
  refine (List.map_congr_left hparts).trans ?_
  have hsplit : argumentProperties n =
      (givenProperties n).filter (!·.optional) ++ (givenProperties n).filter (·.optional) := rfl
  rw [hsplit, List.map_append, describedArguments]
  congr 1
  · refine List.map_congr_left fun p hp => ?_
    simpa using (List.mem_filter.mp hp).2
  · refine List.map_congr_left fun p hp => ?_
    simp [(List.mem_filter.mp hp).2]

/-! ### The text -/

lemma text?_of_bound {name : String} (h : bound? n = some name) :
    n.properties.text? "variable" = some name := by
  unfold bound? at h
  split at h
  · simp at h
  · exact h

/-- A bound variable and its type can be read. -/
lemma PlainCall.led (h : PlainCall n) {name : String} (hbound : bound? n = some name) :
    IsName name ∧ Led n := by
  have hname : Legible name.toList [(.identifier, name)] :=
    Parser.isName_of_isPlainName (h.bound name hbound)
  have hvariable := text?_of_bound hbound
  obtain ⟨qualifier, type, marks, hmarks, hqualifier, htype, htext⟩ := h.type (by simp [hbound])
  have hlegible := Parser.legible_type hqualifier htype hmarks
  rw [← htext] at hlegible
  refine ⟨hname, fun other hother => ?_, hlegible.lexemesOf ▸ hlegible⟩
  obtain rfl := Option.some.inj (hvariable.symm.trans hother)
  rw [hname.lexemesOf]
  exact hname

/-- What leads a call is written as its lexemes. -/
lemma PlainCall.writesLead (h : PlainCall n) : WritesLead (callLead n) (leadLexemes n) := by
  refine WritesLead.append ?_ (writesLead_wordIf n .checked (by decide))
  cases hreturning : n.returning with
  | true => exact writesLead_word (show Mark.return ∈ Mark.words by decide)
  | false =>
    rw [if_neg (by simp), if_neg (by simp)]
    cases hname : n.properties.text? "variable" with
    | none =>
      rw [binding, bindingLexemes, hname]
      exact .nil
    | some name =>
      have hbound : bound? n = some name := by simp [bound?, hreturning, hname]
      exact (h.led hbound).2.binding

/-- The callee that a node describes is written as its lexemes. -/
lemma PlainCall.writesCallee (h : PlainCall n) (hkind : n.kind ∈ Analysis.callKinds)
    {text : String} (htext : (Builders.standard.written n).text = .ok text) :
    ∃ callee pieces, callee? n = some callee ∧ Parser.IsPlainCallee callee ∧
      WritesCallee pieces callee.lexemes ∧
      statement n (Builders.standard.writtenBranches n.branches) =
        .ok (callLead n ++ pieces ++ arguments n ++ [.semicolon]) := by
  rw [Analysis.written_text] at htext
  rcases List.mem_pair.mp hkind with hfunction | haction
  · have haction : n.kind ≠ .actionCall := by simp [hfunction]
    have hoperation : operation? n = nonEmpty n.codedata.symbol := if_neg haction
    cases hsymbol : nonEmpty n.codedata.symbol with
    | none => simp [statement, hfunction, functionCall, hsymbol, Except.map] at htext
    | some name =>
      have hname := h.operation name (hoperation.trans hsymbol)
      refine ⟨.function n.codedata.qualifier? name,
        [.name (functionText name n.codedata.qualifier?)],
        by simp [callee?, haction, hoperation, hsymbol], .function (h.qualifier hfunction) hname,
        writesCallee_function
          (fun q hq => Parser.isName_of_isPlainName (h.qualifier hfunction q hq))
          (Parser.isName_of_isPlainName hname), ?_⟩
      simp only [statement, hfunction, functionCall, hsymbol]
      cases n.codedata.qualifier? <;> rfl
  · have haction : n.kind = .actionCall := by simpa using haction
    have hoperation : operation? n =
        (nonEmpty n.codedata.symbol <|> nonEmpty (some n.metadata.label)) := if_pos haction
    have hrequire : require n "connection" = n.properties.require n.kind "connection" := rfl
    cases hconnection : n.properties.text? "connection" with
    | none =>
      simp [statement, haction, actionCall, hrequire, PropertyBag.require, hconnection, bind,
        Except.bind, Except.map] at htext
    | some connection =>
      obtain ⟨first, names, hnames, rfl⟩ := h.connection haction connection hconnection
      have hpath := legible_path fun name hname => (Bool.and_eq_true _ _ ▸ hnames name hname).1
      cases hmethod : (nonEmpty n.codedata.symbol <|> nonEmpty (some n.metadata.label)) with
      | none =>
        simp [statement, haction, actionCall, hrequire, PropertyBag.require, hconnection, hmethod,
          bind, Except.bind, Except.map] at htext
      | some method =>
        have hname := h.operation method (hoperation.trans hmethod)
        refine ⟨.action (pathLexemes (first :: names)) method, _, ?_, .action hnames hname,
          writesCallee_action hpath (Parser.isName_of_isPlainName hname), ?_⟩
        · simp [callee?, haction, hconnection, hoperation, hmethod, hpath.lexemesOf]
        · simp only [statement, haction, actionCall, hrequire, PropertyBag.require, hconnection,
            hmethod]
          rfl

/-! ### The statement that is read -/

open Analysis FlowCanvas.Parser

/-- The lexemes that bind a variable are read as its declaration. -/
lemma PlainCall.spells_bound (h : PlainCall n) {name : String} (hbound : bound? n = some name)
    {lead rest : Phrase} {semicolon : Token} {e : Expression}
    (hlead : lead.lexemes = bindingLexemes n) (he : Free ";" e.tokens)
    (hsemicolon : semicolon.is ";") :
    ∃ d, Spells (.declaration d) (lead ++ (e.tokens ++ [semicolon])) rest ∧
      d.initializer = some e ∧ HasForm n (.declaration d) := by
  obtain ⟨hname, -⟩ := h.led hbound
  have hvariable := text?_of_bound hbound
  obtain ⟨qualifier, type, marks, hmarks, hqualifier, htype, htext⟩ := h.type (by simp [hbound])
  have htypeLexemes :
      lexemesOf (typeText n) = (Callee.function qualifier type).lexemes ++ marks.2 := by
    rw [htext]
    exact (legible_type hqualifier htype hmarks).lexemesOf
  have hnameLexemes : lexemesOf name = [(.identifier, name)] := Legible.lexemesOf hname
  rw [bindingLexemes, hvariable] at hlead
  dsimp only at hlead
  rw [hnameLexemes] at hlead
  obtain ⟨finals, typed, rfl, hfinals, htyped⟩ := Phrase.lexemes_eq_append hlead
  obtain ⟨type', ends, rfl, htype', hends⟩ := Phrase.lexemes_eq_append htyped
  obtain ⟨name', equals, rfl, hname', hequals⟩ := Phrase.lexemes_eq_cons hends
  obtain ⟨equal, none, rfl, hequal, hnone⟩ := Phrase.lexemes_eq_cons hequals
  obtain rfl : none = [] := List.map_eq_nil_iff.mp hnone
  have hdeclares : LeftSide (n.hasFlag .final) type' name' :=
    declares_of_type hqualifier htype hmarks (htype'.trans htypeLexemes)
      (isPlain_of_lexeme (h.bound name hbound) hname') _
  obtain ⟨span, hspells⟩ := Analysis.spells_bound hdeclares hfinals hequal he hsemicolon
  refine ⟨_, hspells, rfl, ?_, htype', ?_, rfl⟩
  · rw [hbound, (Prod.mk.inj hname').2]
  · cases n.hasFlag .final <;> rfl

/-- What is spelled like the text of a call node is the statement that the node describes. -/
lemma PlainCall.spells (h : PlainCall n) {callee : Callee} (hcallee : callee? n = some callee)
    (hplain : IsPlainCallee callee) {ts : Phrase} (hsource : Sourced ts)
    (hts : ts.lexemes = leadLexemes n ++ (callee.lexemes ++ (.punctuation, "(") ::
      (argumentsLexemes ((argumentProperties n).map trimmed) ++ [(.punctuation, ")")])) ++
        [(.punctuation, ";")]) (rest : Phrase) :
    ∃ s, Spells s ts rest ∧ Describes n s := by
  have hparts : ts.lexemes =
      (if n.returning then [(.identifier, "return")] else bindingLexemes n) ++
      (callLexemes callee (n.hasFlag .checked)
        (argumentsLexemes ((argumentProperties n).map trimmed)) ++ [(.punctuation, ";")]) := by
    rw [hts, leadLexemes, callLexemes, wordLexemes]
    simp [Mark.text]
  obtain ⟨lead, tail, rfl, hlead, htail⟩ := Phrase.lexemes_eq_append hparts
  obtain ⟨body, ends, rfl, hbody, hends⟩ := Phrase.lexemes_eq_append htail
  obtain ⟨semicolon, none, rfl, hsemicolon, hnone⟩ := Phrase.lexemes_eq_cons hends
  obtain rfl : none = [] := List.map_eq_nil_iff.mp hnone
  have hgroup : ∀ us : Phrase, us <:+: body →
      us.lexemes = argumentsLexemes ((argumentProperties n).map trimmed) →
      Matched us ∧ (listOf us).map Argument.parts = describedArguments n := by
    intro us hus hargs
    have hread :=
      parts_of_lexemes h.separable (Argument.Sourced.within hsource.right.left hus) hargs
    rwa [h.parts] at hread
  obtain ⟨e, phrase, inner, rfl, hphrase, hinner, hargs, hcall⟩ :=
    readsCall_of_lexemes hbody (fun phrase hphrase => by
      obtain ⟨hspells, hhead⟩ := hplain.spells hphrase
      exact ⟨hspells, fun t ht => (hhead t ht).not_isWord (by decide)⟩)
      fun us hus hargs => (hgroup us hus hargs).1
  have hend : semicolon.is ";" := by simp [Token.is, Prod.mk.inj hsemicolon]
  have hfree : Free ";" e.tokens :=
    hcall.free ";" (by decide) (hplain.free (by decide) (by decide) hphrase)
  have hdescribes : ∀ s : Statement, HasForm n s → s.operand? = some e → Describes n s := by
    intro s hform hoperand
    refine ⟨hform, ?_, callee, _, hcallee, by simp [Statement.called?, hoperand, hcall.called],
      (hgroup inner hinner hargs).2⟩
    rw [Statement.modifiers_wrapper?, hoperand]
    exact hcall.wrapper
  cases hreturning : n.returning with
  | true =>
    rw [if_pos hreturning] at hlead
    obtain ⟨word, none, rfl, hword, hnone'⟩ := Phrase.lexemes_eq_cons hlead
    obtain rfl : none = [] := List.map_eq_nil_iff.mp hnone'
    have hreturn : word.isWord [ExitKind.return.word] := by
      simp [Token.isWord, Token.isIdentifier, Prod.mk.inj hword, ExitKind.word]
    have hspells := @SpellsLeaf.exit .return word semicolon (some e) rest hreturn hfree hend
      (fun _ => rfl)
    exact ⟨_, .leaf hspells, hdescribes _ hreturning rfl⟩
  | false =>
    rw [if_neg (by simp [hreturning])] at hlead
    cases hbound : bound? n with
    | none =>
      have hvariable : n.properties.text? "variable" = none := by
        simpa [bound?, hreturning] using hbound
      rw [bindingLexemes, hvariable] at hlead
      obtain rfl : lead = [] := List.map_eq_nil_iff.mp hlead
      have hequal : Free "=" e.tokens :=
        hcall.free "=" (by decide) (hplain.free (by decide) (by decide) hphrase)
      have hfirst := hcall.leads fun _ t ht => ((hplain.spells hphrase).2 t ht).leads
      have hspells := @SpellsLeaf.expression semicolon rest e hfirst hfree hend hequal hcall.looks
      exact ⟨_, .leaf hspells, hdescribes _ ⟨hreturning, hbound⟩ rfl⟩
    | some name =>
      obtain ⟨d, hspells, hvalue, hform⟩ := h.spells_bound hbound hlead hfree hend
      exact ⟨_, hspells, hdescribes _ hform hvalue⟩

end Described

/-- The text of a call node whose names are no keywords and whose arguments are read one by one is
read in a body as one statement: the one that the node describes. -/
theorem toSource_describes {n : FlowNode} (hkind : n.kind ∈ Analysis.callKinds) (h : PlainCall n)
    {file : Path} {connectionsFile : String} {edits : FileEdits}
    (hedits : Builders.standard.toSource n file connectionsFile = .ok edits) :
    ∃ e s, edits = [(file.text, [e])] ∧ Parser.statementsOf? e.newText = some [s] ∧
      Describes n s := by
  obtain ⟨found, text, htarget, htext, rfl⟩ := toSource_eq_ok hedits
  obtain ⟨callee, pieces, hcallee, hplain, hpieces, hstatement⟩ := h.writesCallee hkind htext
  have hwritable : ∀ p ∈ argumentProperties n, Writable (trimmed p) := fun p hp =>
    (h.separable _ (List.mem_map_of_mem hp)).writable
  obtain ⟨text', htext', hreads⟩ :=
    reads_pieces hstatement h.writesLead hpieces (writesGroup_of_trimmed hwritable)
  obtain rfl : text = text' := Except.ok.inj (htext.symm.trans htext')
  obtain ⟨ts, close, hts, hsource, hread⟩ := Parser.statementsOf?_of_reads hreads
  obtain ⟨s, hspells, hdescribes⟩ := h.spells hcallee hplain hsource hts [close]
  have hfile : found.path file = file := by
    refine path_of_target htarget (fun hglobal => ?_) file
    rw [hglobal.1] at hkind
    exact absurd hkind (by decide)
  refine ⟨.ofNode n.codedata found text, s, by rw [FileEdits.single, hfile], ?_, hdescribes⟩
  rw [newText_ofNode]
  exact hread s hspells

/-- A remote call with a required argument and an optional one, bound to a final variable. -/
def remoteCall : FlowNode where
  id := none
  kind := .actionCall
  metadata := .empty
  codedata := { node := .actionCall, symbol := some "post" }
  properties := .ofList [
    .ofConnection "self.client", .ofVariable "answer", .ofType "http:Response?",
    ((Property.plain "headers" "Headers" .expression).withText
      " \x7bid: [1, 2], f(\"a,b\")\x7d ").asOptional true,
    (Property.plain "path" "Path" .expression).withText "\"/orders\" + key"]
  branches := []
  flags := (Flags.none.insert .checked).insert .final

/-- The text of a remote call is read as that call. -/
theorem toSource_describes_remote :
    remoteCall.kind ∈ Analysis.callKinds ∧ PlainCall remoteCall ∧
      ∃ edits e s,
        Builders.standard.toSource remoteCall ⟨"main.bal"⟩ "connections.bal" = .ok edits ∧
        edits = [("main.bal", [e])] ∧ Parser.statementsOf? e.newText = some [s] ∧
        Describes remoteCall s := by
  have hplain : PlainCall remoteCall := by
    have hconnection : remoteCall.properties.text? "connection" = some "self.client" := by
      decide +kernel
    refine ⟨by decide +kernel, by decide +kernel, fun _ text htext => ?_, by decide +kernel,
      fun _ => ?_, by decide +kernel, by decide +kernel⟩
    · obtain rfl := Option.some.inj (hconnection.symm.trans htext)
      exact ⟨"self", ["client"], by decide +kernel, by decide +kernel⟩
    · exact ⟨some "http", "Response", ("?", [(.punctuation, "?")]), by decide +kernel,
        by decide +kernel, by decide +kernel, by decide +kernel⟩
  have hok :
      (Builders.standard.toSource remoteCall ⟨"main.bal"⟩ "connections.bal").isOk = true := by
    decide +kernel
  cases hedits : Builders.standard.toSource remoteCall ⟨"main.bal"⟩ "connections.bal" with
  | error e => simp [hedits, Except.isOk, Except.toBool] at hok
  | ok edits =>
    obtain ⟨e, s, hfile, hread, hdescribes⟩ := toSource_describes (by decide) hplain hedits
    exact ⟨by decide, hplain, edits, e, s, rfl, hfile, hread, hdescribes⟩

end Write

end FlowCanvas
