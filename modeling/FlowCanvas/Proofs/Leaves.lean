import FlowCanvas.Proofs.Remains

/-!
# Statements without blocks and calls

The node of such a statement is written with the tokens of the statement: the texts of its parts are
slices of the source, and the marks between them are the ones the statement was read by.
-/

namespace FlowCanvas

namespace Lexer

/-- Tokens that stand next to each other in some source. -/
def Sourced (ts : Phrase) : Prop := ∃ here cs rest, Scanned here cs ts rest

lemma Sourced.left {ts us : Phrase} (h : Sourced (ts ++ us)) : Sourced ts := by
  obtain ⟨here, cs, rest, hscanned⟩ := h
  obtain ⟨xs, ys, rfl, hxs, -⟩ := hscanned.split
  exact ⟨here, xs, ys ++ rest, hxs⟩

lemma Sourced.right {ts us : Phrase} (h : Sourced (ts ++ us)) : Sourced us := by
  obtain ⟨here, cs, rest, hscanned⟩ := h
  obtain ⟨xs, ys, rfl, -, hys⟩ := hscanned.split
  exact ⟨here.advance xs, ys, rest, hys⟩

/-- The text of tokens of a source is read as these tokens. -/
lemma Sourced.legible {ts : Phrase} (h : Sourced ts) (hne : ts ≠ []) :
    Legible (Phrase.text ts).toList ts.lexemes := by
  obtain ⟨here, cs, rest, hscanned⟩ := h
  exact ⟨fun rest' hsafe => hscanned.text_run.of_safe hsafe, hscanned.trimmed hne⟩

lemma Starts.isPunctuation {kind : TokenKind} {c : Char} {cs rest : List Char}
    (h : Starts kind (c :: cs) rest) (hquote : (c == '"' || c == '\x60') = false)
    (hdigit : c.isDigit = false) (hword : isWordStart c = false) : kind = .punctuation := by
  obtain ⟨-, d, ds, heq, hsplit⟩ := h
  obtain ⟨rfl, rfl⟩ := List.cons.inj heq
  rw [splitToken, hquote, hdigit, hword] at hsplit
  simp only [Bool.false_eq_true, if_false] at hsplit
  split at hsplit
  · simp only [Except.ok.injEq, Prod.mk.injEq] at hsplit
    exact hsplit.1.symm
  · simp at hsplit

end Lexer

/-- What is spelled like a mark is one. -/
lemma Token.Lexed.mark {t : Token} (h : t.Lexed) {mark : String} (his : t.is mark)
    (hmark : mark ∈ Lexer.marks) : (t.kind, t.text) = (.punctuation, mark) := by
  obtain ⟨left, hstart⟩ := h
  obtain ⟨c, hhead, -, hquote, hquote', hdigit, hword⟩ := Lexer.marks_heads mark hmark
  obtain ⟨cs, hcs⟩ := List.head?_eq_some_iff.mp hhead
  simp only [Token.is, Bool.and_eq_true, beq_iff_eq] at his
  rw [his.2, hcs] at hstart
  rw [hstart.isPunctuation (by simp [hquote, hquote']) hdigit hword, his.2]

namespace Lexer

lemma Sourced.lexed {ts : Phrase} (h : Sourced ts) {t : Token} (ht : t ∈ ts) : t.Lexed := by
  obtain ⟨here, cs, rest, hscanned⟩ := h
  exact hscanned.mem ht

lemma Sourced.mark {ts : Phrase} (h : Sourced ts) {t : Token} (ht : t ∈ ts) {mark : String}
    (his : t.is mark) (hmark : mark ∈ marks) : (t.kind, t.text) = (.punctuation, mark) :=
  (h.lexed ht).mark his hmark

lemma Sourced.word {ts : Phrase} (h : Sourced ts) {t : Token} (ht : t ∈ ts) {word : String}
    (his : t.is word) {c : Char} {cs : List Char} (hword : word.toList = c :: cs)
    (halpha : c.isAlpha) : (t.kind, t.text) = (.identifier, word) := by
  obtain ⟨here, cs', rest, hscanned⟩ := h
  obtain ⟨left, hstart⟩ := hscanned.mem ht
  simp only [Token.is, Bool.and_eq_true, beq_iff_eq] at his
  rw [his.2, hword] at hstart
  rw [hstart.isIdentifier halpha, his.2]

lemma Sourced.semicolon {ts : Phrase} (h : Sourced ts) {t : Token} (ht : t ∈ ts)
    (his : t.is ";") : (t.kind, t.text) = (.punctuation, ";") :=
  h.mark ht his (by decide)

lemma Sourced.equal {ts : Phrase} (h : Sourced ts) {t : Token} (ht : t ∈ ts)
    (his : t.is "=") : (t.kind, t.text) = (.punctuation, "=") :=
  h.mark ht his (by decide)

/-! ### Texts of parts -/

/-- Two texts with a blank between them. -/
lemma Legible.spaced {xs ys : List Char} {ls ms : List Lexeme} (hx : Legible xs ls)
    (hy : Legible ys ms) : Legible (xs ++ ' ' :: ys) (ls ++ ms) := by
  refine ⟨fun rest hrest => (hx.run _ (safe_cons (by decide) _)).append (hy.space hrest), ?_, ?_⟩
  · obtain ⟨c, hc, hblank⟩ := hx.trimmed.head
    obtain ⟨cs, rfl⟩ := List.head?_eq_some_iff.mp hc
    exact ⟨c, rfl, hblank⟩
  · obtain ⟨c, hc, hblank⟩ := hy.trimmed.last
    exact ⟨c, by simp [List.getLast?_append, List.getLast?_cons, hc], hblank⟩

/-- A text with a semicolon behind it. -/
lemma Legible.semicolon {text : List Char} {ls : List Lexeme} (h : Legible text ls) :
    Reads (text ++ [';']) (ls ++ [(.punctuation, ";")]) := by
  refine ⟨fun rest => (h.run _ (safe_cons (by decide) rest)).append (run_semicolon rest), ?_, ?_⟩
  · obtain ⟨c, hc, hblank⟩ := h.trimmed.head
    obtain ⟨cs, rfl⟩ := List.head?_eq_some_iff.mp hc
    exact ⟨c, rfl, hblank⟩
  · exact ⟨';', by simp, by decide⟩

lemma legible_equal : Legible ['='] [(.punctuation, "=")] := by
  refine ⟨fun rest hrest => ?_, ⟨'=', rfl, by decide⟩, ⟨'=', rfl, by decide⟩⟩
  exact (run_equal []).of_safe hrest

/-- Two texts with an equality mark between them. -/
lemma Legible.equal {xs ys : List Char} {ls ms : List Lexeme} (hx : Legible xs ls)
    (hy : Legible ys ms) :
    Legible (xs ++ [' ', '=', ' '] ++ ys) (ls ++ (.punctuation, "=") :: ms) := by
  simpa using hx.spaced (legible_equal.spaced hy)

lemma legible_word {m : Mark} (hm : m ∈ Mark.words) :
    Legible m.text.toList [(.identifier, m.text)] := by
  refine ⟨fun rest hrest => run_word hm hrest, ?_, ?_⟩
  · cases m <;> simp [Mark.words] at hm <;> exact ⟨_, rfl, by decide⟩
  · cases m <;> simp [Mark.words] at hm <;> exact ⟨_, rfl, by decide⟩

lemma Sourced.token {t : Token} (h : Sourced [t]) :
    Legible t.text.toList [(t.kind, t.text)] := by
  simpa [Phrase.text, Phrase.tail] using h.legible (by simp)

/-- A text that starts like another one, up to a place where every token has ended. -/
def StartsLike (text source : List Char) : Prop :=
  ∃ front back back', source = front ++ back ∧ text = front ++ back' ∧ back' ≠ [] ∧ Safe back'

lemma StartsLike.tame {text source : List Char} (h : StartsLike text source) (rest : List Char) :
    Tame (source ++ rest) (text ++ rest) := by
  obtain ⟨front, back, back', rfl, rfl, hne, hsafe⟩ := h
  rw [List.append_assoc, List.append_assoc]
  refine Tame.append (Safe.tame ?_ _) front
  obtain ⟨c, cs, rfl⟩ := List.exists_cons_of_ne_nil hne
  exact hsafe

lemma startsLike_text {ts : Phrase} (hne : ts ≠ []) (us : Phrase) {c : Char} (hc : isBreak c)
    (cs : List Char) :
    StartsLike ((Phrase.text ts).toList ++ c :: cs) (Phrase.text (ts ++ us)).toList := by
  obtain ⟨t, ts, rfl⟩ := List.exists_cons_of_ne_nil hne
  refine ⟨_, (Phrase.tail us).toList, c :: cs, ?_, rfl, by simp, safe_cons hc cs⟩
  simp [Phrase.text_cons, Phrase.tail_append]

lemma startsLike_word {t : Token} (ts : Phrase) {c : Char} (hc : isBreak c) (cs : List Char) :
    StartsLike (t.text.toList ++ c :: cs) (Phrase.text (t :: ts)).toList := by
  have hlike := startsLike_text (show [t] ≠ [] by simp) ts hc cs
  simpa [Phrase.text, Phrase.tail] using hlike

end Lexer

namespace Analysis

open Lexer FlowCanvas.Parser

/-! ### Nodes of leaves -/

/-- The text of a node is read as some tokens, and starts like them. -/
structure Restores (n : FlowNode) (ts : Phrase) : Prop where
  kind : n.kind ∉ [NodeKind.if, .while]
  written : ∃ text, (Builders.standard.written n).text = .ok text ∧
    Reads text.toList ts.lexemes ∧ StartsLike text.toList (Phrase.text ts).toList

lemma restores_of_pieces {n : FlowNode} {pieces : List Piece} {text : List Char} {ts : Phrase}
    (hkind : n.kind ∉ [NodeKind.if, .while])
    (hpieces : Write.statement n (Builders.standard.writtenBranches n.branches) = .ok pieces)
    (htext : Piece.writeOn [] pieces = text) (hreads : Reads text ts.lexemes)
    (hlike : StartsLike text (Phrase.text ts).toList) : Restores n ts := by
  refine ⟨hkind, _, written_of_writeOn hpieces htext hreads.trimmed.last, ?_, ?_⟩
  · rwa [String.toList_ofList]
  · rwa [String.toList_ofList]

/-- The kinds of nodes that run no call and open no connection. -/
def callFree : List NodeKind :=
  [.updateData, .return, .fail, .panic, .break, .continue, .expressionStatement, .newData, .if,
    .while]

/-- Whether a statement is of a kind without calls. A declaration has to have a type and no
annotations. -/
def isPlain (c : Context) (s : Statement) : Bool :=
  (ofStatement c s (branchesOf .standard c s)).any (fun found => callFree.contains found.1) &&
    match s with
    | .declaration d => d.annotations.isEmpty && !d.type.isEmpty
    | _ => true

lemma tokens_ne_nil (value : Expression) : value.tokens ≠ [] := by
  simp [Expression.tokens]

lemma trimmed_unpadded (xs : List Char) {ys : List Char} (h : Trimmed ys) :
    Piece.Unpadded (xs ++ ys) :=
  Piece.unpadded_append xs (Piece.unpadded_of_trimmed h) h.ne_nil

section Forms

variable {n : FlowNode} {value : Expression} {semicolon : Token}

lemma restores_updateData {target : Phrase} {equal : Token} (hkind : n.kind = .updateData)
    (hname : Write.require n "variable" = .ok target.text)
    (hexpression : Write.require n "expression" = .ok value.text)
    (hsource : Sourced (target ++ equal :: value.tokens ++ [semicolon]))
    (hne : target ≠ []) (hequal : equal.is "=") (hsemicolon : semicolon.is ";") :
    Restores n (target ++ equal :: value.tokens ++ [semicolon]) := by
  have htarget := hsource.left.left.legible hne
  have hvalue : Legible value.text.toList value.tokens.lexemes :=
    (@Sourced.right [equal] _ hsource.left.right).legible (tokens_ne_nil value)
  have hmark := hsource.equal (t := equal) (by simp) hequal
  have hend := hsource.semicolon (t := semicolon) (by simp) hsemicolon
  have hreads := (htarget.equal hvalue).semicolon
  have hpieces : Write.statement n (Builders.standard.writtenBranches n.branches) =
      .ok [.name target.text, .mark .equal, .expression value.text, .semicolon] := by
    simp only [Write.statement, hkind, Write.updateData, hname, hexpression]
    rfl
  have htext : Piece.writeOn [] [.name target.text, .mark .equal, .expression value.text,
      .semicolon] = target.text.toList ++ [' ', '=', ' '] ++ value.text.toList ++ [';'] := by
    rw [Piece.writeOn_name, List.nil_append,
      Piece.writeOn_equal _ (Piece.unpadded_of_trimmed htarget.trimmed),
      Piece.writeOn_expression _ _ hvalue.trimmed,
      Piece.writeOn_semicolon _ (trimmed_unpadded _ hvalue.trimmed), Piece.writeOn_nil]
  refine restores_of_pieces (by simp [hkind]) hpieces htext ?_ ?_
  · simpa [hmark, hend] using hreads
  · have hlike := startsLike_text hne (equal :: value.tokens ++ [semicolon])
      (show isBreak ' ' by decide) (['=', ' '] ++ value.text.toList ++ [';'])
    simpa using hlike

lemma restores_expressionStatement (hkind : n.kind = .expressionStatement)
    (hexpression : Write.require n "expression" = .ok value.text)
    (hsource : Sourced (value.tokens ++ [semicolon])) (hsemicolon : semicolon.is ";") :
    Restores n (value.tokens ++ [semicolon]) := by
  have hvalue : Legible value.text.toList value.tokens.lexemes :=
    hsource.left.legible (tokens_ne_nil value)
  have hend := hsource.semicolon (t := semicolon) (by simp) hsemicolon
  have hpieces : Write.statement n (Builders.standard.writtenBranches n.branches) =
      .ok [.expression value.text, .semicolon] := by
    simp only [Write.statement, hkind, Write.expressionStatement, hexpression]
    rfl
  have htext : Piece.writeOn [] [.expression value.text, .semicolon] =
      value.text.toList ++ [';'] := by
    rw [Piece.writeOn_expression _ _ hvalue.trimmed, List.nil_append,
      Piece.writeOn_semicolon _ (Piece.unpadded_of_trimmed hvalue.trimmed), Piece.writeOn_nil]
  refine restores_of_pieces (by simp [hkind]) hpieces htext ?_ ?_
  · simpa [hend] using hvalue.semicolon
  · exact startsLike_text (tokens_ne_nil value) [semicolon] (by decide) []

/-- A word and a semicolon, the blank between them taken away. -/
lemma restores_word (kind : NodeKind) {m : Mark} (hm : m ∈ Mark.words) {word : Token}
    (hkind : n.kind = kind) (hif : kind ∉ [NodeKind.if, .while])
    (hpieces : Write.statement n (Builders.standard.writtenBranches n.branches) =
      .ok [.mark m, .semicolon])
    (hsource : Sourced [word, semicolon]) (hword : word.isWord [m.text])
    (hsemicolon : semicolon.is ";") : Restores n [word, semicolon] := by
  have hend := hsource.semicolon (t := semicolon) (by simp) hsemicolon
  obtain ⟨hidentifier, htext⟩ := isWord_singleton hword
  have hlexeme : (word.kind, word.text) = (.identifier, m.text) := by
    rw [htext, beq_iff_eq.mp hidentifier]
  have hlegible := legible_word hm
  have hwritten : Piece.writeOn [] [.mark m, .semicolon] = m.text.toList ++ [';'] := by
    rw [Piece.writeOn_word _ hm, List.nil_append,
      Piece.writeOn_space_semicolon _ (Piece.unpadded_of_trimmed hlegible.trimmed),
      Piece.writeOn_nil]
  refine restores_of_pieces (hkind ▸ hif) hpieces hwritten ?_ ?_
  · simpa [hend, hlexeme] using hlegible.semicolon
  · rw [← htext]
    exact startsLike_word [semicolon] (by decide) []

/-- A word, an operand and a semicolon. -/
lemma restores_operand (kind : NodeKind) {m : Mark} (hm : m ∈ Mark.words) {word : Token}
    (hkind : n.kind = kind) (hif : kind ∉ [NodeKind.if, .while])
    (hpieces : Write.statement n (Builders.standard.writtenBranches n.branches) =
      .ok [.mark m, .expression value.text, .semicolon])
    (hsource : Sourced (word :: (value.tokens ++ [semicolon]))) (hword : word.isWord [m.text])
    (hsemicolon : semicolon.is ";") : Restores n (word :: (value.tokens ++ [semicolon])) := by
  have hend := hsource.semicolon (t := semicolon) (by simp) hsemicolon
  obtain ⟨hidentifier, htext⟩ := isWord_singleton hword
  have hlexeme : (word.kind, word.text) = (.identifier, m.text) := by
    rw [htext, beq_iff_eq.mp hidentifier]
  have hvalue : Legible value.text.toList value.tokens.lexemes :=
    (@Sourced.right [word] _ hsource).left.legible (tokens_ne_nil value)
  have hreads := ((legible_word hm).spaced hvalue).semicolon
  have hwritten : Piece.writeOn [] [.mark m, .expression value.text, .semicolon] =
      m.text.toList ++ ' ' :: value.text.toList ++ [';'] := by
    have hunpadded : Piece.Unpadded (m.text.toList ++ ' ' :: value.text.toList) := by
      simpa using trimmed_unpadded (m.text.toList ++ [' ']) hvalue.trimmed
    rw [writeOn_operand hm hvalue.trimmed, Piece.writeOn_semicolon _ hunpadded, Piece.writeOn_nil]
  refine restores_of_pieces (hkind ▸ hif) hpieces hwritten ?_ ?_
  · simpa [hend, hlexeme] using hreads
  · rw [← htext, List.append_assoc]
    exact startsLike_word _ (by decide) _

/-- The text of a declaration behind its qualifier and without its semicolon. -/
def declaredText (type name : List Char) (value : Option Expression) : List Char :=
  type ++ ' ' :: name ++
    ((value.map fun e => [' ', '=', ' '] ++ e.text.toList).getD [])

/-- The tokens of a declaration behind its qualifier, without its semicolon. -/
def declaredLexemes (type : Phrase) (name : Token) (value : Option Expression) : List Lexeme :=
  type.lexemes ++ (name.kind, name.text) ::
    ((value.map fun e => (.punctuation, "=") :: e.tokens.lexemes).getD [])

lemma lexemes_of_declaredAs {body type : Phrase} {name : Token} {value : Option Expression}
    (h : DeclaredAs body type name value) (hsource : Sourced body) :
    body.lexemes = declaredLexemes type name value := by
  cases h with
  | bare => simp [declaredLexemes]
  | @valued _ _ equal e _ _ hequal =>
    have hmark := hsource.equal (t := equal) (by simp) hequal
    simp [declaredLexemes, hmark]

lemma sourced_of_declaredAs {body type : Phrase} {name : Token} {value : Option Expression}
    (h : DeclaredAs body type name value) (hsource : Sourced body) :
    Sourced type ∧ Sourced [name] ∧ ∀ e, value = some e → Sourced e.tokens := by
  cases h with
  | bare => exact ⟨hsource.left, hsource.right, by simp⟩
  | @valued _ _ equal e =>
    refine ⟨hsource.left, @Sourced.left [name] _ hsource.right, fun e' he => ?_⟩
    obtain rfl := Option.some.inj he
    exact @Sourced.right [name, equal] _ hsource.right

/-- A type and a name with a value behind them, if there is one, are read in sequence. -/
lemma legible_declared {type name : List Char} {types names : List Lexeme}
    {value : Option Expression} (htype : Legible type types) (hname : Legible name names)
    (hvalue : ∀ e, value = some e → Legible e.text.toList e.tokens.lexemes) :
    Legible (declaredText type name value)
      (types ++ (names ++
        ((value.map fun e => (.punctuation, "=") :: e.tokens.lexemes).getD []))) := by
  cases value with
  | none => simpa [declaredText] using htype.spaced hname
  | some e => simpa [declaredText] using (htype.spaced hname).equal (hvalue e rfl)

lemma legible_declaredText {body type : Phrase} {name : Token} {value : Option Expression}
    (h : DeclaredAs body type name value) (hsource : Sourced body) (hne : type ≠ []) :
    Legible (declaredText type.text.toList name.text.toList value) body.lexemes := by
  obtain ⟨htype, hname, hvalue⟩ := sourced_of_declaredAs h hsource
  rw [lexemes_of_declaredAs h hsource]
  exact legible_declared (htype.legible hne) hname.token fun e he =>
    (hvalue e he).legible (tokens_ne_nil e)

lemma writeOn_typed {type name : String} (htype : Trimmed type.toList) (xs : List Char)
    (ps : List Piece) :
    Piece.writeOn xs (.name type :: .space :: .name name :: ps) =
      Piece.writeOn (xs ++ type.toList ++ ' ' :: name.toList) ps := by
  have hunpadded := trimmed_unpadded xs htype
  have hne : xs ++ type.toList ≠ [] := by simp [htype.ne_nil]
  rw [Piece.writeOn_name, Piece.writeOn_space _ hunpadded hne, Piece.writeOn_name]
  simp

/-- The pieces of a declaration's value. -/
def valuePieces (value : Option Expression) : List Piece :=
  (value.map fun e => [.mark .equal, .expression e.text]).getD []

lemma writeOn_value {value : Option Expression}
    (hvalue : ∀ e, value = some e → Trimmed e.text.toList) {xs : List Char}
    (hxs : Piece.Unpadded xs) :
    Piece.writeOn xs (valuePieces value ++ [.semicolon]) =
      xs ++ ((value.map fun e => [' ', '=', ' '] ++ e.text.toList).getD []) ++ [';'] := by
  cases value with
  | none => simp [valuePieces, Piece.writeOn_semicolon _ hxs]
  | some e =>
    have htrimmed := hvalue e rfl
    have hunpadded := trimmed_unpadded (xs ++ [' ', '=', ' ']) htrimmed
    simp only [valuePieces, Option.map_some, Option.getD_some, List.cons_append, List.nil_append]
    rw [Piece.writeOn_equal _ hxs, Piece.writeOn_expression _ _ htrimmed,
      Piece.writeOn_semicolon _ hunpadded, Piece.writeOn_nil]
    simp

lemma writeOn_declared {type name : String} {value : Option Expression}
    (htype : Trimmed type.toList) (hname : Trimmed name.toList)
    (hvalue : ∀ e, value = some e → Trimmed e.text.toList) (xs : List Char) :
    Piece.writeOn xs (.name type :: .space :: .name name :: (valuePieces value ++ [.semicolon])) =
      xs ++ declaredText type.toList name.toList value ++ [';'] := by
  have hunpadded : Piece.Unpadded (xs ++ type.toList ++ ' ' :: name.toList) := by
    simpa using trimmed_unpadded (xs ++ type.toList ++ [' ']) hname
  rw [writeOn_typed htype, writeOn_value hvalue hunpadded]
  simp [declaredText]

lemma writeOn_declaration {body type : Phrase} {name : Token} {value : Option Expression}
    (h : DeclaredAs body type name value) (hsource : Sourced body) (hne : type ≠ [])
    (xs : List Char) :
    Piece.writeOn xs (.name type.text :: .space :: .name name.text ::
        (valuePieces value ++ [.semicolon])) =
      xs ++ declaredText type.text.toList name.text.toList value ++ [';'] := by
  obtain ⟨htype, hname, hvalue⟩ := sourced_of_declaredAs h hsource
  exact writeOn_declared (htype.legible hne).trimmed hname.token.trimmed
    (fun e he => ((hvalue e he).legible (tokens_ne_nil e)).trimmed) xs

/-- A declaration is written with its own tokens, annotations apart. -/
lemma restores_newData {body type finals : Phrase} {name : Token} {qualifiers : List String}
    (hkind : n.kind = .newData) (hvariable : Write.require n "variable" = .ok name.text)
    (htype : n.properties.text? "type" = some type.text) {value : Option Expression}
    (hvalue : n.properties.text? "expression" = value.map Expression.text)
    (hflag : n.hasFlag .final = qualifiers.contains "final")
    (hfinals : SpellsFinal finals qualifiers (body ++ [semicolon]))
    (hsource : Sourced (finals ++ (body ++ [semicolon]))) (hne : type ≠ [])
    (hdeclared : DeclaredAs body type name value) (hsemicolon : semicolon.is ";") :
    Restores n (finals ++ (body ++ [semicolon])) := by
  have hbody := hsource.right.left
  have hend := hsource.semicolon (t := semicolon) (by simp) hsemicolon
  have hlegible := legible_declaredText hdeclared hbody hne
  have hpieces : Write.statement n (Builders.standard.writtenBranches n.branches) =
      .ok (Write.wordIf n .final .final ++ (.name type.text :: .space :: .name name.text ::
        (valuePieces value ++ [.semicolon]))) := by
    simp only [Write.statement, hkind, Write.newData, hvariable, Write.typeText, htype,
      Write.declared, hvalue]
    cases value <;> simp [valuePieces, bind, Except.bind, pure, Except.pure]
  have hlike : ∃ more, body = type ++ more := by
    cases hdeclared with
    | bare => exact ⟨_, rfl⟩
    | valued => exact ⟨_, rfl⟩
  obtain ⟨more, hmore⟩ := hlike
  have hif : n.kind ∉ [NodeKind.if, .while] := by simp [hkind]
  cases hfinals with
  | absent _ =>
    have hword : Write.wordIf n .final .final = [] := by simp [Write.wordIf, hflag]
    rw [hword, List.nil_append] at hpieces
    have htext := writeOn_declaration hdeclared hbody hne []
    refine restores_of_pieces hif hpieces htext ?_ ?_
    · simpa [hend] using hlegible.semicolon
    · have hlike := startsLike_text hne (more ++ [semicolon]) (show isBreak ' ' by decide)
        (name.text.toList ++
          ((value.map fun e => [' ', '=', ' '] ++ e.text.toList).getD []) ++ [';'])
      simpa [hmore, declaredText] using hlike
  | @present word _ hword =>
    have hmark : Write.wordIf n .final .final = [.mark .final] := by simp [Write.wordIf, hflag]
    rw [hmark] at hpieces
    have hlexeme := hsource.word (t := word) (by simp) hword rfl (by decide)
    have htext : Piece.writeOn [] (.mark .final :: .name type.text :: .space :: .name name.text ::
        (valuePieces value ++ [.semicolon])) = Mark.final.text.toList ++
          ' ' :: declaredText type.text.toList name.text.toList value ++ [';'] := by
      rw [Piece.writeOn_word _ (by decide), writeOn_declaration hdeclared hbody hne]
      simp
    refine restores_of_pieces hif hpieces htext ?_ ?_
    · have hreads := ((legible_word (m := .final) (by decide)).spaced hlegible).semicolon
      rw [show Mark.final.text = "final" from rfl] at hreads ⊢
      simpa [hend, hlexeme] using hreads
    · have hlike := startsLike_word (t := word) (body ++ [semicolon]) (show isBreak ' ' by decide)
        (declaredText type.text.toList name.text.toList value ++ [';'])
      simpa [(Prod.mk.inj hlexeme).2, Mark.text] using hlike

end Forms

/-! ### Leaves -/

/-- The analyzer gives a statement the kind that the table gives it. -/
lemma kind?_of_ofStatement {c : Context} {s : Statement} {branches : List (Branch FlowNode)}
    {found : NodeKind × Site} (h : ofStatement c s branches = some found) :
    kind? c s = some found.1 := by
  cases hkind : kind? c s with
  | none =>
    obtain ⟨construct, span, rfl⟩ := kind?_eq_none hkind
    simp [ofStatement] at h
  | some kind =>
    obtain ⟨site, hsite, -⟩ := suits_ofStatement hkind branches
    rw [hsite] at h
    obtain rfl := Option.some.inj h
    rfl

lemma kind_of_isPlain {c : Context} {s : Statement} (h : isPlain c s) :
    ∃ kind ∈ callFree, kind? c s = some kind := by
  unfold isPlain at h
  rw [Bool.and_eq_true] at h
  obtain ⟨found, hfound, hfree⟩ := (Option.any_eq_true _ _).mp h.1
  exact ⟨found.1, List.contains_iff_mem.mp hfree, kind?_of_ofStatement hfound⟩

lemma typed_of_isPlain {c : Context} {d : Declaration} (h : isPlain c (.declaration d)) :
    d.annotations = [] ∧ d.type ≠ [] := by
  unfold isPlain at h
  rw [Bool.and_eq_true] at h
  simpa using h.2

lemma callKind_notMem {shape : Shape} {kind : NodeKind} (h : callKind shape = some kind) :
    kind ∉ callFree := by
  unfold callKind at h
  split at h
  · obtain rfl := Option.some.inj h
    decide
  · obtain rfl := Option.some.inj h
    decide
  · simp at h

/-- An operand of a plain statement is no call. -/
lemma ofOperand_of_plain {e : Expression} {fallback : NodeKind}
    (h : (callKind (checkedShape e)).getD fallback ∈ callFree) (site : Site) (returning : Bool) :
    ofOperand site fallback e returning = (fallback, { site with expression := some e }) := by
  rw [ofOperand_eq]
  cases hkind : callKind (checkedShape e) with
  | none => rfl
  | some kind =>
    rw [hkind] at h
    exact absurd h (callKind_notMem hkind)

lemma ofDeclaration_declaration (c : Context) (d : Declaration) (s : Option Statement) :
    (ofDeclaration c d s).2.declaration = some d := by
  unfold ofDeclaration
  split
  · rfl
  · dsimp only
    split
    · split <;> rfl
    · rfl
    · rfl
    · rfl
    · rfl

lemma declaredKind_mem (c : Context) (type : String) (shape : Option Shape) :
    declaredKind c type shape ∈
      [NodeKind.newConnection, .newData, .dataMapper, .functionCall, .actionCall] := by
  unfold declaredKind
  split
  · split <;> decide
  · split <;> decide
  · split <;> decide
  · unfold callKind
    split <;> decide

/-- A plain declaration has the kind of data. -/
lemma declaredKind_of_plain {c : Context} {type : String} {shape : Option Shape}
    (h : declaredKind c type shape ∈ callFree) : declaredKind c type shape = .newData := by
  have hkinds : ∀ kind ∈ [NodeKind.newConnection, .newData, .dataMapper, .functionCall,
      .actionCall], kind ∈ callFree → kind = .newData := by decide
  exact hkinds _ (declaredKind_mem c type shape) h

/-- The node of a declaration of data holds its name, its type, its value and whether it is
final. -/
structure HoldsData (d : Declaration) (n : FlowNode) : Prop where
  kind : n.kind = .newData
  name : n.properties.get? "variable" = some (.ofVariable d.name)
  type : n.properties.get? "type" = some (.ofType d.type.text)
  expression : n.properties.get? "expression" =
    some ((Property.ofExpression (Build.textOf d.initializer)).asOptional true)
  final : n.hasFlag .final = d.isFinal

lemma holdsData_newData (c : Context) {d : Declaration} {site : Site}
    (h : site.declaration = some d) : ∃ n, Build.newData c site = .ok n ∧ HoldsData d n := by
  refine ⟨_, by rw [Build.newData, h], rfl, rfl, rfl, rfl, ?_⟩
  show Flags.contains (Flags.none.set .final d.isFinal) .final = d.isFinal
  cases d.isFinal <;> rfl

lemma HoldsData.require {d : Declaration} {n : FlowNode} (h : HoldsData d n)
    (hblank : Text.blank d.name = false) : Write.require n "variable" = .ok d.name :=
  require_of_get? h.name hblank

lemma HoldsData.value {d : Declaration} {n : FlowNode} (h : HoldsData d n)
    (hblank : ∀ e, d.initializer = some e → Text.blank e.text = false) :
    n.properties.text? "expression" = d.initializer.map Expression.text := by
  have hget := h.expression
  cases hvalue : d.initializer with
  | none =>
    rw [hvalue] at hget
    rw [PropertyBag.text?, hget]
    rfl
  | some e =>
    rw [hvalue] at hget
    exact text?_of_get? hget (hblank e hvalue)

/-- A plain declaration is written with its own tokens. -/
lemma restores_declaration {c : Context} {d : Declaration} {body finals : Phrase}
    {name semicolon : Token} (hplain : isPlain c (.declaration d)) (hname : d.name = name.text)
    (hfinals : SpellsFinal finals d.qualifiers (body ++ [semicolon]))
    (hsource : Sourced (finals ++ (body ++ [semicolon])))
    (hdeclared : DeclaredAs body d.type name d.initializer) (hsemicolon : semicolon.is ";") :
    ∃ n, statement .standard c (.declaration d) = some n ∧
      Restores n (finals ++ (body ++ [semicolon])) := by
  obtain ⟨kind, hfree, hkind⟩ := kind_of_isPlain hplain
  obtain ⟨-, hne⟩ := typed_of_isPlain hplain
  have hdata : (ofDeclaration c d (some (.declaration d))).1 = .newData := by
    obtain rfl := Option.some.inj hkind
    rw [(fits_ofDeclaration c d _).kind, declaredKind_of_plain hfree]
  obtain ⟨n, hnode, hholds⟩ :=
    holdsData_newData c (ofDeclaration_declaration c d (some (.declaration d)))
  obtain ⟨htype, htoken, hvalue⟩ := sourced_of_declaredAs hdeclared hsource.right.left
  refine ⟨n, ofBranches_of_node rfl (by rw [hdata]; exact hnode), ?_⟩
  refine restores_newData hholds.kind ?_ ?_ ?_ hholds.final hfinals hsource hne hdeclared hsemicolon
  · rw [← hname]
    refine hholds.require ?_
    rw [hname]
    exact htoken.token.trimmed.blank
  · exact text?_of_get? hholds.type (htype.legible hne).trimmed.blank
  · exact hholds.value fun e he => ((hvalue e he).legible (tokens_ne_nil e)).trimmed.blank

lemma exit_of_get? {n : FlowNode} {p : Property} (word : Mark)
    (hget : n.properties.get? "expression" = some p) (hblank : p.isBlank = false) :
    Write.exit word n = [.mark word, .expression p.sourceText, .semicolon] := by
  simp [Write.exit, text?_of_get? hget hblank]

lemma panic_of_get? {n : FlowNode} {p : Property} (hget : n.properties.get? "expression" = some p)
    (hblank : p.isBlank = false) :
    Write.panic n = .ok [.mark .panic, .expression p.sourceText, .semicolon] := by
  rw [Write.panic, require_of_get? hget hblank, exit_of_get? .panic hget hblank]
  rfl

/-- A plain exit is written with its own tokens. -/
lemma restores_exit {c : Context} {kind : ExitKind} {value : Option Expression} {span : Span}
    {word semicolon : Token} (hplain : isPlain c (.exit kind value span))
    (hsource : Sourced (word :: (operand value ++ [semicolon]))) (hword : word.isWord [kind.word])
    (hsemicolon : semicolon.is ";") (hpanic : kind = .panic → value.isSome) :
    ∃ n, statement .standard c (.exit kind value span) = some n ∧
      Restores n (word :: (operand value ++ [semicolon])) := by
  obtain ⟨found, hfree, hfound⟩ := kind_of_isPlain hplain
  cases value with
  | none =>
    cases kind with
    | panic => exact absurd (hpanic rfl) (by simp)
    | «return» =>
      exact ⟨_, rfl, restores_word .return (m := .return) (by decide) rfl (by decide) rfl
        hsource hword
        hsemicolon⟩
    | fail =>
      exact ⟨_, rfl, restores_word .fail (m := .fail) (by decide) rfl (by decide) rfl hsource hword
        hsemicolon⟩
  | some e =>
    have hblank : Text.blank e.text = false :=
      ((@Sourced.right [word] _ hsource).left.legible (tokens_ne_nil e)).trimmed.blank
    cases kind with
    | «return» =>
      obtain rfl := Option.some.inj hfound
      refine ⟨_, ofBranches_of_node (congrArg some (ofOperand_of_plain hfree _ true)) rfl, ?_⟩
      refine restores_operand .return (m := .return) (by decide) rfl (by decide) ?_ hsource hword
        hsemicolon
      exact congrArg Except.ok (exit_of_get? .return
        (p := (Property.ofExpression e.text).asOptional true) rfl hblank)
    | fail =>
      refine ⟨_, rfl, ?_⟩
      refine restores_operand .fail (m := .fail) (by decide) rfl (by decide) ?_ hsource hword
        hsemicolon
      exact congrArg Except.ok (exit_of_get? .fail
        (p := (Property.ofExpression e.text).asOptional true) rfl hblank)
    | panic =>
      refine ⟨_, rfl, ?_⟩
      refine restores_operand .panic (m := .panic) (by decide) rfl (by decide) ?_ hsource hword
        hsemicolon
      exact panic_of_get? (p := (Property.ofExpression e.text).asOptional false) rfl hblank

/-- A plain statement without blocks is written with its own tokens. -/
theorem restores_leaf {c : Context} {s : Statement} {ts rest : Phrase} (h : SpellsLeaf s ts rest)
    (hplain : isPlain c s) (hsource : Sourced ts) :
    ∃ n, statement .standard c s = some n ∧ Restores n ts := by
  cases h with
  | @declaration start name semicolon body type _ value hstart hlead hbody hsemicolon hdeclared =>
    refine restores_declaration hplain rfl (.absent ?_) hsource hdeclared hsemicolon
    obtain ⟨more, rfl⟩ := List.head?_eq_some_iff.mp hstart
    simp only [leads, Bool.or_eq_false_iff] at hlead
    exact hlead.2
  | @marked start name semicolon annotated finals body type _ names qualifiers value hstart hlead
      hannotated hfinals hbody hsemicolon hdeclared =>
    obtain ⟨hnames, -⟩ := typed_of_isPlain hplain
    obtain ⟨used, hused, hempty, -⟩ := annotations_spec hannotated
    have hnone : used = [] := hempty hnames
    have hnil : annotated = [] := by
      simpa [hnone] using hused
    subst hnil
    exact restores_declaration hplain rfl hfinals hsource hdeclared hsemicolon
  | @assignment start equal semicolon target _ value hstart hlead hbody hsemicolon htarget hequal =>
    have hne : target ≠ [] := by
      rintro rfl
      simp at hstart
    have hvalue : Legible value.text.toList value.tokens.lexemes :=
      (@Sourced.right [equal] _ hsource.left.right).legible (tokens_ne_nil value)
    refine ⟨_, rfl, restores_updateData rfl ?_ ?_ hsource hne hequal hsemicolon⟩
    · exact require_of_get? (p := .ofVariable target.text) rfl
        (hsource.left.left.legible hne).trimmed.blank
    · exact require_of_get? (p := .ofExpression value.text) rfl hvalue.trimmed.blank
  | @expression semicolon _ value hlead hbody hsemicolon =>
    obtain ⟨found, hfree, hfound⟩ := kind_of_isPlain hplain
    obtain rfl := Option.some.inj hfound
    refine ⟨_, ofBranches_of_node (congrArg some (ofOperand_of_plain hfree _ false)) rfl, ?_⟩
    refine restores_expressionStatement rfl ?_ hsource hsemicolon
    exact require_of_get? (p := .ofExpression value.text) rfl
      (hsource.left.legible (tokens_ne_nil value)).trimmed.blank
  | @exit kind word semicolon value _ hword hbody hsemicolon hpanic =>
    exact restores_exit hplain hsource hword hsemicolon hpanic
  | @jump kind word semicolon _ hword hsemicolon =>
    cases kind with
    | «break» =>
      exact ⟨_, rfl, restores_word .break (m := .break) (by decide) rfl (by decide) rfl
        hsource hword
        hsemicolon⟩
    | «continue» =>
      exact ⟨_, rfl, restores_word .continue (m := .continue) (by decide) rfl (by decide) rfl
        hsource hword
        hsemicolon⟩
  | unsupported =>
    simp [isPlain, ofStatement] at hplain
  | braces =>
    simp [isPlain, ofStatement] at hplain

end Analysis

end FlowCanvas
