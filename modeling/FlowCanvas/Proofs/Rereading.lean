import FlowCanvas.Proofs.CallStatements
import FlowCanvas.Proofs.StatementEdits

/-!
# Reading a written statement in a body

A text that is read as given lexemes is read as a statement between the braces of a function if its
lexemes spell that statement there. A statement that runs a call is spelled by what binds its value,
an optional `check`, the callee and the group of arguments.
-/

namespace FlowCanvas

namespace Expression

/-- What is in front of an expression: whether a `check` there panics, or nothing. -/
def wrapper? (e : Expression) : Option Bool :=
  match e.shape with
  | .check panics _ => some panics
  | _ => none

end Expression

/-- What is in front of a value: annotations, qualifiers, and whether a `check` there panics. -/
structure Modifiers where
  annotations : List String
  qualifiers : List String
  wrapper? : Option Bool
deriving DecidableEq

namespace Declaration

/-- What is in front of the initializer of a declaration. -/
def modifiers (d : Declaration) : Modifiers :=
  ⟨d.annotations, d.qualifiers, d.initializer.bind Expression.wrapper?⟩

end Declaration

namespace Statement

/-- What is in front of the operand of a statement. -/
def modifiers : Statement → Modifiers
  | .declaration d => d.modifiers
  | s => ⟨[], [], s.operand?.bind Expression.wrapper?⟩

lemma modifiers_wrapper? (s : Statement) :
    s.modifiers.wrapper? = s.operand?.bind Expression.wrapper? := by
  cases s <;> rfl

end Statement

namespace Brackets

open Lexer

/-- A phrase of a source with matching brackets starts with no bracket that closes. -/
lemma not_is_of_free {mark close : String} {t : Token} {ts : Phrase} (h : Free mark (t :: ts))
    (hsource : Sourced (t :: ts)) (hclose : close = "\x7d" ∨ close = "|\x7d") :
    t.is close = false := by
  rw [← Bool.not_eq_true]
  intro his
  have hcloser : t.isCloser := by
    rcases hclose with rfl | rfl
    · have hlexeme := hsource.mark List.mem_cons_self his (by decide)
      obtain ⟨hkind, htext⟩ := Prod.mk.inj hlexeme
      simp [Token.isCloser, hkind, htext]
    · have hlexeme := hsource.mark List.mem_cons_self his (by decide)
      obtain ⟨hkind, htext⟩ := Prod.mk.inj hlexeme
      simp [Token.isCloser, hkind, htext]
  have hmatched := h.matched
  simp [Matched, levelAfter?, not_isOpener hcloser, hcloser] at hmatched

end Brackets

namespace Parser

open Lexer Brackets

/-! ### Bodies -/

/-- A statement of a source starts with no brace that closes. -/
lemma Spells.sees_close {s : Statement} {ts rest : Phrase} (h : Spells s ts rest)
    (hsource : Sourced ts) : sees "\x7d" ts = false := by
  have hword : ∀ {t : Token} {words : List String}, t.isWord words → "\x7d" ∉ words →
      t.is "\x7d" = false := by
    intro t words hword hwords
    rw [Token.isWord, Bool.and_eq_true, List.contains_iff_mem] at hword
    have hne : t.text ≠ "\x7d" := fun htext => hwords (htext ▸ hword.2)
    simp [Token.is, hne]
  have hbody : ∀ {body ends : Phrase} {start : Token}, body.head? = some start → Free ";" body →
      Sourced (body ++ ends) → sees "\x7d" (body ++ ends) = false := by
    intro body ends start hstart hfree hsource
    obtain ⟨tail, rfl⟩ := List.head?_eq_some_iff.mp hstart
    exact not_is_of_free hfree hsource.left (.inl rfl)
  cases h with
  | conditional hif => exact hword hif (by decide)
  | loop hwhile => exact hword hwhile (by decide)
  | leaf h =>
    cases h with
    | declaration hstart _ hfree => exact hbody hstart hfree hsource
    | marked hstart hlead =>
      obtain ⟨tail, htail⟩ := List.head?_eq_some_iff.mp hstart
      rw [← List.append_assoc, htail]
      rcases Bool.or_eq_true _ _ ▸ hlead with his | his
      · exact is_eq_false his (by decide)
      · exact is_eq_false his (by decide)
    | assignment hstart _ hfree =>
      obtain ⟨tail, rfl⟩ := List.head?_eq_some_iff.mp hstart
      exact hbody rfl hfree hsource
    | expression _ hfree => exact hbody rfl hfree hsource
    | @exit kind word _ _ _ hexit => exact hword hexit (by cases kind <;> decide)
    | @jump kind word _ _ hjump => exact hword hjump (by cases kind <;> decide)
    | unsupported hstart => exact hword hstart (by decide)
    | braces hstart => exact is_eq_false hstart (by decide)

/-- Behind the tokens of a header the rest is read as the body of a function. -/
lemma member_of_block {word : Token} {front ts rest : Phrase} {list : List Statement}
    (hfront : Phrase.lexemes (word :: front) = header)
    (h : ∀ brace : Token, brace.is "\x7b" →
      ∃ span, block (brace :: ts) = .ok (.mk list span, rest)) :
    ∃ f, member word (front ++ ts) = .ok (.function f, rest) ∧ f.body.statements = list := by
  obtain ⟨gap₁, span₁, us₁, heq, h₁⟩ := lexemes_eq_cons hfront
  obtain ⟨rfl, rfl⟩ := List.cons.inj heq
  obtain ⟨gap₂, span₂, us₂, rfl, h₂⟩ := lexemes_eq_cons h₁
  obtain ⟨gap₃, span₃, us₃, rfl, h₃⟩ := lexemes_eq_cons h₂
  obtain ⟨gap₄, span₄, us₄, rfl, h₄⟩ := lexemes_eq_cons h₃
  obtain ⟨gap₅, span₅, us₅, rfl, h₅⟩ := lexemes_eq_cons h₄
  obtain rfl : us₅ = [] := List.map_eq_nil_iff.mp h₅
  obtain ⟨span, hblock⟩ := h ⟨.punctuation, "\x7b", gap₅, span₅⟩ rfl
  refine ⟨_, bind_eq_ok_iff.mpr ⟨_, rfl, bind_eq_ok_iff.mpr ⟨_, bind_eq_ok_iff.mpr ⟨_, rfl,
    bind_eq_ok_iff.mpr ⟨_, rfl, bind_eq_ok_iff.mpr ⟨_, rfl, bind_eq_ok_iff.mpr ⟨_, hblock, rfl⟩⟩⟩⟩,
    rfl⟩⟩, rfl⟩

/-- A text that reads as lexemes is one statement in a body if tokens with these lexemes spell
it. -/
theorem statementsOf?_of_reads {text : String} {ls : List Lexeme} (hreads : Reads text.toList ls) :
    ∃ (ts : Phrase) (close : Token), ts.lexemes = ls ∧ Sourced ts ∧
      ∀ s, Spells s ts [close] → statementsOf? text = some [s] := by
  have hline : Gap false ['\n'] := .blank rfl .nil
  obtain ⟨l, ls', rfl⟩ := List.exists_cons_of_ne_nil hreads.legible.ne_nil
  have hrun : Run _ _ [] := (run_header _).append (((hreads.run _).gap hline).append
    ((run_closeBrace []).gap hline))
  have hsource : ("function f() \x7b\n" ++ text ++ "\n\x7d").toList =
      ("function f() \x7b".toList ++ (['\n'] ++ text.toList ++ (['\n'] ++ ['\x7d']))) ++ [] := by
    simp
  obtain ⟨tokens, htokens, hlexemes⟩ := tokenize_of_run hsource (by simpa using hrun) rfl
  obtain ⟨cs, last, -, hscanned, -⟩ := scanned_of_tokenize htokens
  obtain ⟨front, others, rfl, hfront, hothers⟩ := Phrase.lexemes_eq_append hlexemes
  obtain ⟨ts, ends, rfl, hts, hends⟩ := @Phrase.lexemes_eq_append _ (l :: ls') _ hothers
  obtain ⟨gap, span, none, rfl, hnone⟩ := lexemes_eq_cons hends
  obtain rfl : none = [] := List.map_eq_nil_iff.mp hnone
  have hsourced : Sourced (front ++ (ts ++ [⟨.punctuation, "\x7d", gap, span⟩])) :=
    ⟨_, _, _, hscanned⟩
  refine ⟨ts, ⟨.punctuation, "\x7d", gap, span⟩, hts, hsourced.right.left, fun s hs => ?_⟩
  have hlist : SpellsAll [s] (ts ++ []) [⟨.punctuation, "\x7d", gap, span⟩] :=
    .cons (hs.sees_close hsourced.right.left) hs .nil
  rw [List.append_nil] at hlist
  obtain ⟨wordGap, wordSpan, front', rfl, hfront'⟩ := lexemes_eq_cons hfront
  have hbody : ∀ brace : Token, brace.is "\x7b" →
      ∃ whole, block (brace :: (ts ++ [⟨.punctuation, "\x7d", gap, span⟩])) =
        .ok (.mk [s] whole, []) := by
    intro brace hbrace
    have hblock := acceptsBlocks_block _ (SpellsBlock.mk hbrace rfl hlist) le_rfl []
    exact ⟨_, by simpa using hblock⟩
  obtain ⟨f, hmember, hbody⟩ := member_of_block hfront hbody
  have hparts : SpellsParts [] [.function f]
      (⟨.identifier, "function", wordGap, wordSpan⟩ :: (front' ++ (ts ++ [_])) ++ []) [] :=
    .member rfl rfl (by simpa using hmember) .nil
  have hparse := (@parse_eq_ok_iff _ ⟨[], [.function f], _⟩).mpr
    ⟨_, htokens, by simpa using hparts, rfl⟩
  simp only [statementsOf?, hparse, hbody]

/-! ### In front of an operand -/

lemma wrapper?_of_called? {e : Expression} {found : Callee × List Argument}
    (h : e.shape.called? = some found) : e.wrapper? = none := by
  unfold Expression.wrapper?
  cases hshape : e.shape <;> first | rfl | simp [hshape, Shape.called?] at h

lemma wrapper?_of_check {e call : Expression} {word : Token}
    (h : e.tokens = word :: call.tokens) (hword : word.isWord ["check", "checkpanic"]) :
    e.wrapper? = some (word.text == "checkpanic") := by
  obtain ⟨first, rest⟩ := e
  obtain ⟨rfl, rfl⟩ := List.cons.inj h
  simp [Expression.wrapper?, Expression.shape, Expression.tokens, hword]

lemma free_of_check {mark : String} {marks : Phrase} {checked : Bool}
    (h : SpellsCheck marks checked) (hmark : mark ∉ ["check", "checkpanic"]) : Free mark marks := by
  cases h with
  | absent => exact .nil mark
  | @present word h =>
    refine free_singleton (matched_of_isWord h) ?_
    simp only [Token.isWord, Bool.and_eq_true, List.contains_iff_mem] at h
    rw [← Bool.not_eq_true]
    intro his
    simp only [Token.is, Bool.and_eq_true, beq_iff_eq] at his
    exact hmark (his.2 ▸ h.2)

lemma looksDeclared_of_last {last : Token} (h : last.isIdentifier = false) (ts : Phrase) :
    looksDeclared (ts ++ [last]) = false := by
  unfold looksDeclared
  rw [List.reverse_append, List.reverse_singleton, List.singleton_append]
  split
  · rename_i name before _ heq
    obtain ⟨rfl, -⟩ := List.cons.inj heq
    simp [h]
  · rfl

lemma exists_expression {ts : Phrase} (h : ts ≠ []) : ∃ e : Expression, e.tokens = ts := by
  obtain ⟨t, us, rfl⟩ := List.exists_cons_of_ne_nil h
  exact ⟨⟨t, us⟩, rfl⟩

end Parser

namespace Analysis

open Lexer FlowCanvas.Parser Brackets

/-! ### Operands that are calls -/

/-- The lexemes of a call: an optional `check`, the callee and the group of arguments. -/
def callLexemes (callee : Callee) (checked : Bool) (args : List Lexeme) : List Lexeme :=
  (if checked then [(.identifier, "check")] else []) ++
    (callee.lexemes ++ (.punctuation, "(") :: (args ++ [(.punctuation, ")")]))

/-- An operand that is read as a call of a callee, which is spelled by `phrase`, with the arguments
that `inner` is read as. -/
structure ReadsCall (e : Expression) (callee : Callee) (checked : Bool) (phrase inner : Phrase) :
    Prop where
  wrapper : e.wrapper? = if checked then some false else none
  called : (checkedShape e).called? = some (callee, Argument.listOf inner)
  looks : looksDeclared e.tokens = false
  free : ∀ mark ∉ ["check", "checkpanic", "("], Free mark phrase → Free mark e.tokens
  leads : (checked = false → ∀ t ∈ phrase.head?, leads t = false) → leads e.first = false

/-- What is spelled like a call is read as that call. -/
lemma readsCall_of_lexemes {callee : Callee} {checked : Bool} {ts : Phrase} {args : List Lexeme}
    (hts : ts.lexemes = callLexemes callee checked args)
    (hcallee : ∀ phrase : Phrase, phrase.lexemes = callee.lexemes →
      SpellsCallee callee phrase ∧ ∀ t ∈ phrase.head?, t.isWord nonCallWords = false)
    (hargs : ∀ us : Phrase, us <:+: ts → us.lexemes = args → Matched us) :
    ∃ (e : Expression) (phrase inner : Phrase), e.tokens = ts ∧ phrase.lexemes = callee.lexemes ∧
      inner <:+: ts ∧ inner.lexemes = args ∧ ReadsCall e callee checked phrase inner := by
  obtain ⟨marks, body, rfl, hmarks, hbody⟩ := Phrase.lexemes_eq_append hts
  obtain ⟨phrase, group, rfl, hphrase, hgroup⟩ := Phrase.lexemes_eq_append hbody
  obtain ⟨first, tail, rfl, hfirst, htail⟩ := Phrase.lexemes_eq_cons hgroup
  obtain ⟨inner, lasts, rfl, hinner, hlasts⟩ := Phrase.lexemes_eq_append htail
  obtain ⟨last, none, rfl, hlast, hnone⟩ := Phrase.lexemes_eq_cons hlasts
  obtain rfl : none = [] := List.map_eq_nil_iff.mp hnone
  have hinside : inner <:+: marks ++ (phrase ++ first :: (inner ++ [last])) :=
    ⟨marks ++ phrase ++ [first], [last], by simp⟩
  have hmatched := hargs inner hinside hinner
  obtain ⟨hspells, hhead⟩ := hcallee phrase hphrase
  have hopen : first.isOpener := by simp [Token.isOpener, Prod.mk.inj hfirst]
  have hcloser : last.isCloser := by simp [Token.isCloser, Prod.mk.inj hlast]
  have hparen : first.is "(" := by simp [Token.is, Prod.mk.inj hfirst]
  have hclose : last.is ")" := by simp [Token.is, Prod.mk.inj hlast]
  obtain ⟨t, rest, rfl⟩ := List.exists_cons_of_ne_nil hspells.ne_nil
  obtain ⟨call, hcall⟩ :
      ∃ call : Expression, call.tokens = t :: rest ++ first :: (inner ++ [last]) :=
    ⟨⟨t, rest ++ first :: (inner ++ [last])⟩, rfl⟩
  have hshape : call.shape.called? = some (callee, Argument.listOf inner) := by
    refine shape_called?_eq_iff.mpr
      ⟨?_, inner, hcall ▸ .mk hspells hopen hparen hmatched hclose, rfl⟩
    obtain ⟨hfirst', -⟩ := List.cons.inj hcall
    exact hfirst' ▸ hhead t rfl
  obtain ⟨e, he⟩ : ∃ e : Expression, e.tokens = marks ++ call.tokens :=
    exists_expression (by simp [Expression.tokens])
  have htokens : e.tokens = marks ++ (t :: rest ++ first :: (inner ++ [last])) := by rw [he, hcall]
  have hlooks := @looksDeclared_of_last last (by simp [Token.isIdentifier, Prod.mk.inj hlast])
    (marks ++ (t :: rest ++ first :: inner))
  have hfree : SpellsCheck marks checked → ∀ mark ∉ ["check", "checkpanic", "("],
      Free mark (t :: rest) → Free mark e.tokens := by
    intro hcheck mark hmark hphrase
    simp only [List.mem_cons, not_or] at hmark
    rw [htokens]
    refine (free_of_check hcheck (by simp [hmark])).append (hphrase.append ?_)
    refine free_group hopen ?_ hmatched hcloser
    simp [Token.is, Prod.mk.inj hfirst, Ne.symm hmark.2.2.1]
  refine ⟨e, t :: rest, inner, htokens, hphrase, hinside, hinner, ?_⟩
  cases checked with
  | false =>
    obtain rfl : marks = [] := List.map_eq_nil_iff.mp hmarks
    obtain rfl : e = call := by
      cases e
      cases call
      simpa [Expression.tokens] using he
    refine ⟨wrapper?_of_called? hshape, checkedShape_of_spells .absent he hshape,
      by simpa [htokens] using hlooks, hfree .absent, fun hleads => ?_⟩
    rw [(List.cons.inj htokens).1]
    exact hleads rfl t rfl
  | true =>
    obtain ⟨word, none, rfl, hword, hnone'⟩ := Phrase.lexemes_eq_cons hmarks
    obtain rfl : none = [] := List.map_eq_nil_iff.mp hnone'
    obtain ⟨hkind, htext⟩ := Prod.mk.inj hword
    have hcheck : word.isWord ["check", "checkpanic"] := by
      simp [Token.isWord, Token.isIdentifier, hkind, htext]
    refine ⟨by rw [wrapper?_of_check he hcheck, htext]; rfl,
      checkedShape_of_spells (.present hcheck) he hshape, by simpa [htokens] using hlooks,
      hfree (.present hcheck), fun _ => ?_⟩
    rw [(List.cons.inj he).1]
    simp [leads, Token.isWord, Token.is, Token.isIdentifier, hkind, htext, unsupportedWords]

/-! ### Bound variables -/

lemma annotations_of_not_sees {ts : Phrase} (h : sees "@" ts = false) :
    annotations ts = .ok ([], ts) := by
  unfold annotations
  cases ts with
  | nil => rfl
  | cons t ts => rw [List.length_cons, annotationsFrom, eat_eq_none_iff.mpr h]

/-- The qualifiers of a declaration that is written by a node. -/
def writtenQualifiers (final : Bool) : List String := if final then ["final"] else []

/-- A type and a name that can stand in front of `=`, as the left side of a declaration. -/
structure LeftSide (final : Bool) (type : Phrase) (name : Token) : Prop where
  isIdentifier : name.isIdentifier
  ne_nil : type ≠ []
  free : ∀ mark ∈ ["=", ";"], Free mark (type ++ [name])
  looks : final = false → looksDeclared (type ++ [name]) ∧ ∀ t ∈ type.head?, leads t = false

/-- A phrase that declares a variable is read as its declaration, behind `final` or without it. -/
lemma spells_declared {final : Bool} {finals body type rest : Phrase} {name semicolon : Token}
    {value : Option Expression} (h : LeftSide final type name)
    (hfinals : finals.lexemes = if final then [(.identifier, "final")] else [])
    (hdeclared : DeclaredAs body type name value) (hbody : Free ";" body)
    (hsemicolon : semicolon.is ";") :
    ∃ span, Spells (.declaration ⟨[], writtenQualifiers final, type, name.text, value, span⟩)
      (finals ++ (body ++ [semicolon])) rest := by
  cases final with
  | true =>
    obtain ⟨word, none, rfl, hword, hnone⟩ := Phrase.lexemes_eq_cons hfinals
    obtain rfl : none = [] := List.map_eq_nil_iff.mp hnone
    have hword' : word.is "final" := by simp [Token.is, Prod.mk.inj hword]
    have hat : sees "@" ([] ++ ([word] ++ (body ++ [semicolon]))) = false := by
      simp [sees, Token.is, Prod.mk.inj hword]
    have hspells := @SpellsLeaf.marked word name semicolon [] [word] body type rest _ _ _ rfl
      (by simp [hword']) (annotations_of_not_sees hat) (.present hword') hbody hsemicolon hdeclared
    exact ⟨_, .leaf (by simpa [writtenQualifiers] using hspells)⟩
  | false =>
    obtain rfl : finals = [] := List.map_eq_nil_iff.mp hfinals
    obtain ⟨hlooks, hstart⟩ := h.looks rfl
    obtain ⟨first, tail, htail⟩ := List.exists_cons_of_ne_nil h.ne_nil
    have hhead : body.head? = some first := by
      cases hdeclared <;> simp [htail]
    have hspells := @SpellsLeaf.declaration first name semicolon body type rest _ hhead
      (hstart first (by rw [htail]; rfl)) hbody hsemicolon hdeclared hlooks
    exact ⟨_, .leaf (by simpa [writtenQualifiers] using hspells)⟩

/-- A variable that is bound to an operand is read as its declaration. -/
lemma spells_bound {final : Bool} {finals type rest : Phrase} {name equal semicolon : Token}
    {e : Expression} (h : LeftSide final type name)
    (hfinals : finals.lexemes = if final then [(.identifier, "final")] else [])
    (hequal : (equal.kind, equal.text) = (.punctuation, "=")) (he : Free ";" e.tokens)
    (hsemicolon : semicolon.is ";") :
    ∃ span, Spells (.declaration ⟨[], writtenQualifiers final, type, name.text, some e, span⟩)
      (finals ++ (type ++ [name, equal]) ++ (e.tokens ++ [semicolon])) rest := by
  have hmark : equal.is "=" := by simp [Token.is, Prod.mk.inj hequal]
  have hdeclared : DeclaredAs (type ++ name :: equal :: e.tokens) type name (some e) :=
    .valued (h.free "=" (by simp)) h.isIdentifier hmark
  have hbody : Free ";" (type ++ name :: equal :: e.tokens) := by
    have hfree : Free ";" [equal] := free_mark hmark (by decide) (by decide)
    simpa using (h.free ";" (by simp)).append (hfree.append he)
  obtain ⟨span, hspells⟩ := @spells_declared final finals _ _ rest _ _ _ h hfinals hdeclared hbody
    hsemicolon
  exact ⟨span, by simpa using hspells⟩

end Analysis

end FlowCanvas
