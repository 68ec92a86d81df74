import FlowCanvas.Proofs.Headers
import FlowCanvas.Proofs.ModuleVariables

/-!
# Types in front of declared names

A module reads a type and a name as a variable, whatever the type is. A block asks first whether
they look declared: the first token of the type may start no expression, and its last one has to be
able to end a type. `IsType` is the grammar of types; one that ends in a parenthesis or a brace does
not look declared.
-/

namespace FlowCanvas.Parser

open Lexer Brackets

/-! ### Types -/

/-- The words that a member, a statement or an expression starts with. -/
def keywords : List String :=
  "import" :: (qualifierWords ++ memberWords ++ unsupportedWords ++
    ["if", "while", "return", "fail", "panic", "break", "continue"] ++ expressionWords)

def IsTypeName (t : Token) : Prop := t.isIdentifier ∧ t.text ∉ keywords

mutual

/-- The tokens of a type. -/
inductive IsType : Phrase → Prop
  | name {t : Token} (h : IsTypeName t) : IsType [t]
  | qualified {module colon t : Token} (hmodule : IsTypeName module) (hcolon : colon.is ":")
    (h : IsTypeName t) : IsType [module, colon, t]
  | array {ts : Phrase} {first last : Token} (h : IsType ts) (hfirst : first.is "[")
    (hlast : last.is "]") : IsType (ts ++ [first, last])
  | optional {ts : Phrase} {mark : Token} (h : IsType ts) (hmark : mark.is "?") :
    IsType (ts ++ [mark])
  | union {ts us : Phrase} {bar : Token} (h : IsType ts) (hbar : bar.is "|") (h' : IsType us) :
    IsType (ts ++ bar :: us)
  | generic {ts : Phrase} {t first last : Token} (ht : IsTypeName t) (hfirst : first.is "<")
    (h : IsTypes ts) (hlast : last.is ">") : IsType (t :: first :: (ts ++ [last]))
  | group {ts : Phrase} {first last : Token} (hfirst : first.is "(") (h : IsType ts)
    (hlast : last.is ")") : IsType (first :: (ts ++ [last]))
  | tuple {ts : Phrase} {first last : Token} (hfirst : first.is "[") (h : IsTypes ts)
    (hlast : last.is "]") : IsType (first :: (ts ++ [last]))
  | closedRecord {ts : Phrase} {word first last : Token} (hword : word.is "record")
    (hfirst : first.is "\x7b|") (h : IsFields ts) (hlast : last.is "|\x7d") :
    IsType (word :: first :: (ts ++ [last]))
  | openRecord {ts : Phrase} {word first last : Token} (hword : word.is "record")
    (hfirst : first.is "\x7b") (h : IsFields ts) (hlast : last.is "\x7d") :
    IsType (word :: first :: (ts ++ [last]))

/-- Types with commas between them. -/
inductive IsTypes : Phrase → Prop
  | single {ts : Phrase} (h : IsType ts) : IsTypes ts
  | cons {ts us : Phrase} {comma : Token} (h : IsType ts) (hcomma : comma.is ",")
    (h' : IsTypes us) : IsTypes (ts ++ comma :: us)

/-- The fields of a record. -/
inductive IsFields : Phrase → Prop
  | nil : IsFields []
  | cons {ts us : Phrase} {name semicolon : Token} (h : IsType ts) (hname : name.isIdentifier)
    (hsemicolon : semicolon.is ";") (h' : IsFields us) :
    IsFields (ts ++ name :: semicolon :: us)

end

section Free

variable {mark : String} (hmark : mark ∈ [";", "="])

include hmark

/-- Tokens between brackets are free of a mark that is no bracket. -/
lemma free_between {ts : Phrase} {first last : Token} (hsource : Sourced (first :: (ts ++ [last])))
    {opening closing : String} (hfirst : first.is opening)
    (hopening : opening ∈ ["(", "[", "\x7b", "\x7b|"]) (hts : Matched ts) (hlast : last.is closing)
    (hclosing : closing ∈ [")", "]", "\x7d", "|\x7d"]) :
    Free mark (first :: (ts ++ [last])) := by
  refine free_group (hsource.opens (by simp) hfirst hopening) (is_eq_false hfirst ?_) hts
    (hsource.closes (by simp) hlast hclosing)
  rintro rfl
  simp only [List.mem_cons, List.not_mem_nil, or_false] at hopening hmark
  rcases hmark with rfl | rfl <;> simp at hopening

lemma free_name {ts : Phrase} (hsource : Sourced ts) {t : Token} (ht : t ∈ ts) (h : IsTypeName t) :
    Free mark [t] :=
  free_identifier hsource ht h.1 (List.mem_append_left [",", ")", "\x7d", "\x7b", "@"] hmark)

lemma free_sign {t : Token} {sign : String} (h : t.is sign)
    (hsign : sign ∈ [":", "?", "|", "<", ">", ",", "record"]) : Free mark [t] := by
  simp only [List.mem_cons, List.not_mem_nil, or_false] at hmark hsign
  refine free_mark h ?_ ?_
  · rcases hsign with rfl | rfl | rfl | rfl | rfl | rfl | rfl <;> decide
  · rcases hsign with rfl | rfl | rfl | rfl | rfl | rfl | rfl <;> rcases hmark with rfl | rfl <;>
      decide

end Free

mutual

/-- No semicolon and no `=` stands in a type outside brackets. -/
theorem free_of_isType {ts : Phrase} (h : IsType ts) :
    Sourced ts → ∀ {mark : String}, mark ∈ [";", "="] → Free mark ts := by
  match h with
  | .name h => exact fun hsource _ hmark => free_name hmark hsource (by simp) h
  | .qualified hmodule hcolon h =>
    intro hsource mark hmark
    exact (free_name hmark hsource (by simp) hmodule).append
      ((free_sign hmark hcolon (by decide)).append (free_name hmark hsource (by simp) h))
  | .array h hfirst hlast =>
    intro hsource mark hmark
    exact (free_of_isType h hsource.left hmark).append
      (@free_between mark hmark [] _ _ hsource.right _ _ hfirst (by decide) .nil hlast (by decide))
  | .optional h hquestion =>
    intro hsource mark hmark
    exact (free_of_isType h hsource.left hmark).append (free_sign hmark hquestion (by decide))
  | .union h hbar h' =>
    intro hsource mark hmark
    exact (free_of_isType h hsource.left hmark).append
      ((free_sign hmark hbar (by decide)).append (free_of_isType h' hsource.right.tail hmark))
  | .generic ht hfirst h hlast =>
    intro hsource mark hmark
    exact (free_name hmark hsource (by simp) ht).append ((free_sign hmark hfirst (by decide)).append
      ((free_of_isTypes h hsource.tail.tail.left hmark).append (free_sign hmark hlast (by decide))))
  | .group hfirst h hlast =>
    intro hsource mark hmark
    exact free_between hmark hsource hfirst (by decide)
      (free_of_isType h hsource.tail.left hmark).matched hlast (by decide)
  | .tuple hfirst h hlast =>
    intro hsource mark hmark
    exact free_between hmark hsource hfirst (by decide)
      (free_of_isTypes h hsource.tail.left hmark).matched hlast (by decide)
  | .closedRecord hword hfirst h hlast =>
    intro hsource mark hmark
    exact (free_sign hmark hword (by decide)).append (free_between hmark hsource.tail hfirst
      (by decide) (matched_of_isFields h hsource.tail.tail.left) hlast (by decide))
  | .openRecord hword hfirst h hlast =>
    intro hsource mark hmark
    exact (free_sign hmark hword (by decide)).append (free_between hmark hsource.tail hfirst
      (by decide) (matched_of_isFields h hsource.tail.tail.left) hlast (by decide))

theorem free_of_isTypes {ts : Phrase} (h : IsTypes ts) :
    Sourced ts → ∀ {mark : String}, mark ∈ [";", "="] → Free mark ts := by
  match h with
  | .single h => exact free_of_isType h
  | .cons h hcomma h' =>
    intro hsource mark hmark
    exact (free_of_isType h hsource.left hmark).append
      ((free_sign hmark hcomma (by decide)).append (free_of_isTypes h' hsource.right.tail hmark))

theorem matched_of_isFields {ts : Phrase} (h : IsFields ts) : Sourced ts → Matched ts := by
  match h with
  | .nil => exact fun _ => .nil
  | .cons h hname hsemicolon h' =>
    intro hsource
    exact (@free_of_isType _ h hsource.left ";" (by decide)).matched.append
      ((matched_identifier hname).append ((matched_mark hsemicolon (by decide)).append
        (matched_of_isFields h' hsource.right.tail.tail)))

end

/-- What a type starts with. -/
def Opens (t : Token) : Prop := IsTypeName t ∨ t.is "(" ∨ t.is "[" ∨ t.is "record"

theorem opens_of_isType {ts : Phrase} (h : IsType ts) : ∃ t more, ts = t :: more ∧ Opens t := by
  match h with
  | .name h => exact ⟨_, _, rfl, .inl h⟩
  | .qualified hmodule _ _ => exact ⟨_, _, rfl, .inl hmodule⟩
  | .array h _ _ =>
    obtain ⟨t, more, rfl, ht⟩ := opens_of_isType h
    exact ⟨t, _, rfl, ht⟩
  | .optional h _ =>
    obtain ⟨t, more, rfl, ht⟩ := opens_of_isType h
    exact ⟨t, _, rfl, ht⟩
  | .union h _ _ =>
    obtain ⟨t, more, rfl, ht⟩ := opens_of_isType h
    exact ⟨t, _, rfl, ht⟩
  | .generic ht _ _ _ => exact ⟨_, _, rfl, .inl ht⟩
  | .group hfirst _ _ => exact ⟨_, _, rfl, .inr (.inl hfirst)⟩
  | .tuple hfirst _ _ => exact ⟨_, _, rfl, .inr (.inr (.inl hfirst))⟩
  | .closedRecord hword _ _ _ => exact ⟨_, _, rfl, .inr (.inr (.inr hword))⟩
  | .openRecord hword _ _ _ => exact ⟨_, _, rfl, .inr (.inr (.inr hword))⟩

/-- Whether a type ends in a parenthesis or a brace. -/
def endsClosed (type : Phrase) : Bool := type.getLast?.any fun t => t.is ")" || t.is "\x7d"

lemma ends_of_name {ts : Phrase} (hsource : Sourced ts) {t : Token} (h : IsTypeName t)
    (hlast : ts.getLast? = some t) : ts.getLast?.any endsType = !endsClosed ts := by
  have hmem := List.mem_of_getLast? hlast
  have hkind : t.kind = .identifier := by simpa [Token.isIdentifier] using h.1
  have hexpression : t.text ∉ expressionWords := fun hmem =>
    h.2 (List.mem_cons_of_mem _ (List.mem_append_right _ hmem))
  have hparen : t.is ")" = false := hsource.is_eq_false hmem h.1 (by decide)
  have hbrace : t.is "\x7d" = false := hsource.is_eq_false hmem h.1 (by decide)
  simp [endsClosed, hlast, endsType, hkind, hexpression, hparen, hbrace]

lemma ends_of_sign {ts : Phrase} (hsource : Sourced ts) {t : Token} {sign : String} (h : t.is sign)
    (hsign : sign ∈ ["]", "?", ">", ")", "\x7d", "|\x7d"]) (hlast : ts.getLast? = some t) :
    ts.getLast?.any endsType = !endsClosed ts := by
  have hmem := List.mem_of_getLast? hlast
  simp only [List.mem_cons, List.not_mem_nil, or_false] at hsign
  have hlexeme : (t.kind, t.text) = (.punctuation, sign) := by
    rcases hsign with rfl | rfl | rfl | rfl | rfl | rfl <;>
      exact hsource.mark hmem h (by decide)
  obtain ⟨hkind, htext⟩ := Prod.mk.inj hlexeme
  rw [hlast, endsClosed, hlast]
  rcases hsign with rfl | rfl | rfl | rfl | rfl | rfl <;>
    simp [endsType, Token.is, hkind, htext]

/-- The last token of a type is known to end one unless it is a parenthesis or a brace. -/
theorem ends_of_isType {ts : Phrase} (h : IsType ts) :
    Sourced ts → ts.getLast?.any endsType = !endsClosed ts := by
  match h with
  | .name h => exact fun hsource => ends_of_name hsource h rfl
  | .qualified _ _ h => exact fun hsource => ends_of_name hsource h rfl
  | .array _ _ hlast => exact fun hsource => ends_of_sign hsource hlast (by decide) (by simp)
  | .optional _ hquestion =>
    exact fun hsource => ends_of_sign hsource hquestion (by decide) (by simp)
  | @IsType.union ts us bar h hbar h' =>
    intro hsource
    have hlast : (ts ++ bar :: us).getLast? = us.getLast? := by
      obtain ⟨t, more, rfl, -⟩ := opens_of_isType h'
      simp [List.getLast?_append, List.getLast?_cons]
    rw [endsClosed, hlast]
    exact ends_of_isType h' hsource.right.tail
  | .generic _ _ _ hlast =>
    exact fun hsource => ends_of_sign hsource hlast (by decide) (by simp [List.getLast?_cons])
  | .group _ _ hlast =>
    exact fun hsource => ends_of_sign hsource hlast (by decide) (by simp [List.getLast?_cons])
  | .tuple _ _ hlast =>
    exact fun hsource => ends_of_sign hsource hlast (by decide) (by simp [List.getLast?_cons])
  | .closedRecord _ _ _ hlast =>
    exact fun hsource => ends_of_sign hsource hlast (by decide) (by simp [List.getLast?_cons])
  | .openRecord _ _ _ hlast =>
    exact fun hsource => ends_of_sign hsource hlast (by decide) (by simp [List.getLast?_cons])

/-- What a type starts with is no word of the readers. -/
lemma Opens.text {t : Token} (h : Opens t) : t.text ∉ keywords := by
  rcases h with h | h | h | h
  · exact h.2
  all_goals
    simp only [Token.is, Bool.and_eq_true, beq_iff_eq] at h
    rw [h.2]
    decide

lemma Opens.isWord_eq_false {t : Token} (h : Opens t) {words : List String}
    (hwords : words ⊆ keywords) : t.isWord words = false := by
  simp only [Token.isWord, Bool.and_eq_false_iff, List.contains_eq_mem, decide_eq_false_iff_not]
  exact .inr fun hmem => h.text (hwords hmem)

lemma Opens.is_eq_false {ts : Phrase} (hsource : Sourced ts) {t : Token} (ht : t ∈ ts)
    (h : Opens t) {mark : String} (hmark : mark ∈ [";", "=", ",", ")", "\x7d", "\x7b", "@"]) :
    t.is mark = false := by
  rcases h with h | h | h | h
  · exact hsource.is_eq_false ht h.1 hmark
  all_goals
    refine Parser.is_eq_false h ?_
    rintro rfl
    simp at hmark

lemma Opens.leads {ts : Phrase} (hsource : Sourced ts) {t : Token} (ht : t ∈ ts) (h : Opens t) :
    leads t = false := by
  have hfinal : t.is "final" = false := by
    by_contra his
    simp only [Bool.not_eq_false, Token.is, Bool.and_eq_true, beq_iff_eq] at his
    exact h.text (his.2 ▸ by decide)
  have hunsupported : t.isWord unsupportedWords = false := h.isWord_eq_false (by decide)
  have hform : t.isWord ["if", "while", "return", "fail", "panic", "break", "continue"] = false :=
    h.isWord_eq_false (by decide)
  simp [Parser.leads, hunsupported, hform, hfinal, h.is_eq_false hsource ht]

/-! ### Declarations -/

/-- `type name;` or `type name = value;`. -/
structure DeclaredText where
  type : Phrase
  name : Token
  value : Option (Token × Expression)
  semicolon : Token

namespace DeclaredText

def left (d : DeclaredText) : Phrase := d.type ++ [d.name]

def body (d : DeclaredText) : Phrase :=
  d.left ++ d.value.elim [] fun (equal, value) => equal :: value.tokens

def tokens (d : DeclaredText) : Phrase := d.body ++ [d.semicolon]

def span (d : DeclaredText) : Span := (d.left.headD d.name).span.through d.semicolon.span

/-- The variable of a module. -/
def declaration (d : DeclaredText) : Declaration :=
  ⟨[], [], d.type, d.name.text, d.value.map (·.2), d.span⟩

/-- The statement of a block. -/
def statement (d : DeclaredText) : Statement :=
  if endsClosed d.type then
    match d.value with
    | some (_, value) => .assignment d.left value d.span
    | none => .expression ⟨d.left.headD d.name, d.left.drop 1⟩ d.span
  else .declaration d.declaration

structure Sound (d : DeclaredText) : Prop where
  type : IsType d.type
  name : d.name.isIdentifier
  value : ∀ equal value, d.value = some (equal, value) → equal.is "=" ∧ Free ";" value.tokens
  semicolon : d.semicolon.is ";"

lemma statement_eq_declaration_iff {d : DeclaredText} :
    d.statement = .declaration d.declaration ↔ endsClosed d.type = false := by
  rw [statement]
  split
  · rename_i hclosed
    cases d.value <;> simp [hclosed]
  · rename_i hclosed
    simpa using hclosed

section Sound

variable {d : DeclaredText} (h : d.Sound) (hsource : Sourced d.tokens)

include h hsource

lemma free_left : Free ";" d.left ∧ Free "=" d.left := by
  have hleft : Sourced (d.type ++ [d.name]) := hsource.left.left
  have hname {mark : String} (hmark : mark ∈ [";", "="]) : Free mark [d.name] :=
    free_identifier hleft (by simp) h.name
      (List.mem_append_left [",", ")", "\x7d", "\x7b", "@"] hmark)
  exact ⟨(free_of_isType h.type hleft.left (by decide)).append (hname (by decide)),
    (free_of_isType h.type hleft.left (by decide)).append (hname (by decide))⟩

lemma declaredAs : DeclaredAs d.body d.type d.name (d.value.map (·.2)) := by
  have hleft := (free_left h hsource).2
  rw [body]
  cases hvalue : d.value with
  | none => simpa [left] using DeclaredAs.bare hleft h.name
  | some v =>
    obtain ⟨equal, value⟩ := v
    have hvalued : DeclaredAs (d.type ++ d.name :: equal :: value.tokens) d.type d.name
        (some value) := .valued hleft h.name (h.value equal value hvalue).1
    simpa [left] using hvalued

lemma free_body : Free ";" d.body := by
  rw [body]
  refine (free_left h hsource).1.append ?_
  cases hvalue : d.value with
  | none => exact .nil _
  | some v =>
    obtain ⟨equal, value⟩ := v
    obtain ⟨hequal, hfree⟩ := h.value equal value hvalue
    exact (free_mark hequal (by decide) (by decide)).append hfree

omit hsource in
lemma exists_start : ∃ start more, d.left = start :: more ∧ Opens start := by
  obtain ⟨start, more, htype, hopens⟩ := opens_of_isType h.type
  exact ⟨start, more ++ [d.name], by simp [left, htype], hopens⟩

/-- A block asks how the type ends. -/
lemma looksDeclared_left : looksDeclared d.left = !endsClosed d.type := by
  have hleft : Sourced (d.type ++ [d.name]) := hsource.left.left
  obtain ⟨start, more, htype, hopens⟩ := opens_of_isType h.type
  have hword : start.isWord expressionWords = false := hopens.isWord_eq_false (by decide)
  have hhead : d.type.head? = some start := by rw [htype]; rfl
  rw [left, looksDeclared_append h.name, ends_of_isType h.type hleft.left, hhead]
  simp [hword]

/-- A block reads the statement in front of any rest. -/
lemma spells_statement (rest : Phrase) :
    Spells d.statement d.tokens rest ∧ sees "\x7d" d.tokens = false := by
  obtain ⟨start, more, hleft, hopens⟩ := exists_start h
  have hmem : start ∈ d.tokens := by simp [tokens, body, hleft]
  have hlead := hopens.leads hsource hmem
  have hspan : d.span = start.span.through d.semicolon.span := by simp [span, hleft]
  have hlooks := looksDeclared_left h hsource
  have hfree := free_body h hsource
  refine ⟨.leaf ?_, ?_⟩
  · rw [statement]
    split
    · rename_i hclosed
      rw [hclosed] at hlooks
      cases hvalue : d.value with
      | none =>
        have htokens : d.tokens = (⟨start, more⟩ : Expression).tokens ++ [d.semicolon] := by
          simp [tokens, body, hvalue, hleft, Expression.tokens]
        have hbody : d.body = (⟨start, more⟩ : Expression).tokens := by
          simp [body, hvalue, hleft, Expression.tokens]
        have hequal := (free_left h hsource).2
        rw [hleft] at hequal hlooks
        rw [hbody] at hfree
        rw [htokens, hspan, hleft]
        exact .expression hlead hfree h.semicolon hequal hlooks
      | some v =>
        obtain ⟨equal, value⟩ := v
        have hbody : d.body = d.left ++ equal :: value.tokens := by simp [body, hvalue]
        rw [hbody] at hfree
        rw [tokens, hbody, hspan]
        exact .assignment (by rw [hleft]; rfl) hlead hfree h.semicolon (free_left h hsource).2
          (h.value equal value hvalue).1 hlooks
    · rename_i hclosed
      rw [Bool.not_eq_true] at hclosed
      rw [hclosed] at hlooks
      rw [tokens, declaration, hspan]
      exact .declaration (by simp [body, hleft]) hlead hfree h.semicolon (declaredAs h hsource)
        hlooks
  · simpa [tokens, body, hleft, sees] using hopens.is_eq_false hsource hmem (by decide)

/-- A module reads the variable in front of any rest. -/
lemma spellsParts_declaration (rest : Phrase) :
    SpellsParts [] [.variable d.declaration] d.tokens rest := by
  obtain ⟨start, more, hleft, hopens⟩ := exists_start h
  obtain ⟨used, hused⟩ : ∃ used, d.tokens = start :: used := ⟨_, by simp [tokens, body, hleft]; rfl⟩
  have hmem : start ∈ d.tokens := by simp [hused]
  have himport : start.is "import" = false := by
    by_contra his
    simp only [Bool.not_eq_false, Token.is, Bool.and_eq_true, beq_iff_eq] at his
    exact hopens.text (his.2 ▸ by decide)
  have hqualifiers : qualifiers (start :: used ++ rest) = ([], start :: used ++ rest) := by
    rw [List.cons_append, qualifiers, hopens.isWord_eq_false (by decide)]
    rfl
  have hvariable : OpensVariable (start :: used ++ rest) := by
    intro t ht
    obtain rfl := Option.some.inj ht
    refine ⟨hopens.isWord_eq_false (by decide), fun hword => hopens.text ?_⟩
    simp [keywords, hword]
  have hread : Parser.declaration start [] [] (start :: used ++ rest) =
      .ok (d.declaration, rest) := by
    refine declaration_eq_ok_iff.mpr ⟨d.body, d.semicolon, d.type, d.name, _, ?_,
      free_body h hsource, h.semicolon, declaredAs h hsource, ?_⟩
    · rw [← hused, tokens]
      simp
    · simp [declaration, span, hleft]
  have hat : sees "@" (start :: used ++ rest) = false := hopens.is_eq_false hsource hmem (by decide)
  have hmember : Parser.member start (used ++ ([] ++ rest)) =
      .ok (.variable d.declaration, [] ++ rest) := by
    refine bind_eq_ok_iff.mpr ⟨_, Analysis.annotations_of_not_sees hat, ?_⟩
    dsimp only
    rw [List.nil_append, ← List.cons_append, hqualifiers]
    dsimp only
    rw [memberAfter_of_opens hvariable (by simp), hread]
    rfl
  have hstray : start.is ";" = false := hopens.is_eq_false hsource hmem (by decide)
  have hparts := SpellsParts.member himport hstray hmember .nil
  rw [List.append_nil, ← hused] at hparts
  exact hparts

end Sound

end DeclaredText

/-- A declaration among the members of a module is read as the variable it declares. Among the
statements of a block it is read as the same declaration exactly if its type ends in no parenthesis
and no brace; else it is read as an assignment to the type and the name, or as an expression. -/
theorem declared_read_alike_iff {d : DeclaredText} (h : d.Sound) (hsource : Sourced d.tokens) :
    (∀ {source : String} {front back : Phrase} {imports imports' : List Import}
      {members members' : List Member}, tokenize source = .ok (front ++ (d.tokens ++ back)) →
      SpellsParts imports members front (d.tokens ++ back) → SpellsParts imports' members' back [] →
      ∃ m, parse source = .ok m ∧ m.imports = imports ++ imports' ∧
        m.members = members ++ .variable d.declaration :: members') ∧
      (∀ {brace close : Token} {before after : Phrase} {list list' : List Statement}
        (rest : Phrase), brace.is "\x7b" → close.is "\x7d" →
        SpellsAll list before (d.tokens ++ (after ++ [close])) → SpellsAll list' after [close] →
        block (brace :: (before ++ (d.tokens ++ (after ++ close :: rest)))) =
          .ok (.mk (list ++ d.statement :: list') (brace.span.through close.span), rest)) ∧
      (d.statement = .declaration d.declaration ↔ endsClosed d.type = false) := by
  refine ⟨fun {source front back imports imports' members members'} hts hfront hback => ?_,
    fun {brace close before after list list'} rest hbrace hclose hbefore hafter => ?_,
    DeclaredText.statement_eq_declaration_iff⟩
  · have hparts : SpellsParts ([] ++ imports') ([.variable d.declaration] ++ members')
        (d.tokens ++ back) [] := by
      refine SpellsParts.append ?_ hback
      exact DeclaredText.spellsParts_declaration h hsource _
    have hall : SpellsParts (imports ++ imports') (members ++ .variable d.declaration :: members')
        (front ++ (d.tokens ++ back)) [] := by
      refine SpellsParts.append ?_ hparts
      rwa [List.append_nil]
    exact ⟨⟨_, _, _⟩, parse_eq_ok_iff.mpr ⟨_, hts, hall, rfl⟩, rfl, rfl⟩
  · obtain ⟨hspells, hfirst⟩ := DeclaredText.spells_statement h hsource (after ++ [close])
    have hrest : SpellsAll (d.statement :: list') (d.tokens ++ after) [close] :=
      .cons hfirst hspells hafter
    have hall : SpellsAll (list ++ d.statement :: list') (before ++ (d.tokens ++ after))
        [close] := by
      refine SpellsAll.append ?_ hrest
      rwa [List.append_assoc]
    have hread := acceptsBlocks_block _ (.mk hbrace hclose hall) le_rfl rest
    simpa using hread

/-- A union in parentheses is the type of a variable of a module, and a part of the target of an
assignment in a block. -/
theorem declared_read_alike_iff_union :
    ∃ (d : DeclaredText) (m : SourceModule) (value : Expression),
      d.type.lexemes = [(.punctuation, "("), (.identifier, "int"), (.punctuation, "|"),
        (.identifier, "string"), (.punctuation, ")")] ∧ d.name.text = "x" ∧
      parse "(int|string) x = 1;" = .ok m ∧ m.members = [.variable d.declaration] ∧
      d.declaration.type = d.type ∧ d.declaration.name = "x" ∧
      d.declaration.initializer = some value ∧
      (∀ brace close : Token, brace.is "\x7b" → close.is "\x7d" →
        block (brace :: (d.tokens ++ [close])) =
          .ok (.mk [.assignment d.left value d.span] (brace.span.through close.span), [])) ∧
      d.statement ≠ .declaration d.declaration := by
  have hread : (tokenize "(int|string) x = 1;").toOption.any fun ts =>
      Phrase.lexemes ts = [(.punctuation, "("), (.identifier, "int"), (.punctuation, "|"),
        (.identifier, "string"), (.punctuation, ")"), (.identifier, "x"), (.punctuation, "="),
        (.number, "1"), (.punctuation, ";")] := by
    decide +kernel
  obtain ⟨ts, hts, htest⟩ := exists_ok_of_any hread
  obtain ⟨cs, last, -, hscanned, -⟩ := scanned_of_tokenize hts
  have hsource : Sourced ts := ⟨_, _, _, hscanned⟩
  have hlexemes := of_decide_eq_true htest
  simp only [Phrase.lexemes, List.map_eq_cons_iff, List.map_eq_nil_iff, Prod.mk.injEq] at hlexemes
  obtain ⟨first, _, rfl, ⟨hfirst, hfirst'⟩, int, _, rfl, ⟨hint, hint'⟩, bar, _, rfl,
    ⟨hbar, hbar'⟩, string, _, rfl, ⟨hstring, hstring'⟩, last, _, rfl, ⟨hlast, hlast'⟩, x, _, rfl,
    ⟨hx, hx'⟩, equal, _, rfl, ⟨hequal, hequal'⟩, one, _, rfl, ⟨hone, hone'⟩, semicolon, _, rfl,
    ⟨hsemicolon, hsemicolon'⟩, rfl⟩ := hlexemes
  have htype : IsType [first, int, bar, string, last] := by
    have hnames : IsType ([int] ++ bar :: [string]) := by
      refine .union (.name ⟨by simp [Token.isIdentifier, hint], ?_⟩)
        (by simp [Token.is, hbar, hbar']) (.name ⟨by simp [Token.isIdentifier, hstring], ?_⟩)
      · rw [hint']
        decide
      · rw [hstring']
        decide
    exact .group (by simp [Token.is, hfirst, hfirst']) hnames (by simp [Token.is, hlast, hlast'])
  have hsound : (⟨[first, int, bar, string, last], x, some (equal, ⟨one, []⟩), semicolon⟩ :
      DeclaredText).Sound := by
    refine ⟨htype, by simp [Token.isIdentifier, hx], ?_,
      by simp [Token.is, hsemicolon, hsemicolon']⟩
    rintro _ _ ⟨⟩
    refine ⟨by simp [Token.is, hequal, hequal'], ?_⟩
    simp [Expression.tokens, Free, depthAfter?, Token.is, Token.isOpener, Token.isCloser, hone,
      hone']
  obtain ⟨hmodule, hblock, hiff⟩ := declared_read_alike_iff hsound hsource
  have hclosed : endsClosed [first, int, bar, string, last] = true := by
    simp [endsClosed, Token.is, hlast, hlast']
  obtain ⟨m, hm, -, hmembers⟩ := @hmodule _ [] [] [] [] [] [] hts .nil .nil
  refine ⟨_, m, ⟨one, []⟩, ?_, hx', hm, hmembers, rfl, hx', rfl,
    fun brace close hbrace hclose => ?_, fun heq => ?_⟩
  · simp [Phrase.lexemes, hfirst, hfirst', hint, hint', hbar, hbar', hstring, hstring', hlast,
      hlast']
  · have hbody := hblock [] hbrace hclose .nil .nil
    simpa [DeclaredText.statement, hclosed] using hbody
  · rw [hiff.mp heq] at hclosed
    simp at hclosed

end FlowCanvas.Parser
