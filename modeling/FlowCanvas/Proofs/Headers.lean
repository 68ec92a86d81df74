import FlowCanvas.Proofs.Leaves
import FlowCanvas.Proofs.Lossless
import FlowCanvas.Proofs.ModuleParts

/-!
# Headers

A header is what a construct says in front of a mark: the path of a resource in front of `(`, the
base path of a service in front of `on`, and a return type, a listener or a condition in front of
`{`. It goes on to the first such mark outside brackets and does not stop at a semicolon.

`Bears ts hs` says that the brackets of tokens match and that some headers stand in them. Every
reader takes such tokens, so a header never leaves the brackets around it.
-/

namespace FlowCanvas

open Brackets Lexer

/-! ### The headers of a module -/

inductive HeaderKind where
  | resourcePath
  | returnType
  | basePath
  | listener
  | condition
deriving DecidableEq, Repr

/-- The mark in front of which a header ends. -/
def HeaderKind.mark : HeaderKind → String
  | .resourcePath => "("
  | .basePath => "on"
  | .returnType | .listener | .condition => "\x7b"

structure Header where
  kind : HeaderKind
  tokens : Phrase
deriving DecidableEq, Repr

/-- The header of an `if` or a `while`, which is its condition. -/
def Statement.header? : Statement → Option Header
  | .conditional c => some ⟨.condition, c.condition.tokens⟩
  | .loop value _ _ => some ⟨.condition, value.tokens⟩
  | _ => none

/-- The headers of the statements of a block, at any depth. -/
def Block.headers (b : Block) : List Header := b.nested.filterMap Statement.header?

def FunctionName.headers : FunctionName → List Header
  | .resource _ path => [⟨.resourcePath, path⟩]
  | .plain _ | .remote _ => []

def FunctionDefinition.headers (f : FunctionDefinition) : List Header :=
  f.name.headers ++ (f.returns.toList.map (Header.mk .returnType) ++ f.body.headers)

def Member.headers : Member → List Header
  | .function f => f.headers
  | .service s =>
    ⟨.basePath, s.basePath⟩ :: ⟨.listener, s.listener⟩ :: s.functions.flatMap (·.headers)
  | .classDefinition c => c.functions.flatMap (·.headers)
  | .variable _ | .typeDefinition _ => []

def SourceModule.headers (m : SourceModule) : List Header := m.members.flatMap Member.headers

/-! ### Marks of a source -/

namespace Lexer

lemma Sourced.tail {t : Token} {ts : Phrase} (h : Sourced (t :: ts)) : Sourced ts :=
  @Sourced.right [t] ts h

lemma Sourced.opens {ts : Phrase} (h : Sourced ts) {t : Token} (ht : t ∈ ts) {mark : String}
    (his : t.is mark) (hmark : mark ∈ ["(", "[", "\x7b", "\x7b|"]) : t.isOpener := by
  have hkind : (t.kind, t.text) = (.punctuation, mark) := by
    simp only [List.mem_cons, List.not_mem_nil, or_false] at hmark
    rcases hmark with rfl | rfl | rfl | rfl <;>
      exact h.mark ht his (by decide)
  obtain ⟨hpunctuation, rfl⟩ := Prod.mk.inj hkind
  simp [Token.isOpener, hpunctuation, hmark]

lemma Sourced.closes {ts : Phrase} (h : Sourced ts) {t : Token} (ht : t ∈ ts) {mark : String}
    (his : t.is mark) (hmark : mark ∈ [")", "]", "\x7d", "|\x7d"]) : t.isCloser := by
  have hkind : (t.kind, t.text) = (.punctuation, mark) := by
    simp only [List.mem_cons, List.not_mem_nil, or_false] at hmark
    rcases hmark with rfl | rfl | rfl | rfl <;>
      exact h.mark ht his (by decide)
  obtain ⟨hpunctuation, rfl⟩ := Prod.mk.inj hkind
  simp [Token.isCloser, hpunctuation, hmark]

/-- An identifier is none of the marks that start, divide or close phrases. -/
lemma Sourced.is_eq_false {ts : Phrase} (h : Sourced ts) {t : Token} (ht : t ∈ ts)
    (hword : t.isIdentifier) {mark : String}
    (hmark : mark ∈ [";", "=", ",", ")", "\x7d", "\x7b", "@"]) : t.is mark = false := by
  rw [← Bool.not_eq_true]
  intro his
  have hkind : (t.kind, t.text) = (.punctuation, mark) := by
    simp only [List.mem_cons, List.not_mem_nil, or_false] at hmark
    rcases hmark with rfl | rfl | rfl | rfl | rfl | rfl | rfl <;>
      exact h.mark ht his (by decide)
  simp [Token.isIdentifier, (Prod.mk.inj hkind).1] at hword

end Lexer

namespace Parser

/-! ### Where headers stand -/

/-- What stands in front of a header, which is followed by `next`. -/
inductive Leads : HeaderKind → Phrase → Phrase → Prop
  | resourcePath {front next : Phrase} {word accessor : Token} (hword : word.text = "function")
    (haccessor : accessor.isIdentifier) : Leads .resourcePath (front ++ [word, accessor]) next
  | returnType {front annotated next : Phrase} {word : Token} {names : List String}
    (hword : word.is "returns") (hannotated : annotations (annotated ++ next) = .ok (names, next)) :
    Leads .returnType (front ++ word :: annotated) next
  | basePath {front next : Phrase} {word : Token} (hword : word.text = "service") :
    Leads .basePath (front ++ [word]) next
  | listener {front next : Phrase} {word : Token} (hword : word.is "on") :
    Leads .listener (front ++ [word]) next
  | condition {front next : Phrase} {word : Token} (hword : word.is "if" ∨ word.is "while") :
    Leads .condition (front ++ [word]) next

lemma Leads.prepend {kind : HeaderKind} {front next : Phrase} (h : Leads kind front next)
    (before : Phrase) : Leads kind (before ++ front) next := by
  cases h with
  | resourcePath hword haccessor =>
    rw [← List.append_assoc]
    exact .resourcePath hword haccessor
  | returnType hword hannotated =>
    rw [← List.append_assoc]
    exact .returnType hword hannotated
  | basePath hword =>
    rw [← List.append_assoc]
    exact .basePath hword
  | listener hword =>
    rw [← List.append_assoc]
    exact .listener hword
  | condition hword =>
    rw [← List.append_assoc]
    exact .condition hword

/-- A header stands in tokens, from what leads it up to the first of its marks outside brackets. -/
def Stands (ts : Phrase) (h : Header) : Prop :=
  ∃ front found back, ts = front ++ (h.tokens ++ found :: back) ∧
    Leads h.kind front (h.tokens ++ [found]) ∧ Free h.kind.mark h.tokens ∧ found.is h.kind.mark

lemma Stands.prepend {ts : Phrase} {h : Header} (hts : Stands ts h) (before : Phrase) :
    Stands (before ++ ts) h := by
  obtain ⟨front, found, back, rfl, hlead, hfree, hfound⟩ := hts
  exact ⟨before ++ front, found, back, by simp, hlead.prepend before, hfree, hfound⟩

lemma Stands.extend {ts : Phrase} {h : Header} (hts : Stands ts h) (after : Phrase) :
    Stands (ts ++ after) h := by
  obtain ⟨front, found, back, rfl, hlead, hfree, hfound⟩ := hts
  exact ⟨front, found, back ++ after, by simp, hlead, hfree, hfound⟩

/-- Tokens whose brackets match, with headers in them. -/
structure Bears (ts : Phrase) (hs : List Header) : Prop where
  matched : Matched ts
  stands : ∀ h ∈ hs, Stands ts h

lemma bears_of_matched {ts : Phrase} (h : Matched ts) : Bears ts [] := ⟨h, by simp⟩

lemma Bears.append {ts us : Phrase} {hs ks : List Header} (hts : Bears ts hs) (hus : Bears us ks) :
    Bears (ts ++ us) (hs ++ ks) := by
  refine ⟨hts.matched.append hus.matched, fun h hmem => ?_⟩
  rcases List.mem_append.mp hmem with hmem | hmem
  · exact (hts.stands h hmem).extend us
  · exact (hus.stands h hmem).prepend ts

lemma Bears.cons {t : Token} {ts : Phrase} {hs : List Header} (ht : Matched [t])
    (hts : Bears ts hs) : Bears (t :: ts) hs :=
  (bears_of_matched ht).append hts

/-! ### Groups -/

lemma free_identifier {ts : Phrase} (h : Sourced ts) {t : Token} (ht : t ∈ ts)
    (hword : t.isIdentifier) {mark : String}
    (hmark : mark ∈ [";", "=", ",", ")", "\x7d", "\x7b", "@"]) : Free mark [t] :=
  free_singleton (matched_identifier hword) (h.is_eq_false ht hword hmark)

lemma Bears.group {first last : Token} {inner : Phrase} {hs : List Header}
    (hsource : Sourced (first :: (inner ++ [last]))) {mark mark' : String}
    (hfirst : first.is mark) (hmark : mark ∈ ["(", "[", "\x7b", "\x7b|"])
    (hlast : last.is mark') (hmark' : mark' ∈ [")", "]", "\x7d", "|\x7d"])
    (hinner : Bears inner hs) : Bears (first :: (inner ++ [last])) hs := by
  have hopen := hsource.opens (by simp) hfirst hmark
  have hclose := hsource.closes (by simp) hlast hmark'
  refine ⟨matched_group hopen hinner.matched hclose, fun h hmem => ?_⟩
  exact ((hinner.stands h hmem).extend [last]).prepend [first]

/-! ### Statements -/

lemma matched_of_skipStatement {depth : Nat} {ts rest : Phrase} {last : Token}
    (h : skipStatement depth ts = .ok (last, rest)) :
    ∃ used, ts = used ++ rest ∧ levelAfter? depth used = some 0 := by
  fun_induction skipStatement depth ts with
  | case1 depth => simp at h
  | case2 depth t ts hopen ih =>
    obtain ⟨used, rfl, hused⟩ := ih h
    exact ⟨t :: used, rfl, by simp [levelAfter?, hopen, hused]⟩
  | case3 t ts hopen hclose => simp at h
  | case4 t ts hopen hclose depth hend =>
    obtain ⟨rfl, rfl⟩ := h
    simp only [Bool.and_eq_true, beq_iff_eq] at hend
    exact ⟨[last], rfl, by simp [levelAfter?, hopen, hclose, hend.1.1]⟩
  | case5 t ts hopen hclose depth hend ih =>
    obtain ⟨used, rfl, hused⟩ := ih h
    exact ⟨t :: used, rfl, by simp [levelAfter?, hopen, hclose, hused]⟩
  | case6 depth t ts hopen hclose hend =>
    obtain ⟨rfl, rfl⟩ := h
    simp only [Bool.and_eq_true, beq_iff_eq] at hend
    exact ⟨[last], rfl, by simp [levelAfter?, hopen, hclose, hend.1]⟩
  | case7 depth t ts hopen hclose hend ih =>
    obtain ⟨used, rfl, hused⟩ := ih h
    exact ⟨t :: used, rfl, by simp [levelAfter?, hopen, hclose, hused]⟩

lemma matched_skipped {ts : Phrase} {last : Token} (h : skipStatement 0 ts = .ok (last, [])) :
    Matched ts := by
  obtain ⟨used, rfl, hused⟩ := matched_of_skipStatement h
  rw [List.append_nil]
  exact hused

lemma matched_semicolon {body : Phrase} {semicolon : Token} (hbody : Free ";" body)
    (hsemicolon : semicolon.is ";") : Matched (body ++ [semicolon]) :=
  hbody.matched.append (matched_mark hsemicolon (by decide))

lemma matched_annotated {used rest : Phrase} {names : List String}
    (h : annotations (used ++ rest) = .ok (names, rest)) : Matched used := by
  obtain ⟨used', hused, hmatched⟩ := matched_of_annotationsFrom h
  rw [List.append_cancel_right hused]
  exact hmatched

lemma is_of_isWord {t : Token} {word : String} (h : t.isWord [word]) : t.is word := by
  obtain ⟨hid, htext⟩ := isWord_singleton h
  simp only [Token.isIdentifier, beq_iff_eq] at hid
  simp [Token.is, hid, htext]

lemma SpellsLeaf.matched {s : Statement} {ts rest : Phrase} (h : SpellsLeaf s ts rest) :
    Matched ts := by
  cases h with
  | declaration _ _ hbody hsemicolon => exact matched_semicolon hbody hsemicolon
  | marked _ _ hannotated hfinals hbody hsemicolon =>
    refine (matched_annotated hannotated).append (.append ?_ (matched_semicolon hbody hsemicolon))
    cases hfinals with
    | absent => exact .nil
    | present hword => exact matched_mark hword (by decide)
  | assignment _ _ hbody hsemicolon => exact matched_semicolon hbody hsemicolon
  | expression _ hbody hsemicolon => exact matched_semicolon hbody hsemicolon
  | exit hword hbody hsemicolon =>
    exact (matched_of_isWord hword).append (matched_semicolon hbody hsemicolon)
  | jump hword hsemicolon =>
    exact (matched_of_isWord hword).append (matched_mark hsemicolon (by decide))
  | unsupported _ hskip => exact matched_skipped hskip
  | braces _ hskip => exact matched_skipped hskip

lemma SpellsLeaf.headers {s : Statement} {ts rest : Phrase} (h : SpellsLeaf s ts rest) :
    s.nested.filterMap Statement.header? = [] := by
  cases h <;> rfl

/-- A header in front of tokens that start with its mark. -/
lemma Bears.header {kind : HeaderKind} {front tokens us : Phrase} {hs : List Header}
    (hus : Bears us hs) (hfront : Matched front)
    (hlead : ∀ found ∈ us.head?, Leads kind front (tokens ++ [found]))
    (hfree : Free kind.mark tokens) (hmark : sees kind.mark us) :
    Bears (front ++ (tokens ++ us)) (⟨kind, tokens⟩ :: hs) := by
  have hall := (bears_of_matched hfront).append ((bears_of_matched hfree.matched).append hus)
  refine ⟨hall.matched, fun h hmem => ?_⟩
  rcases List.mem_cons.mp hmem with rfl | hmem
  · cases us with
    | nil => simp [sees] at hmark
    | cons found us => exact ⟨front, found, us, rfl, hlead found rfl, hfree, hmark⟩
  · exact hall.stands h hmem

lemma bears_condition {word : Token} {value : Expression} {us : Phrase} {hs : List Header}
    (hword : word.is "if" ∨ word.is "while") (hvalue : Free "\x7b" value.tokens)
    (hbrace : sees "\x7b" us) (hus : Bears us hs) :
    Bears (word :: (value.tokens ++ us)) (⟨.condition, value.tokens⟩ :: hs) := by
  change Bears ([word] ++ (value.tokens ++ us)) _
  refine hus.header ?_ (fun _ _ => @Leads.condition [] _ word hword) hvalue hbrace
  rcases hword with hword | hword <;> exact matched_mark hword (by decide)

mutual

theorem bears_of_spells {s : Statement} {ts rest : Phrase} (h : Spells s ts rest)
    (hsource : Sourced ts) : Bears ts (s.nested.filterMap Statement.header?) := by
  cases h with
  | leaf h =>
    rw [h.headers]
    exact bears_of_matched h.matched
  | conditional hword h => exact bears_of_spellsConditional (is_of_isWord hword) h hsource
  | @loop word value body us _ hword hvalue hbody =>
    have hblock := bears_of_spellsBlock hbody hsource.tail.right
    exact bears_condition (.inr (is_of_isWord hword)) hvalue (by simpa using hbody.sees []) hblock

theorem bears_of_spellsConditional {c : Conditional} {word : Token} {ts rest : Phrase}
    (hword : word.is "if") (h : SpellsConditional c word ts rest)
    (hsource : Sourced (word :: ts)) :
    Bears (word :: ts) (c.nested.filterMap Statement.header?) := by
  cases h with
  | @absent _ value body ts _ hvalue hbody _ =>
    have hthen := bears_of_spellsBlock hbody hsource.tail.right
    have hall := bears_condition (.inl hword) hvalue (by simpa using hbody.sees []) hthen
    simpa [Conditional.nested, Alternative.nested, Statement.header?, Conditional.condition,
      Block.headers] using hall
  | @block _ other value body last ts us _ hvalue hbody helse hlast =>
    have hrest := hsource.tail.right
    have hthen := bears_of_spellsBlock hbody hrest.left
    have hother := bears_of_spellsBlock hlast hrest.right.tail
    have hall := bears_condition (.inl hword) hvalue (hbody.sees _)
      (hthen.append (hother.cons (matched_mark helse (by decide))))
    simpa [Conditional.nested, Alternative.nested, Statement.header?, Conditional.condition,
      Block.headers] using hall
  | @chained _ other word' value body next ts us _ hvalue hbody helse hif hnext =>
    have hrest := hsource.tail.right
    have hthen := bears_of_spellsBlock hbody hrest.left
    have hother := bears_of_spellsConditional hif hnext hrest.right.tail
    have hall := bears_condition (.inl hword) hvalue (hbody.sees _)
      (hthen.append (hother.cons (matched_mark helse (by decide))))
    simpa [Conditional.nested, Alternative.nested, Statement.header?, Conditional.condition,
      Block.headers] using hall

theorem bears_of_spellsBlock {b : Block} {ts : Phrase} (h : SpellsBlock b ts)
    (hsource : Sourced ts) : Bears ts b.headers := by
  cases h with
  | @mk brace close list ts hbrace hclose hlist =>
    have hinner := bears_of_spellsAll hlist hsource.tail.left
    exact hinner.group hsource hbrace (by decide) hclose (by decide)

theorem bears_of_spellsAll {list : List Statement} {ts rest : Phrase} (h : SpellsAll list ts rest)
    (hsource : Sourced ts) : Bears ts ((Statement.allNested list).filterMap Statement.header?) := by
  cases h with
  | nil => exact bears_of_matched .nil
  | cons _ hs hlist =>
    rw [Statement.allNested, List.filterMap_append]
    exact (bears_of_spells hs hsource.left).append (bears_of_spellsAll hlist hsource.right)

end

/-! ### Readers of parts -/

/-- The tokens from `ts` up to `rest` bear some headers. -/
def Crosses (ts rest : Phrase) (hs : List Header) : Prop :=
  ∃ used, ts = used ++ rest ∧ (Sourced used → Bears used hs)

/-- The tokens from `ts` up to `rest` start with a mark and bear some headers. -/
def Enters (mark : String) (ts rest : Phrase) (hs : List Header) : Prop :=
  ∃ used, ts = used ++ rest ∧ sees mark used ∧ (Sourced used → Bears used hs)

lemma Crosses.refl (ts : Phrase) : Crosses ts ts [] := ⟨[], rfl, fun _ => bears_of_matched .nil⟩

lemma crosses_append {used : Phrase} (h : Matched used) (rest : Phrase) :
    Crosses (used ++ rest) rest [] := ⟨used, rfl, fun _ => bears_of_matched h⟩

lemma crosses_cons {t : Token} (h : Matched [t]) (rest : Phrase) : Crosses (t :: rest) rest [] :=
  crosses_append h rest

lemma Crosses.trans {ts us vs : Phrase} {hs ks : List Header} (h : Crosses ts us hs)
    (h' : Crosses us vs ks) : Crosses ts vs (hs ++ ks) := by
  obtain ⟨used, rfl, hts⟩ := h
  obtain ⟨used', rfl, hus⟩ := h'
  exact ⟨used ++ used', by rw [List.append_assoc],
    fun hsource => (hts hsource.left).append (hus hsource.right)⟩

lemma Enters.crosses {mark : String} {ts rest : Phrase} {hs : List Header}
    (h : Enters mark ts rest hs) : Crosses ts rest hs := by
  obtain ⟨used, hused, -, hbears⟩ := h
  exact ⟨used, hused, hbears⟩

/-- A group behind its opening bracket. -/
lemma Crosses.group {first last : Token} {ts rest : Phrase} {hs : List Header}
    (h : Crosses ts (last :: rest) hs) {mark mark' : String} (hfirst : first.is mark)
    (hmark : mark ∈ ["(", "[", "\x7b", "\x7b|"]) (hlast : last.is mark')
    (hmark' : mark' ∈ [")", "]", "\x7d", "|\x7d"]) : Enters mark (first :: ts) rest hs := by
  obtain ⟨inner, rfl, hinner⟩ := h
  refine ⟨first :: (inner ++ [last]), by simp, hfirst, fun hsource => ?_⟩
  have hbears := hinner hsource.tail.left
  exact hbears.group hsource hfirst hmark hlast hmark'

lemma crosses_of_identifier {ts rest : Phrase} {t : Token} (h : identifier ts = .ok (t, rest)) :
    Crosses ts rest [] := by
  obtain ⟨rfl, ht⟩ := identifier_eq_ok_iff.mp h
  exact crosses_cons (matched_identifier ht) rest

lemma crosses_of_through {mark : String}
    (hmark : mark ∉ ["(", "[", "\x7b", "\x7b|", ")", "]", "\x7d", "|\x7d"]) {ts body rest : Phrase}
    {found : Token} (h : through mark ts = .ok ((body, found), rest)) : Crosses ts rest [] := by
  obtain ⟨rfl, hbody, hfound⟩ := through_eq_ok_iff.mp h
  simpa using crosses_append (hbody.matched.append (matched_mark hfound hmark)) rest

lemma crosses_of_upTo {mark : String} {ts body rest : Phrase}
    (h : upTo mark ts = .ok (body, rest)) : Crosses ts rest [] := by
  obtain ⟨rfl, hbody, -⟩ := upTo_eq_ok_iff.mp h
  exact crosses_append hbody.matched rest

lemma crosses_of_annotations {ts rest : Phrase} {names : List String}
    (h : annotations ts = .ok (names, rest)) : Crosses ts rest [] := by
  obtain ⟨used, rfl, hused⟩ := matched_of_annotationsFrom h
  exact crosses_append hused rest

lemma crosses_qualifiers (ts : Phrase) : Crosses ts (qualifiers ts).2 [] := by
  induction ts with
  | nil => exact .refl []
  | cons t ts ih =>
    rw [qualifiers]
    split
    · rename_i hword
      exact (crosses_cons (matched_of_isWord hword) ts).trans ih
    · exact .refl _

lemma crosses_of_declaration {start : Token} {names words : List String} {ts rest : Phrase}
    {d : Declaration} (h : declaration start names words ts = .ok (d, rest)) :
    Crosses ts rest [] := by
  obtain ⟨body, semicolon, _, _, _, rfl, hbody, hsemicolon, -⟩ := declaration_eq_ok_iff.mp h
  simpa using crosses_append (matched_semicolon hbody hsemicolon) rest

lemma crosses_of_front {ts rest : Phrase} {names words : List String}
    (h : ReadsFront ts names words rest) : Crosses ts rest [] := by
  obtain ⟨after, hnames, hwords⟩ := h
  have hqualified := crosses_qualifiers after
  rw [hwords] at hqualified
  exact (crosses_of_annotations hnames).trans hqualified

lemma matched_of_namesModule {ts : Phrase} (h : ∀ t ∈ ts, NamesModule t) : Matched ts := by
  induction ts with
  | nil => exact .nil
  | cons t ts ih =>
    have hrest : Matched ts := ih fun u hu => h u (List.mem_cons_of_mem t hu)
    refine @Matched.append [t] ts ?_ hrest
    rcases h t List.mem_cons_self with hword | ⟨mark, hmark, his⟩
    · exact matched_identifier hword
    · refine matched_mark his ?_
      simp only [List.mem_cons, List.not_mem_nil, or_false] at hmark
      rcases hmark with rfl | rfl | rfl <;> decide

lemma crosses_of_importDeclaration {start : Token} {ts rest : Phrase} {i : Import}
    (h : importDeclaration start ts = .ok (i, rest)) : Crosses ts rest [] := by
  obtain ⟨used, semicolon, rfl, hused, hsemicolon, -⟩ := importDeclaration_spec h
  have hmatched := (matched_of_namesModule hused).append (matched_mark hsemicolon (by decide))
  simpa using crosses_append hmatched rest

/-! ### Functions and their owners -/

lemma enters_of_parameters {ts rest : Phrase} {list : List Parameter}
    (h : parameters ts = .ok (list, rest)) : Enters "(" ts rest [] := by
  obtain ⟨⟨paren, after⟩, hparen, hread⟩ := bind_eq_ok_iff.mp h
  obtain ⟨⟨⟨inner, close⟩, left⟩, hinner, hdone⟩ := bind_eq_ok_iff.mp hread
  obtain ⟨rfl, rfl⟩ := hdone
  obtain ⟨rfl, hparen'⟩ := expect_eq_ok_iff.mp hparen
  obtain ⟨rfl, hfree, hclose⟩ := through_eq_ok_iff.mp hinner
  exact (crosses_append hfree.matched _).group hparen' (by decide) hclose (by decide)

lemma enters_of_block {ts rest : Phrase} {b : Block} (h : block ts = .ok (b, rest)) :
    Enters "\x7b" ts rest b.headers := by
  obtain ⟨used, rfl, hspells⟩ := readsBlocks_block h
  exact ⟨used, rfl, by simpa using hspells.sees [], bears_of_spellsBlock hspells⟩

/-- The word `function`, the name and the parameters of a function. -/
lemma crosses_of_signature {word : Token} {words : List String} {ts after rest : Phrase}
    {name : FunctionName} {list : List Parameter} (hword : word.text = "function")
    (hname : functionName words ts = .ok (name, after))
    (hlist : parameters after = .ok (list, rest)) : Crosses (word :: ts) rest name.headers := by
  have hmatched := matched_of_text hword (by decide)
  have hparameters := enters_of_parameters hlist
  obtain ⟨⟨accessor, after1⟩, haccessor, hread⟩ := bind_eq_ok_iff.mp hname
  dsimp only at hread
  split_ifs at hread
  · obtain ⟨⟨path, left⟩, hpath, hdone⟩ := bind_eq_ok_iff.mp hread
    obtain ⟨rfl, rfl⟩ := hdone
    obtain ⟨rfl, hidentifier⟩ := identifier_eq_ok_iff.mp haccessor
    obtain ⟨rfl, hfree, -⟩ := upTo_eq_ok_iff.mp hpath
    obtain ⟨used, rfl, hparen, hused⟩ := hparameters
    refine ⟨[word, accessor] ++ (path ++ used), by simp, fun hsource => ?_⟩
    exact (hused hsource.right.right).header (hmatched.append (matched_identifier hidentifier))
      (fun _ _ => @Leads.resourcePath [] _ word accessor hword hidentifier) hfree hparen
  · obtain ⟨rfl, rfl⟩ := hread
    exact (crosses_cons hmatched ts).trans
      ((crosses_of_identifier haccessor).trans hparameters.crosses)
  · obtain ⟨rfl, rfl⟩ := hread
    exact (crosses_cons hmatched ts).trans
      ((crosses_of_identifier haccessor).trans hparameters.crosses)

/-- The return type and the body of a function. -/
lemma crosses_of_result {ts after rest : Phrase} {type : Option Phrase} {b : Block}
    (htype : returnType ts = .ok (type, after)) (hbody : block after = .ok (b, rest)) :
    Crosses ts rest (type.toList.map (Header.mk .returnType) ++ b.headers) := by
  have hblock := enters_of_block hbody
  rw [returnType] at htype
  split at htype
  · obtain ⟨rfl, rfl⟩ := htype
    exact hblock.crosses
  · rename_i after1 heat
    obtain ⟨word, rfl, hword⟩ := eat_eq_some_iff.mp heat
    obtain ⟨⟨names, after2⟩, hnames, hread⟩ := bind_eq_ok_iff.mp htype
    obtain ⟨⟨type', left⟩, hupTo, hdone⟩ := bind_eq_ok_iff.mp hread
    obtain ⟨rfl, rfl⟩ := hdone
    obtain ⟨annotated, rfl, -, -, -, hall⟩ := annotations_spec hnames
    obtain ⟨rfl, hfree, -⟩ := upTo_eq_ok_iff.mp hupTo
    obtain ⟨used, rfl, hbrace, hused⟩ := hblock
    refine ⟨word :: annotated ++ (type' ++ used), by simp, fun hsource => ?_⟩
    have hmatched : Matched (word :: annotated) :=
      (matched_mark hword (by decide)).append (matched_annotated hnames)
    refine (hused hsource.right.right).header hmatched (fun found hfound => ?_) hfree hbrace
    refine @Leads.returnType [] _ _ word _ hword (hall _ ?_)
    rw [List.head?_append, List.head?_append, List.head?_append, hfound]
    rfl

lemma crosses_of_functionDefinition {start word : Token} {words : List String} {ts rest : Phrase}
    {f : FunctionDefinition} (hword : word.text = "function")
    (h : functionDefinition start words ts = .ok (f, rest)) :
    Crosses (word :: ts) rest f.headers := by
  obtain ⟨name, after, list, after', type, behind, body, hname, hlist, htype, -, hbody, rfl⟩ :=
    functionDefinition_eq_ok_iff.mp h
  exact (crosses_of_signature hword hname hlist).trans (crosses_of_result htype hbody)

/-- The members of an object up to the brace that closes it. -/
lemma ReadsObject.crosses {ts rest : Phrase} {body : ObjectBody} (h : ReadsObject ts body rest) :
    Crosses ts (body.close :: rest) (body.functions.flatMap (·.headers)) := by
  induction h with
  | close _ => exact .refl _
  | function hfront hword hf _ ih =>
    have htext := (Bool.and_eq_true_iff.mp hword).2
    exact (crosses_of_front hfront).trans
      ((crosses_of_functionDefinition (beq_iff_eq.mp htext) hf).trans ih)
  | inclusion hfront hskipped _ ih =>
    exact (crosses_of_front hfront).trans ((crosses_of_through (by decide) hskipped).trans ih)
  | field hfront hfield _ ih =>
    exact (crosses_of_front hfront).trans ((crosses_of_declaration hfield).trans ih)

lemma enters_of_objectBody {ts rest : Phrase} {body : ObjectBody}
    (h : objectBody ts = .ok (body, rest)) :
    Enters "\x7b" ts rest (body.functions.flatMap (·.headers)) := by
  obtain ⟨brace, after, rfl, hbrace, hread⟩ := objectBody_spec h
  exact hread.crosses.group hbrace (by decide) hread.close_is (by decide)

lemma crosses_of_serviceDefinition {start word : Token} {ts rest : Phrase} {s : ServiceDefinition}
    (hword : word.text = "service") (h : serviceDefinition start ts = .ok (s, rest)) :
    Crosses (word :: ts) rest (Member.service s).headers := by
  obtain ⟨path, on, after, listener, after', body, left, last, hpath, hlistener, hbody, hlast,
    rfl⟩ := serviceDefinition_spec h
  obtain ⟨rfl, hpathFree, hon⟩ := through_eq_ok_iff.mp hpath
  obtain ⟨rfl, hlistenerFree, -⟩ := upTo_eq_ok_iff.mp hlistener
  obtain ⟨used, rfl, hbrace, hused⟩ := enters_of_objectBody hbody
  have hall : Crosses (word :: (path ++ on :: (listener ++ (used ++ left)))) left
      (⟨.basePath, path⟩ :: ⟨.listener, listener⟩ :: body.functions.flatMap (·.headers)) := by
    refine ⟨[word] ++ (path ++ ([on] ++ (listener ++ used))), by simp, fun hsource => ?_⟩
    have hinner := (hused hsource.right.right.right.right).header (matched_mark hon (by decide))
      (fun _ _ => @Leads.listener [] _ on hon) hlistenerFree hbrace
    exact hinner.header (matched_of_text hword (by decide))
      (fun _ _ => @Leads.basePath [] _ word hword) hpathFree hon
  rcases hlast with ⟨-, rfl⟩ | ⟨rfl, hsemicolon⟩
  · exact hall
  · have hend := hall.trans (crosses_cons (matched_mark hsemicolon (by decide)) rest)
    rw [List.append_nil] at hend
    exact hend

lemma crosses_of_classDefinition {start : Token} {words : List String} {ts rest : Phrase}
    {c : ClassDefinition} (h : classDefinition start words ts = .ok (c, rest)) :
    Crosses ts rest (Member.classDefinition c).headers := by
  obtain ⟨name, after, body, rfl, hidentifier, hbody, rfl⟩ := classDefinition_spec h
  exact (crosses_cons (matched_identifier hidentifier) after).trans
    (enters_of_objectBody hbody).crosses

/-! ### Types -/

/-- The entries of a record up to the bracket that closes it. -/
lemma ReadsEntries.crosses {close : String} {record read : RecordType} {ts rest : Phrase}
    (h : ReadsEntries close record ts read rest) :
    ∃ last, last.is close ∧ Crosses ts (last :: rest) [] := by
  induction h with
  | @close record bracket rest hbracket => exact ⟨bracket, hbracket, .refl _⟩
  | inclusion _ hentry _ ih =>
    obtain ⟨last, hlast, hrest⟩ := ih
    exact ⟨last, hlast, (crosses_of_through (by decide) hentry).trans hrest⟩
  | entry hnames hentry _ ih =>
    obtain ⟨last, hlast, hrest⟩ := ih
    exact ⟨last, hlast, (crosses_of_annotations hnames).trans
      ((crosses_of_through (by decide) hentry).trans hrest)⟩

lemma crosses_of_recordType {ts rest : Phrase} {record : RecordType}
    (h : recordType ts = .ok (record, rest)) : Crosses ts rest [] := by
  obtain ⟨bracket, after, opening, close, rfl, hbracket, hmem, closed, hentries⟩ :=
    recordType_spec h
  obtain ⟨last, hlast, hcrosses⟩ := hentries.crosses
  simp only [List.mem_cons, List.not_mem_nil, or_false] at hmem
  rcases hmem with ⟨rfl, rfl⟩ | ⟨rfl, rfl⟩
  · exact (hcrosses.group hbracket (by decide) hlast (by decide)).crosses
  · exact (hcrosses.group hbracket (by decide) hlast (by decide)).crosses

lemma crosses_of_typeDescriptor {ts rest : Phrase} {d : TypeDescriptor}
    (h : typeDescriptor ts = .ok (d, rest)) : Crosses ts rest [] := by
  rcases typeDescriptor_spec h with ⟨word, after, record, rfl, hword, hrecord, -⟩ |
    ⟨descriptor, -, hdescriptor, -⟩
  · exact (crosses_cons (matched_mark hword (by decide)) after).trans
      (crosses_of_recordType hrecord)
  · exact crosses_of_upTo hdescriptor

lemma crosses_of_typeDefinition {start : Token} {words : List String} {ts rest : Phrase}
    {t : TypeDefinition} (h : typeDefinition start words ts = .ok (t, rest)) :
    Crosses ts rest [] := by
  obtain ⟨name, after, descriptor, semicolon, rfl, hidentifier, hdescriptor, hsemicolon, -⟩ :=
    typeDefinition_spec h
  exact (crosses_cons (matched_identifier hidentifier) after).trans
    ((crosses_of_typeDescriptor hdescriptor).trans
      (crosses_cons (matched_mark hsemicolon (by decide)) rest))

lemma crosses_of_enumDefinition {start : Token} {words : List String} {ts rest : Phrase}
    {t : TypeDefinition} (h : enumDefinition start words ts = .ok (t, rest)) :
    Crosses ts rest [] := by
  obtain ⟨name, brace, inner, close, rfl, hidentifier, hbrace, hfree, hclose, -⟩ :=
    enumDefinition_spec h
  exact (crosses_cons (matched_identifier hidentifier) _).trans
    ((crosses_append hfree.matched _).group hbrace (by decide) hclose (by decide)).crosses

/-! ### Members and modules -/

lemma crosses_of_memberAfter {start : Token} {names words : List String} {ts rest : Phrase}
    {m : Member} (h : memberAfter start names words ts = .ok (m, rest)) :
    Crosses ts rest m.headers := by
  cases readsMember_of_memberAfter h with
  | function hword hf => exact crosses_of_functionDefinition hword hf
  | service hword hs => exact crosses_of_serviceDefinition hword hs
  | classDefinition hword hc =>
    exact (crosses_cons (matched_of_text hword (by decide)) _).trans
      (crosses_of_classDefinition hc)
  | typeDefinition hword ht =>
    exact (crosses_cons (matched_of_text hword (by decide)) _).trans
      (crosses_of_typeDefinition ht)
  | enumDefinition hword ht =>
    exact (crosses_cons (matched_of_text hword (by decide)) _).trans
      (crosses_of_enumDefinition ht)
  | constant hword hd =>
    exact (crosses_cons (matched_of_text hword (by decide)) _).trans (crosses_of_declaration hd)
  | declaration _ hd => exact crosses_of_declaration hd

lemma crosses_of_member {start : Token} {ts rest : Phrase} {m : Member}
    (h : member start ts = .ok (m, rest)) : Crosses (start :: ts) rest m.headers := by
  obtain ⟨names, words, after, hfront, hread⟩ := member_spec h
  exact (crosses_of_front hfront).trans (crosses_of_memberAfter hread)

/-- The tokens of the parts of a module bear the headers of the members. -/
theorem SpellsParts.bears {imports : List Import} {members : List Member} {ts rest : Phrase}
    (h : SpellsParts imports members ts rest) (hsource : Sourced ts) :
    Bears ts (members.flatMap Member.headers) := by
  induction h with
  | nil => exact bears_of_matched .nil
  | @importing word i imports members used ts rest hword hi _ ih =>
    obtain ⟨used', hused, hbears⟩ := crosses_of_importDeclaration hi
    obtain rfl := List.append_cancel_right hused
    have himport := (hbears hsource.left.tail).cons
      (matched_mark hword (by decide))
    exact himport.append (ih hsource.right)
  | @stray semicolon imports members ts rest hsemicolon _ ih =>
    have hrest := ih hsource.tail
    exact hrest.cons (matched_mark hsemicolon (by decide))
  | @member start m imports members used ts rest _ _ hm _ ih =>
    obtain ⟨used', hused, hbears⟩ := crosses_of_member hm
    rw [← List.cons_append] at hused
    obtain rfl := List.append_cancel_right hused
    exact (hbears hsource.left).append (ih hsource.right)

/-- A phrase whose brackets match holds a mark outside brackets exactly if the search for the mark
ends inside of it, whatever follows. -/
lemma not_free_iff {mark mark' : String} {ts : Phrase} (h : Free mark' ts) (us : Phrase) :
    ¬Free mark ts ↔ ∃ before found after, cut mark (ts ++ us) = some (before, found, after) ∧
      before.length < ts.length := by
  constructor
  · intro hnot
    cases hcut : cut mark ts with
    | none => exact absurd (free_of_cut_eq_none h hcut) hnot
    | some result =>
      obtain ⟨before, found, after⟩ := result
      obtain ⟨rfl, hbefore, hfound⟩ := cut_eq_some_iff.mp hcut
      exact ⟨before, found, after ++ us, cut_eq_some_iff.mpr ⟨by simp, hbefore, hfound⟩, by simp⟩
  · rintro ⟨before, found, after, hcut, hlength⟩ hfree
    rw [cut, cutFrom_append hfree, Option.map_eq_some_iff] at hcut
    obtain ⟨⟨before', found', after'⟩, -, heq⟩ := hcut
    obtain ⟨rfl, -⟩ := Prod.mk.inj heq
    simp at hlength

/-- Every header stands behind what leads it and goes on to its first mark outside brackets. It
holds a semicolon outside brackets exactly if the source has one in front of that mark. -/
theorem parse_headers {source : String} {m : SourceModule} (h : parse source = .ok m) :
    ∃ ts, tokenize source = .ok ts ∧ ∀ header ∈ m.headers, ∃ front found back,
      ts = front ++ (header.tokens ++ found :: back) ∧
        Leads header.kind front (header.tokens ++ [found]) ∧ found.is header.kind.mark ∧
        Free header.kind.mark header.tokens ∧
        (¬Free ";" header.tokens ↔ ∃ before semicolon after,
          cut ";" (header.tokens ++ found :: back) = some (before, semicolon, after) ∧
            before.length < header.tokens.length) := by
  obtain ⟨ts, hts, hparts, -⟩ := parse_eq_ok_iff.mp h
  obtain ⟨cs, last, -, hscanned, -⟩ := scanned_of_tokenize hts
  have hbears := hparts.bears ⟨_, _, _, hscanned⟩
  refine ⟨ts, hts, fun header hmem => ?_⟩
  obtain ⟨front, found, back, hstands, hlead, hfree, hfound⟩ := hbears.stands header hmem
  exact ⟨front, found, back, hstands, hlead, hfound, hfree, not_free_iff hfree _⟩

/-- The return type of a function without a body goes on to the body of the next function. -/
theorem parse_headers_external :
    ∃ m ts header front found back,
      parse "function f() returns int = external; function g() \x7b\x7d" = .ok m ∧
      tokenize "function f() returns int = external; function g() \x7b\x7d" = .ok ts ∧
      m.members.length = 1 ∧ header ∈ m.headers ∧ header.kind = .returnType ∧
      ts = front ++ (header.tokens ++ found :: back) ∧ found.is "\x7b" ∧
      ¬Free ";" header.tokens ∧ ∃ before semicolon after,
        cut ";" (header.tokens ++ found :: back) = some (before, semicolon, after) ∧
          before.length < header.tokens.length := by
  have hread : (parse "function f() returns int = external; function g() \x7b\x7d").toOption.any
      fun m => m.members.length = 1 ∧ m.headers.any fun header =>
        header.kind = .returnType ∧ (cut ";" header.tokens).isSome := by
    decide +kernel
  obtain ⟨m, hm, htest⟩ := exists_ok_of_any hread
  simp only [Bool.decide_and, Bool.and_eq_true, decide_eq_true_eq, List.any_eq_true] at htest
  obtain ⟨hlength, header, hmem, hkind, hcut⟩ := htest
  obtain ⟨ts, hts, hall⟩ := parse_headers hm
  obtain ⟨front, found, back, hstands, -, hfound, -, hiff⟩ := hall header hmem
  have hnot : ¬Free ";" header.tokens := fun hfree => by simp [cut_of_free hfree] at hcut
  rw [hkind] at hfound
  exact ⟨m, ts, header, front, found, back, hm, hts, hlength, hmem, hkind, hstands, hfound, hnot,
    hiff.mp hnot⟩

end Parser

end FlowCanvas
