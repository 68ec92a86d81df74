import FlowCanvas.Proofs.Editing
import FlowCanvas.Proofs.Lossless
import FlowCanvas.Proofs.ModuleParts
import FlowCanvas.Proofs.TreeNodes

/-!
# Spans of a tree

Every node of a tree that was read from a text stands on a stretch of its tokens, so that its span
starts with a token and ends with one. The parts of a node lie inside it and do not meet, its
children stand in source order, and the text of an expression is the slice of its span.
-/

namespace FlowCanvas

namespace Parser

open Brackets

/-! ### Members -/

/-- A reader that was told where its node starts took the tokens `used`: behind any tokens that
start there, they are the node. -/
def Lays (start : Token) (n : TreeNode) (ts rest : Phrase) : Prop :=
  ∃ used, ts = used ++ rest ∧ used ≠ [] ∧
    ∀ front : Phrase, (front ++ used).head? = some start → Laid n (front ++ used)

lemma covers_through {start last : Token} {ts us : Phrase} (hstart : (ts ++ us).head? = some start)
    (hlast : us.getLast? = some last) : Covers (start.span.through last.span) (ts ++ us) :=
  ⟨start, last, hstart, by simp [List.getLast?_append, hlast], rfl⟩

/-- The last token of a node closes it and all of its parts stand before. -/
lemma lays_of_spread {start last : Token} {n : TreeNode} {used rest : Phrase} {ps : List TreeNode}
    (hspan : n.span = start.span.through last.span) (hparts : ps.Perm n.parts)
    (hchildren : n.children.Sublist ps) (h : Spread Laid ps used)
    (hn : n.isExpression = false) : Lays start n (used ++ last :: rest) rest := by
  refine ⟨used ++ [last], by simp, by simp, fun front hfront => ?_⟩
  have hcovers := covers_through hfront List.getLast?_concat
  rw [← hspan] at hcovers
  exact laid_of_perm hcovers hparts hchildren ((h.extend [last]).prepend front) hn

lemma Lays.prepend {start : Token} {n : TreeNode} {ts rest : Phrase} (h : Lays start n ts rest)
    (before : Phrase) : Lays start n (before ++ ts) rest := by
  obtain ⟨used, rfl, hne, hlaid⟩ := h
  refine ⟨before ++ used, by simp, by simp [hne], fun front hfront => ?_⟩
  rw [← List.append_assoc] at hfront ⊢
  exact hlaid (front ++ before) hfront

/-- What starts with the next token is laid on the tokens that were taken. -/
lemma Lays.laid {start : Token} {n : TreeNode} {ts rest : Phrase} (h : Lays start n ts rest)
    (hstart : ts.head? = some start) : ∃ used, ts = used ++ rest ∧ Laid n used := by
  obtain ⟨used, rfl, hne, hlaid⟩ := h
  refine ⟨used, rfl, hlaid [] ?_⟩
  obtain ⟨t, used, rfl⟩ := List.exists_cons_of_ne_nil hne
  exact hstart

lemma Passes.lays {start : Token} {n : TreeNode} {ts us rest : Phrase} {bs : List Block}
    (h : Passes ts us bs) (hn : Lays start n us rest) : Lays start n ts rest := by
  obtain ⟨before, rfl, -⟩ := h
  exact hn.prepend before

/-- A node without parts ends with the last token that was taken. -/
lemma lays_leaf {start last : Token} {n : TreeNode} {ts rest : Phrase} {bs : List Block}
    (hspan : n.span = start.span.through last.span) (hparts : n.parts = [])
    (hchildren : n.children = []) (h : Passes ts (last :: rest) bs)
    (hn : n.isExpression = false) : Lays start n ts rest := by
  have hlays : Lays start n ([] ++ last :: rest) rest :=
    lays_of_spread hspan (hparts ▸ .refl _) (hchildren ▸ .refl _) (.nil []) hn
  exact h.lays hlays

lemma lays_of_declaration {start : Token} {names words : List String} {ts rest : Phrase}
    {d : Declaration} (h : declaration start names words ts = .ok (d, rest)) {n : TreeNode}
    (hspan : n.span = d.span) (hparts : n.parts = d.initializer.toList.map .expression)
    (hchildren : n.children = []) (hn : n.isExpression = false) :
    Lays start n ts rest := by
  obtain ⟨body, semicolon, type, name, value, rfl, -, -, hdeclared, rfl⟩ :=
    declaration_eq_ok_iff.mp h
  refine lays_of_spread hspan (hparts ▸ .refl _) ?_ hdeclared.spread hn
  rw [hchildren]
  exact List.nil_sublist _

lemma lays_of_functionDefinition {start : Token} {words : List String} {ts rest : Phrase}
    {f : FunctionDefinition} (h : functionDefinition start words ts = .ok (f, rest)) :
    Lays start (.ofFunction f) ts rest := by
  obtain ⟨used, hbefore, hspells, hspan⟩ := body_of_functionDefinition h
  obtain ⟨first, last, hfirst, hlast, hbody⟩ := hspells.covers
  refine hbefore.lays ⟨used, rfl, by rintro rfl; simp at hfirst, fun front hfront => ?_⟩
  have hcovers := covers_through hfront hlast
  rw [show start.span.through last.span = start.span.through f.body.span by rw [hbody]; rfl,
    ← hspan] at hcovers
  exact laid_of_spread hcovers (.refl _)
    ((Spread.single (laid_of_spellsBlock hspells)).prepend front) rfl

/-- Nodes of fields and functions that alternate in some way. -/
def Members (fields : List Declaration) (functions : List FunctionDefinition)
    (ps : List TreeNode) : Prop :=
  ps.Perm (fields.map .field ++ functions.map .ofFunction) ∧
    (functions.map TreeNode.ofFunction).Sublist ps

lemma ReadsObject.spread {ts rest : Phrase} {body : ObjectBody} (h : ReadsObject ts body rest) :
    ∃ used ps, ts = used ++ body.close :: rest ∧ Members body.fields body.functions ps ∧
      Spread Laid ps used := by
  induction h with
  | close _ => exact ⟨[], [], rfl, ⟨.refl _, .refl _⟩, .nil []⟩
  | @function start word names words ts after left rest f body hfront _ hf _ ih =>
    have hbefore := (passes_of_front hfront).trans (passes_cons word after)
    obtain ⟨used, hused, hlaid⟩ := (hbefore.lays (lays_of_functionDefinition hf)).laid rfl
    obtain ⟨used', ps, hused', ⟨hperm, hsub⟩, hspread⟩ := ih
    refine ⟨used ++ used', .ofFunction f :: ps, hused.trans (by simpa using hused'), ⟨?_, ?_⟩,
      .front hlaid hspread⟩
    · exact (hperm.cons _).trans List.perm_middle.symm
    · exact hsub.cons_cons _
  | inclusion hfront hskipped _ ih =>
    obtain ⟨used, hused, -⟩ := (passes_of_front hfront).trans (passes_of_through hskipped)
    obtain ⟨used', ps, hused', hmembers, hspread⟩ := ih
    exact ⟨used ++ used', ps, hused.trans (by simpa using hused'), hmembers, hspread.prepend used⟩
  | @field start names words ts after left rest field body hfront hfield _ ih =>
    have hlays := (passes_of_front hfront).lays
      (lays_of_declaration hfield (show (TreeNode.field field).span = _ from rfl) rfl rfl rfl)
    obtain ⟨used, hused, hlaid⟩ := hlays.laid rfl
    obtain ⟨used', ps, hused', ⟨hperm, hsub⟩, hspread⟩ := ih
    refine ⟨used ++ used', .field field :: ps, hused.trans (by simpa using hused'), ⟨?_, ?_⟩,
      .front hlaid hspread⟩
    · exact hperm.cons _
    · exact hsub.cons _

lemma lays_of_objectBody {start last : Token} {n : TreeNode} {ts rest more : Phrase}
    {body : ObjectBody} (h : objectBody ts = .ok (body, rest))
    (hspan : n.span = start.span.through last.span)
    (hparts : n.parts = body.fields.map .field ++ body.functions.map .ofFunction)
    (hchildren : n.children = body.functions.map .ofFunction)
    (hlast : body.close :: rest = last :: more ∨
      ∃ close, body.close :: rest = close :: last :: more)
    (hn : n.isExpression = false) : Lays start n ts more := by
  obtain ⟨brace, after, rfl, -, hread⟩ := objectBody_spec h
  obtain ⟨used, ps, rfl, ⟨hperm, hsub⟩, hspread⟩ := hread.spread
  refine (passes_cons brace _).lays ?_
  rw [← hparts] at hperm
  rw [← hchildren] at hsub
  rcases hlast with hlast | ⟨close, hlast⟩
  · rw [hlast]
    exact lays_of_spread hspan hperm hsub hspread hn
  · rw [hlast, List.append_cons]
    exact lays_of_spread hspan hperm hsub (hspread.extend [close]) hn

lemma lays_of_serviceDefinition {start : Token} {ts rest : Phrase} {s : ServiceDefinition}
    (h : serviceDefinition start ts = .ok (s, rest)) :
    Lays start (.construct (.service s)) ts rest := by
  obtain ⟨path, on, after, listener, after', body, left, last, hpath, hlistener, hbody, hlast,
    rfl⟩ := serviceDefinition_spec h
  refine ((passes_of_through hpath).trans (passes_of_upTo hlistener)).lays ?_
  rcases hlast with ⟨rfl, rfl⟩ | ⟨rfl, -⟩
  · exact lays_of_objectBody hbody rfl rfl List.map_map (.inl rfl) rfl
  · exact lays_of_objectBody hbody rfl rfl List.map_map (.inr ⟨_, rfl⟩) rfl

lemma lays_of_classDefinition {start : Token} {words : List String} {ts rest : Phrase}
    {c : ClassDefinition} (h : classDefinition start words ts = .ok (c, rest)) :
    Lays start (.construct (.classDefinition c)) ts rest := by
  obtain ⟨name, after, body, rfl, -, hbody, rfl⟩ := classDefinition_spec h
  exact (passes_cons name after).lays
    (lays_of_objectBody hbody rfl rfl List.map_map (.inl rfl) rfl)

lemma lays_of_typeDefinition {start : Token} {words : List String} {ts rest : Phrase}
    {t : TypeDefinition} (h : typeDefinition start words ts = .ok (t, rest)) :
    Lays start (.typeDefinition t) ts rest := by
  obtain ⟨name, after, descriptor, semicolon, rfl, -, hdescriptor, -, rfl⟩ := typeDefinition_spec h
  have hpasses := (passes_cons name after).trans (passes_of_typeDescriptor hdescriptor)
  exact lays_leaf rfl rfl rfl hpasses rfl

lemma lays_of_enumDefinition {start : Token} {words : List String} {ts rest : Phrase}
    {t : TypeDefinition} (h : enumDefinition start words ts = .ok (t, rest)) :
    Lays start (.typeDefinition t) ts rest := by
  obtain ⟨name, brace, inner, close, rfl, -, -, -, -, rfl⟩ := enumDefinition_spec h
  exact lays_leaf rfl rfl rfl (passes_append (name :: brace :: inner) (close :: rest)) rfl

lemma laid_of_importDeclaration {start : Token} {ts rest : Phrase} {i : Import}
    (h : importDeclaration start ts = .ok (i, rest)) :
    ∃ used, start :: ts = used ++ rest ∧ Laid (.importing i) used := by
  obtain ⟨used, semicolon, rfl, -, -, hspan⟩ := importDeclaration_spec h
  have hlays : Lays start (.importing i) (start :: (used ++ semicolon :: rest)) rest :=
    lays_leaf hspan rfl rfl (passes_append (start :: used) (semicolon :: rest)) rfl
  exact hlays.laid rfl

lemma lays_of_memberAfter {start : Token} {names words : List String} {ts rest : Phrase}
    {m : Member} (h : memberAfter start names words ts = .ok (m, rest)) :
    Lays start (.ofMember m) ts rest := by
  cases readsMember_of_memberAfter h with
  | @function word _ _ _ _ hf => exact (lays_of_functionDefinition hf).prepend [word]
  | @service word _ _ _ _ hs => exact (lays_of_serviceDefinition hs).prepend [word]
  | @classDefinition word _ _ _ _ hc => exact (lays_of_classDefinition hc).prepend [word]
  | @typeDefinition word _ _ _ _ ht => exact (lays_of_typeDefinition ht).prepend [word]
  | @enumDefinition word _ _ _ _ ht => exact (lays_of_enumDefinition ht).prepend [word]
  | @constant word _ _ _ _ hd => exact (lays_of_declaration hd rfl rfl rfl rfl).prepend [word]
  | declaration _ hd => exact lays_of_declaration hd rfl rfl rfl rfl

lemma laid_of_member {start : Token} {ts rest : Phrase} {m : Member}
    (h : member start ts = .ok (m, rest)) :
    ∃ used, start :: ts = used ++ rest ∧ Laid (.ofMember m) used := by
  obtain ⟨names, words, after, hfront, hread⟩ := member_spec h
  exact ((passes_of_front hfront).lays (lays_of_memberAfter hread)).laid rfl

/-! ### Modules -/

lemma SpellsParts.spread {imports : List Import} {members : List Member} {ts rest : Phrase}
    (h : SpellsParts imports members ts rest) :
    ∃ ps : List TreeNode, ps.Perm (imports.map .importing ++ members.map .ofMember) ∧
      (members.map TreeNode.ofMember).Sublist ps ∧ Spread Laid ps ts := by
  induction h with
  | nil => exact ⟨[], .refl _, .refl _, .nil _⟩
  | @importing word i imports members used ts rest _ hi _ ih =>
    obtain ⟨ps, hperm, hsub, hspread⟩ := ih
    obtain ⟨used', hused, hlaid⟩ := laid_of_importDeclaration hi
    rw [← List.cons_append] at hused
    obtain rfl := List.append_cancel_right hused
    exact ⟨.importing i :: ps, hperm.cons _, hsub.cons _, .front hlaid hspread⟩
  | @stray semicolon _ _ _ _ _ _ ih =>
    obtain ⟨ps, hperm, hsub, hspread⟩ := ih
    exact ⟨ps, hperm, hsub, hspread.cons_left semicolon⟩
  | @member start m imports members used ts rest _ _ hm _ ih =>
    obtain ⟨ps, hperm, hsub, hspread⟩ := ih
    obtain ⟨used', hused, hlaid⟩ := laid_of_member hm
    rw [← List.cons_append] at hused
    obtain rfl := List.append_cancel_right hused
    exact ⟨.ofMember m :: ps, (hperm.cons _).trans List.perm_middle.symm, hsub.cons_cons _,
      .front hlaid hspread⟩

/-! ### Bytes -/

/-- Tokens of a text, one behind the other and none of them empty. -/
structure Increasing (ts : Phrase) : Prop where
  filled : ∀ t ∈ ts, t.span.start.byte < t.span.stop.byte
  ordered : ts.Pairwise fun t u => t.span.stop.byte ≤ u.span.start.byte

lemma Increasing.sublist {ts us : Phrase} (h : Increasing us) (hsub : ts.Sublist us) :
    Increasing ts :=
  ⟨fun t ht => h.filled t (hsub.subset ht), h.ordered.sublist hsub⟩

/-- A span over increasing tokens starts with none of them behind it and ends with none before. -/
lemma Covers.bounds {span : Span} {ts : Phrase} (h : Covers span ts) (hts : Increasing ts) :
    ∀ t ∈ ts, span.start.byte ≤ t.span.start.byte ∧ t.span.stop.byte ≤ span.stop.byte := by
  obtain ⟨first, last, hfirst, hlast, rfl⟩ := h
  obtain ⟨more, hmore⟩ := List.head?_eq_some_iff.mp hfirst
  obtain ⟨init, hinit⟩ := List.getLast?_eq_some_iff.mp hlast
  intro t ht
  constructor
  · rw [hmore] at hts ht
    rcases List.mem_cons.mp ht with rfl | ht
    · exact le_rfl
    · have hle := (List.pairwise_cons.mp hts.ordered).1 t ht
      have hlt := hts.filled first List.mem_cons_self
      exact hlt.le.trans hle
  · rw [hinit] at hts ht
    rcases List.mem_append.mp ht with ht | ht
    · have hle := (List.pairwise_append.mp hts.ordered).2.2 t ht last (List.mem_singleton_self last)
      have hlt := hts.filled last (List.mem_append_right init (List.mem_singleton_self last))
      exact hle.trans hlt.le
    · rw [List.mem_singleton.mp ht]
      exact le_rfl

lemma Covers.ends {span : Span} {ts : Phrase} (h : Covers span ts) :
    ∃ t ∈ ts, ∃ u ∈ ts, span.start = t.span.start ∧ span.stop = u.span.stop := by
  obtain ⟨first, last, hfirst, hlast, rfl⟩ := h
  exact ⟨first, List.mem_of_head? hfirst, last, List.mem_of_getLast? hlast, rfl, rfl⟩

lemma Covers.filled {span : Span} {ts : Phrase} (h : Covers span ts) (hts : Increasing ts) :
    span.start.byte < span.stop.byte := by
  obtain ⟨first, last, hfirst, -, hspan⟩ := id h
  have hmem := List.mem_of_head? hfirst
  have hstop := (h.bounds hts first hmem).2
  have hstart : span.start = first.span.start := by rw [hspan]; rfl
  rw [hstart]
  exact (hts.filled first hmem).trans_le hstop

/-- Nodes on stretches of increasing tokens stand one behind the other. -/
lemma Spread.ordered {ps : List TreeNode} {ts : Phrase} (h : Spread Laid ps ts)
    (hts : Increasing ts) : ps.Pairwise fun p q => p.span.stop.byte ≤ q.span.start.byte := by
  induction h with
  | nil => exact .nil
  | @cons before used after p ps hp hps ih =>
    have hrest := hts.sublist (List.sublist_append_right before (used ++ after))
    refine .cons (fun q hq => ?_) (ih (hrest.sublist (List.sublist_append_right used after)))
    obtain ⟨before', used', after', rfl, hq⟩ := hps.mem hq
    obtain ⟨hcovers, -, -, -, -⟩ := hp
    obtain ⟨hcovers', -, -, -, -⟩ := hq
    obtain ⟨-, -, t, ht, -, hstop⟩ := hcovers.ends
    obtain ⟨u, hu, -, -, hstart, -⟩ := hcovers'.ends
    rw [hstop, hstart]
    refine (List.pairwise_append.mp hrest.ordered).2.2 t ht u ?_
    exact List.mem_append_right before' (List.mem_append_left after' hu)

/-! ### Spans -/

end Parser

open FlowCanvas.Parser FlowCanvas.Lexer

namespace TreeNode

/-- A node at some depth inside another, or the other itself. -/
inductive Within (outer : TreeNode) : TreeNode → Prop
  | refl : Within outer outer
  | part {n p : TreeNode} (h : Within outer n) (hp : p ∈ n.parts) : Within outer p

/-- The span of a node fits its text, its parts and its children. -/
structure Fits (text : List Char) (n : TreeNode) : Prop where
  positions : n.span.start.position = Text.positionAt text n.span.start.byte ∧
    n.span.stop.position = Text.positionAt text n.span.stop.byte
  children : n.children ⊆ n.parts
  filled : ∀ p ∈ n.parts, p.span.start.byte < p.span.stop.byte
  inside : ∀ p ∈ n.parts,
    n.span.start.byte ≤ p.span.start.byte ∧ p.span.stop.byte ≤ n.span.stop.byte
  ordered : n.children.Pairwise fun p q => p.span.stop.byte ≤ q.span.start.byte
  apart : n.parts.Pairwise fun p q =>
    p.span.stop.byte ≤ q.span.start.byte ∨ q.span.stop.byte ≤ p.span.start.byte
  text : ∀ e, n = .expression e →
    ∃ rest, Text.Stretch text e.span.start.byte e.span.stop.byte e.text.toList rest

/-- What is left to show of a node whose parts stand on stretches of increasing tokens. -/
lemma fits_of_spread {text : List Char} {n : TreeNode} {ps : List TreeNode} {ts : Phrase}
    (hts : Increasing ts) (hparts : ps.Perm n.parts) (hchildren : n.children.Sublist ps)
    (h : Spread Laid ps ts)
    (hpositions : n.span.start.position = Text.positionAt text n.span.start.byte ∧
      n.span.stop.position = Text.positionAt text n.span.stop.byte)
    (hinside : ∀ t ∈ ts, n.span.start.byte ≤ t.span.start.byte ∧
      t.span.stop.byte ≤ n.span.stop.byte)
    (htext : ∀ e, n = .expression e →
      ∃ rest, Text.Stretch text e.span.start.byte e.span.stop.byte e.text.toList rest) :
    Fits text n := by
  have hordered := h.ordered hts
  refine ⟨hpositions, fun p hp => hparts.subset (hchildren.subset hp),
    fun p hp => ?_, fun p hp => ?_,
    hordered.sublist hchildren, ?_, htext⟩
  · obtain ⟨before, used, after, rfl, hlaid⟩ := h.mem (hparts.mem_iff.mpr hp)
    obtain ⟨hcovers, -, -, -, -⟩ := hlaid
    refine hcovers.filled (hts.sublist ?_)
    exact (List.sublist_append_left used after).trans (List.sublist_append_right before _)
  · obtain ⟨before, used, after, rfl, hlaid⟩ := h.mem (hparts.mem_iff.mpr hp)
    obtain ⟨hcovers, -, -, -, -⟩ := hlaid
    obtain ⟨t, ht, u, hu, hstart, hstop⟩ := hcovers.ends
    have hmem : ∀ t ∈ used, t ∈ before ++ (used ++ after) := fun t ht =>
      List.mem_append_right before (List.mem_append_left after ht)
    rw [hstart, hstop]
    exact ⟨(hinside t (hmem t ht)).1, (hinside u (hmem u hu)).2⟩
  · refine (hparts.pairwise_iff fun hpq => hpq.symm).mp ?_
    exact hordered.imp fun hpq => .inl hpq

/-- A node that is laid on a stretch of the tokens of a text fits the text. -/
lemma fits_of_laid {cs last : List Char} {before used after : Phrase} {n : TreeNode}
    (hscanned : Scanned .origin cs (before ++ (used ++ after)) last)
    (hts : Increasing (before ++ (used ++ after))) (h : Laid n used) : Fits (cs ++ last) n := by
  obtain ⟨hcovers, htokens, hparts, hchildren, hspread⟩ := h
  have hused : Increasing used := hts.sublist
    ((List.sublist_append_left used after).trans (List.sublist_append_right before _))
  obtain ⟨front, gap, back, hstretch⟩ := hscanned.stretch hcovers
  refine fits_of_spread hused hparts hchildren hspread ⟨?_, ?_⟩ (hcovers.bounds hused)
    fun e he => ?_
  · rw [hstretch.start, Place.byte_origin_advance, hstretch.chars, Text.positionAt_byteLength]
  · rw [hstretch.stop, Place.byte_origin_advance, hstretch.chars,
      ← List.append_assoc (front ++ gap),
      Text.positionAt_byteLength]
  · subst he
    refine ⟨back ++ last, front ++ gap, ?_, ?_, ?_⟩
    · rw [hstretch.chars, htokens e rfl]
      rfl
    · exact (congrArg Place.byte hstretch.start).trans (Place.byte_origin_advance _)
    · have hstop := (congrArg Place.byte hstretch.stop).trans (Place.byte_origin_advance _)
      rw [htokens e rfl] at hstop
      exact hstop

lemma children_module (m : SourceModule) :
    (TreeNode.construct (.module m)).children.Sublist (m.members.map ofMember) := by
  simp only [children, Construct.children]
  induction m.members with
  | nil => exact .refl _
  | cons member members ih =>
    rcases member with f | d | s | c | t
    · exact ih.cons_cons _
    · exact ih.cons_cons _
    · exact ih.cons_cons _
    · exact ih.cons_cons _
    · exact ih.cons _

end TreeNode

namespace Parser

open TreeNode

/-- Every node of a tree stands where its text says. The module covers all of the text; any other
node starts with a token and ends with one. The positions of a span are those of its bytes, parts
lie inside and apart from each other, children stand in source order, and the text of an expression
is the slice of its span. -/
theorem parse_spans {source : String} {m : SourceModule} (h : parse source = .ok m) :
    ∃ ts, tokenize source = .ok ts ∧ m.span.start.byte = 0 ∧
      m.span.stop.byte = byteLength source.toList ∧
      ∀ n, Within (.construct (.module m)) n → Fits source.toList n ∧
        (n = .construct (.module m) ∨
          ∃ t ∈ ts, ∃ u ∈ ts, n.span.start = t.span.start ∧ n.span.stop = u.span.stop) := by
  obtain ⟨ts, hts, hparts, hspan⟩ := parse_eq_ok_iff.mp h
  obtain ⟨ps, hperm, hsub, hspread⟩ := hparts.spread
  obtain ⟨cs, last, hsource, hscanned, -⟩ := scanned_of_tokenize hts
  have hlossless := lossless_of_tokenize hts
  have hincreasing : Increasing ts := ⟨hlossless.filled, hlossless.ordered⟩
  have hstop : m.span.stop.byte = byteLength source.toList := by
    rw [hspan, Place.byte_origin_advance]
  refine ⟨ts, hts, by rw [hspan]; rfl, hstop, fun n hn => ?_⟩
  -- a node is the module or stands on a stretch of the tokens
  have hwhere : n = .construct (.module m) ∨
      ∃ before used after, ts = before ++ (used ++ after) ∧ Laid n used := by
    induction hn with
    | refl => exact .inl rfl
    | @part n p _ hp ih =>
      rcases ih with rfl | ⟨before, used, after, rfl, hlaid⟩
      · exact .inr (hspread.mem (hperm.mem_iff.mpr hp))
      · obtain ⟨-, -, hparts', -, hspread'⟩ := hlaid
        obtain ⟨before', used', after', rfl, hlaid'⟩ := hspread'.mem (hparts'.mem_iff.mpr hp)
        exact .inr ⟨before ++ before', used', after' ++ after, by simp, hlaid'⟩
  rcases hwhere with rfl | ⟨before, used, after, rfl, hlaid⟩
  · refine ⟨fits_of_spread hincreasing hperm ((children_module m).trans hsub) hspread ⟨?_, ?_⟩
      (fun t ht => ⟨?_, ?_⟩) (fun e he => by simp at he), .inl rfl⟩
    · change m.span.start.position = Text.positionAt _ m.span.start.byte
      rw [hspan]
      exact (Text.positionAt_byteLength [] source.toList).symm
    · change m.span.stop.position = Text.positionAt _ m.span.stop.byte
      rw [hstop, hspan]
      simpa using (Text.positionAt_byteLength source.toList []).symm
    · change m.span.start.byte ≤ _
      rw [hspan]
      exact Nat.zero_le _
    · change _ ≤ m.span.stop.byte
      obtain ⟨rest, ⟨front, htext, -, hbyte⟩, -⟩ := hlossless.tokens t ht
      rw [hstop, hbyte, htext, byteLength_append, byteLength_append, byteLength_append]
      omega
  · refine ⟨?_, .inr ?_⟩
    · rw [hsource]
      exact fits_of_laid hscanned hincreasing hlaid
    · obtain ⟨hcovers, -, -, -, -⟩ := hlaid
      obtain ⟨t, ht, u, hu, hends⟩ := hcovers.ends
      exact ⟨t, List.mem_append_right before (List.mem_append_left after ht), u,
        List.mem_append_right before (List.mem_append_left after hu), hends⟩

def serviceSource : String :=
  "service on l \x7bint a=f(\"é\",k=2);function g()\x7bif a\x7b\x7d\x7dint b;\x7d"

/-- A function between two fields, a call with two arguments, and a block inside a block. -/
theorem parse_spans_service :
    ∃ m ts, parse serviceSource = .ok m ∧ m.members.length = 1 ∧ tokenize serviceSource = .ok ts ∧
      ∀ n, Within (.construct (.module m)) n → Fits serviceSource.toList n := by
  have hread : (parse serviceSource).toOption.any fun m => m.members.length = 1 := by
    decide +kernel
  obtain ⟨m, hm, hlength⟩ := exists_ok_of_any hread
  obtain ⟨ts, hts, -, -, hfits⟩ := parse_spans hm
  exact ⟨m, ts, hm, by simpa using hlength, hts, fun n hn => (hfits n hn).1⟩

end Parser

end FlowCanvas
