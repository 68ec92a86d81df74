import FlowCanvas.Proofs.Descent

/-!
# Constructs inside each other

A construct is wider than those inside of it: a function starts before its body, an object ends
behind its functions, and a block or a statement starts before what it holds. So no two constructs
of a document have the same span, and the span of a construct leads back to the construct.
-/

namespace FlowCanvas

namespace Construct

/-- Where the constructs inside a construct stand apart from its ends and from each other. -/
def Tight : Construct → Prop
  | .module _ => True
  | .variable _ => True
  | .function f => f.span.start.byte < f.body.span.start.byte ∧ f.span.stop = f.body.span.stop
  | .service s => ∀ f ∈ s.functions, f.span.stop.byte < s.span.stop.byte
  | .classDefinition c => ∀ f ∈ c.functions, f.span.stop.byte < c.span.stop.byte
  | .block b => ∀ s ∈ b.statements, b.span.start.byte < s.span.start.byte
  | .statement (.conditional (.mk _ body alternative span)) =>
    span.start.byte < body.span.start.byte ∧ ∀ inner ∈ ofAlternative alternative,
      span.start.byte < inner.span.start.byte ∧
        body.span.stop.byte < inner.span.start.byte ∧ inner.span.stop = span.stop
  | .statement (.loop _ body span) => span.start.byte < body.span.start.byte
  | .statement _ => True

/-- What a member of a module is when its functions are tight. -/
def TightMember : Member → Prop
  | .function f => Tight (.function f)
  | .service s => Tight (.service s) ∧ ∀ f ∈ s.functions, Tight (.function f)
  | .classDefinition c => Tight (.classDefinition c) ∧ ∀ f ∈ c.functions, Tight (.function f)
  | .variable _ => True
  | .typeDefinition _ => True

end Construct

namespace Parser

open Construct

/-! ### Tokens around a span -/

lemma Covers.behind {word : Token} {ts used : Phrase} {span : Span} (h : Covers span used)
    (hts : Increasing (word :: ts)) (hused : used ⊆ ts) :
    word.span.stop.byte ≤ span.start.byte := by
  obtain ⟨t, ht, -, -, hstart, -⟩ := h.ends
  rw [hstart]
  exact (List.pairwise_cons.mp hts.ordered).1 t (hused ht)

lemma Covers.starts_behind {word : Token} {ts used : Phrase} {span : Span} (h : Covers span used)
    (hts : Increasing (word :: ts)) (hused : used ⊆ ts) :
    word.span.start.byte < span.start.byte :=
  (hts.filled word List.mem_cons_self).trans_le (h.behind hts hused)

lemma Covers.before {word : Token} {ts us used : Phrase} {span : Span} (h : Covers span used)
    (hts : Increasing (ts ++ word :: us)) (hused : used ⊆ ts) :
    span.stop.byte ≤ word.span.start.byte := by
  obtain ⟨-, -, t, ht, -, hstop⟩ := h.ends
  rw [hstop]
  exact (List.pairwise_append.mp hts.ordered).2.2 t (hused ht) word List.mem_cons_self

/-- Two spans with a token between them. -/
lemma Covers.apart {word : Token} {ts us used used' : Phrase} {span span' : Span}
    (h : Covers span used) (h' : Covers span' used') (hts : Increasing (ts ++ word :: us))
    (hused : used ⊆ ts) (hused' : used' ⊆ us) : span.stop.byte < span'.start.byte :=
  (h.before hts hused).trans_lt
    (h'.starts_behind (hts.sublist (List.sublist_append_right ts _)) hused')

/-! ### Functions and their owners -/

section Members

variable {start : Token} {names words : List String} {ts rest : Phrase}

lemma tight_functionDefinition {f : FunctionDefinition}
    (h : functionDefinition start words ts = .ok (f, rest)) (hts : Increasing (start :: ts)) :
    Tight (.function f) := by
  obtain ⟨used, ⟨before, rfl, -⟩, hspells, hspan⟩ := body_of_functionDefinition h
  rw [Tight, hspan]
  exact ⟨hspells.covers.starts_behind hts fun t ht => by simp [ht], rfl⟩

lemma Passes.sublist {us : Phrase} {bs : List Block} (h : Passes ts us bs) : us.Sublist ts := by
  obtain ⟨used, rfl, -⟩ := h
  exact List.sublist_append_right used us

/-- The first token stays in front when the tokens up to a word behind it, or the token itself, are
passed. -/
lemma Passes.sublist_cons {word : Token} {us : Phrase} {bs : List Block}
    (h : Passes (start :: ts) (word :: us) bs) : (start :: us).Sublist (start :: ts) := by
  obtain ⟨used, heq, -⟩ := h
  rcases List.cons_eq_append_iff.mp heq with ⟨-, heq⟩ | ⟨used', -, rfl⟩
  · rw [(List.cons.inj heq).2]
  · have hsublist := (List.sublist_cons_self word us).trans (List.sublist_append_right used' _)
    exact hsublist.cons_cons start

lemma ReadsObject.tight {body : ObjectBody} (h : ReadsObject ts body rest)
    (hts : Increasing ts) : ∀ f ∈ body.functions, Tight (.function f) := by
  induction h with
  | close _ => simp
  | @function start word names words ts after left rest f body hfront _ hf _ ih =>
    have hbefore := passes_of_front hfront
    have hpasses := hbefore.trans ((passes_cons word after).trans (passes_of_functionDefinition hf))
    refine List.forall_mem_cons.mpr ⟨?_, ih (hts.sublist hpasses.sublist)⟩
    exact tight_functionDefinition hf (hts.sublist hbefore.sublist_cons)
  | inclusion hfront hskipped _ ih =>
    have hpasses := (passes_of_front hfront).trans (passes_of_through hskipped)
    exact ih (hts.sublist hpasses.sublist)
  | field hfront hfield _ ih =>
    have hpasses := (passes_of_front hfront).trans (passes_of_declaration hfield)
    exact ih (hts.sublist hpasses.sublist)

/-- The functions of an object end in front of the brace that closes it. -/
lemma tight_objectBody {body : ObjectBody} (h : objectBody ts = .ok (body, rest))
    (hts : Increasing ts) : (∃ init, ts = init ++ body.close :: rest) ∧ ∀ f ∈ body.functions,
      Tight (.function f) ∧ f.span.stop.byte ≤ body.close.span.start.byte := by
  obtain ⟨brace, after, rfl, -, hread⟩ := objectBody_spec h
  have hafter : Increasing after := hts.sublist (List.sublist_cons_self brace after)
  obtain ⟨used, ps, rfl, ⟨hperm, -⟩, hspread⟩ := hread.spread
  refine ⟨⟨brace :: used, rfl⟩, fun f hf => ⟨hread.tight hafter f hf, ?_⟩⟩
  have hmem : TreeNode.ofFunction f ∈ ps :=
    hperm.mem_iff.mpr (List.mem_append_right _ (List.mem_map_of_mem hf))
  obtain ⟨before, taken, behind, rfl, hcovers, -⟩ := hspread.mem hmem
  exact Covers.before hcovers hafter fun t ht => by simp [ht]

/-- An object that ends with the brace behind its functions, or with a token behind the brace. -/
lemma ends_behind {body : ObjectBody} {last : Token} (hts : Increasing ts)
    (h : objectBody ts = .ok (body, rest))
    (hlast : last = body.close ∨ ∃ more, rest = last :: more) :
    ∀ f ∈ body.functions, Tight (.function f) ∧ f.span.stop.byte < last.span.stop.byte := by
  obtain ⟨⟨init, rfl⟩, htight⟩ := tight_objectBody h hts
  have hclose : body.close.span.start.byte < body.close.span.stop.byte :=
    hts.filled body.close (by simp)
  intro f hf
  refine ⟨(htight f hf).1, (htight f hf).2.trans_lt ?_⟩
  rcases hlast with rfl | ⟨more, rfl⟩
  · exact hclose
  · have hbehind := hts.sublist (List.sublist_append_right init _)
    have hle := (List.pairwise_cons.mp hbehind.ordered).1 last List.mem_cons_self
    have hlast := hbehind.filled last (by simp)
    omega

lemma tight_serviceDefinition {s : ServiceDefinition}
    (h : serviceDefinition start ts = .ok (s, rest)) (hts : Increasing ts) :
    TightMember (.service s) := by
  obtain ⟨path, on, after, listener, after', body, left, last, hpath, hlistener, hbody, hlast,
    rfl⟩ := serviceDefinition_spec h
  have hafter := hts.sublist ((passes_of_through hpath).trans (passes_of_upTo hlistener)).sublist
  have hends := ends_behind hafter hbody (hlast.imp And.left fun hlast => ⟨rest, hlast.1⟩)
  exact ⟨fun f hf => (hends f hf).2, fun f hf => (hends f hf).1⟩

lemma tight_classDefinition {c : ClassDefinition}
    (h : classDefinition start words ts = .ok (c, rest)) (hts : Increasing ts) :
    TightMember (.classDefinition c) := by
  obtain ⟨name, after, body, rfl, -, hbody, rfl⟩ := classDefinition_spec h
  have hends := ends_behind (hts.sublist (List.sublist_cons_self name after)) hbody (.inl rfl)
  exact ⟨fun f hf => (hends f hf).2, fun f hf => (hends f hf).1⟩

lemma tight_memberAfter {m : Member} {word : Token}
    (h : memberAfter start names words (word :: ts) = .ok (m, rest))
    (hts : Increasing (start :: ts)) : TightMember m := by
  have hbehind := hts.sublist (List.sublist_cons_self start ts)
  cases readsMember_of_memberAfter h with
  | function _ hf => exact tight_functionDefinition hf hts
  | service _ hs => exact tight_serviceDefinition hs hbehind
  | classDefinition _ hc => exact tight_classDefinition hc hbehind
  | typeDefinition => trivial
  | enumDefinition => trivial
  | constant => trivial
  | declaration => trivial

lemma tight_member {m : Member} (h : member start ts = .ok (m, rest))
    (hts : Increasing (start :: ts)) : TightMember m := by
  obtain ⟨names, words, after, hfront, hread⟩ := member_spec h
  cases after with
  | nil => simp [memberAfter] at hread
  | cons word after =>
    exact tight_memberAfter hread (hts.sublist (passes_of_front hfront).sublist_cons)

end Members

lemma SpellsParts.tight {imports : List Import} {members : List Member} {ts rest : Phrase}
    (h : SpellsParts imports members ts rest) (hts : Increasing (ts ++ rest)) :
    ∀ m ∈ members, TightMember m := by
  induction h with
  | nil => simp
  | @importing word i imports members used ts rest _ _ _ ih =>
    refine ih (hts.sublist ?_)
    rw [List.append_assoc]
    exact List.sublist_append_right _ _
  | @stray semicolon imports members ts rest _ _ ih =>
    exact ih (hts.sublist (List.sublist_cons_self semicolon _))
  | @member start m imports members used ts rest _ _ hm _ ih =>
    rw [List.append_assoc] at hts
    refine List.forall_mem_cons.mpr ⟨tight_member hm hts, ih (hts.sublist ?_)⟩
    exact List.sublist_append_right _ _

/-! ### Blocks and statements -/

lemma SpellsBlock.tight {b : Block} {ts : Phrase} (h : SpellsBlock b ts) (hts : Increasing ts) :
    Tight (.block b) := by
  cases h with
  | @mk brace close list us hbrace hclose hlist =>
    intro s hs
    obtain ⟨before, used, after, rfl, hspells⟩ := hlist.mem hs
    exact hspells.covers.starts_behind hts fun t ht => by simp [ht]

lemma SpellsConditional.tight {c : Conditional} {word : Token} {ts rest : Phrase}
    (h : SpellsConditional c word ts rest) (hts : Increasing (word :: ts)) :
    Tight (.statement (.conditional c)) := by
  cases h with
  | absent hvalue hbody helse =>
    exact ⟨hbody.covers.starts_behind hts fun t ht => by simp [ht], by simp [ofAlternative]⟩
  | @block _ other value body last us vs _ hvalue hbody helse hlast =>
    refine ⟨hbody.covers.starts_behind hts fun t ht => by simp [ht], fun inner hinner => ?_⟩
    obtain rfl := List.mem_singleton.mp hinner
    refine ⟨hlast.covers.starts_behind hts fun t ht => by simp [ht], ?_, rfl⟩
    rw [← List.append_assoc, ← List.cons_append] at hts
    exact hbody.covers.apart hlast.covers hts (fun t ht => by simp [ht]) (List.Subset.refl vs)
  | @chained _ other word' value body next us vs _ hvalue hbody helse hif hnext =>
    refine ⟨hbody.covers.starts_behind hts fun t ht => by simp [ht], fun inner hinner => ?_⟩
    obtain rfl := List.mem_singleton.mp hinner
    refine ⟨hnext.covers.starts_behind hts fun t ht => by
      rcases List.mem_cons.mp ht with rfl | ht <;> simp [*], ?_, rfl⟩
    rw [← List.append_assoc, ← List.cons_append] at hts
    exact hbody.covers.apart hnext.covers hts (fun t ht => by simp [ht]) (List.Subset.refl _)

lemma Spells.tight {s : Statement} {ts rest : Phrase} (h : Spells s ts rest)
    (hts : Increasing ts) : Tight (.statement s) := by
  cases h with
  | leaf h => cases h <;> trivial
  | conditional _ h => exact h.tight hts
  | loop _ _ hbody => exact hbody.covers.starts_behind hts fun t ht => by simp [ht]

end Parser

namespace Construct

/-! ### Constructs of a document -/

lemma body_child (f : FunctionDefinition) :
    Construct.block f.body ∈ (Construct.function f).children := List.mem_cons_self

lemma statement_child {b : Block} {s : Statement} (h : s ∈ b.statements) :
    Construct.statement s ∈ (Construct.block b).children := List.mem_map_of_mem h

lemma member_child {m : SourceModule} {x : Member} {c : Construct} (hx : x ∈ m.members)
    (hof : ofMember? x = some c) : c ∈ (Construct.module m).children :=
  List.mem_filterMap.mpr ⟨x, hx, hof⟩

lemma Inside.eq_of_leaf {c inner : Construct} (h : Inside c inner) (hc : c.children = []) :
    inner = c := by
  rcases h.cases_head with rfl | ⟨child, hchild, -⟩
  · rfl
  · simp [hc] at hchild

/-- Whether a construct stands in the body of a function. -/
def isLocal : Construct → Bool
  | .block _ => true
  | .statement _ => true
  | _ => false

lemma isLocal_child {c inner : Construct} (hc : c.isLocal) (h : inner ∈ c.children) :
    inner.isLocal := by
  match c, hc, h with
  | .block b, _, h =>
    obtain ⟨s, -, rfl⟩ := List.mem_map.mp h
    rfl
  | .statement (.conditional c), _, h =>
    rcases List.mem_cons.mp h with rfl | h
    · rfl
    · cases hother : c.alternative with
      | absent => simp [hother, ofAlternative] at h
      | block b =>
        rw [hother] at h
        obtain rfl := List.mem_singleton.mp h
        rfl
      | chained next =>
        rw [hother] at h
        obtain rfl := List.mem_singleton.mp h
        rfl
  | .statement (.loop _ body _), _, h =>
    obtain rfl := List.mem_singleton.mp h
    rfl

lemma Inside.isLocal {c inner : Construct} (h : Inside c inner) (hc : c.isLocal) :
    inner.isLocal := by
  induction h with
  | refl => exact hc
  | child _ hinner ih => exact isLocal_child ih hinner

/-- Inside a function stand only the function, blocks and statements. -/
lemma Inside.of_function {f : FunctionDefinition} {c : Construct} (h : Inside (.function f) c) :
    c = .function f ∨ Inside (.block f.body) c := by
  rcases h.cases_head with rfl | ⟨child, hchild, h⟩
  · exact .inl rfl
  · obtain rfl := List.mem_singleton.mp hchild
    exact .inr h

lemma Inside.of_module {m : SourceModule} {c : Construct} (h : Inside (.module m) c) :
    c = .module m ∨ ∃ x ∈ m.members, ∃ owner, ofMember? x = some owner ∧ Inside owner c := by
  rcases h.cases_head with rfl | ⟨owner, howner, h⟩
  · exact .inl rfl
  · obtain ⟨x, hx, hof⟩ := List.mem_filterMap.mp howner
    exact .inr ⟨x, hx, owner, hof, h⟩

lemma tight_of_function {f : FunctionDefinition} {c : Construct} (hf : Tight (.function f))
    (h : Inside (.function f) c) (hlocal : c.isLocal = false) : Tight c := by
  rcases h.of_function with rfl | h
  · exact hf
  · rw [h.isLocal rfl] at hlocal
    contradiction

lemma tight_of_owner {x : Member} {owner c : Construct} (hx : TightMember x)
    (hof : ofMember? x = some owner) (h : Inside owner c) (hlocal : c.isLocal = false) :
    Tight c := by
  cases x with
  | function f =>
    obtain rfl := Option.some.inj hof
    exact tight_of_function hx h hlocal
  | «variable» d =>
    obtain rfl := Option.some.inj hof
    obtain rfl := h.eq_of_leaf rfl
    trivial
  | service s =>
    obtain rfl := Option.some.inj hof
    rcases h.cases_head with rfl | ⟨child, hchild, h⟩
    · exact hx.1
    · obtain ⟨f, hf, rfl⟩ := List.mem_map.mp hchild
      exact tight_of_function (hx.2 f hf) h hlocal
  | classDefinition d =>
    obtain rfl := Option.some.inj hof
    rcases h.cases_head with rfl | ⟨child, hchild, h⟩
    · exact hx.1
    · obtain ⟨f, hf, rfl⟩ := List.mem_map.mp hchild
      exact tight_of_function (hx.2 f hf) h hlocal
  | typeDefinition t => simp [ofMember?] at hof

/-- A construct that is not the module is wider than those directly inside of it. -/
lemma Tight.not_covers {c inner : Construct} (h : Tight c) (hc : ∀ m, c ≠ .module m)
    (hinner : inner ∈ c.children) :
    inner.span.covers c.span.start.byte c.span.stop.byte = false := by
  rw [← Bool.not_eq_true, covers_iff]
  match c, h, hinner with
  | .module m, _, _ => exact absurd rfl (hc m)
  | .function f, h, hinner =>
    obtain rfl := List.mem_singleton.mp hinner
    exact fun hcovers => h.1.not_ge hcovers.1
  | .service s, h, hinner =>
    obtain ⟨f, hf, rfl⟩ := List.mem_map.mp hinner
    exact fun hcovers => (h f hf).not_ge hcovers.2
  | .classDefinition d, h, hinner =>
    obtain ⟨f, hf, rfl⟩ := List.mem_map.mp hinner
    exact fun hcovers => (h f hf).not_ge hcovers.2
  | .block b, h, hinner =>
    obtain ⟨s, hs, rfl⟩ := List.mem_map.mp hinner
    exact fun hcovers => (h s hs).not_ge hcovers.1
  | .statement (.conditional (.mk value body alternative span)), h, hinner =>
    rcases List.mem_cons.mp hinner with rfl | hinner
    · exact fun hcovers => h.1.not_ge hcovers.1
    · exact fun hcovers => (h.2 inner hinner).1.not_ge hcovers.1
  | .statement (.loop value body span), h, hinner =>
    obtain rfl := List.mem_singleton.mp hinner
    exact fun hcovers => (Nat.lt_of_lt_of_le h hcovers.1).false

end Construct

namespace Document

open Construct Lexer

variable {path : Path} {text : String} {d : Document}

theorem parse_tight (h : parse path text = .ok d) :
    ∀ c, Inside (.module d.tree) c → Tight c := by
  obtain ⟨-, htext, ts, cs, last, hts, -, -, -, hstands⟩ := parse_stands h
  have hincreasing : Parser.Increasing ts :=
    ⟨(lossless_of_tokenize hts).filled, (lossless_of_tokenize hts).ordered⟩
  have hmembers : ∀ x ∈ d.tree.members, TightMember x := by
    obtain ⟨tree, htree, rfl⟩ := parse_eq_ok_iff.mp h
    obtain ⟨ts', hts', hparts, -⟩ := Parser.parse_eq_ok_iff.mp htree
    obtain rfl := Except.ok.inj (hts.symm.trans hts')
    exact hparts.tight (by simpa using hincreasing)
  have houter : ∀ c, Inside (.module d.tree) c → c.isLocal = false → Tight c := by
    intro c hc hlocal
    rcases hc.of_module with rfl | ⟨x, hx, owner, hof, hin⟩
    · trivial
    · exact tight_of_owner (hmembers x hx) hof hin hlocal
  intro c hc
  match c, hc, hstands c hc with
  | .block b, _, hb =>
    obtain ⟨before, used, after, rfl, hspells⟩ := Parser.holds_singleton_iff.mp hb
    exact hspells.tight (hincreasing.sublist
      ((List.sublist_append_left used after).trans (List.sublist_append_right before _)))
  | .statement s, _, ⟨before, used, after, heq, hspells⟩ =>
    subst heq
    exact hspells.tight (hincreasing.sublist
      ((List.sublist_append_left used after).trans (List.sublist_append_right before _)))
  | .module m, hc, _ => exact houter _ hc rfl
  | .variable v, hc, _ => exact houter _ hc rfl
  | .function f, hc, _ => exact houter _ hc rfl
  | .service s, hc, _ => exact houter _ hc rfl
  | .classDefinition e, hc, _ => exact houter _ hc rfl

end Document

end FlowCanvas
