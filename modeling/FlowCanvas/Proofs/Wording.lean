import FlowCanvas.Proofs.Nesting
import FlowCanvas.Proofs.Scanning
import Mathlib

/-!
# What is read depends on the wording only

Two phrases are alike when their tokens have the same kinds and spellings. Layout and places do not
matter to the readers: what is alike to a statement without blocks spells such a statement too.
-/

namespace FlowCanvas

namespace Token

/-- Tokens of one kind and one spelling. -/
def Same (t u : Token) : Prop := t.kind = u.kind ∧ t.text = u.text

namespace Same

variable {t u : Token}

lemma is (h : Same t u) (mark : String) : t.is mark = u.is mark := by
  simp [Token.is, h.1, h.2]

lemma isIdentifier (h : Same t u) : t.isIdentifier = u.isIdentifier := by
  simp [Token.isIdentifier, h.1]

lemma isWord (h : Same t u) (words : List String) : t.isWord words = u.isWord words := by
  simp [Token.isWord, h.isIdentifier, h.2]

lemma isOpener (h : Same t u) : t.isOpener = u.isOpener := by
  simp [Token.isOpener, h.1, h.2]

lemma isCloser (h : Same t u) : t.isCloser = u.isCloser := by
  simp [Token.isCloser, h.1, h.2]

lemma endsType (h : Same t u) : Parser.endsType t = Parser.endsType u := by
  simp [Parser.endsType, h.1, h.2]

lemma leads (h : Same t u) : Parser.leads t = Parser.leads u := by
  simp [Parser.leads, h.is, h.isWord]

end Same

end Token

namespace Phrase

/-- Phrases of one wording. -/
def Alike (ts us : Phrase) : Prop := List.Forall₂ Token.Same ts us

lemma alike_iff {ts us : Phrase} : Alike ts us ↔ ts.lexemes = us.lexemes := by
  unfold Alike
  induction ts generalizing us with
  | nil => cases us <;> simp
  | cons t ts ih =>
    cases us with
    | nil => simp
    | cons u us => simp [List.forall₂_cons, Token.Same, ih]

namespace Alike

variable {ts us : Phrase}

lemma length (h : Alike ts us) : ts.length = us.length := List.Forall₂.length_eq h

lemma append_left {ts' : Phrase} (h : Alike (ts ++ ts') us) :
    ∃ vs vs', us = vs ++ vs' ∧ Alike ts vs ∧ Alike ts' vs' := by
  induction ts generalizing us with
  | nil => exact ⟨[], us, rfl, .nil, h⟩
  | cons t ts ih =>
    cases h with
    | cons hsame hrest =>
      obtain ⟨vs, vs', rfl, hvs, hvs'⟩ := ih hrest
      exact ⟨_ :: vs, vs', rfl, .cons hsame hvs, hvs'⟩

lemma cons_left {t : Token} (h : Alike (t :: ts) us) :
    ∃ u vs, us = u :: vs ∧ Token.Same t u ∧ Alike ts vs := by
  cases h with
  | cons hsame hrest => exact ⟨_, _, rfl, hsame, hrest⟩

lemma singleton_left {t : Token} (h : Alike [t] us) : ∃ u, us = [u] ∧ Token.Same t u := by
  obtain ⟨u, vs, rfl, hsame, hrest⟩ := h.cons_left
  cases hrest
  exact ⟨u, rfl, hsame⟩

lemma head (h : Alike ts us) {t : Token} (ht : ts.head? = some t) :
    ∃ u, us.head? = some u ∧ Token.Same t u := by
  cases h with
  | nil => simp at ht
  | cons hsame _ =>
    obtain rfl := Option.some.inj ht
    exact ⟨_, rfl, hsame⟩

lemma ne_nil (h : Alike ts us) (hne : ts ≠ []) : us ≠ [] := by
  rintro rfl
  cases h
  exact hne rfl

lemma sees (h : Alike ts us) (mark : String) : Parser.sees mark ts = Parser.sees mark us := by
  cases h with
  | nil => rfl
  | cons hsame _ => exact hsame.is mark

lemma depthAfter? (h : Alike ts us) (mark : String) (depth : Nat) :
    Brackets.depthAfter? mark depth ts = Brackets.depthAfter? mark depth us := by
  induction h generalizing depth with
  | nil => rfl
  | cons hsame _ ih =>
    cases depth <;>
      simp only [Brackets.depthAfter?, hsame.is, hsame.isOpener, hsame.isCloser, ih]

lemma free (h : Alike ts us) {mark : String} (hfree : Brackets.Free mark ts) :
    Brackets.Free mark us := by
  unfold Brackets.Free at hfree ⊢
  rw [← h.depthAfter?, hfree]

lemma looksDeclared (h : Alike ts us) : Parser.looksDeclared ts = Parser.looksDeclared us := by
  have hreverse : Alike ts.reverse us.reverse := List.forall₂_reverse_iff.mpr h
  have hhead : ts.head?.any (·.isWord Parser.expressionWords) =
      us.head?.any (·.isWord Parser.expressionWords) := by
    cases h with
    | nil => rfl
    | cons hsame _ => simp [hsame.isWord]
  unfold Parser.looksDeclared
  rw [hhead]
  generalize ts.reverse = xs, us.reverse = ys at hreverse
  cases hreverse with
  | nil => rfl
  | cons hname hrest =>
    cases hrest with
    | nil => rfl
    | cons hbefore _ => simp only [hname.isIdentifier, hbefore.endsType]

end Alike

end Phrase

namespace Parser

open Brackets

/-! ### Annotations -/

section Annotations

variable {ts us rest : Phrase}

lemma eat_alike {mark : String} (h : ts.Alike us) (heat : eat mark ts = some rest) :
    ∃ rest', eat mark us = some rest' ∧ rest.Alike rest' := by
  obtain ⟨t, rfl, ht⟩ := eat_eq_some_iff.mp heat
  obtain ⟨u, vs, rfl, hsame, hrest⟩ := h.cons_left
  exact ⟨vs, eat_eq_some_iff.mpr ⟨u, rfl, hsame.is mark ▸ ht⟩, hrest⟩

lemma eat_alike_none {mark : String} (h : ts.Alike us) (heat : eat mark ts = none) :
    eat mark us = none := by
  rw [eat_eq_none_iff] at heat ⊢
  rw [← h.sees, heat]

lemma identifier_alike {t : Token} (h : ts.Alike us) (hread : identifier ts = .ok (t, rest)) :
    ∃ u rest', identifier us = .ok (u, rest') ∧ Token.Same t u ∧ rest.Alike rest' := by
  obtain ⟨rfl, ht⟩ := identifier_eq_ok_iff.mp hread
  obtain ⟨u, vs, rfl, hsame, hrest⟩ := h.cons_left
  exact ⟨u, vs, identifier_eq_ok_iff.mpr ⟨rfl, hsame.isIdentifier ▸ ht⟩, hsame, hrest⟩

lemma dropGroupFrom_alike (h : ts.Alike us) {depth : Nat}
    (hdrop : dropGroupFrom depth ts = some rest) :
    ∃ rest', dropGroupFrom depth us = some rest' ∧ rest.Alike rest' := by
  induction h generalizing depth with
  | nil => simp [dropGroupFrom] at hdrop
  | @cons t u ts us hsame hrest ih =>
    rw [dropGroupFrom, hsame.isOpener, hsame.isCloser] at hdrop
    rw [dropGroupFrom]
    split_ifs at hdrop ⊢
    · exact ih hdrop
    · obtain rfl := Option.some.inj hdrop
      exact ⟨us, rfl, hrest⟩
    · exact ih hdrop
    · exact ih hdrop

lemma annotationName_alike {name : String} (h : ts.Alike us)
    (hread : annotationName ts = .ok (name, rest)) :
    ∃ rest', annotationName us = .ok (name, rest') ∧ rest.Alike rest' := by
  obtain ⟨⟨first, after⟩, hfirst, hnext⟩ := bind_eq_ok_iff.mp hread
  obtain ⟨first', after', hfirst', hsame, halike⟩ := identifier_alike h hfirst
  dsimp only at hnext
  split at hnext
  · rename_i hcolon
    obtain ⟨rfl, rfl⟩ := hnext
    refine ⟨after', bind_eq_ok_iff.mpr ⟨_, hfirst', ?_⟩, halike⟩
    simp only [eat_alike_none halike hcolon, hsame.2]
    rfl
  · rename_i behind hcolon
    obtain ⟨⟨second, left⟩, hsecond, hdone⟩ := bind_eq_ok_iff.mp hnext
    obtain ⟨rfl, rfl⟩ := hdone
    obtain ⟨behind', hcolon', hbehind⟩ := eat_alike halike hcolon
    obtain ⟨second', left', hsecond', hsame', hleft⟩ := identifier_alike hbehind hsecond
    refine ⟨left', bind_eq_ok_iff.mpr ⟨_, hfirst', ?_⟩, hleft⟩
    simp only [hcolon', hsame.2, hsame'.2]
    exact bind_eq_ok_iff.mpr ⟨_, hsecond', rfl⟩

lemma annotationValue_alike (h : ts.Alike us) (hread : annotationValue ts = .ok rest) :
    ∃ rest', annotationValue us = .ok rest' ∧ rest.Alike rest' := by
  unfold annotationValue at hread ⊢
  rw [← h.sees]
  split at hread
  · rename_i hbrace
    rw [if_pos hbrace]
    split at hread
    · rename_i rest' hdrop
      obtain rfl := Except.ok.inj hread
      cases h with
      | nil => simp [dropGroup] at hdrop
      | @cons t u ts us hsame hrest =>
        rw [dropGroup, hsame.isOpener] at hdrop
        rw [dropGroup]
        split_ifs at hdrop ⊢
        · obtain ⟨rest', hdrop', halike⟩ := dropGroupFrom_alike hrest hdrop
          rw [hdrop']
          exact ⟨rest', rfl, halike⟩
        · obtain rfl := Option.some.inj hdrop
          exact ⟨us, rfl, hrest⟩
    · simp at hread
  · rename_i hbrace
    obtain rfl := Except.ok.inj hread
    rw [if_neg hbrace]
    exact ⟨us, rfl, h⟩

lemma annotationsFrom_alike {n : Nat} {names : List String} (h : ts.Alike us)
    (hread : annotationsFrom n ts = .ok (names, rest)) :
    ∃ rest', annotationsFrom n us = .ok (names, rest') ∧ rest.Alike rest' := by
  induction n generalizing ts us names with
  | zero =>
    obtain ⟨rfl, rfl⟩ := hread
    exact ⟨us, rfl, h⟩
  | succ n ih =>
    rw [annotationsFrom] at hread ⊢
    split at hread
    · rename_i hat
      obtain ⟨rfl, rfl⟩ := hread
      rw [eat_alike_none h hat]
      exact ⟨us, rfl, h⟩
    · rename_i after hat
      obtain ⟨⟨name, after1⟩, hname, hnext⟩ := bind_eq_ok_iff.mp hread
      obtain ⟨after2, hvalue, hnext'⟩ := bind_eq_ok_iff.mp hnext
      obtain ⟨⟨names', after3⟩, hnames, hdone⟩ := bind_eq_ok_iff.mp hnext'
      obtain ⟨rfl, rfl⟩ := hdone
      obtain ⟨behind, hat', halike⟩ := eat_alike h hat
      obtain ⟨behind1, hname', halike1⟩ := annotationName_alike halike hname
      obtain ⟨behind2, hvalue', halike2⟩ := annotationValue_alike halike1 hvalue
      obtain ⟨behind3, hnames', halike3⟩ := ih halike2 hnames
      rw [hat']
      exact ⟨behind3, bind_eq_ok_iff.mpr ⟨_, hname', bind_eq_ok_iff.mpr ⟨_, hvalue',
        bind_eq_ok_iff.mpr ⟨_, hnames', rfl⟩⟩⟩, halike3⟩

lemma annotations_alike {names : List String} (h : ts.Alike us)
    (hread : annotations ts = .ok (names, rest)) :
    ∃ rest', annotations us = .ok (names, rest') ∧ rest.Alike rest' := by
  unfold annotations at hread ⊢
  rw [← h.length]
  exact annotationsFrom_alike h hread

/-- Annotations end at the same place in tokens that read alike. -/
lemma annotations_append_alike {names : List String} {ts' rest' : Phrase} (h : ts.Alike ts')
    (hrest : rest.Alike rest') (hread : annotations (ts ++ rest) = .ok (names, rest)) :
    annotations (ts' ++ rest') = .ok (names, rest') := by
  obtain ⟨left, hread', hleft⟩ := annotations_alike (List.rel_append h hrest) hread
  obtain ⟨used, hused, -⟩ := annotations_spec hread'
  obtain rfl := List.append_inj_right' hused (hrest.length.symm.trans hleft.length)
  exact hread'

end Annotations

/-! ### Leaves -/

lemma DeclaredAs.alike {body type us : Phrase} {name : Token} {value : Option Expression}
    (h : DeclaredAs body type name value) (halike : body.Alike us) :
    ∃ type' name' value', DeclaredAs us type' name' value' ∧ type.Alike type' ∧
      Token.Same name name' := by
  cases h with
  | bare hleft hname =>
    have hfree := halike.free hleft
    obtain ⟨type', vs, rfl, htype, hvs⟩ := halike.append_left
    obtain ⟨name', rfl, hsame⟩ := hvs.singleton_left
    exact ⟨type', name', none, .bare hfree (hsame.isIdentifier ▸ hname), htype, hsame⟩
  | @valued _ _ equal e hleft hname hequal =>
    obtain ⟨type', vs, rfl, htype, hvs⟩ := halike.append_left
    obtain ⟨name', ws, rfl, hsame, hws⟩ := hvs.cons_left
    obtain ⟨equal', xs, rfl, hsame', hxs⟩ := hws.cons_left
    obtain ⟨first, rest, rfl, -, -⟩ := hxs.cons_left
    have hfree : Free "=" (type' ++ [name']) :=
      Phrase.Alike.free (List.rel_append htype (.cons hsame .nil)) hleft
    exact ⟨type', name', some ⟨first, rest⟩, @DeclaredAs.valued type' name' equal' ⟨first, rest⟩
      hfree
      (hsame.isIdentifier ▸ hname) (hsame'.is "=" ▸ hequal), htype, hsame⟩

lemma SpellsFinal.alike {finals next finals' next' : Phrase} {qualifiers : List String}
    (h : SpellsFinal finals qualifiers next) (hfinals : finals.Alike finals')
    (hnext : next.Alike next') : SpellsFinal finals' qualifiers next' := by
  cases h with
  | absent hsees =>
    cases hfinals
    exact .absent (hnext.sees "final" ▸ hsees)
  | present hword =>
    obtain ⟨word', rfl, hsame⟩ := hfinals.singleton_left
    exact .present (hsame.is "final" ▸ hword)

/-- What is alike to a supported statement without blocks spells one too. -/
lemma SpellsLeaf.alike {s : Statement} {ts rest us : Phrase} (h : SpellsLeaf s ts rest)
    (hs : s.isSupported) (halike : ts.Alike us) (rest' : Phrase) :
    ∃ s', SpellsLeaf s' us rest' ∧ s'.isControl = false := by
  cases h with
  | @declaration start name semicolon body type _ value hstart hlead hbody hsemicolon hdeclared
      hlooks =>
    obtain ⟨body', vs, rfl, hbodies, hvs⟩ := halike.append_left
    obtain ⟨semicolon', rfl, hsame⟩ := hvs.singleton_left
    obtain ⟨start', hstart', hsame'⟩ := hbodies.head hstart
    obtain ⟨type', name', value', hdeclared', htype, hname⟩ := hdeclared.alike hbodies
    have hlooks' : looksDeclared (type' ++ [name']) := by
      rw [← Phrase.Alike.looksDeclared (List.rel_append htype (.cons hname .nil))]
      exact hlooks
    exact ⟨_, .declaration hstart' (hsame'.leads ▸ hlead) (hbodies.free hbody)
      (hsame.is ";" ▸ hsemicolon) hdeclared' hlooks', rfl⟩
  | @marked start name semicolon annotated finals body type _ names qualifiers value hstart hlead
      hannotated hfinals hbody hsemicolon hdeclared =>
    obtain ⟨annotated', vs, rfl, hannotations, hvs⟩ := halike.append_left
    have hread := annotations_append_alike hannotations hvs hannotated
    obtain ⟨finals', ws, rfl, hfinals', hws⟩ := hvs.append_left
    obtain ⟨body', xs, rfl, hbodies, hxs⟩ := hws.append_left
    have hspells := hfinals.alike hfinals' hws
    obtain ⟨semicolon', rfl, hsame⟩ := hxs.singleton_left
    obtain ⟨start', hstart', hsame'⟩ :=
      Phrase.Alike.head (List.rel_append hannotations hfinals') hstart
    obtain ⟨type', name', value', hdeclared', -, -⟩ := hdeclared.alike hbodies
    have hlead' : start'.is "@" || start'.is "final" := by
      rw [← hsame'.is "@", ← hsame'.is "final"]
      exact hlead
    exact ⟨_, .marked hstart' hlead' hread hspells (hbodies.free hbody)
      (hsame.is ";" ▸ hsemicolon) hdeclared', rfl⟩
  | @assignment start equal semicolon target _ value hstart hlead hbody hsemicolon htarget hequal
      hlooks =>
    obtain ⟨body', vs, rfl, hbodies, hvs⟩ := halike.append_left
    obtain ⟨semicolon', rfl, hsame⟩ := hvs.singleton_left
    have hfree := hbodies.free hbody
    obtain ⟨target', ws, rfl, htargets, hws⟩ := hbodies.append_left
    obtain ⟨equal', xs, rfl, hsame', hxs⟩ := hws.cons_left
    obtain ⟨first, more, rfl, -, -⟩ := hxs.cons_left
    obtain ⟨start', hstart', hsame''⟩ := htargets.head hstart
    exact ⟨_, @SpellsLeaf.assignment start' equal' semicolon' target' rest' ⟨first, more⟩ hstart'
      (hsame''.leads ▸ hlead) hfree (hsame.is ";" ▸ hsemicolon) (htargets.free htarget)
      (hsame'.is "=" ▸ hequal) (htargets.looksDeclared ▸ hlooks), rfl⟩
  | @expression semicolon _ value hlead hbody hsemicolon hvalue hlooks =>
    obtain ⟨body', vs, rfl, hbodies, hvs⟩ := halike.append_left
    obtain ⟨semicolon', rfl, hsame⟩ := hvs.singleton_left
    obtain ⟨first, more, rfl, hfirst, -⟩ := hbodies.cons_left
    exact ⟨_, @SpellsLeaf.expression semicolon' rest' ⟨first, more⟩ (hfirst.leads ▸ hlead)
      (hbodies.free hbody) (hsame.is ";" ▸ hsemicolon) (hbodies.free hvalue)
      (hbodies.looksDeclared ▸ hlooks), rfl⟩
  | @exit kind word semicolon value _ hword hbody hsemicolon hpanic =>
    obtain ⟨word', vs, rfl, hsame, hvs⟩ := halike.cons_left
    obtain ⟨body', ws, rfl, hbodies, hws⟩ := hvs.append_left
    obtain ⟨semicolon', rfl, hsame'⟩ := hws.singleton_left
    have hword' : word'.isWord [kind.word] := hsame.isWord _ ▸ hword
    have hfree := hbodies.free hbody
    cases value with
    | none =>
      cases hbodies
      exact ⟨_, @SpellsLeaf.exit kind word' semicolon' none rest' hword' hfree
        (hsame'.is ";" ▸ hsemicolon) hpanic, rfl⟩
    | some e =>
      obtain ⟨first, more, rfl, -, -⟩ := hbodies.cons_left
      exact ⟨_, @SpellsLeaf.exit kind word' semicolon' (some ⟨first, more⟩) rest' hword' hfree
        (hsame'.is ";" ▸ hsemicolon) (fun _ => rfl), rfl⟩
  | @jump kind word semicolon _ hword hsemicolon =>
    obtain ⟨word', vs, rfl, hsame, hvs⟩ := halike.cons_left
    obtain ⟨semicolon', rfl, hsame'⟩ := hvs.singleton_left
    exact ⟨_, .jump (hsame.isWord _ ▸ hword) (hsame'.is ";" ▸ hsemicolon), rfl⟩
  | unsupported => simp [Statement.isSupported] at hs
  | braces => simp [Statement.isSupported] at hs

end Parser

end FlowCanvas
