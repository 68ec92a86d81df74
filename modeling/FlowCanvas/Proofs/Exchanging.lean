import FlowCanvas.Proofs.ModuleParts

/-!
# Exchanging a block

`Swap b b'` relates a construct to the same construct with the block `b'` in the place of `b`. When
the tokens of a block inside a module are exchanged for those of another block, and the tokens
around them for copies, the module is read with the other block in the place of the first.
-/

namespace FlowCanvas

namespace Construct

/-- The second construct is the first one with the block `b'` in the place of `b`. -/
inductive Swap (b b' : Block) : Construct → Construct → Prop
  | here : Swap b b' (.block b) (.block b')
  | statement {s s' : Statement} {front back : List Statement} {span : Span}
    (h : Swap b b' (.statement s) (.statement s')) :
    Swap b b' (.block (.mk (front ++ s :: back) span)) (.block (.mk (front ++ s' :: back) span))
  | loop {value : Expression} {body body' : Block} {span : Span}
    (h : Swap b b' (.block body) (.block body')) :
    Swap b b' (.statement (.loop value body span)) (.statement (.loop value body' span))
  | thenBlock {value : Expression} {body body' : Block} {alternative : Alternative} {span : Span}
    (h : Swap b b' (.block body) (.block body')) :
    Swap b b' (.statement (.conditional (.mk value body alternative span)))
      (.statement (.conditional (.mk value body' alternative span)))
  | elseBlock {value : Expression} {body last last' : Block} {span : Span}
    (h : Swap b b' (.block last) (.block last')) :
    Swap b b' (.statement (.conditional (.mk value body (.block last) span)))
      (.statement (.conditional (.mk value body (.block last') span)))
  | chained {value : Expression} {body : Block} {next next' : Conditional} {span : Span}
    (h : Swap b b' (.statement (.conditional next)) (.statement (.conditional next'))) :
    Swap b b' (.statement (.conditional (.mk value body (.chained next) span)))
      (.statement (.conditional (.mk value body (.chained next') span)))
  | function {f : FunctionDefinition} {body' : Block}
    (h : Swap b b' (.block f.body) (.block body')) :
    Swap b b' (.function f) (.function { f with body := body' })
  | service {s : ServiceDefinition} {front back : List FunctionDefinition}
    {f f' : FunctionDefinition} (hs : s.functions = front ++ f :: back)
    (h : Swap b b' (.function f) (.function f')) :
    Swap b b' (.service s) (.service { s with functions := front ++ f' :: back })
  | classDefinition {c : ClassDefinition} {front back : List FunctionDefinition}
    {f f' : FunctionDefinition} (hc : c.functions = front ++ f :: back)
    (h : Swap b b' (.function f) (.function f')) :
    Swap b b' (.classDefinition c) (.classDefinition { c with functions := front ++ f' :: back })
  | module {m : SourceModule} {front back : List Member} {x x' : Member} {c c' : Construct}
    (hm : m.members = front ++ x :: back) (hx : ofMember? x = some c) (hx' : ofMember? x' = some c')
    (h : Swap b b' c c') :
    Swap b b' (.module m) (.module { m with members := front ++ x' :: back })

/-- What is inside a construct is the construct or is inside one of its children. -/
lemma Inside.cases_head {outer inner : Construct} (h : Inside outer inner) :
    outer = inner ∨ ∃ child ∈ outer.children, Inside child inner := by
  induction h with
  | refl => exact .inl rfl
  | child _ hinner ih =>
    rcases ih with rfl | ⟨child, hchild, h⟩
    · exact .inr ⟨_, hinner, .refl⟩
    · exact .inr ⟨child, hchild, h.child hinner⟩

end Construct

namespace Parser

open Brackets Construct

/-! ### Phrases with a block in them -/

/-- A phrase with the block `b` in it. `again b'` holds of the phrase with a block in the place of
`b` that is `b'` up to positions, and copies around it. -/
def Plug (b : Block) (ts : Phrase) (again : Block → Phrase → Prop) : Prop :=
  ∃ before used after, ts = before ++ (used ++ after) ∧ SpellsBlock b used ∧
    ∀ ⦃before' used' after' : Phrase⦄ ⦃read b' : Block⦄, before.Copy before' → after.Copy after' →
      SpellsBlock read used' → read.unplaced = b'.unplaced → Like used used' →
        again b' (before' ++ (used' ++ after'))

namespace Plug

variable {b : Block} {ts : Phrase} {again : Block → Phrase → Prop}

lemma like {used used' before before' : Phrase} {b : Block} (hb : SpellsBlock b used)
    (hlike : Like used used') (hbefore : before.Copy before') (after after' : Phrase) :
    Like (before ++ (used ++ after)) (before' ++ (used' ++ after')) := by
  cases hb with
  | mk =>
    obtain ⟨u, us, rfl, hsame⟩ := hlike.cons_left
    exact (like_cons hsame _ _).append hbefore

lemma imp {again' : Block → Phrase → Prop} (h : Plug b ts again)
    (himp : ∀ b' us, Like ts us → again b' us → again' b' us) : Plug b ts again' := by
  obtain ⟨before, used, after, rfl, hb, hall⟩ := h
  refine ⟨before, used, after, rfl, hb, ?_⟩
  intro before' used' after' read b' hbefore hafter hread hunplaced hlike
  exact himp _ _ (like hb hlike hbefore _ _) (hall hbefore hafter hread hunplaced hlike)

lemma ne_nil (h : Plug b ts again) : ts ≠ [] := by
  obtain ⟨before, used, after, rfl, hb, -⟩ := h
  cases hb
  simp

/-- Tokens in front are copied. -/
lemma front (h : Plug b ts again) (vs : Phrase) :
    Plug b (vs ++ ts) fun b' us => ∃ vs' us', us = vs' ++ us' ∧ vs.Copy vs' ∧ Like ts us' ∧
      again b' us' := by
  obtain ⟨before, used, after, rfl, hb, hall⟩ := h
  refine ⟨vs ++ before, used, after, by simp, hb, ?_⟩
  intro before' used' after' read b' hbefore hafter hread hunplaced hlike
  obtain ⟨vs', ws, rfl, hvs, hws⟩ := hbefore.append_left
  exact ⟨vs', ws ++ (used' ++ after'), by simp, hvs, like hb hlike hws _ _,
    hall hws hafter hread hunplaced hlike⟩

/-- Tokens behind are copied. -/
lemma back (h : Plug b ts again) (vs : Phrase) :
    Plug b (ts ++ vs) fun b' us => ∃ us' vs', us = us' ++ vs' ∧ vs.Copy vs' ∧ again b' us' := by
  obtain ⟨before, used, after, rfl, hb, hall⟩ := h
  refine ⟨before, used, after ++ vs, by simp, hb, ?_⟩
  intro before' used' after' read b' hbefore hafter hread hunplaced hlike
  obtain ⟨ws, vs', rfl, hws, hvs⟩ := hafter.append_left
  exact ⟨before' ++ (used' ++ ws), vs', by simp, hvs, hall hbefore hws hread hunplaced hlike⟩

end Plug

/-! ### Blocks inside statements -/

lemma Like.quieter {ts us : Phrase} (h : Like ts us) (hne : ts ≠ []) (rest rest' : Phrase) :
    Quieter (ts ++ rest) (us ++ rest') := by
  obtain ⟨t, ts, rfl⟩ := List.exists_cons_of_ne_nil hne
  obtain ⟨u, us, rfl, hsame⟩ := h.cons_left
  intro word _ hsees
  exact (hsame.is word).symm.trans hsees

lemma not_inside_leaf {s : Statement} {ts rest : Phrase} {b : Block} (h : SpellsLeaf s ts rest) :
    ¬Inside (.statement s) (.block b) := by
  intro hin
  rcases hin.cases_head with heq | ⟨child, hchild, -⟩
  · simp at heq
  · cases h <;> simp [children] at hchild

lemma inside_loop {value : Expression} {body b : Block} {span : Span}
    (h : Inside (.statement (.loop value body span)) (.block b)) :
    Inside (.block body) (.block b) := by
  rcases h.cases_head with heq | ⟨child, hchild, hin⟩
  · simp at heq
  · obtain rfl := List.mem_singleton.mp hchild
    exact hin

lemma inside_conditional {value : Expression} {body b : Block} {alternative : Alternative}
    {span : Span}
    (h : Inside (.statement (.conditional (.mk value body alternative span))) (.block b)) :
    Inside (.block body) (.block b) ∨ ∃ child ∈ ofAlternative alternative,
      Inside child (.block b) := by
  rcases h.cases_head with heq | ⟨child, hchild, hin⟩
  · simp at heq
  · rcases List.mem_cons.mp hchild with rfl | hmem
    · exact .inl hin
    · exact .inr ⟨child, hmem, hin⟩

mutual

/-- A block inside a block can be exchanged. -/
theorem SpellsBlock.plug {outer b : Block} {ts : Phrase} (h : SpellsBlock outer ts)
    (hin : Inside (.block outer) (.block b)) :
    Plug b ts fun b' us => ∃ read outer', SpellsBlock read us ∧
      Swap b b' (.block outer) (.block outer') ∧ read.unplaced = outer'.unplaced := by
  rcases hin.cases_head with heq | ⟨child, hchild, hinner⟩
  · obtain rfl := Construct.block.inj heq
    refine ⟨[], ts, [], by simp, h, ?_⟩
    intro before' used' after' read b' hbefore hafter hread hunplaced _
    rw [hbefore.nil_left, hafter.nil_left, List.nil_append, List.append_nil]
    exact ⟨read, b', hread, .here, hunplaced⟩
  · obtain ⟨s, hs, rfl⟩ := List.mem_map.mp hchild
    match h with
    | @SpellsBlock.mk brace close list ts hbrace hclose hlist =>
      refine (((hlist.plug hs hinner).back [close]).front [brace]).imp ?_
      rintro b' _ - ⟨_, us, rfl, hbraces, -, inner, _, rfl, hcloses, hagain⟩
      obtain ⟨brace', rfl, hsame⟩ := hbraces.singleton_left
      obtain ⟨close', rfl, hsame'⟩ := hcloses.singleton_left
      have hquieter : Quieter [close] [close'] := Quieter.copy (quieter_nil []) hcloses
      obtain ⟨read, front, s, s', back, hread, rfl, hswap, hunplaced⟩ := hagain [close'] hquieter
      refine ⟨_, .mk (front ++ s' :: back) (brace.span.through close.span),
        .mk (hsame.is "\x7b" ▸ hbrace) (hsame'.is "\x7d" ▸ hclose) hread, .statement hswap, ?_⟩
      rw [Block.unplaced_mk, hunplaced, Block.unplaced_mk]
termination_by structural h

theorem Spells.plug {s : Statement} {b : Block} {ts rest : Phrase} (h : Spells s ts rest)
    (hin : Inside (.statement s) (.block b)) :
    Plug b ts fun b' us => ∀ rest', Quieter rest rest' → ∃ read s', Spells read us rest' ∧
      Swap b b' (.statement s) (.statement s') ∧ read.unplaced = s'.unplaced := by
  match h with
  | .leaf hleaf => exact absurd hin (not_inside_leaf hleaf)
  | @Spells.conditional word c ts _ hword hc =>
    refine ((hc.plug hin).front [word]).imp ?_
    rintro b' _ - ⟨_, us, rfl, hwords, -, hagain⟩ rest' hquieter
    obtain ⟨word', rfl, hsame⟩ := hwords.singleton_left
    obtain ⟨read, c', hread, hswap, hunplaced⟩ := hagain word' rest' hquieter
    refine ⟨.conditional read, .conditional c', .conditional (hsame.isWord _ ▸ hword) hread, hswap,
      ?_⟩
    rw [Statement.unplaced, hunplaced, Statement.unplaced]
  | @Spells.loop word value body ts _ hword hvalue hbody =>
    refine ((hbody.plug (inside_loop hin)).front (word :: value.tokens)).imp ?_
    rintro b' _ - ⟨_, us, rfl, hfront, -, read, body', hread, hswap, hunplaced⟩ rest' _
    obtain ⟨word', values, rfl, hsame, hvalues⟩ := hfront.cons_left
    have hfree := hvalues.alike.free hvalue
    obtain ⟨value', rfl, hvalue'⟩ := hvalues.expression
    refine ⟨_, .loop value body' (word.span.through body.span),
      .loop (hsame.isWord _ ▸ hword) hfree hread, .loop hswap, ?_⟩
    rw [Statement.unplaced, hvalue', hunplaced, Statement.unplaced]
termination_by structural h

theorem SpellsConditional.plug {c : Conditional} {word : Token} {b : Block} {ts rest : Phrase}
    (h : SpellsConditional c word ts rest)
    (hin : Inside (.statement (.conditional c)) (.block b)) :
    Plug b ts fun b' us => ∀ word' rest', Quieter rest rest' → ∃ read c',
      SpellsConditional read word' us rest' ∧
        Swap b b' (.statement (.conditional c)) (.statement (.conditional c')) ∧
          read.unplaced = c'.unplaced := by
  match h with
  | @SpellsConditional.absent _ value body ts _ hvalue hbody helse =>
    obtain hin | ⟨child, hchild, -⟩ := inside_conditional hin
    · refine ((hbody.plug hin).front value.tokens).imp ?_
      rintro b' _ - ⟨_, us, rfl, hvalues, -, read, body', hread, hswap, hunplaced⟩ word' rest'
        hquieter
      have hfree := hvalues.alike.free hvalue
      obtain ⟨value', rfl, hvalue'⟩ := hvalues.expression
      refine ⟨_, .mk value body' .absent (word.span.through body.span),
        .absent hfree hread (hquieter "else" (by simp) helse), .thenBlock hswap, ?_⟩
      rw [Conditional.unplaced, hvalue', hunplaced, Conditional.unplaced]
    · simp [ofAlternative] at hchild
  | @SpellsConditional.block _ other value body last ts vs _ hvalue hbody helse hlast =>
    obtain hin | ⟨child, hchild, hin⟩ := inside_conditional hin
    · refine (((hbody.plug hin).back (other :: vs)).front value.tokens).imp ?_
      rintro b' _ - ⟨_, us, rfl, hvalues, -, us', _, rfl, hback, read, body', hread, hswap,
        hunplaced⟩ word' rest' _
      have hfree := hvalues.alike.free hvalue
      obtain ⟨value', rfl, hvalue'⟩ := hvalues.expression
      obtain ⟨other', vs', rfl, hsame, hvs⟩ := hback.cons_left
      obtain ⟨last', hlast', hlast''⟩ := hlast.copy hvs
      refine ⟨_, .mk value body' (.block last) (word.span.through last.span),
        .block hfree hread (hsame.is "else" ▸ helse) hlast', .thenBlock hswap, ?_⟩
      rw [Conditional.unplaced, hvalue', hunplaced, Alternative.unplaced, hlast'',
        Conditional.unplaced, Alternative.unplaced]
    · obtain rfl := List.mem_singleton.mp hchild
      have hplug := (hlast.plug hin).front (value.tokens ++ (ts ++ [other]))
      rw [List.append_assoc, List.append_assoc, List.singleton_append] at hplug
      refine hplug.imp ?_
      rintro b' _ - ⟨_, us, rfl, hfront, -, read, last', hread, hswap, hunplaced⟩ word' rest' _
      obtain ⟨values, ws, rfl, hvalues, hws⟩ := hfront.append_left
      have hfree := hvalues.alike.free hvalue
      obtain ⟨value', rfl, hvalue'⟩ := hvalues.expression
      obtain ⟨ts', other', rfl, hts, hsame⟩ := hws.concat_left
      obtain ⟨body', hbody', hbody''⟩ := hbody.copy hts
      rw [List.append_assoc, List.append_assoc, List.singleton_append]
      refine ⟨_, .mk value body (.block last') (word.span.through last.span),
        .block hfree hbody' (hsame.is "else" ▸ helse) hread, .elseBlock hswap, ?_⟩
      rw [Conditional.unplaced, hvalue', hbody'', Alternative.unplaced, hunplaced,
        Conditional.unplaced, Alternative.unplaced]
  | @SpellsConditional.chained _ other word₁ value body next ts vs _ hvalue hbody helse hif hnext =>
    obtain hin | ⟨child, hchild, hin⟩ := inside_conditional hin
    · refine (((hbody.plug hin).back (other :: word₁ :: vs)).front value.tokens).imp ?_
      rintro b' _ - ⟨_, us, rfl, hvalues, -, us', _, rfl, hback, read, body', hread, hswap,
        hunplaced⟩ word' rest' hquieter
      have hfree := hvalues.alike.free hvalue
      obtain ⟨value', rfl, hvalue'⟩ := hvalues.expression
      obtain ⟨other', ws, rfl, hsame, hws⟩ := hback.cons_left
      obtain ⟨word₁', vs', rfl, hsame', hvs⟩ := hws.cons_left
      obtain ⟨next', hnext', hnext''⟩ := hnext.copy hvs hquieter word₁'
      refine ⟨_, .mk value body' (.chained next) (word.span.through next.span),
        .chained hfree hread (hsame.is "else" ▸ helse) (hsame'.is "if" ▸ hif) hnext',
        .thenBlock hswap, ?_⟩
      rw [Conditional.unplaced, hvalue', hunplaced, Alternative.unplaced, hnext'',
        Conditional.unplaced, Alternative.unplaced]
    · obtain rfl := List.mem_singleton.mp hchild
      have hplug := (hnext.plug hin).front (value.tokens ++ (ts ++ [other, word₁]))
      rw [List.append_assoc, List.append_assoc] at hplug
      refine hplug.imp ?_
      rintro b' _ - ⟨_, us, rfl, hfront, -, hagain⟩ word' rest' hquieter
      obtain ⟨values, ws, rfl, hvalues, hws⟩ := hfront.append_left
      have hfree := hvalues.alike.free hvalue
      obtain ⟨value', rfl, hvalue'⟩ := hvalues.expression
      obtain ⟨ts', xs, rfl, hts, hxs⟩ := hws.append_left
      obtain ⟨other', ys, rfl, hsame, hys⟩ := hxs.cons_left
      obtain ⟨word₁', rfl, hsame'⟩ := hys.singleton_left
      obtain ⟨body', hbody', hbody''⟩ := hbody.copy hts
      obtain ⟨read, next', hread, hswap, hunplaced⟩ := hagain word₁' rest' hquieter
      rw [List.append_assoc, List.append_assoc]
      refine ⟨_, .mk value body (.chained next') (word.span.through next.span),
        .chained hfree hbody' (hsame.is "else" ▸ helse) (hsame'.is "if" ▸ hif) hread,
        .chained hswap, ?_⟩
      rw [Conditional.unplaced, hvalue', hbody'', Alternative.unplaced, hunplaced,
        Conditional.unplaced, Alternative.unplaced]
termination_by structural h

theorem SpellsAll.plug {list : List Statement} {ts rest : Phrase} {s : Statement} {b : Block}
    (h : SpellsAll list ts rest) (hs : s ∈ list) (hin : Inside (.statement s) (.block b)) :
    Plug b ts fun b' us => ∀ rest', Quieter rest rest' → ∃ read front s s' back,
      SpellsAll read us rest' ∧ list = front ++ s :: back ∧
        Swap b b' (.statement s) (.statement s') ∧
          read.map Statement.unplaced = (front ++ s' :: back).map Statement.unplaced := by
  match h with
  | .nil => simp at hs
  | @SpellsAll.cons first others ts vs _ hfirst hspells hothers =>
    rcases List.mem_cons.mp hs with heq | hmem
    · have hplug := hspells.plug (heq ▸ hin)
      refine ((hplug.imp fun b' us hlike hagain => And.intro hlike hagain).back vs).imp ?_
      rintro b' _ - ⟨us, vs', rfl, hvs, hlike, hagain⟩ rest' hquieter
      obtain ⟨read, s', hread, hswap, hunplaced⟩ := hagain (vs' ++ rest') (hquieter.copy hvs)
      obtain ⟨others', hothers', hothers''⟩ := hothers.copy hvs hquieter
      refine ⟨read :: others', [], first, s', others,
        .cons (hlike.sees "\x7d" ▸ hfirst) hread hothers', rfl, hswap, ?_⟩
      rw [List.map_cons, hunplaced, hothers'', List.nil_append, List.map_cons]
    · have hplug := hothers.plug hmem hin
      refine (hplug.front ts).imp ?_
      rintro b' _ - ⟨ts', us, rfl, hts, hlike, hagain⟩ rest' hquieter
      obtain ⟨read, front, s, s', back, hread, rfl, hswap, hunplaced⟩ := hagain rest' hquieter
      obtain ⟨first', hfirst', hfirst''⟩ :=
        hspells.copy hts (hlike.quieter hplug.ne_nil _ rest')
      refine ⟨first' :: read, first :: front, s, s', back,
        .cons (hts.alike.sees "\x7d" ▸ hfirst) hfirst' hread, rfl, hswap, ?_⟩
      rw [List.map_cons, hfirst'', hunplaced, List.cons_append, List.map_cons]
termination_by structural h

end

/-! ### Blocks inside members -/

lemma parts_of_bodies {parts : List Part} {bs cs : List Block} {b : Block}
    (h : bodiesOf parts = bs ++ b :: cs) :
    ∃ front ts hb back, parts = front ++ Part.body b ts hb :: back ∧ bodiesOf front = bs ∧
      bodiesOf back = cs := by
  induction parts generalizing bs with
  | nil => simp at h
  | cons p parts ih =>
    cases p with
    | plain ts =>
      obtain ⟨front, us, hb, back, rfl, hfront, hback⟩ := ih h
      exact ⟨.plain ts :: front, us, hb, back, rfl, hfront, hback⟩
    | body b₁ ts hb₁ =>
      cases bs with
      | nil =>
        obtain ⟨rfl, hback⟩ := List.cons.inj h
        exact ⟨[], ts, hb₁, parts, rfl, rfl, hback⟩
      | cons b₂ bs =>
        obtain ⟨rfl, hrest⟩ := List.cons.inj h
        obtain ⟨front, us, hb, back, rfl, rfl, hback⟩ := ih hrest
        exact ⟨.body b₁ ts hb₁ :: front, us, hb, back, rfl, rfl, hback⟩

/-- A block inside a body of a member can be exchanged. -/
lemma member_plug {start : Token} {used rest : Phrase} {m : Member} {bs cs : List Block}
    {outer b : Block} (h : member start (used ++ rest) = .ok (m, rest))
    (hbodies : m.bodies = bs ++ outer :: cs) (hin : Inside (.block outer) (.block b)) :
    Plug b (start :: used) fun b' us => ∀ rest', Closed rest rest' → ∃ start' used' m' outer',
      us = start' :: used' ∧ Token.Same start start' ∧
      member start' (used' ++ rest') = .ok (m', rest') ∧ m'.skeleton = m.skeleton ∧
      Swap b b' (.block outer) (.block outer') ∧
      m'.bodies.map Block.unplaced = (bs ++ outer' :: cs).map Block.unplaced := by
  obtain ⟨parts, hparts, -, hparts', hall⟩ := tracks_member h
  obtain ⟨front, ts, hb, back, rfl, rfl, rfl⟩ := parts_of_bodies (hparts'.trans hbodies)
  have htokens : start :: used = tokensOf front ++ (ts ++ tokensOf back) := by
    rw [← List.cons_append] at hparts
    simpa [Part.tokens] using List.append_cancel_right hparts
  rw [htokens]
  have hplug := (hb.plug hin).imp fun b' us hlike hagain => And.intro hlike hagain
  refine ((hplug.back (tokensOf back)).front (tokensOf front)).imp ?_
  rintro b' _ - ⟨front', us, rfl, hfront, -, ts', back', rfl, hback, hlike, read, outer', hread,
    hswap, hunplaced⟩ rest' hclosed
  obtain ⟨fronts, rfl, hfronts, hfrontBodies⟩ := recasts_of_copy hfront
  obtain ⟨backs, rfl, hbacks, hbackBodies⟩ := recasts_of_copy hback
  have hrecast : List.Forall₂ Recast (front ++ Part.body outer ts hb :: back)
      (fronts ++ Part.body read ts' hread :: backs) :=
    List.rel_append hfronts (.cons (.body hb hread hlike) hbacks)
  obtain ⟨start', us', hus, hsame, m', hm', hbodies', hskeleton⟩ := hall hrecast hclosed
  obtain ⟨u, vs, hvs⟩ : ∃ u vs, tokensOf fronts ++ (ts' ++ tokensOf backs) = u :: vs := by
    cases hread
    exact List.exists_cons_of_ne_nil (by simp)
  have hus' : u :: (vs ++ rest') = start' :: us' := by
    rw [← hus, ← List.cons_append, ← hvs]
    simp [Part.tokens]
  obtain ⟨rfl, rfl⟩ := List.cons.inj hus'
  refine ⟨u, vs, m', outer', hvs, hsame, hm', hskeleton, hswap, ?_⟩
  rw [← hbodies']
  simp [Part.bodies, hfrontBodies, hbackBodies, hunplaced]

lemma functions_of_bodies {functions : List FunctionDefinition} {bs cs : List Block} {b : Block}
    (h : functions.map (·.body) = bs ++ b :: cs) :
    ∃ front f back, functions = front ++ f :: back ∧ front.map (·.body) = bs ∧ f.body = b ∧
      back.map (·.body) = cs := by
  obtain ⟨front, others, rfl, hfront, hothers⟩ := List.map_eq_append_iff.mp h
  obtain ⟨f, back, rfl, hf, hback⟩ := List.map_eq_cons_iff.mp hothers
  exact ⟨front, f, back, rfl, hfront, hf, hback⟩

/-- A member with another body is the member with the body's construct exchanged. -/
lemma swap_member {m : Member} {bs cs : List Block} {outer outer' b b' : Block}
    (hbodies : m.bodies = bs ++ outer :: cs) (h : Swap b b' (.block outer) (.block outer')) :
    ∃ m' c c', ofMember? m = some c ∧ ofMember? m' = some c' ∧ Swap b b' c c' ∧
      m'.skeleton = m.skeleton ∧ m'.bodies = bs ++ outer' :: cs := by
  cases m with
  | function f =>
    obtain ⟨front, g, back, hlist, rfl, rfl, rfl⟩ := @functions_of_bodies [f] _ _ _ hbodies
    obtain ⟨rfl, rfl, rfl⟩ : front = [] ∧ g = f ∧ back = [] := by
      cases front <;> simp_all
    exact ⟨.function { g with body := outer' }, _, _, rfl, rfl, .function h, rfl, rfl⟩
  | service s =>
    obtain ⟨front, f, back, hlist, rfl, rfl, rfl⟩ := functions_of_bodies hbodies
    refine ⟨.service { s with functions := front ++ { f with body := outer' } :: back }, _, _, rfl,
      rfl, .service hlist (.function h), ?_, by simp [Member.bodies]⟩
    simp [Member.skeleton, ServiceDefinition.skeleton, hlist, FunctionDefinition.skeleton]
  | classDefinition c =>
    obtain ⟨front, f, back, hlist, rfl, rfl, rfl⟩ := functions_of_bodies hbodies
    refine ⟨.classDefinition { c with functions := front ++ { f with body := outer' } :: back }, _,
      _, rfl, rfl, .classDefinition hlist (.function h), ?_, by simp [Member.bodies]⟩
    simp [Member.skeleton, ClassDefinition.skeleton, hlist, FunctionDefinition.skeleton]
  | _ => simp [Member.bodies] at hbodies

lemma inside_function {f : FunctionDefinition} {b : Block}
    (h : Inside (.function f) (.block b)) : Inside (.block f.body) (.block b) := by
  rcases h.cases_head with heq | ⟨child, hchild, hin⟩
  · simp at heq
  · obtain rfl := List.mem_singleton.mp hchild
    exact hin

/-- A block of a module is inside a body of a member. -/
lemma inside_module {m : SourceModule} {b : Block} (h : Inside (.module m) (.block b)) :
    ∃ front x back bs outer cs, m.members = front ++ x :: back ∧ x.bodies = bs ++ outer :: cs ∧
      Inside (.block outer) (.block b) := by
  have hfunctions {functions : List FunctionDefinition} {f : FunctionDefinition}
      (hf : f ∈ functions) : ∃ bs cs, functions.map (·.body) = bs ++ f.body :: cs := by
    obtain ⟨front, back, rfl⟩ := List.append_of_mem hf
    exact ⟨front.map (·.body), back.map (·.body), by simp⟩
  obtain heq | ⟨child, hchild, hin⟩ := h.cases_head
  · simp at heq
  obtain ⟨x, hx, hof⟩ := List.mem_filterMap.mp hchild
  obtain ⟨front, back, hmembers⟩ := List.append_of_mem hx
  suffices hbody : ∃ bs outer cs, x.bodies = bs ++ outer :: cs ∧ Inside (.block outer) (.block b) by
    obtain ⟨bs, outer, cs, hbodies, hinner⟩ := hbody
    exact ⟨front, x, back, bs, outer, cs, hmembers, hbodies, hinner⟩
  cases x with
  | function f =>
    obtain rfl := Option.some.inj hof
    exact ⟨[], f.body, [], rfl, inside_function hin⟩
  | service s =>
    obtain rfl := Option.some.inj hof
    obtain heq | ⟨child, hchild, hin⟩ := hin.cases_head
    · simp at heq
    obtain ⟨f, hf, rfl⟩ := List.mem_map.mp hchild
    obtain ⟨bs, cs, hbodies⟩ := hfunctions hf
    exact ⟨bs, f.body, cs, hbodies, inside_function hin⟩
  | classDefinition c =>
    obtain rfl := Option.some.inj hof
    obtain heq | ⟨child, hchild, hin⟩ := hin.cases_head
    · simp at heq
    obtain ⟨f, hf, rfl⟩ := List.mem_map.mp hchild
    obtain ⟨bs, cs, hbodies⟩ := hfunctions hf
    exact ⟨bs, f.body, cs, hbodies, inside_function hin⟩
  | typeDefinition t => simp [ofMember?] at hof
  | _ d =>
    obtain rfl := Option.some.inj hof
    obtain heq | ⟨child, hchild, -⟩ := hin.cases_head
    · simp at heq
    · simp [children] at hchild

/-- A block inside a module can be exchanged, and nothing else of the module changes. -/
theorem SpellsParts.plug {m : SourceModule} {ts : Phrase} {b : Block}
    (h : SpellsParts m.imports m.members ts []) (hin : Inside (.module m) (.block b)) :
    Plug b ts fun b' us => ∃ imports members m', SpellsParts imports members us [] ∧
      Swap b b' (.module m) (.module m') ∧
      imports.map Import.unplaced = m'.imports.map Import.unplaced ∧
      members.map Member.unplaced = m'.members.map Member.unplaced := by
  obtain ⟨front, x, back, bs, outer, cs, hmembers, hbodies, hinner⟩ := inside_module hin
  rw [hmembers] at h
  obtain ⟨imports₁, imports₂, before, start, used, after, rfl, himports, hfront, himport, hstray,
    hx, hback⟩ := h.split
  refine (((member_plug hx hbodies hinner).back after).front before).imp ?_
  rintro b' _ - ⟨before', us, rfl, hbefore, -, us', after', rfl, hafter, hagain⟩
  obtain ⟨imports₂', back', hback', himports₂, hbacks⟩ :=
    @SpellsParts.copy _ _ _ _ _ [] hback hafter rfl
  obtain ⟨start', used', x', outer', rfl, hsame, hx', hskeleton, hswap, hbodies'⟩ :=
    hagain (after' ++ []) (@Closed.append [] [] rfl _ _ hafter)
  have hmember :=
    SpellsParts.member (hsame.is "import" ▸ himport) (hsame.is ";" ▸ hstray) hx' hback'
  obtain ⟨imports₁', front', hfront', himports₁, hfronts⟩ :=
    hfront.copy hbefore (like_cons hsame (used ++ after ++ []) (used' ++ after' ++ [])).closed
  obtain ⟨x'', c, c'', hc, hc'', hswap', hskeleton', hbodies''⟩ := swap_member hbodies hswap
  have hunplaced : x'.unplaced = x''.unplaced :=
    Member.unplaced_congr (hskeleton.trans hskeleton'.symm) (by rw [hbodies', hbodies''])
  refine ⟨_, _, { m with members := front ++ x'' :: back }, hfront'.append hmember,
    .module hmembers hc hc'' hswap', ?_, ?_⟩
  · rw [himports, List.map_append, List.map_append, himports₁, himports₂]
  · rw [List.map_append, List.map_append, List.map_cons, List.map_cons, hfronts, hbacks, hunplaced]

end Parser

end FlowCanvas
