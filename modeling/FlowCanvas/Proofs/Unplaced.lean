import FlowCanvas.Proofs.Copies
import FlowCanvas.Proofs.Reading

/-!
# Trees up to positions

`unplaced` takes the places out of a tree, and the layout in front of each of its phrases. A copy of
the tokens of a statement spells the same statement up to positions.
-/

namespace FlowCanvas

/-! ### Statements -/

/-- The expression without its places. -/
def Expression.unplaced (e : Expression) : Expression :=
  ⟨e.first.erase, e.rest.map Token.unspanned⟩

/-- A copy of the tokens of an expression is the tokens of the same expression. -/
lemma Phrase.Copy.expression {e : Expression} {us : Phrase} (h : Phrase.Copy e.tokens us) :
    ∃ e' : Expression, us = e'.tokens ∧ e'.unplaced = e.unplaced := by
  obtain ⟨first, rest, rfl, hsame, htail⟩ := h.cons_inv
  refine ⟨⟨first, rest⟩, rfl, ?_⟩
  rw [Expression.unplaced, Expression.unplaced, Token.erase_of_same hsame.symm, htail]

/-- The declaration without its places. -/
def Declaration.unplaced (d : Declaration) : Declaration :=
  { d with
    type := d.type.unplaced, initializer := d.initializer.map Expression.unplaced, span := default }

mutual

/-- The statement without its places. -/
def Statement.unplaced : Statement → Statement
  | .declaration d => .declaration d.unplaced
  | .assignment target value _ => .assignment target.unplaced value.unplaced default
  | .conditional read => .conditional read.unplaced
  | .loop value body _ => .loop value.unplaced body.unplaced default
  | .exit kind value _ => .exit kind (value.map Expression.unplaced) default
  | .jump kind _ => .jump kind default
  | .expression value _ => .expression value.unplaced default
  | .unsupported construct _ => .unsupported construct default

def Conditional.unplaced : Conditional → Conditional
  | .mk value body alternative _ =>
    .mk value.unplaced body.unplaced alternative.unplaced default

def Alternative.unplaced : Alternative → Alternative
  | .absent => .absent
  | .block body => .block body.unplaced
  | .chained next => .chained next.unplaced

def Block.unplaced : Block → Block
  | .mk list _ => .mk (Statement.allUnplaced list) default

def Statement.allUnplaced : List Statement → List Statement
  | [] => []
  | s :: list => s.unplaced :: Statement.allUnplaced list

end

lemma Statement.allUnplaced_eq_map (list : List Statement) :
    allUnplaced list = list.map unplaced := by
  induction list with
  | nil => rfl
  | cons s list ih => rw [allUnplaced, ih, List.map_cons]

lemma Block.unplaced_mk (list : List Statement) (span : Span) :
    (Block.mk list span).unplaced = .mk (list.map Statement.unplaced) default := by
  rw [Block.unplaced, Statement.allUnplaced_eq_map]

/-! ### Members -/

/-- The parameter without its places. -/
def Parameter.unplaced (p : Parameter) : Parameter :=
  { p with type := p.type.unplaced, default := p.default.map Phrase.unplaced }

def FunctionName.unplaced : FunctionName → FunctionName
  | .plain name => .plain name
  | .remote name => .remote name
  | .resource accessor path => .resource accessor path.unplaced

namespace FunctionDefinition

/-- The function without its places and without its body. -/
def skeleton (f : FunctionDefinition) : FunctionDefinition :=
  { f with
    name := f.name.unplaced, parameters := f.parameters.map Parameter.unplaced,
    returns := f.returns.map Phrase.unplaced, body := .mk [] default, span := default }

/-- The function without its places. -/
def unplaced (f : FunctionDefinition) : FunctionDefinition :=
  { f.skeleton with body := f.body.unplaced }

end FunctionDefinition

namespace ServiceDefinition

def skeleton (s : ServiceDefinition) : ServiceDefinition :=
  { s with
    basePath := s.basePath.unplaced, listener := s.listener.unplaced,
    fields := s.fields.map Declaration.unplaced,
    functions := s.functions.map FunctionDefinition.skeleton, span := default }

def unplaced (s : ServiceDefinition) : ServiceDefinition :=
  { s.skeleton with functions := s.functions.map FunctionDefinition.unplaced }

end ServiceDefinition

namespace ClassDefinition

def skeleton (c : ClassDefinition) : ClassDefinition :=
  { c with
    fields := c.fields.map Declaration.unplaced,
    functions := c.functions.map FunctionDefinition.skeleton, span := default }

def unplaced (c : ClassDefinition) : ClassDefinition :=
  { c.skeleton with functions := c.functions.map FunctionDefinition.unplaced }

end ClassDefinition

/-- The field without its places. -/
def RecordField.unplaced (f : RecordField) : RecordField :=
  { f with type := f.type.unplaced, default := f.default.map Phrase.unplaced }

def RecordType.unplaced (r : RecordType) : RecordType :=
  { r with
    fields := r.fields.map RecordField.unplaced, inclusions := r.inclusions.map Phrase.unplaced,
    rest := r.rest.map Phrase.unplaced }

def TypeDescriptor.unplaced : TypeDescriptor → TypeDescriptor
  | .record r => .record r.unplaced
  | .enumeration members => .enumeration (members.map Phrase.unplaced)
  | .other descriptor => .other descriptor.unplaced

def TypeDefinition.unplaced (t : TypeDefinition) : TypeDefinition :=
  { t with descriptor := t.descriptor.unplaced, span := default }

namespace Member

/-- The member without its places and without the bodies of its functions. -/
def skeleton : Member → Member
  | .function f => .function f.skeleton
  | .variable d => .variable d.unplaced
  | .service s => .service s.skeleton
  | .classDefinition c => .classDefinition c.skeleton
  | .typeDefinition t => .typeDefinition t.unplaced

/-- The member without its places. -/
def unplaced : Member → Member
  | .function f => .function f.unplaced
  | .variable d => .variable d.unplaced
  | .service s => .service s.unplaced
  | .classDefinition c => .classDefinition c.unplaced
  | .typeDefinition t => .typeDefinition t.unplaced

end Member

def Import.unplaced (i : Import) : Import := { i with span := default }

/-- The tree without its places. -/
def SourceModule.unplaced (m : SourceModule) : SourceModule :=
  ⟨m.imports.map Import.unplaced, m.members.map Member.unplaced, default⟩

namespace Parser

open Brackets

/-! ### Copies of statements -/

/-- A copy of a phrase goes on like it in front of what goes on with less. -/
lemma Quieter.copy {rest rest' ts us : Phrase} (h : Quieter rest rest') (hcopy : ts.Copy us) :
    Quieter (ts ++ rest) (us ++ rest') := by
  cases ts with
  | nil =>
    obtain rfl := hcopy.nil_left
    exact h
  | cons t ts =>
    obtain ⟨u, vs, rfl, hsame, -⟩ := hcopy.cons_left
    intro word _ hsees
    simpa [sees, ← hsame.is] using hsees

lemma DeclaredAs.copy {body type us : Phrase} {name : Token} {value : Option Expression}
    (h : DeclaredAs body type name value) (hcopy : body.Copy us) :
    ∃ type' name' value', DeclaredAs us type' name' value' ∧ type.Copy type' ∧
      Token.Same name name' ∧
      value'.map Expression.unplaced = value.map Expression.unplaced := by
  cases h with
  | bare hleft hname =>
    have hfree := hcopy.alike.free hleft
    obtain ⟨type', vs, rfl, htype, hvs⟩ := hcopy.append_left
    obtain ⟨name', rfl, hsame⟩ := hvs.singleton_left
    exact ⟨type', name', none, .bare hfree (hsame.isIdentifier ▸ hname), htype, hsame, rfl⟩
  | @valued _ _ equal e hleft hname hequal =>
    obtain ⟨type', vs, rfl, htype, hvs⟩ := hcopy.append_left
    obtain ⟨name', ws, rfl, hsame, hws⟩ := hvs.cons_left
    obtain ⟨equal', xs, rfl, hsame', hxs⟩ := hws.cons_left
    obtain ⟨e', rfl, he⟩ := hxs.expression
    have hfree : Free "=" (type' ++ [name']) :=
      Phrase.Alike.free (List.rel_append htype.alike (.cons hsame .nil)) hleft
    refine ⟨type', name', some e', .valued hfree (hsame.isIdentifier ▸ hname)
      (hsame'.is "=" ▸ hequal), htype, hsame, ?_⟩
    rw [Option.map_some, Option.map_some, he]

lemma skipStatement_alike {depth : Nat} {ts us rest : Phrase} {last : Token}
    (halike : ts.Alike us) (h : skipStatement depth ts = .ok (last, rest)) :
    ∃ last' rest', skipStatement depth us = .ok (last', rest') ∧ Token.Same last last' ∧
      rest.Alike rest' := by
  induction halike generalizing depth with
  | nil => simp [skipStatement] at h
  | @cons t u ts us hsame hrest ih =>
    have hread : ∀ read, .ok (t, ts) = (.ok read : Except SyntaxError _) →
        ∃ last' rest', (.ok (u, us) : Except SyntaxError _) = .ok (last', rest') ∧
          Token.Same read.1 last' ∧ Phrase.Alike read.2 rest' := by
      rintro _ ⟨rfl⟩
      exact ⟨u, us, rfl, hsame, hrest⟩
    cases depth with
    | zero =>
      simp only [skipStatement, hsame.isOpener, hsame.isCloser, hsame.is] at h ⊢
      split_ifs at h ⊢ with hopener hcloser hsemicolon
      · exact ih h
      · exact hread _ h
      · exact ih h
    | succ depth =>
      simp only [skipStatement, hsame.isOpener, hsame.isCloser, hsame.is,
        Phrase.Alike.sees hrest] at h ⊢
      split_ifs at h ⊢
      · exact ih h
      · exact hread _ h
      · exact ih h
      · exact hread _ h
      · exact ih h

lemma skipped_copy {ts us rest rest' : Phrase} {last : Token} (hcopy : ts.Copy us)
    (h : skipStatement 0 ts = .ok (last, [])) (hon : last.is "\x7d" → sees "on" rest = false)
    (hq : Quieter rest rest') :
    ∃ last', skipStatement 0 us = .ok (last', []) ∧
      (last'.is "\x7d" → sees "on" rest' = false) := by
  obtain ⟨last', left, hskip, hsame, hleft⟩ := skipStatement_alike hcopy.alike h
  cases hleft
  exact ⟨last', hskip, fun hlast => hq "on" (by simp) (hon (hsame.is "\x7d" ▸ hlast))⟩

/-- A copy of the tokens of a statement without blocks spells the same statement. -/
lemma SpellsLeaf.copy {s : Statement} {ts rest us rest' : Phrase} (h : SpellsLeaf s ts rest)
    (hcopy : ts.Copy us) (hq : Quieter rest rest') :
    ∃ s', SpellsLeaf s' us rest' ∧ s'.unplaced = s.unplaced := by
  cases h with
  | @declaration start name semicolon body type _ value hstart hlead hbody hsemicolon hdeclared
      hlooks =>
    obtain ⟨body', vs, rfl, hbodies, hvs⟩ := hcopy.append_left
    obtain ⟨semicolon', rfl, hsame⟩ := hvs.singleton_left
    obtain ⟨start', hstart', hsame'⟩ := hbodies.alike.head hstart
    obtain ⟨type', name', value', hdeclared', htype, hname, hvalue⟩ := hdeclared.copy hbodies
    have hlooks' : looksDeclared (type' ++ [name']) := by
      rw [← Phrase.Alike.looksDeclared (List.rel_append htype.alike (.cons hname .nil))]
      exact hlooks
    refine ⟨_, .declaration hstart' (hsame'.leads ▸ hlead) (hbodies.alike.free hbody)
      (hsame.is ";" ▸ hsemicolon) hdeclared' hlooks', ?_⟩
    simp only [Statement.unplaced, Declaration.unplaced, hvalue, hname.2, htype.unplaced_eq]
  | @marked start name semicolon annotated finals body type _ names qualifiers value hstart hlead
      hannotated hfinals hbody hsemicolon hdeclared =>
    obtain ⟨annotated', vs, rfl, hannotations, hvs⟩ := hcopy.append_left
    have hread := annotations_append_alike hannotations.alike hvs.alike hannotated
    obtain ⟨finals', ws, rfl, hfinals', hws⟩ := hvs.append_left
    obtain ⟨body', xs, rfl, hbodies, hxs⟩ := hws.append_left
    have hspells := hfinals.alike hfinals'.alike hws.alike
    obtain ⟨semicolon', rfl, hsame⟩ := hxs.singleton_left
    obtain ⟨start', hstart', hsame'⟩ :=
      Phrase.Alike.head (List.rel_append hannotations.alike hfinals'.alike) hstart
    obtain ⟨type', name', value', hdeclared', htype, hname, hvalue⟩ := hdeclared.copy hbodies
    have hlead' : start'.is "@" || start'.is "final" := by
      rw [← hsame'.is "@", ← hsame'.is "final"]
      exact hlead
    refine ⟨_, .marked hstart' hlead' hread hspells (hbodies.alike.free hbody)
      (hsame.is ";" ▸ hsemicolon) hdeclared', ?_⟩
    simp only [Statement.unplaced, Declaration.unplaced, hvalue, hname.2, htype.unplaced_eq]
  | @assignment start equal semicolon target _ value hstart hlead hbody hsemicolon htarget hequal
      hlooks =>
    obtain ⟨body', vs, rfl, hbodies, hvs⟩ := hcopy.append_left
    obtain ⟨semicolon', rfl, hsame⟩ := hvs.singleton_left
    have hfree := hbodies.alike.free hbody
    obtain ⟨target', ws, rfl, htargets, hws⟩ := hbodies.append_left
    obtain ⟨equal', xs, rfl, hsame', hxs⟩ := hws.cons_left
    obtain ⟨e', rfl, he⟩ := hxs.expression
    obtain ⟨start', hstart', hsame''⟩ := htargets.alike.head hstart
    refine ⟨_, .assignment hstart' (hsame''.leads ▸ hlead) hfree (hsame.is ";" ▸ hsemicolon)
      (htargets.alike.free htarget) (hsame'.is "=" ▸ hequal)
      (htargets.alike.looksDeclared ▸ hlooks), ?_⟩
    simp only [Statement.unplaced, htargets.unplaced_eq, he]
  | @expression semicolon _ value hlead hbody hsemicolon hvalue hlooks =>
    obtain ⟨body', vs, rfl, hbodies, hvs⟩ := hcopy.append_left
    obtain ⟨semicolon', rfl, hsame⟩ := hvs.singleton_left
    obtain ⟨e', rfl, he⟩ := hbodies.expression
    obtain ⟨first, hfirst, hsame'⟩ := hbodies.alike.head (t := value.first) rfl
    obtain rfl : e'.first = first := Option.some.inj hfirst
    refine ⟨_, .expression (hsame'.leads ▸ hlead) (hbodies.alike.free hbody)
      (hsame.is ";" ▸ hsemicolon) (hbodies.alike.free hvalue)
      (hbodies.alike.looksDeclared ▸ hlooks), ?_⟩
    simp only [Statement.unplaced, he]
  | @exit kind word semicolon value _ hword hbody hsemicolon hpanic =>
    obtain ⟨word', vs, rfl, hsame, hvs⟩ := hcopy.cons_left
    obtain ⟨body', ws, rfl, hbodies, hws⟩ := hvs.append_left
    obtain ⟨semicolon', rfl, hsame'⟩ := hws.singleton_left
    have hword' : word'.isWord [kind.word] := hsame.isWord _ ▸ hword
    have hfree := hbodies.alike.free hbody
    cases value with
    | none =>
      obtain rfl := hbodies.nil_left
      exact ⟨_, @SpellsLeaf.exit kind word' semicolon' none rest' hword' hfree
        (hsame'.is ";" ▸ hsemicolon) hpanic, rfl⟩
    | some e =>
      obtain ⟨e', rfl, he⟩ := Phrase.Copy.expression hbodies
      refine ⟨_, @SpellsLeaf.exit kind word' semicolon' (some e') rest' hword' hfree
        (hsame'.is ";" ▸ hsemicolon) (fun _ => rfl), ?_⟩
      simp only [Statement.unplaced, Option.map_some, he]
  | @jump kind word semicolon _ hword hsemicolon =>
    obtain ⟨word', vs, rfl, hsame, hvs⟩ := hcopy.cons_left
    obtain ⟨semicolon', rfl, hsame'⟩ := hvs.singleton_left
    exact ⟨_, .jump (hsame.isWord _ ▸ hword) (hsame'.is ";" ▸ hsemicolon), rfl⟩
  | @unsupported start last ts _ hstart hskip hon =>
    obtain ⟨last', hskip', hon'⟩ := skipped_copy hcopy hskip hon hq
    obtain ⟨start', vs, rfl, hsame, -⟩ := hcopy.cons_left
    refine ⟨_, .unsupported (hsame.isWord _ ▸ hstart) hskip' hon', ?_⟩
    simp only [Statement.unplaced, hsame.2]
  | @braces start last ts _ hstart hskip hon =>
    obtain ⟨last', hskip', hon'⟩ := skipped_copy hcopy hskip hon hq
    obtain ⟨start', vs, rfl, hsame, -⟩ := hcopy.cons_left
    exact ⟨_, .braces (hsame.is "\x7b" ▸ hstart) hskip' hon', rfl⟩

mutual

/-- A copy of the tokens of a statement spells the same statement. -/
theorem Spells.copy {s : Statement} {ts rest us rest' : Phrase} (h : Spells s ts rest)
    (hcopy : ts.Copy us) (hq : Quieter rest rest') :
    ∃ s', Spells s' us rest' ∧ s'.unplaced = s.unplaced := by
  match h with
  | .leaf h =>
    obtain ⟨s', hs', heq⟩ := h.copy hcopy hq
    exact ⟨s', .leaf hs', heq⟩
  | .conditional hword hc =>
    obtain ⟨word', vs, rfl, hsame, hvs⟩ := hcopy.cons_left
    obtain ⟨c', hc', heq⟩ := hc.copy hvs hq word'
    exact ⟨.conditional c', .conditional (hsame.isWord _ ▸ hword) hc',
      by rw [Statement.unplaced, heq, Statement.unplaced]⟩
  | .loop hword hvalue hbody =>
    obtain ⟨word', vs, rfl, hsame, hvs⟩ := hcopy.cons_left
    obtain ⟨values, ws, rfl, hvalues, hws⟩ := hvs.append_left
    have hfree := hvalues.alike.free hvalue
    obtain ⟨value', rfl, hvalue'⟩ := hvalues.expression
    obtain ⟨body', hbody', hbody''⟩ := hbody.copy hws
    exact ⟨_, .loop (hsame.isWord _ ▸ hword) hfree hbody',
      by rw [Statement.unplaced, hvalue', hbody'', Statement.unplaced]⟩

theorem SpellsConditional.copy {c : Conditional} {word : Token} {ts rest us rest' : Phrase}
    (h : SpellsConditional c word ts rest) (hcopy : ts.Copy us) (hq : Quieter rest rest')
    (word' : Token) :
    ∃ c', SpellsConditional c' word' us rest' ∧ c'.unplaced = c.unplaced := by
  match h with
  | .absent hvalue hbody helse =>
    obtain ⟨values, ws, rfl, hvalues, hws⟩ := hcopy.append_left
    have hfree := hvalues.alike.free hvalue
    obtain ⟨value', rfl, hvalue'⟩ := hvalues.expression
    obtain ⟨body', hbody', hbody''⟩ := hbody.copy hws
    refine ⟨_, .absent hfree hbody' (hq "else" (by simp) helse), ?_⟩
    rw [Conditional.unplaced, hvalue', hbody'', Conditional.unplaced]
  | .block hvalue hbody helse hlast =>
    obtain ⟨values, ws, rfl, hvalues, hws⟩ := hcopy.append_left
    have hfree := hvalues.alike.free hvalue
    obtain ⟨value', rfl, hvalue'⟩ := hvalues.expression
    obtain ⟨bodies, xs, rfl, hbodies, hxs⟩ := hws.append_left
    obtain ⟨other', ys, rfl, hsame, hys⟩ := hxs.cons_left
    obtain ⟨body', hbody', hbody''⟩ := hbody.copy hbodies
    obtain ⟨last', hlast', hlast''⟩ := hlast.copy hys
    refine ⟨_, .block hfree hbody' (hsame.is "else" ▸ helse) hlast', ?_⟩
    rw [Conditional.unplaced, hvalue', hbody'', Alternative.unplaced, hlast'',
      Conditional.unplaced, Alternative.unplaced]
  | .chained hvalue hbody helse hif hnext =>
    obtain ⟨values, ws, rfl, hvalues, hws⟩ := hcopy.append_left
    have hfree := hvalues.alike.free hvalue
    obtain ⟨value', rfl, hvalue'⟩ := hvalues.expression
    obtain ⟨bodies, xs, rfl, hbodies, hxs⟩ := hws.append_left
    obtain ⟨other', ys, rfl, hsame, hys⟩ := hxs.cons_left
    obtain ⟨word'', zs, rfl, hsame', hzs⟩ := hys.cons_left
    obtain ⟨body', hbody', hbody''⟩ := hbody.copy hbodies
    obtain ⟨next', hnext', hnext''⟩ := hnext.copy hzs hq word''
    refine ⟨_, .chained hfree hbody' (hsame.is "else" ▸ helse) (hsame'.is "if" ▸ hif) hnext', ?_⟩
    rw [Conditional.unplaced, hvalue', hbody'', Alternative.unplaced, hnext'',
      Conditional.unplaced, Alternative.unplaced]

theorem SpellsBlock.copy {b : Block} {ts us : Phrase} (h : SpellsBlock b ts)
    (hcopy : ts.Copy us) : ∃ b', SpellsBlock b' us ∧ b'.unplaced = b.unplaced := by
  match h with
  | .mk hbrace hclose hlist =>
    obtain ⟨brace', vs, rfl, hsame, hvs⟩ := hcopy.cons_left
    obtain ⟨inner, ws, rfl, hinner, hws⟩ := hvs.append_left
    obtain ⟨close', rfl, hsame'⟩ := hws.singleton_left
    have hq : Quieter [_] [close'] := Quieter.copy (quieter_nil []) (.singleton hsame')
    obtain ⟨list', hlist', hlist''⟩ := hlist.copy hinner hq
    refine ⟨_, .mk (hsame.is "\x7b" ▸ hbrace) (hsame'.is "\x7d" ▸ hclose) hlist', ?_⟩
    rw [Block.unplaced_mk, hlist'', Block.unplaced_mk]

theorem SpellsAll.copy {list : List Statement} {ts rest us rest' : Phrase}
    (h : SpellsAll list ts rest) (hcopy : ts.Copy us) (hq : Quieter rest rest') :
    ∃ list', SpellsAll list' us rest' ∧
      list'.map Statement.unplaced = list.map Statement.unplaced := by
  match h with
  | .nil =>
    obtain rfl := hcopy.nil_left
    exact ⟨[], .nil, rfl⟩
  | .cons hfirst hs hlist =>
    obtain ⟨vs, ws, rfl, hvs, hws⟩ := hcopy.append_left
    obtain ⟨s', hs', heq⟩ := hs.copy hvs (hq.copy hws)
    obtain ⟨list', hlist', hlist''⟩ := hlist.copy hws hq
    refine ⟨s' :: list', .cons (hvs.alike.sees "\x7d" ▸ hfirst) hs' hlist', ?_⟩
    rw [List.map_cons, heq, hlist'', List.map_cons]

end

end Parser

end FlowCanvas
