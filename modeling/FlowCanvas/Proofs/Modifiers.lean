import FlowCanvas.Proofs.ModuleVariables

/-!
# What stands in front of an expression

The text of a node is read back with the annotations, the qualifiers and the `check` or `checkpanic`
of its construct exactly if the construct has no annotations, no qualifier but `final`, and no call
that panics.
-/

namespace FlowCanvas

namespace Statement

/-- Whether something can stand in front of an operand of the statement. -/
def hasFront : Statement → Bool
  | .declaration _ | .exit .return .. | .expression .. => true
  | _ => false

lemma hasFront_of_called? {s : Statement} {found : Callee × List Argument}
    (h : s.called? = some found) : s.hasFront := by
  obtain ⟨e, he, -⟩ := Option.bind_eq_some_iff.mp h
  cases s with
  | declaration => rfl
  | expression => rfl
  | exit kind => cases kind <;> first | rfl | simp [operand?] at he
  | _ => simp [operand?] at he

end Statement

namespace Construct

/-- What stands in front of the expression of a variable, or of a declaration, a return statement or
an expression statement. -/
def modifiers? : Construct → Option Modifiers
  | .variable d => some d.modifiers
  | .statement s => if s.hasFront then some s.modifiers else none
  | _ => none

/-- What stands in front of the expression of a text that is read where a construct stands. -/
def modifiersOf? (x : Construct) (text : String) : Option Modifiers :=
  match x with
  | .variable _ => (Parser.variableOf? text).map Declaration.modifiers
  | _ =>
    match Parser.statementsOf? text with
    | some [s] => (Construct.statement s).modifiers?
    | _ => none

def called? : Construct → Option (Callee × List Argument)
  | .variable d => d.initializer.bind fun e => (Analysis.checkedShape e).called?
  | .statement s => s.called?
  | _ => none

end Construct

namespace Analysis

open Lexer FlowCanvas.Parser Brackets

/-! ### Texts in a block -/

section Blocks

variable {s : Statement} {text : String} {ls : List Lexeme} {m : Modifiers}

lemma modifiersOf?_of_spells (hreads : Reads text.toList ls)
    (h : ∀ (ts : Phrase) (close : Token), Sourced ts → ts.lexemes = ls →
      ∃ s', Spells s' ts [close] ∧ s'.hasFront ∧ s'.modifiers = m) :
    (Construct.statement s).modifiersOf? text = some m := by
  obtain ⟨ts, close, hts, hsource, hread⟩ := statementsOf?_of_reads hreads
  obtain ⟨s', hspells, hfront, rfl⟩ := h ts close hsource hts
  simp only [Construct.modifiersOf?, hread s' hspells, Construct.modifiers?, hfront, if_true]

lemma annotations_of_spells {s : Statement} {ts rest : Phrase} (h : Spells s ts rest)
    (hat : sees "@" ts = false) : s.modifiers.annotations = [] := by
  cases h with
  | conditional => rfl
  | loop => rfl
  | leaf h =>
    cases h with
    | marked _ _ hannotated =>
      rw [annotations_of_not_sees hat] at hannotated
      obtain ⟨hnames, -⟩ := Prod.mk.inj (Except.ok.inj hannotated)
      exact hnames.symm
    | _ => rfl

lemma annotations_of_modifiersOf? (hreads : Reads text.toList ls)
    (hat : ∀ ts : Phrase, ts.lexemes = ls → sees "@" ts = false)
    (h : (Construct.statement s).modifiersOf? text = some m) : m.annotations = [] := by
  simp only [Construct.modifiersOf?] at h
  split at h
  · rename_i s' hread
    obtain ⟨ts, hscanned, hts⟩ := (hreads.run []).scanned .origin
    have hne : ts ≠ [] := by
      rintro rfl
      exact hreads.legible.ne_nil hts.symm
    obtain ⟨us, close, hcopy, -, hlist⟩ :=
      spells_of_statementsOf hne (by simpa using hscanned) hread
    have hus : us.lexemes = ls := (Phrase.alike_iff.mp hcopy.alike).symm.trans hts
    cases hlist with
    | @cons _ _ used after _ _ hspells hnil =>
      cases hnil
      rw [List.append_nil] at hus
      simp only [Construct.modifiers?] at h
      split at h
      · obtain rfl := Option.some.inj h
        exact annotations_of_spells hspells (hat _ hus)
      · simp at h
  · simp at h

end Blocks

/-! ### Operands that are returned or run -/

/-- What is spelled alike to a return or an expression statement has the same in front. -/
lemma respells_operand {s : Statement} {used rest ts : Phrase} (h : Spells s used rest)
    (hfront : s.hasFront) (hnone : s.declaration? = none) (halike : used.Alike ts)
    (rest' : Phrase) :
    ∃ s', Spells s' ts rest' ∧ s'.hasFront ∧ s'.modifiers = s.modifiers := by
  cases h with
  | conditional => simp [Statement.hasFront] at hfront
  | loop => simp [Statement.hasFront] at hfront
  | leaf h =>
    cases h with
    | declaration => simp [Statement.declaration?] at hnone
    | marked => simp [Statement.declaration?] at hnone
    | assignment => simp [Statement.hasFront] at hfront
    | jump => simp [Statement.hasFront] at hfront
    | unsupported => simp [Statement.hasFront] at hfront
    | braces => simp [Statement.hasFront] at hfront
    | @expression semicolon _ value hlead hbody hsemicolon hvalue hlooks =>
      obtain ⟨body, ends, rfl, hbodies, hends⟩ := halike.append_left
      obtain ⟨semicolon', rfl, hsame⟩ := hends.singleton_left
      obtain ⟨e, rfl⟩ := exists_expression (hbodies.ne_nil (tokens_ne_nil value))
      obtain ⟨first, more, hcons, hfirst, -⟩ := hbodies.cons_left
      obtain ⟨rfl, -⟩ := List.cons.inj hcons
      refine ⟨_, .leaf (@SpellsLeaf.expression semicolon' rest' e (hfirst.leads ▸ hlead)
        (hbodies.free hbody) (hsame.is ";" ▸ hsemicolon) (hbodies.free hvalue)
        (hbodies.looksDeclared ▸ hlooks)), rfl, ?_⟩
      exact congrArg (Modifiers.mk [] []) (wrapper?_alike hbodies).symm
    | @exit kind word semicolon value _ hword hbody hsemicolon hpanic =>
      obtain ⟨word', behind, rfl, hsame, hbehind⟩ := halike.cons_left
      obtain ⟨body, ends, rfl, hbodies, hends⟩ := hbehind.append_left
      obtain ⟨semicolon', rfl, hsame'⟩ := hends.singleton_left
      obtain rfl : kind = .return := by
        cases kind <;> first | rfl | simp [Statement.hasFront] at hfront
      have hword' : word'.isWord [ExitKind.return.word] := hsame.isWord _ ▸ hword
      have hend : semicolon'.is ";" := hsame'.is ";" ▸ hsemicolon
      cases value with
      | none =>
        obtain rfl : body = [] := List.length_eq_zero_iff.mp hbodies.length.symm
        exact ⟨_, .leaf (@SpellsLeaf.exit .return word' semicolon' none rest' hword' (.nil ";") hend
          (by simp)), rfl, rfl⟩
      | some value =>
        obtain ⟨e, rfl⟩ := exists_expression (hbodies.ne_nil (tokens_ne_nil value))
        refine ⟨_, .leaf (@SpellsLeaf.exit .return word' semicolon' (some e) rest' hword'
          (hbodies.free hbody) hend (by simp)), rfl, ?_⟩
        exact congrArg (Modifiers.mk [] []) (wrapper?_alike hbodies).symm

lemma isPlain_of_hasFront {c : Context} {s : Statement} {n : FlowNode} (hfront : s.hasFront)
    (hnone : s.declaration? = none) (hn : statement .standard c s = some n)
    (hcall : n.kind ∉ callKinds) : isPlain c s ∧ n.kind ∉ runKinds := by
  obtain ⟨kind, hkind, hbuilt⟩ := builtAt_statement hn
  obtain ⟨site, hsite, -⟩ := suits_ofStatement hkind (branchesOf .standard c s)
  rw [hbuilt.kind] at hcall ⊢
  have hcalls : ∀ (shape : Option Shape) (fallback : NodeKind), fallback ∈ callFree →
      kind = (shape.bind callKind).getD fallback → kind ∈ callFree := by
    intro shape fallback hfallback hkind
    cases hshape : shape.bind callKind with
    | none => simpa [hkind, hshape] using hfallback
    | some found =>
      obtain ⟨shape', -, hfound⟩ := Option.bind_eq_some_iff.mp hshape
      refine absurd ?_ hcall
      rw [hkind, hshape, Option.getD_some]
      unfold callKind at hfound
      split at hfound
      · exact Option.some.inj hfound ▸ by decide
      · exact Option.some.inj hfound ▸ by decide
      · simp at hfound
  have hfree : kind ∈ callFree := by
    cases s with
    | declaration => simp [Statement.declaration?] at hnone
    | expression value span =>
      exact hcalls (some (checkedShape value)) .expressionStatement (by decide)
        (Option.some.inj hkind).symm
    | exit word value span =>
      cases word with
      | «return» =>
        refine hcalls (value.map checkedShape) .return (by decide) ?_
        rw [Option.bind_map]
        exact (Option.some.inj hkind).symm
      | _ => simp [Statement.hasFront] at hfront
    | _ => simp [Statement.hasFront] at hfront
  have hruns : ∀ kind ∈ callFree, kind ∉ runKinds := by decide
  refine ⟨?_, hruns kind hfree⟩
  cases s with
  | declaration => simp [Statement.declaration?] at hnone
  | _ => simp [isPlain, hsite, hfree]

lemma modifiersOf?_operand {c : Context} {s : Statement} {n : FlowNode} {used rest : Phrase}
    (hspells : Spells s used rest) (hsource : Sourced used) (hfront : s.hasFront)
    (hnone : s.declaration? = none) (hn : statement .standard c s = some n)
    (hnames : NamesOptional c) (hunmixed : Unmixed c n s.called?) :
    ∃ text, (Builders.standard.written n).text = .ok text ∧
      (Construct.statement s).modifiersOf? text =
        some ⟨[], [], leftWrapper n.kind s.modifiers.wrapper?⟩ := by
  by_cases hcall : n.kind ∈ callKinds
  · obtain ⟨site, callee, arguments, front, marks, phrase, inner, hsited, hwritten⟩ :=
      written_of_statement hspells hsource hn hcall (hnames.consulted n)
    obtain ⟨ls, ⟨text, htext, hreads⟩, hplain⟩ := hwritten.reads
    obtain ⟨rfl, hlead⟩ := hplain (hunmixed (callee, arguments) hsited.called hcall)
    rw [hlead] at hreads
    refine ⟨text, htext, modifiersOf?_of_spells hreads fun ts close hts hlexemes => ?_⟩
    have hmatched : ∀ us : Phrase, us <:+: ts →
        us.lexemes = Write.argumentsLexemes (Write.argumentProperties n) → Matched us :=
      fun us hus hargs => (Write.values_of_lexemes (hwritten.taken hsited.sound)
        (Argument.Sourced.within hts hus) hargs).1
    obtain ⟨s', us, hspells', -, -, hcalled, -, hmodifiers⟩ :=
      respells_call hsited (by simp [hnone]) hlexemes hmatched [close]
    refine ⟨s', hspells', Statement.hasFront_of_called? hcalled, ?_⟩
    obtain ⟨e, he, -⟩ := Option.bind_eq_some_iff.mp hsited.called
    rw [hmodifiers, hnone, Statement.modifiers_wrapper?, he, Option.bind_some,
      leftWrapper_of_mem (List.mem_cons_of_mem _ hcall), ← hsited.unwrap e he, unwrapCheck_snd]
    cases e.wrapper? <;> rfl
  · obtain ⟨hplain, hrun⟩ := isPlain_of_hasFront hfront hnone hn hcall
    have hcontrol : s.isControl = false := by
      cases s <;> first | rfl | simp [Statement.hasFront] at hfront
    obtain ⟨n', hn', -, text, htext, hreads, -⟩ :=
      restores_leaf (hspells.leaf_of_not_isControl hcontrol) hplain hsource
    obtain rfl := Option.some.inj (hn.symm.trans hn')
    refine ⟨text, htext, modifiersOf?_of_spells hreads fun ts close hts hlexemes => ?_⟩
    obtain ⟨s', hspells', hfront', hmodifiers⟩ := respells_operand hspells hfront hnone
      (Phrase.alike_iff.mpr hlexemes.symm) [close]
    refine ⟨s', hspells', hfront', ?_⟩
    rw [hmodifiers, leftWrapper, if_neg hrun]
    cases s with
    | declaration => simp [Statement.declaration?] at hnone
    | _ => rfl

/-! ### Declarations -/

lemma eq_writtenQualifiers_iff {d : Declaration} :
    d.qualifiers = writtenQualifiers d.isFinal ↔ d.qualifiers ∈ [[], ["final"]] := by
  unfold Declaration.isFinal Declaration.hasQualifier
  constructor
  · intro h
    rw [h]
    cases d.qualifiers.contains "final" <;> simp [writtenQualifiers]
  · intro h
    rcases List.mem_pair.mp h with h | h <;> rw [h] <;> rfl

lemma readFrom_of_spells {d : Declaration} {used rest : Phrase}
    (h : Spells (.declaration d) used rest) (hsource : Sourced used) :
    ∃ body name, ReadFrom d body name ∧
      d.qualifiers = writtenQualifiers d.isFinal ∧ (d.annotations = [] → readsAlone d) ∧
      (d.isFinal = false → sees "@" d.type = false) := by
  have hsees : ∀ {type body : Phrase} {name : Token} {value : Option Expression},
      DeclaredAs body type name value → sees "@" body = false → sees "@" type = false := by
    intro type body name value hdeclared hat
    cases type with
    | nil => rfl
    | cons first type => rwa [sees_congr (head?_of_declaredAs hdeclared (by simp))] at hat
  cases h with
  | leaf h =>
    cases h with
    | @declaration start name semicolon body type _ value hstart hlead hbody hsemicolon hdeclared
        hlooks =>
      have hread : ReadFrom ⟨[], [], type, name.text, value, start.span.through semicolon.span⟩ body
          name := ⟨hdeclared, rfl, hbody, hsource.left⟩
      obtain ⟨tail, rfl⟩ := List.head?_eq_some_iff.mp hstart
      refine ⟨_, name, hread, rfl, fun _ => ?_, fun _ => hsees hdeclared ?_⟩
      · refine readsAlone_of_looks hread.isIdentifier hlooks fun t ht => ?_
        have hne : type ≠ [] := by
          rintro rfl
          simp at ht
        rw [← head?_of_declaredAs hdeclared hne] at ht
        exact Option.some.inj ht ▸ hlead
      · simp only [leads, Bool.or_eq_false_iff] at hlead
        exact hlead.1.2
    | @marked start name semicolon annotated finals body type _ names qualifiers value hstart hlead
        hannotated hfinals hbody hsemicolon hdeclared =>
      have hread : ReadFrom ⟨names, qualifiers, type, name.text, value,
          start.span.through semicolon.span⟩ body name :=
        ⟨hdeclared, rfl, hbody, hsource.right.right.left⟩
      obtain ⟨given, hgiven, hnone, -, hat, -⟩ := annotations_spec hannotated
      obtain rfl : annotated = given := List.append_cancel_right hgiven
      cases hfinals with
      | present hword => exact ⟨body, name, hread, rfl, fun _ => rfl, by simp [Declaration.isFinal,
          Declaration.hasQualifier]⟩
      | absent hfinal =>
        refine ⟨body, name, hread, rfl, fun hnames => ?_, fun _ => hsees hdeclared ?_⟩
        · rw [hnone hnames] at hstart
          simp at hstart
        · obtain ⟨t, ts, rfl⟩ := List.exists_cons_of_ne_nil hdeclared.ne_nil
          exact hat

section Declarations

variable {d : Declaration} {body : Phrase} {name : Token} {kind : NodeKind} {text : String}
  {operand : Option (List Lexeme)}

/-- What is in front of the value of a declaration comes back exactly if its annotations and its
qualifiers do and the `check` of a call does not panic. -/
lemma eq_modifiers_iff {read : Option Modifiers}
    (hlost : read = some d.modifiers →
      d.annotations = [] ∧ d.qualifiers = writtenQualifiers d.isFinal)
    (hread : d.annotations = [] → d.qualifiers = writtenQualifiers d.isFinal →
      read = some ⟨[], writtenQualifiers d.isFinal, leftWrapper kind d.modifiers.wrapper?⟩) :
    read = some d.modifiers ↔ d.annotations = [] ∧ d.qualifiers ∈ [[], ["final"]] ∧
      (kind ∈ runKinds → d.modifiers.wrapper? ≠ some true) := by
  rw [← eq_writtenQualifiers_iff, ← leftWrapper_eq_self_iff]
  constructor
  · intro h
    obtain ⟨hannotations, hqualifiers⟩ := hlost h
    have hsame := Option.some.inj ((hread hannotations hqualifiers).symm.trans h)
    exact ⟨hannotations, hqualifiers, congrArg Modifiers.wrapper? hsame⟩
  · rintro ⟨hannotations, hqualifiers, hwrapper⟩
    rw [hread hannotations hqualifiers, hwrapper, ← hqualifiers, ← hannotations]
    rfl

lemma modifiersOf?_local_iff {used rest : Phrase} (h : Spells (.declaration d) used rest)
    (hsource : Sourced used) (hbody : ReadFrom d body name)
    (hreads : Reads text.toList
      (Build.leftLexemes d ++ Build.valueLexemes operand ++ [(.punctuation, ";")]))
    (hoperand : Revalues kind d.initializer operand) :
    (Construct.statement (.declaration d)).modifiersOf? text = some d.modifiers ↔
      d.annotations = [] ∧ d.qualifiers ∈ [[], ["final"]] ∧
        (kind ∈ runKinds → d.modifiers.wrapper? ≠ some true) := by
  obtain ⟨-, -, -, hqualifiers, halone, hat⟩ := readFrom_of_spells h hsource
  refine eq_modifiers_iff (fun hkept => ⟨?_, hqualifiers⟩) fun hannotations _ => ?_
  · refine annotations_of_modifiersOf? hreads (fun ts hts => ?_) hkept
    rw [List.append_assoc] at hts
    exact not_sees_of_leftLexemes hts (by decide) hat
  · refine modifiersOf?_of_spells hreads fun ts close hts hlexemes => ?_
    obtain ⟨finals, body', type, name', semicolon, value, hsame, hredeclares⟩ :=
      redeclares_of_lexemes hbody hoperand hts hlexemes
    have hdeclares := declares_of_lexemes rfl hbody.isIdentifier hsame hbody.parts.1
      (halone hannotations) hredeclares.type_eq
    obtain ⟨d', hspells, hmodifiers⟩ := hredeclares.spells hdeclares [close]
    exact ⟨_, hspells, rfl, hmodifiers⟩

lemma modifiersOf?_variable_iff (hbody : ReadFrom d body name) (hopens : OpensVariable body)
    (himport : d.annotations = [] → d.qualifiers = [] → sees "import" body = false)
    (hat : sees "@" d.type = false)
    (hreads : Reads text.toList
      (Build.leftLexemes d ++ Build.valueLexemes operand ++ [(.punctuation, ";")]))
    (hoperand : Revalues kind d.initializer operand) :
    (Construct.variable d).modifiersOf? text = some d.modifiers ↔
      d.annotations = [] ∧ d.qualifiers ∈ [[], ["final"]] ∧
        (kind ∈ runKinds → d.modifiers.wrapper? ≠ some true) := by
  have hlead : ∀ {ts : Phrase} {mark : String}, ts.lexemes = Build.leftLexemes d ++
      Build.valueLexemes operand ++ [(.punctuation, ";")] → mark ∉ ["final", "var"] →
      (d.isFinal = false → sees mark d.type = false) → sees mark ts = false := by
    intro ts mark hts hmark htype
    rw [List.append_assoc] at hts
    exact not_sees_of_leftLexemes hts hmark htype
  have htyped : d.type ≠ [] → body.head? = d.type.head? := head?_of_declaredAs hbody.declaredAs
  obtain ⟨ts, htokens, hlexemes⟩ :=
    tokenize_of_run (List.append_nil _).symm (hreads.run []) (by rfl)
  obtain ⟨cs, last, -, hscanned, -⟩ := scanned_of_tokenize htokens
  obtain ⟨finals, body', type, name', semicolon, value, hsame, hredeclares⟩ :=
    redeclares_of_lexemes hbody hoperand ⟨_, _, _, hscanned⟩ hlexemes
  have hstray : sees ";" d.type = false := by
    have hfree := not_sees_of_free (hbody.parts.1 ";" (by simp))
    cases htype : d.type with
    | nil => rfl
    | cons first type =>
      rw [htype] at hfree
      exact hfree
  have hopens' : OpensVariable d.type := by
    intro t ht
    have hne : d.type ≠ [] := by
      intro hnil
      simp [hnil] at ht
    exact hopens t (htyped hne ▸ ht)
  obtain ⟨d', hmodifiers, hread⟩ := hredeclares.variableOf? hopens' htokens
    (hlead hlexemes (by decide) fun _ => hat) (hlead hlexemes (by decide) fun _ => hstray)
  refine eq_modifiers_iff (fun hkept => ?_) fun hannotations hqualifiers => ?_
  · obtain ⟨d'', hd'', hsame'⟩ := Option.map_eq_some_iff.mp hkept
    obtain ⟨-, rfl⟩ := (hread d'').mp hd''
    rw [hmodifiers] at hsame'
    exact ⟨(congrArg Modifiers.annotations hsame').symm,
      (congrArg Modifiers.qualifiers hsame').symm⟩
  · have hnone : sees "import" ts = false := by
      refine hlead hlexemes (by decide) fun hfinal => ?_
      rw [hfinal] at hqualifiers
      have hbare := himport hannotations hqualifiers
      cases htype : d.type with
      | nil => rfl
      | cons first type => rwa [sees_congr (htyped (by simp [htype])), htype] at hbare
    exact (congrArg (Option.map Declaration.modifiers) ((hread d').mpr ⟨hnone, rfl⟩)).trans
      (congrArg some hmodifiers)

end Declarations

/-! ### Constructs -/

lemma builtAt_ofDeclaration {c : Context} {d : Declaration} {statement : Option Statement}
    {n : FlowNode} (hn : build? .standard c (ofDeclaration c d statement) = some n) :
    Build.node (ofDeclaration c d statement).1 c (ofDeclaration c d statement).2 = .ok n ∧
      ∃ branches, Build.BuiltAt c (ofDeclaration c d statement).1 d.span branches n := by
  have hfits := fits_ofDeclaration c d statement
  have hnode := node_of_build? hn
  obtain ⟨n', hnode', hbuilt⟩ := Build.builtAt_node c hfits.suits
  obtain rfl := Except.ok.inj (hnode.symm.trans hnode')
  exact ⟨hnode, _, hfits.span ▸ hbuilt⟩

lemma build?_of_moduleVariable {c : Context} {d : Declaration} {n : FlowNode}
    (hn : moduleVariable .standard c d = some n) :
    d.hasQualifier "const" = false ∧ build? .standard c (ofDeclaration c d none) = some n := by
  unfold moduleVariable at hn
  split at hn
  · simp at hn
  · rename_i hplain
    simp only [Bool.or_eq_true, not_or, Bool.not_eq_true] at hplain
    dsimp only at hn
    split at hn
    · simp at hn
    · exact ⟨hplain.1.2, hn⟩

lemma written_variable_iff {path : Path} {text : String} {doc : Document}
    (hparse : Document.parse path text = .ok doc) {c : Context} {d : Declaration} {n : FlowNode}
    (hinside : Construct.Inside (.module doc.tree) (.variable d))
    (hn : moduleVariable .standard c d = some n) (hlocal : n.kind ≠ .newConnection)
    (hnames : NamesOptional c) (hunmixed : Unmixed c n (Construct.variable d).called?)
    (hat : sees "@" d.type = false) :
    ∃ new, (Builders.standard.written n).text = .ok new ∧
      ((Construct.variable d).modifiersOf? new = some d.modifiers ↔
        d.annotations = [] ∧ d.qualifiers ∈ [[], ["final"]] ∧
          (n.kind ∈ runKinds → d.modifiers.wrapper? ≠ some true)) := by
  obtain ⟨hconst, hbuild⟩ := build?_of_moduleVariable hn
  obtain ⟨hnode, branches, hbuilt⟩ := builtAt_ofDeclaration hbuild
  obtain ⟨body, name, hbody, hopens, himport⟩ := readFrom_of_inside hparse hinside hconst
  obtain ⟨new, operand, hnew, hreads, hoperand⟩ :=
    writesDeclared_ofDeclaration hbody hnode hbuilt.kind hlocal hnames hunmixed
  exact ⟨new, hnew, modifiersOf?_variable_iff hbody hopens himport hat hreads hoperand⟩

lemma written_statement_iff {c : Context} {s : Statement} {n : FlowNode} {used rest : Phrase}
    (hspells : Spells s used rest) (hsource : Sourced used) (hfront : s.hasFront)
    (hn : statement .standard c s = some n) (hlocal : n.kind ≠ .newConnection)
    (hnames : NamesOptional c) (hunmixed : Unmixed c n s.called?) :
    ∃ new, (Builders.standard.written n).text = .ok new ∧
      ((Construct.statement s).modifiersOf? new = some s.modifiers ↔
        s.modifiers.annotations = [] ∧ s.modifiers.qualifiers ∈ [[], ["final"]] ∧
          (n.kind ∈ runKinds → s.modifiers.wrapper? ≠ some true)) := by
  cases hdeclaration : s.declaration? with
  | some d =>
    obtain ⟨rfl⟩ : s = .declaration d := by
      cases s <;> simp_all [Statement.declaration?]
    obtain ⟨hnode, branches, hbuilt⟩ := builtAt_ofDeclaration hn
    obtain ⟨body, name, hbody, -⟩ := readFrom_of_spells hspells hsource
    obtain ⟨new, operand, hnew, hreads, hoperand⟩ :=
      writesDeclared_ofDeclaration hbody hnode hbuilt.kind hlocal hnames hunmixed
    exact ⟨new, hnew, modifiersOf?_local_iff hspells hsource hbody hreads hoperand⟩
  | none =>
    obtain ⟨new, hnew, hread⟩ :=
      modifiersOf?_operand hspells hsource hfront hdeclaration hn hnames hunmixed
    have hbare : s.modifiers = ⟨[], [], s.modifiers.wrapper?⟩ := by
      cases s <;> first | rfl | simp [Statement.declaration?] at hdeclaration
    refine ⟨new, hnew, ?_⟩
    rw [hread, hbare, ← leftWrapper_eq_self_iff]
    simp

/-- What stands in front of the expression of a construct is in the text of its node exactly if it
is at most `final` and a `check` or, where no call runs, a `checkpanic`: annotations and other
qualifiers are lost, and a call that panics is written as one that is checked. -/
theorem toSource_keeps_modifiers_iff {path : Path} {text : String} {d : Document}
    (hparse : Document.parse path text = .ok d) {c : Context} {x : Construct} {n : FlowNode}
    {m : Modifiers} (hinside : Construct.Inside (.module d.tree) x) (hm : x.modifiers? = some m)
    (hnode : construct .standard c x = [n]) (hlocal : n.kind ≠ .newConnection)
    (hnames : NamesOptional c) (hunmixed : Unmixed c n x.called?)
    (htyped : ∀ d', x = .variable d' → sees "@" d'.type = false) (connectionsFile : String) :
    ∃ e, Builders.standard.toSource n d.path connectionsFile = .ok [(d.path.text, [e])] ∧
      e.start = x.span.start.position ∧ e.stop = x.span.stop.position ∧
      (x.modifiersOf? e.newText = some m ↔
        m.annotations = [] ∧ m.qualifiers ∈ [[], ["final"]] ∧
          (n.kind ∈ runKinds → m.wrapper? ≠ some true)) := by
  cases x with
  | «variable» d' =>
    obtain rfl := Option.some.inj hm
    have hn : moduleVariable .standard c d' = some n := Option.toList_eq_singleton_iff.mp hnode
    obtain ⟨-, branches, hbuilt⟩ := builtAt_ofDeclaration (build?_of_moduleVariable hn).2
    obtain ⟨new, hnew, hiff⟩ :=
      written_variable_iff hparse hinside hn hlocal hnames hunmixed (htyped d' rfl)
    exact ⟨_, toSource_of_builtAt hbuilt (hbuilt.kind ▸ hlocal) hnew d.path connectionsFile,
      rfl, rfl, hiff⟩
  | statement s =>
    obtain ⟨hfront, rfl⟩ : s.hasFront = true ∧ s.modifiers = m := by
      simpa [Construct.modifiers?] using hm
    have hn : statement .standard c s = some n := Option.toList_eq_singleton_iff.mp hnode
    obtain ⟨kind, -, hbuilt⟩ := builtAt_statement hn
    obtain ⟨used, rest, hspells, htells, -⟩ := spells_of_inside hparse hinside
    obtain ⟨new, hnew, hiff⟩ :=
      written_statement_iff hspells htells.sourced hfront hn hlocal hnames hunmixed
    exact ⟨_, toSource_of_builtAt hbuilt (hbuilt.kind ▸ hlocal) hnew d.path connectionsFile,
      rfl, rfl, hiff⟩
  | _ => simp [Construct.modifiers?] at hm

/-- A statement that panics is written as one that is checked. -/
theorem toSource_keeps_modifiers_iff_panicking :
    ∃ d s n e,
      Document.parse ⟨"main.bal"⟩ "function f() \x7b checkpanic g(); \x7d" = .ok d ∧
      Construct.Inside (.module d.tree) (.statement s) ∧
      (Construct.statement s).modifiers? = some ⟨[], [], some true⟩ ∧
      construct .standard (bareContext d) (.statement s) = [n] ∧
      n.kind = .functionCall ∧ NamesOptional (bareContext d) ∧
      Unmixed (bareContext d) n (Construct.statement s).called? ∧
      Builders.standard.toSource n d.path "connections.bal" = .ok [(d.path.text, [e])] ∧
      (Construct.statement s).modifiersOf? e.newText ≠ some ⟨[], [], some true⟩ := by
  have hcheck : (Document.statementAt? "function f() \x7b checkpanic g(); \x7d" ⟨0, 15⟩
      ⟨0, 30⟩).any (fun found =>
        decide ((Construct.statement found.2).modifiers? = some ⟨[], [], some true⟩) &&
        (statement .standard (bareContext found.1) found.2).any fun n =>
          n.kind == .functionCall && found.2.called?.all fun (_, arguments) =>
            decide (∀ slot ∈ Build.slots (Build.consultedTemplate (bareContext found.1) n)
              (Build.declaredNames (bareContext found.1) n) arguments,
                slot.key ∉ Property.structuralKeys)) = true := by
    decide +kernel
  obtain ⟨d, s, hparse, hinside, hcheck⟩ := Document.exists_of_statementAt? hcheck
  simp only [Bool.and_eq_true, decide_eq_true_eq] at hcheck
  obtain ⟨hm, hbuilt⟩ := hcheck
  obtain ⟨n, hn, hcheck⟩ := Option.any_eq_true _ _ |>.mp hbuilt
  simp only [Bool.and_eq_true, beq_iff_eq, Option.all_eq_true, decide_eq_true_eq] at hcheck
  obtain ⟨hkind, hslots⟩ := hcheck
  have hunmixed : Unmixed (bareContext d) n (Construct.statement s).called? :=
    fun called hcalled _ => hslots called hcalled
  have hnode : construct .standard (bareContext d) (.statement s) = [n] :=
    congrArg Option.toList hn
  obtain ⟨e, hsource, -, -, hiff⟩ :=
    toSource_keeps_modifiers_iff hparse hinside hm hnode (by simp [hkind])
      (namesOptional_bareContext d) hunmixed (by simp) "connections.bal"
  refine ⟨d, s, n, e, hparse, hinside, hm, hnode, hkind, namesOptional_bareContext d, hunmixed,
    hsource, ?_⟩
  rw [Ne, hiff]
  rintro ⟨-, -, hpanics⟩
  exact hpanics (by simp [hkind, runKinds, callKinds]) rfl

end Analysis

end FlowCanvas
