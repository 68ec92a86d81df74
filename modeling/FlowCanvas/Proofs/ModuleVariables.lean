import FlowCanvas.Proofs.DeclaredTexts

/-!
# Variables of a module

A variable of a module is spelled by its annotations, its qualifiers, what declares it and a
semicolon. A text that is written for such a declaration is read as one without annotations, with
`final` as its only qualifier or with none.
-/

namespace FlowCanvas

namespace Parser

open Lexer Brackets

/-! ### Reading members -/

/-- What declares a variable of a module starts with no qualifier and no word of another member. -/
def OpensVariable (ts : Phrase) : Prop :=
  ∀ t ∈ ts.head?, t.isWord qualifierWords = false ∧ t.text ∉ memberWords

lemma qualifiers_front (ts : Phrase) :
    ∃ used, ts = used ++ (qualifiers ts).2 ∧ ((qualifiers ts).1 = [] → used = []) ∧
      ∀ t ∈ (qualifiers ts).2.head?, t.isWord qualifierWords = false := by
  induction ts with
  | nil => exact ⟨[], rfl, fun _ => rfl, by simp [qualifiers]⟩
  | cons t ts ih =>
    rw [qualifiers]
    split
    · obtain ⟨used, hused, -, hhead⟩ := ih
      exact ⟨t :: used, by simpa using hused, by simp, hhead⟩
    · rename_i hword
      refine ⟨[], rfl, fun _ => rfl, fun u hu => ?_⟩
      obtain rfl := Option.some.inj hu
      simpa using hword

lemma memberAfter_of_opens {start : Token} {names words : List String} {ts : Phrase}
    (h : OpensVariable ts) (hne : ts ≠ []) : memberAfter start names words ts =
      (declaration start names words ts).map fun (read, rest) => (.variable read, rest) := by
  obtain ⟨t, ts, rfl⟩ := List.exists_cons_of_ne_nil hne
  have htext := (h t rfl).2
  simp only [memberWords, List.mem_cons, not_or] at htext
  simp only [memberAfter, beq_iff_eq, htext, if_false, Bool.or_eq_true, or_false]
  cases declaration start names words (t :: ts) <;> rfl

/-- A member that is read as a variable and no constant is read as a declaration. -/
lemma declaration_of_memberAfter {start : Token} {names words : List String} {ts rest : Phrase}
    {d : Declaration} (h : memberAfter start names words ts = .ok (.variable d, rest))
    (hconst : d.hasQualifier "const" = false) :
    declaration start names words ts = .ok (d, rest) ∧ ∀ t ∈ ts.head?, t.text ∉ memberWords := by
  cases readsMember_of_memberAfter h with
  | constant _ hd =>
    obtain ⟨_, _, _, _, _, -, -, -, -, rfl⟩ := declaration_eq_ok_iff.mp hd
    simp [Declaration.hasQualifier] at hconst
  | declaration hwords hd => exact ⟨hd, hwords⟩

/-- A variable of a module that is no constant is spelled by annotations, qualifiers, what declares
it and a semicolon. -/
lemma spells_of_member {start : Token} {ts rest : Phrase} {d : Declaration}
    (h : member start ts = .ok (.variable d, rest)) (hconst : d.hasQualifier "const" = false) :
    ∃ annotated qualified body name semicolon,
      start :: ts = annotated ++ (qualified ++ (body ++ semicolon :: rest)) ∧
      (d.annotations = [] → annotated = []) ∧ (d.qualifiers = [] → qualified = []) ∧
      DeclaredAs body d.type name d.initializer ∧ d.name = name.text ∧ Free ";" body ∧
      OpensVariable body := by
  obtain ⟨⟨names, after⟩, hnames, hread⟩ := bind_eq_ok_iff.mp h
  obtain ⟨annotated, hannotated, hnone, -⟩ := annotations_spec hnames
  obtain ⟨qualified, hqualified, hbare, hhead⟩ := qualifiers_front after
  obtain ⟨hdeclaration, hwords⟩ := declaration_of_memberAfter hread hconst
  obtain ⟨body, semicolon, type, name, value, hbody, hfree, -, hdeclared, rfl⟩ :=
    declaration_eq_ok_iff.mp hdeclaration
  refine ⟨annotated, qualified, body, name, semicolon, ?_, hnone, hbare, hdeclared, rfl, hfree,
    fun t ht => ?_⟩
  · rw [hannotated, ← hbody, ← hqualified]
  · have ht' : t ∈ (qualifiers after).2.head? := by
      obtain ⟨us, rfl⟩ := List.head?_eq_some_iff.mp ht
      rw [hbody]
      rfl
    exact ⟨hhead t ht', hwords t ht'⟩

/-- What declares a variable is read as a member of a module, behind `final` or without it. -/
lemma member_of_declared {final : Bool} {start : Token} {us finals body type : Phrase}
    {name semicolon : Token} {value : Option Expression}
    (hts : start :: us = finals ++ (body ++ [semicolon]))
    (hfinals : finals.lexemes = if final then [(.identifier, "final")] else [])
    (hdeclared : DeclaredAs body type name value) (hfree : Free ";" body)
    (hsemicolon : semicolon.is ";") (hopens : OpensVariable body)
    (hat : sees "@" (start :: us) = false) :
    ∃ span, member start us = .ok (.variable
      ⟨[], Analysis.writtenQualifiers final, type, name.text, value, span⟩, []) := by
  have hwords : qualifiers (body ++ [semicolon]) = ([], body ++ [semicolon]) := by
    obtain ⟨t, ts, rfl⟩ := List.exists_cons_of_ne_nil hdeclared.ne_nil
    rw [List.cons_append, qualifiers, if_neg (by simp [(hopens t rfl).1])]
  have hqualifiers : qualifiers (start :: us) =
      (Analysis.writtenQualifiers final, body ++ [semicolon]) := by
    rw [hts]
    cases final with
    | true =>
      obtain ⟨word, none, rfl, hword, hnone⟩ := Phrase.lexemes_eq_cons hfinals
      obtain rfl : none = [] := List.map_eq_nil_iff.mp hnone
      obtain ⟨hkind, htext⟩ := Prod.mk.inj hword
      have hfinal : word.isWord qualifierWords := by
        simp [Token.isWord, Token.isIdentifier, hkind, htext, qualifierWords]
      rw [List.singleton_append, qualifiers, if_pos hfinal, hwords, htext]
      rfl
    | false =>
      obtain rfl : finals = [] := List.map_eq_nil_iff.mp hfinals
      exact hwords
  have hne : body ++ [semicolon] ≠ [] := by simp
  have hopens' : OpensVariable (body ++ [semicolon]) := by
    obtain ⟨t, ts, rfl⟩ := List.exists_cons_of_ne_nil hdeclared.ne_nil
    exact hopens
  have hread : declaration start [] (Analysis.writtenQualifiers final) (body ++ [semicolon]) =
      .ok (⟨[], Analysis.writtenQualifiers final, type, name.text, value,
        start.span.through semicolon.span⟩, []) :=
    declaration_eq_ok_iff.mpr
      ⟨body, semicolon, type, name, value, rfl, hfree, hsemicolon, hdeclared, rfl⟩
  refine ⟨start.span.through semicolon.span,
    bind_eq_ok_iff.mpr ⟨_, Analysis.annotations_of_not_sees hat, ?_⟩⟩
  dsimp only
  rw [hqualifiers]
  dsimp only
  rw [memberAfter_of_opens hopens' hne, hread]
  rfl

/-! ### Texts of variables -/

/-- The variable that a text declares, when that is all of a module. -/
def variableOf? (text : String) : Option Declaration :=
  match parse text with
  | .ok ⟨[], [.variable d], _⟩ => some d
  | _ => none

/-- A text whose first token starts a member is read as the variable that this member is. -/
lemma variableOf?_eq_some_iff {text : String} {start : Token} {us : Phrase} {d d' : Declaration}
    (htokens : tokenize text = .ok (start :: us)) (hstray : start.is ";" = false)
    (hmember : member start us = .ok (.variable d', [])) :
    variableOf? text = some d ↔ start.is "import" = false ∧ d = d' := by
  constructor
  · intro h
    unfold variableOf? at h
    split at h
    · rename_i found span hparse
      obtain rfl := Option.some.inj h
      obtain ⟨ts, hts, hparts, -⟩ := parse_eq_ok_iff.mp hparse
      obtain rfl := Except.ok.inj (htokens.symm.trans hts)
      obtain ⟨imports₁, imports₂, before, start', used, after, heq, himports, hbefore, himport, -,
        hread, hafter⟩ := @SpellsParts.split [] [] [] _ _ _ hparts
      obtain ⟨rfl, rfl⟩ := List.append_eq_nil_iff.mp himports.symm
      cases before with
      | nil =>
        obtain ⟨rfl, hused⟩ := List.cons.inj heq
        have hus : used ++ after = us := hused.symm
        rw [List.append_nil, hus, hmember] at hread
        simp only [Except.ok.injEq, Prod.mk.injEq, Member.variable.injEq] at hread
        exact ⟨himport, hread.1.symm⟩
      | cons t before =>
        obtain ⟨rfl, -⟩ := List.cons.inj heq
        rw [hbefore.strays _ List.mem_cons_self] at hstray
        simp at hstray
    · simp at h
  · rintro ⟨himport, rfl⟩
    have hparts : SpellsParts [] [.variable d] (start :: us ++ []) [] :=
      .member himport hstray (by simpa using hmember) .nil
    have hparse := (@parse_eq_ok_iff _ ⟨[], [.variable d], _⟩).mpr
      ⟨_, htokens, by simpa using hparts, rfl⟩
    simp only [variableOf?, hparse]

end Parser

namespace Construct

lemma module_notMem_children {c : Construct} (m : SourceModule) : .module m ∉ c.children := by
  intro h
  match c with
  | .module m' =>
    obtain ⟨member, -, hof⟩ := List.mem_filterMap.mp h
    cases member <;> simp [ofMember?] at hof
  | .function _ | .service _ | .classDefinition _ | .variable _ | .block _ => simp [children] at h
  | .statement s =>
    cases s with
    | conditional read =>
      cases hread : read.alternative <;> simp [children, ofAlternative, hread] at h
    | _ => simp [children] at h

/-- The variables inside of a module are its members. -/
lemma mem_of_inside_variable {m : SourceModule} {d : Declaration}
    (h : Inside (.module m) (.variable d)) : .variable d ∈ m.members := by
  cases h with
  | @child c _ hc hd =>
    match c, hc, hd with
    | .module m', hc, hd =>
      have hsame : m' = m := by
        cases hc with
        | refl => rfl
        | child _ hm => exact absurd hm (module_notMem_children m')
      subst hsame
      obtain ⟨member, hmember, hof⟩ := List.mem_filterMap.mp hd
      cases member <;> simp only [ofMember?, Option.some.injEq, reduceCtorEq,
        Construct.variable.injEq] at hof
      exact hof ▸ hmember
    | .function _, _, hd | .service _, _, hd | .classDefinition _, _, hd | .variable _, _, hd
    | .block _, _, hd => simp [children] at hd
    | .statement s, _, hd =>
      cases s with
      | conditional read =>
        cases hread : read.alternative <;> simp [children, ofAlternative, hread] at hd
      | _ => simp [children] at hd

end Construct

namespace Analysis

open Lexer FlowCanvas.Parser Brackets

/-- A variable of a parsed document is read from its tokens, which open a variable. Without
annotations and qualifiers they open no import. -/
lemma readFrom_of_inside {path : Path} {text : String} {doc : Document}
    (hparse : Document.parse path text = .ok doc) {d : Declaration}
    (hinside : Construct.Inside (.module doc.tree) (.variable d))
    (hconst : d.hasQualifier "const" = false) :
    ∃ body name, ReadFrom d body name ∧ OpensVariable body ∧
      (d.annotations = [] → d.qualifiers = [] → sees "import" body = false) := by
  obtain ⟨tree, htree, rfl⟩ := Document.parse_eq_ok_iff.mp hparse
  obtain ⟨ts, hts, hparts, -⟩ := Parser.parse_eq_ok_iff.mp htree
  obtain ⟨front, back, hmembers⟩ := List.append_of_mem (Construct.mem_of_inside_variable hinside)
  rw [hmembers] at hparts
  obtain ⟨-, -, before, start, used, after, rfl, -, -, himport, -, hmember, -⟩ := hparts.split
  obtain ⟨annotated, qualified, body, name, semicolon, heq, hnone, hbare, hdeclared, hname, hfree,
    hopens⟩ := spells_of_member hmember hconst
  obtain ⟨cs, last, -, hscanned, -⟩ := scanned_of_tokenize hts
  have hsourced : Sourced (before ++ (start :: used ++ after)) := ⟨_, _, _, hscanned⟩
  have hwhole :
      start :: used ++ after = annotated ++ (qualified ++ (body ++ semicolon :: after)) := by
    simpa using heq
  rw [hwhole] at hsourced
  refine ⟨body, name, ⟨hdeclared, hname, hfree, hsourced.right.right.right.left⟩, hopens,
    fun hannotations hqualifiers => ?_⟩
  rw [hnone hannotations, hbare hqualifiers, List.nil_append, List.nil_append] at hwhole
  obtain ⟨t, us, rfl⟩ := List.exists_cons_of_ne_nil hdeclared.ne_nil
  obtain ⟨rfl, -⟩ := List.cons.inj hwhole
  exact himport

/-- The text of a declaration opens a variable if the type does. -/
lemma Redeclares.opens {d : Declaration} {kind : NodeKind} {ts finals body type : Phrase}
    {name semicolon : Token} {value : Option Expression}
    (h : Redeclares d kind ts finals body type name semicolon value)
    (hopens : OpensVariable d.type) : OpensVariable body := by
  have htype := h.type_eq
  unfold Build.typeLexemes at htype
  cases hd : d.type with
  | nil =>
    rw [hd] at htype
    obtain ⟨var, none, rfl, hvar, -⟩ := Phrase.lexemes_eq_cons htype
    intro t ht
    rw [head?_of_declaredAs h.declaredAs (by simp)] at ht
    obtain rfl := Option.some.inj ht
    obtain ⟨hkind, htext⟩ := Prod.mk.inj hvar
    simp [Token.isWord, Token.isIdentifier, hkind, htext, qualifierWords, memberWords]
  | cons first rest =>
    rw [hd] at htype hopens
    obtain ⟨u, us, rfl, hu, -⟩ := Phrase.lexemes_eq_cons htype
    intro t ht
    rw [head?_of_declaredAs h.declaredAs (by simp)] at ht
    obtain rfl := Option.some.inj ht
    have hsame : Token.Same u first := Prod.mk.inj hu
    rw [hsame.isWord, hsame.2]
    exact hopens first rfl

/-- In a module the text of a declaration is read as its variable, unless it is read as an
import. -/
lemma Redeclares.variableOf? {d : Declaration} {kind : NodeKind} {ts finals body type : Phrase}
    {name semicolon : Token} {value : Option Expression}
    (h : Redeclares d kind ts finals body type name semicolon value) (hopens : OpensVariable d.type)
    {text : String} (htokens : tokenize text = .ok ts) (hat : sees "@" ts = false)
    (hstray : sees ";" ts = false) :
    ∃ d', d'.modifiers = ⟨[], writtenQualifiers d.isFinal,
        leftWrapper kind d.modifiers.wrapper?⟩ ∧
      ∀ d'', variableOf? text = some d'' ↔ sees "import" ts = false ∧ d'' = d' := by
  have hne : ts ≠ [] := by simp [h.tokens]
  obtain ⟨start, us, rfl⟩ := List.exists_cons_of_ne_nil hne
  obtain ⟨span, hmember⟩ := member_of_declared h.tokens h.finals_eq h.declaredAs h.free h.semicolon
    (h.opens hopens) hat
  refine ⟨_, ?_, fun d'' => variableOf?_eq_some_iff htokens hstray hmember⟩
  exact congrArg (Modifiers.mk [] (writtenQualifiers d.isFinal)) h.wrapper

end Analysis

end FlowCanvas
