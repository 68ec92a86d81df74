import FlowCanvas.Proofs.CallRoundTrip

/-!
# The texts of declarations

A declaration of a block or of a module is written as `final` or nothing, the type, the name and the
value. The value of a call is written anew, with `check` for everything that stood in front of it;
any other value is written as it is.
-/

namespace FlowCanvas

namespace Build

open Lexer

/-- The lexemes of a declaration in front of its value. -/
def leftLexemes (d : Declaration) : List Lexeme :=
  (if d.isFinal then [(.identifier, "final")] else []) ++
    (typeLexemes d.type ++ [(.identifier, d.name)])

lemma boundLexemes_eq (d : Declaration) :
    boundLexemes d = leftLexemes d ++ [(.punctuation, "=")] := by
  simp [boundLexemes, leftLexemes]

/-- The lexemes of the value of a declaration. -/
def valueLexemes (operand : Option (List Lexeme)) : List Lexeme :=
  (operand.map ((.punctuation, "=") :: ·)).getD []

end Build

namespace Analysis

open Lexer FlowCanvas.Parser Brackets

/-! ### What is written -/

/-- The tokens that a declaration is read from, without its annotations, qualifiers and
semicolon. -/
structure ReadFrom (d : Declaration) (body : Phrase) (name : Token) : Prop where
  declaredAs : DeclaredAs body d.type name d.initializer
  name : d.name = name.text
  free : Free ";" body
  sourced : Sourced body

section Reading

variable {d : Declaration} {body : Phrase} {name : Token}

lemma ReadFrom.isIdentifier (h : ReadFrom d body name) : name.isIdentifier := by
  cases hvalue : d.initializer with
  | none =>
    have hdeclared := hvalue ▸ h.declaredAs
    cases hdeclared with
    | bare _ hname => exact hname
  | some e =>
    have hdeclared := hvalue ▸ h.declaredAs
    cases hdeclared with
    | valued _ hname => exact hname

lemma ReadFrom.sound (h : ReadFrom d body name) : d.Sound := by
  obtain ⟨htype, hname, -⟩ := sourced_of_declaredAs h.declaredAs h.sourced
  exact ⟨h.name ▸ isName_of_isIdentifier h.isIdentifier hname, fun hne => htype.legible hne⟩

/-- The type and the name have no `=` and no semicolon outside of brackets, a value no semicolon. -/
lemma ReadFrom.parts (h : ReadFrom d body name) :
    (∀ mark ∈ ["=", ";"], Free mark (d.type ++ [name])) ∧
      ∀ e ∈ d.initializer, Sourced e.tokens ∧ Free ";" e.tokens := by
  obtain ⟨hdeclared, -, hfree, hsource⟩ := h
  generalize hvalue : d.initializer = value at hdeclared
  cases hdeclared with
  | bare hleft =>
    refine ⟨fun mark hmark => ?_, by simp⟩
    rcases List.mem_pair.mp hmark with rfl | rfl
    · exact hleft
    · exact hfree
  | @valued _ _ equal e hleft hname hequal =>
    obtain ⟨htyped, hfree'⟩ := free_operand hfree hleft hequal
    refine ⟨fun mark hmark => ?_, fun e' he' => ?_⟩
    · rcases List.mem_pair.mp hmark with rfl | rfl
      · exact hleft
      · exact htyped
    · obtain rfl := Option.some.inj he'
      exact ⟨@Sourced.right [name, equal] _ hsource.right, hfree'⟩

lemma head?_of_declaredAs {body type : Phrase} {name : Token} {value : Option Expression}
    (h : DeclaredAs body type name value) (hne : type ≠ []) : body.head? = type.head? := by
  obtain ⟨first, type, rfl⟩ := List.exists_cons_of_ne_nil hne
  cases h <;> rfl

end Reading

section Texts

variable {c : Context} {d : Declaration} {body : Phrase} {name : Token} {site : Site} {n : FlowNode}

/-- A declaration of data is written with its own value. -/
lemma reads_newData (h : ReadFrom d body name) (hdeclaration : site.declaration = some d)
    (hnode : Build.newData c site = .ok n) :
    ∃ text, (Builders.standard.written n).text = .ok text ∧
      Reads text.toList (Build.leftLexemes d ++
        Build.valueLexemes (d.initializer.map (·.tokens.lexemes)) ++ [(.punctuation, ";")]) := by
  have hsound := h.sound
  obtain ⟨n', hnode', hholds⟩ := holdsData_newData c hdeclaration
  obtain rfl : n = n' := Except.ok.inj (hnode.symm.trans hnode')
  have hvalues : ∀ e, d.initializer = some e → Legible e.text.toList e.tokens.lexemes :=
    fun e he => (h.parts.2 e he).1.legible (tokens_ne_nil e)
  have htype := Build.legible_typeText hsound hholds.type
  have hname := hholds.require hsound.name.trimmed.blank
  have hvalue := hholds.value fun e he => (hvalues e he).trimmed.blank
  have hfinal : Write.wordLexemes n .final .final =
      if d.isFinal then [(.identifier, "final")] else [] := by
    rw [Write.wordLexemes, hholds.final]
    rfl
  obtain ⟨lead, hlead, hwrite⟩ := Write.writesLead_wordIf n .final (m := .final) (by decide)
  have hpieces : Write.statement n (Builders.standard.writtenBranches n.branches) =
      .ok (Write.wordIf n .final .final ++ (.name (Write.typeText n) :: .space :: .name d.name ::
        (valuePieces d.initializer ++ [.semicolon]))) := by
    simp only [Write.statement, hholds.kind, Write.newData, hname, hvalue, Write.declared]
    cases d.initializer <;> simp [valuePieces, bind, Except.bind, pure, Except.pure]
  have hreads := (hlead _ _ (legible_declared htype hsound.name hvalues)).semicolon
  have htext := writeOn_declared htype.trimmed hsound.name.trimmed
    (fun e he => (hvalues e he).trimmed) lead
  rw [← List.nil_append lead, ← hwrite, List.nil_append] at htext
  refine ⟨_, written_of_writeOn hpieces htext hreads.trimmed.last, ?_⟩
  rw [String.toList_ofList, Build.leftLexemes, Build.valueLexemes, ← hfinal, Option.map_map]
  simpa [Function.comp_def] using hreads

end Texts

/-! ### Operands that are written -/

/-- What the node of a kind leaves in front of an operand: in front of a call, `check` alone. -/
def leftWrapper (kind : NodeKind) (wrapper? : Option Bool) : Option Bool :=
  if kind ∈ runKinds then wrapper?.map fun _ => false else wrapper?

lemma leftWrapper_of_mem {kind : NodeKind} (h : kind ∈ runKinds) (wrapper? : Option Bool) :
    leftWrapper kind wrapper? = wrapper?.map fun _ => false := if_pos h

lemma leftWrapper_eq_self_iff {kind : NodeKind} {wrapper? : Option Bool} :
    leftWrapper kind wrapper? = wrapper? ↔ (kind ∈ runKinds → wrapper? ≠ some true) := by
  unfold leftWrapper
  by_cases hkind : kind ∈ runKinds
  · rcases wrapper? with _ | _ | _ <;> simp [hkind]
  · simp [hkind]

/-- Lexemes that are read as an operand with something in front of it, up to a semicolon. -/
def ReadsOperand (ls : List Lexeme) (wrapper? : Option Bool) : Prop :=
  ∀ ts : Phrase, Sourced ts → ts.lexemes = ls →
    ∃ e : Expression, e.tokens = ts ∧ e.wrapper? = wrapper? ∧ Free ";" e.tokens

lemma wrapper?_eq (e : Expression) :
    e.wrapper? = if e.rest ≠ [] ∧ e.first.isWord ["check", "checkpanic"] then
      some (e.first.text == "checkpanic") else none := by
  obtain ⟨first, rest⟩ := e
  cases hshape : Expression.shape ⟨first, rest⟩ with
  | check panics inner =>
    obtain ⟨hword, htokens⟩ := tokens_of_check hshape
    obtain rfl : rest = inner.tokens := (List.cons.inj htokens).2
    simp only [Expression.shape, Expression.tokens] at hshape hword
    rw [if_pos hword] at hshape
    obtain ⟨rfl, -⟩ := Shape.check.inj hshape
    simp [Expression.wrapper?, Expression.shape, hword, Expression.tokens]
  | _ =>
    have hfree : ¬(rest ≠ [] ∧ first.isWord ["check", "checkpanic"]) := by
      rintro ⟨hne, hword⟩
      obtain ⟨t, ts, rfl⟩ := List.exists_cons_of_ne_nil hne
      simp [Expression.shape, hword] at hshape
    simp only [Expression.wrapper?, hshape, if_neg hfree]

lemma wrapper?_alike {e e' : Expression} (h : e.tokens.Alike e'.tokens) :
    e.wrapper? = e'.wrapper? := by
  obtain ⟨first, rest⟩ := e
  obtain ⟨first', rest'⟩ := e'
  obtain ⟨u, us, heq, hsame, hrest⟩ := h.cons_left
  obtain ⟨rfl, rfl⟩ := List.cons.inj heq
  have hnil : rest = [] ↔ rest' = [] := by
    rw [← List.length_eq_zero_iff, ← List.length_eq_zero_iff, hrest.length]
  have htext : first.text = first'.text := hsame.2
  have hword : first.isWord ["check", "checkpanic"] = first'.isWord ["check", "checkpanic"] :=
    hsame.isWord _
  simp only [wrapper?_eq, hword, htext, ne_eq, hnil]

/-- The tokens of an operand are read as one with the same in front of it. -/
lemma readsOperand_self {e : Expression} (hfree : Free ";" e.tokens) :
    ReadsOperand e.tokens.lexemes e.wrapper? := by
  intro ts _ hts
  have halike : e.tokens.Alike ts := Phrase.alike_iff.mpr hts.symm
  obtain ⟨e', rfl⟩ := exists_expression (halike.ne_nil (tokens_ne_nil e))
  exact ⟨e', rfl, (wrapper?_alike halike).symm, halike.free hfree⟩

lemma unwrapCheck_snd (e : Expression) : e.unwrapCheck.2 = e.wrapper?.isSome := by
  unfold Expression.unwrapCheck Expression.wrapper?
  cases e.shape <;> rfl

/-- A call with other arguments is read as one that is checked if the call is. -/
lemma readsOperand_call {e : Expression} {callee : Callee} {arguments : List Argument}
    (hcalled : (checkedShape e).called? = some (callee, arguments)) (hsource : Sourced e.tokens)
    (hfree : Free ";" e.tokens) {args : List Lexeme}
    (hargs : ∀ us : Phrase, Sourced us → us.lexemes = args → Matched us) :
    ReadsOperand (callLexemes callee e.unwrapCheck.2 args) (e.wrapper?.map fun _ => false) := by
  intro ts hts hlexemes
  obtain ⟨marks, phrase, inner, checked, htakes, -⟩ := takesCall_of_called hcalled
  obtain ⟨e', phrase', us, rfl, halike, -, -, hreads⟩ := readsCall_alike htakes.spellsCallee
    (htakes.sourced hsource).1 htakes.head hlexemes
    fun us hus => hargs us (Argument.Sourced.within hts hus)
  refine ⟨e', rfl, ?_, hreads.free ";" (by decide) (halike.free (htakes.free hfree))⟩
  rw [hreads.wrapper, unwrapCheck_snd]
  cases e.wrapper? <;> rfl

/-- The call of a mapping function has the arguments of the call in its text. -/
lemma matched_inputs {arguments : List Argument} (hsound : ∀ a ∈ arguments, a.Sound) {us : Phrase}
    (hsource : Sourced us)
    (hus : us.lexemes = Argument.commaJoined (arguments.map Argument.lexemes)) : Matched us := by
  have hslots : List.Forall₂ Build.SlotOf (arguments.map Build.ownSlot) arguments :=
    List.forall₂_map_left_iff.mpr (List.forall₂_same.mpr fun a _ => Build.slotOf_ownSlot a)
  rw [← Build.lexemes_slots hslots hsound, ← Write.argumentsLexemes_eq] at hus
  refine (Write.parts_of_lexemes (fun p hp => ?_) hsource hus).1
  obtain ⟨slot, hslot, rfl⟩ := List.mem_map.mp hp
  obtain ⟨a, ha, rfl⟩ := List.mem_map.mp hslot
  exact Write.Taken.separable ⟨Build.writable_ownSlot (hsound a ha), hsound a ha, rfl⟩

/-- The arguments of a call leave the properties of the node that are none alone. -/
def Unmixed (c : Context) (n : FlowNode) (called? : Option (Callee × List Argument)) : Prop :=
  ∀ called ∈ called?, n.kind ∈ callKinds →
    ∀ slot ∈ Build.slots (Build.consultedTemplate c n) (Build.declaredNames c n) called.2,
      slot.key ∉ Property.structuralKeys

/-- The lexemes of a value that is read with what its node leaves in front of it. -/
def Revalues (kind : NodeKind) : Option Expression → Option (List Lexeme) → Prop :=
  Option.Rel fun e ls => ReadsOperand ls (leftWrapper kind e.wrapper?)

/-- A node is written as the left side of a declaration and a value that is read with what the node
leaves in front of it. -/
def WritesDeclared (d : Declaration) (n : FlowNode) : Prop :=
  ∃ text operand, (Builders.standard.written n).text = .ok text ∧
    Reads text.toList (Build.leftLexemes d ++ Build.valueLexemes operand ++ [(.punctuation, ";")]) ∧
    Revalues n.kind d.initializer operand

section Sites

variable {c : Context} {d : Declaration} {e : Expression} {n : FlowNode} {site : Site}

/-- In front of the call at the site of a declaration stands its left side. -/
lemma siteLead_declared (hsite : CallSite (.declaration d) e site)
    (hdeclaration : site.declaration = some d) (callee : Callee) (args : List Lexeme) :
    Build.siteLead site ++ (callee.lexemes ++ (.punctuation, "(") ::
        (args ++ [(.punctuation, ")")])) ++ [(.punctuation, ";")] =
      Build.leftLexemes d ++ Build.valueLexemes (some (callLexemes callee e.unwrapCheck.2 args)) ++
        [(.punctuation, ";")] := by
  rw [Build.siteLead, hsite.returning, hsite.checked, hdeclaration, Option.map_some,
    Option.getD_some, Build.boundLexemes_eq]
  simp [Statement.isReturn, callLexemes, Build.valueLexemes]

/-- A declaration of the value of a mapping function. -/
lemma writesDeclared_mapping (hsite : CallSite (.declaration d) e site)
    (hdeclaration : site.declaration = some d) (hdeclared : d.Sound)
    (hsource : Sourced e.tokens) (hfree : Free ";" e.tokens) (hkind : n.kind = .dataMapper)
    (hnode : Build.node .dataMapper c site = .ok n) {name : String} {arguments : List Argument}
    (hshape : checkedShape e = .call none name arguments) : WritesDeclared d n := by
  have hcalled : (checkedShape e).called? = some (.function none name, arguments) := by
    rw [hshape]
    rfl
  obtain ⟨marks, phrase, inner, checked, htakes, rfl⟩ := takesCall_of_called hcalled
  obtain ⟨hphrase, hsound⟩ := htakes.sourced hsource
  have hname := (htakes.spellsCallee.sourced hphrase).2 name (by simp [calleeNames])
  obtain ⟨text, htext, hreads⟩ := reads_dataMapper hkind hnode
    (hsite.shape.trans (congrArg some hshape)) hname hsite.returning hdeclaration hdeclared hsound
  rw [siteLead_declared hsite hdeclaration] at hreads
  have hvalue : d.initializer = some e := hsite.operand
  refine ⟨text, _, htext, hreads, ?_⟩
  rw [hvalue, hkind]
  exact .some (readsOperand_call hcalled hsource hfree fun us hus => matched_inputs hsound hus)

/-- A declaration of the value of a call. -/
lemma writesDeclared_call (hsite : CallSite (.declaration d) e site)
    (hdeclaration : site.declaration = some d) (hdeclared : d.Sound)
    (hsource : Sourced e.tokens) (hfree : Free ";" e.tokens) (hkind : n.kind ∈ callKinds)
    (hnode : Build.node n.kind c site = .ok n) (hnames : NamesOptional c)
    (hunmixed : Unmixed c n (checkedShape e).called?) : WritesDeclared d n := by
  have hdeclared' : ∀ d' ∈ Statement.declaration? (.declaration d), d'.Sound := by
    intro d' hd'
    obtain rfl := Option.some.inj hd'
    exact hdeclared
  obtain ⟨callee, arguments, hcalled, hwritten⟩ :=
    written_of_callSite hsite hnode hkind hsource hdeclared' (hnames.consulted n)
  obtain ⟨ls, ⟨text, htext, hreads⟩, hplain⟩ := hwritten.reads
  obtain ⟨rfl, hleads⟩ := hplain (hunmixed (callee, arguments) hcalled hkind)
  rw [hleads, siteLead_declared hsite hdeclaration] at hreads
  have hvalue : d.initializer = some e := hsite.operand
  refine ⟨text, _, htext, hreads, ?_⟩
  rw [hvalue]
  refine .some ?_
  rw [leftWrapper_of_mem (List.mem_cons_of_mem _ hkind)]
  obtain ⟨marks, phrase, inner, checked, htakes, rfl⟩ := takesCall_of_called hcalled
  have hsound := (htakes.sourced hsource).2
  refine readsOperand_call hcalled hsource hfree fun us hus hargs => ?_
  refine (Write.parts_of_lexemes (fun p hp => ?_) hus hargs).1
  obtain ⟨a, ha⟩ := hwritten.taken hsound p hp
  exact ha.separable

end Sites

/-- The node of a declaration of any level, if it is no connection. -/
lemma writesDeclared_ofDeclaration {c : Context} {d : Declaration} {body : Phrase} {name : Token}
    {n : FlowNode} {statement : Option Statement} (h : ReadFrom d body name)
    (hnode : Build.node (ofDeclaration c d statement).1 c (ofDeclaration c d statement).2 = .ok n)
    (hkind : n.kind = (ofDeclaration c d statement).1) (hlocal : n.kind ≠ .newConnection)
    (hnames : NamesOptional c)
    (hunmixed : Unmixed c n (d.initializer.bind fun e => (checkedShape e).called?)) :
    WritesDeclared d n := by
  have hdeclaration := ofDeclaration_declaration c d statement
  have hrun : n.kind ∈ runKinds → ∃ e, d.initializer = some e ∧
      CallSite (.declaration d) e (ofDeclaration c d statement).2 := by
    intro hrun
    obtain ⟨e, hsite⟩ := callSite_ofDeclaration (hkind ▸ hrun)
    exact ⟨e, hsite.operand, hsite⟩
  have hfits := (fits_ofDeclaration c d statement).kind
  have hkinds := hkind.trans hfits ▸ declaredKind_mem c d.type.text (d.initializer.map checkedShape)
  rw [← hkind] at hnode
  have hcases : n.kind = .newData ∨ n.kind = .dataMapper ∨ n.kind ∈ callKinds := by
    simp only [List.mem_cons, hlocal, false_or] at hkinds
    simpa [callKinds] using hkinds
  rcases hcases with hdata | hmapper | hcall
  · rw [hdata] at hnode
    obtain ⟨text, htext, hreads⟩ := reads_newData h hdeclaration hnode
    refine ⟨text, _, htext, hreads, ?_⟩
    rw [hdata]
    cases hvalue : d.initializer with
    | none => exact .none
    | some e => exact .some (readsOperand_self (h.parts.2 e hvalue).2)
  · obtain ⟨e, hvalue, hsite⟩ := hrun (hmapper ▸ by decide)
    obtain ⟨hsource, hfree⟩ := h.parts.2 e hvalue
    have hkind? : kind? c (.declaration d) = some .dataMapper :=
      congrArg some (hfits.symm.trans (hkind.symm.trans hmapper))
    obtain ⟨d', e', name', arguments, -, he', hshape⟩ := declared_of_dataMapper hkind?
    obtain rfl : e = e' := Option.some.inj (hsite.operand.symm.trans he')
    exact writesDeclared_mapping hsite hdeclaration h.sound hsource hfree hmapper
      (hmapper ▸ hnode) hshape
  · obtain ⟨e, hvalue, hsite⟩ := hrun (List.mem_cons_of_mem _ hcall)
    obtain ⟨hsource, hfree⟩ := h.parts.2 e hvalue
    exact writesDeclared_call hsite hdeclaration h.sound hsource hfree hcall hnode hnames
      (by simpa [hvalue] using hunmixed)

/-! ### What is read back -/

/-- Tokens of a text that is written for a declaration: `final` or nothing, the type and the name,
and a value with what the node leaves in front of it. -/
structure Redeclares (d : Declaration) (kind : NodeKind) (ts finals body type : Phrase)
    (name semicolon : Token) (value : Option Expression) : Prop where
  tokens : ts = finals ++ (body ++ [semicolon])
  finals_eq : finals.lexemes = if d.isFinal then [(.identifier, "final")] else []
  type_eq : type.lexemes = Build.typeLexemes d.type
  declaredAs : DeclaredAs body type name value
  free : Free ";" body
  semicolon : semicolon.is ";"
  wrapper : value.bind Expression.wrapper? = leftWrapper kind d.modifiers.wrapper?

/-- The tokens of a text that is written for a declaration are the ones of a declaration. -/
lemma redeclares_of_lexemes {d : Declaration} {body : Phrase} {name : Token} {kind : NodeKind}
    {operand : Option (List Lexeme)} (h : ReadFrom d body name)
    (hoperand : Revalues kind d.initializer operand) {ts : Phrase} (hsource : Sourced ts)
    (hts : ts.lexemes =
      Build.leftLexemes d ++ Build.valueLexemes operand ++ [(.punctuation, ";")]) :
    ∃ finals body' type name' semicolon value, Token.Same name name' ∧
      Redeclares d kind ts finals body' type name' semicolon value := by
  simp only [Build.leftLexemes, List.append_assoc, List.cons_append, List.nil_append] at hts
  obtain ⟨finals, typed, rfl, hfinals, htyped⟩ := Phrase.lexemes_eq_append hts
  obtain ⟨type, ends, rfl, htype, hends⟩ := Phrase.lexemes_eq_append htyped
  obtain ⟨name', others, rfl, hname', hothers⟩ := Phrase.lexemes_eq_cons hends
  obtain ⟨tail, lasts, rfl, htail, hlasts⟩ := Phrase.lexemes_eq_append hothers
  obtain ⟨semicolon, none, rfl, hsemicolon, hnone⟩ := Phrase.lexemes_eq_cons hlasts
  obtain rfl : none = [] := List.map_eq_nil_iff.mp hnone
  have hsame : Token.Same name name' := by
    obtain ⟨hkind, htext⟩ := Prod.mk.inj hname'
    exact ⟨(beq_iff_eq.mp h.isIdentifier).trans hkind.symm, h.name.symm.trans htext.symm⟩
  have hname : name'.isIdentifier := hsame.isIdentifier ▸ h.isIdentifier
  have hleft : ∀ mark ∈ ["=", ";"], Free mark (type ++ [name']) := by
    intro mark hmark
    refine free_of_typeLexemes hsame htype ?_ (h.parts.1 mark hmark)
    rintro rfl
    simp at hmark
  have hend : semicolon.is ";" := by simp [Token.is, Prod.mk.inj hsemicolon]
  generalize hvalue : d.initializer = value at hoperand
  cases hoperand with
  | none =>
    obtain rfl : tail = [] := List.map_eq_nil_iff.mp htail
    refine ⟨finals, type ++ [name'], type, name', semicolon, none, hsame, by simp, hfinals, htype,
      .bare (hleft "=" (by simp)) hname, hleft ";" (by simp), hend, ?_⟩
    simp [Declaration.modifiers, hvalue, leftWrapper]
  | @some e ls hreads =>
    obtain ⟨equal, operand, rfl, hequal, hls⟩ := Phrase.lexemes_eq_cons htail
    have hmark : equal.is "=" := by simp [Token.is, Prod.mk.inj hequal]
    have hwithin : Sourced operand := Argument.Sourced.within hsource
      ⟨finals ++ (type ++ [name', equal]), [semicolon], by simp⟩
    obtain ⟨e', rfl, hwrapper, hfree⟩ := hreads operand hwithin hls
    refine ⟨finals, type ++ name' :: equal :: e'.tokens, type, name', semicolon, some e', hsame,
      by simp, hfinals, htype, .valued (hleft "=" (by simp)) hname hmark, ?_, hend, ?_⟩
    · have hmark' : Free ";" [equal] := free_mark hmark (by decide) (by decide)
      simpa using (hleft ";" (by simp)).append (hmark'.append hfree)
    · simpa [Declaration.modifiers, hvalue] using hwrapper

lemma not_sees_of_free {mark : String} {ts : Phrase} (h : Free mark ts) : sees mark ts = false := by
  cases ts with
  | nil => rfl
  | cons t ts =>
    rw [sees, ← Bool.not_eq_true]
    intro his
    simp [Free, depthAfter?, his] at h

/-- The text of a declaration starts with `final`, like its type or with `var`. -/
lemma not_sees_of_leftLexemes {d : Declaration} {ts : Phrase} {ls : List Lexeme} {mark : String}
    (hts : ts.lexemes = Build.leftLexemes d ++ ls) (hmark : mark ∉ ["final", "var"])
    (htype : d.isFinal = false → sees mark d.type = false) : sees mark ts = false := by
  have hword : ∀ {word : String} {t : Token}, (t.kind, t.text) = (.identifier, word) →
      word ∈ ["final", "var"] → t.is mark = false := by
    intro word t ht hword
    have hne : t.text ≠ mark := by
      rw [(Prod.mk.inj ht).2]
      rintro rfl
      exact hmark hword
    simp [Token.is, hne]
  unfold Build.leftLexemes Build.typeLexemes at hts
  cases hfinal : d.isFinal with
  | true =>
    rw [hfinal] at hts
    obtain ⟨t, us, rfl, ht, -⟩ := Phrase.lexemes_eq_cons hts
    exact hword ht (by simp)
  | false =>
    have hfree := htype hfinal
    rw [hfinal] at hts
    cases htype : d.type with
    | nil =>
      rw [htype] at hts
      obtain ⟨t, us, rfl, ht, -⟩ := Phrase.lexemes_eq_cons hts
      exact hword ht (by simp)
    | cons first type =>
      rw [htype] at hts hfree
      obtain ⟨t, us, rfl, ht, -⟩ := Phrase.lexemes_eq_cons hts
      exact (Token.Same.is (Prod.mk.inj ht) mark).trans hfree

/-- In a block the text of a declaration is read as one, if it is read without its annotations. -/
lemma Redeclares.spells {d : Declaration} {kind : NodeKind} {ts finals body type : Phrase}
    {name semicolon : Token} {value : Option Expression}
    (h : Redeclares d kind ts finals body type name semicolon value)
    (hdeclares : LeftSide d.isFinal type name) (rest : Phrase) :
    ∃ d', Spells (.declaration d') ts rest ∧ d'.modifiers = ⟨[], writtenQualifiers d.isFinal,
      leftWrapper kind d.modifiers.wrapper?⟩ := by
  obtain ⟨span, hspells⟩ := @spells_declared _ finals body type rest name semicolon value hdeclares
    h.finals_eq h.declaredAs h.free h.semicolon
  refine ⟨_, h.tokens ▸ hspells, ?_⟩
  exact congrArg (Modifiers.mk [] (writtenQualifiers d.isFinal)) h.wrapper

end Analysis

end FlowCanvas
