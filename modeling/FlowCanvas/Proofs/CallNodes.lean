import FlowCanvas.Proofs.Arguments
import FlowCanvas.Proofs.CallReading
import FlowCanvas.Proofs.CallWriting
import FlowCanvas.Proofs.RoundTrip

/-!
# Nodes of calls

The node of a call holds its arguments beside the structural properties: the connection, the
variable and its type. What is written between the parentheses are the arguments that are not kept
under a structural key, and what is written in front of them is read from the structural ones.
-/

namespace FlowCanvas

namespace Statement

/-- The declaration that a statement is. -/
def declaration? : Statement → Option Declaration
  | .declaration d => some d
  | _ => none

/-- Whether a statement returns. -/
def isReturn : Statement → Bool
  | .exit .return _ _ => true
  | _ => false

end Statement

namespace Build

/-! ### What a call node holds -/

/-- The properties of the variable that a call is bound to. -/
def boundProperties (s : Site) : List Property :=
  if s.returning then []
  else
    match s.declaration with
    | none => []
    | some d => [.ofVariable d.name, .ofType d.type.text]

/-- The flags of a call that may be bound to a final variable. -/
def callFlags (f : Flags) (checked returning : Bool) : Option Bool → Flags
  | none => (f.set .checked checked).set .returning returning
  | some final => ((f.set .checked checked).set .returning returning).set .final final

/-- The flags that the node of a call has from its kind. -/
def kindFlags : List Flags := [.none, .dataMapped]

lemma callFlags_spec {f : Flags} (hf : f ∈ kindFlags) (checked returning : Bool)
    (final : Option Bool) :
    (callFlags f checked returning final).contains .checked = checked ∧
      (callFlags f checked returning final).contains .returning = returning ∧
      ∀ flag ∈ final, (callFlags f checked returning final).contains .final = flag := by
  have hcases : f = .none ∨ f = .dataMapped := by simpa [kindFlags] using hf
  cases final with
  | none =>
    rcases hcases with rfl | rfl <;> cases checked <;> cases returning <;>
      exact ⟨rfl, rfl, by simp⟩
  | some final =>
    rcases hcases with rfl | rfl <;> cases checked <;> cases returning <;> cases final <;>
      exact ⟨rfl, rfl, fun flag hflag => Option.some.inj hflag ▸ rfl⟩

/-- Whether the variable that a site binds is final. -/
def boundFinal (s : Site) : Option Bool :=
  if s.returning then none else s.declaration.map (·.isFinal)

/-- Binding a call adds properties and flags, and nothing else. -/
lemma bind_eq (n : FlowNode) (s : Site) :
    bind n s = { n with
      properties := n.properties.insertAll (boundProperties s)
      flags := callFlags n.flags s.checked s.returning (boundFinal s) } := by
  unfold bind boundProperties boundFinal
  cases s.returning with
  | true => rfl
  | false => cases s.declaration <;> rfl

/-- The flags and properties of a call node, given what stands in front of the arguments. -/
structure Holds (n : FlowNode) (s : Site) (lead : List Property) (bag : PropertyBag) : Prop where
  properties : n.properties =
    (PropertyBag.empty.insertAll (lead ++ bag.entries)).insertAll (boundProperties s)
  checked : n.hasFlag .checked = s.checked
  returning : n.returning = s.returning
  final : s.returning = false → ∀ d ∈ s.declaration, n.hasFlag .final = d.isFinal

lemma holds_bind {n : FlowNode} {lead : List Property} {bag : PropertyBag}
    (hflags : n.flags ∈ kindFlags)
    (hproperties : n.properties = PropertyBag.empty.insertAll (lead ++ bag.entries)) (s : Site) :
    Holds (bind n s) s lead bag := by
  rw [bind_eq, hproperties]
  obtain ⟨hchecked, hreturning, hfinal⟩ :=
    callFlags_spec hflags s.checked s.returning (boundFinal s)
  refine ⟨rfl, hchecked, hreturning, fun hreturning d hd => hfinal _ ?_⟩
  simp [boundFinal, hreturning, Option.mem_def.mp hd]

/-- The template that a call node was built with. -/
def consultedTemplate (c : Context) (n : FlowNode) : Option FlowNode :=
  if consulted n then c.template? n.codedata else none

/-- The names of the parameters of the local function that a call node calls. -/
def declaredNames (c : Context) (n : FlowNode) : List String :=
  if consulted n then []
  else (n.codedata.symbol.bind (Scope.parameterNames? c.document.tree)).getD []

/-- The properties of a call node's arguments. -/
def argumentBag (c : Context) (n : FlowNode) (arguments : List Argument) : PropertyBag :=
  argumentProperties arguments (consultedTemplate c n) (declaredNames c n)

lemma holds_functionCall {c : Context} {s : Site} {n : FlowNode} {qualifier : Option String}
    {name : String} {arguments : List Argument} (h : functionCall c s = .ok n)
    (hshape : s.shape? = some (.call qualifier name arguments)) :
    Holds n s [] (argumentBag c n arguments) ∧ n.codedata.symbol = some name ∧
      n.codedata.qualifier? = qualifier := by
  rw [functionCall, hshape] at h
  cases qualifier with
  | none =>
    obtain ⟨m, rfl, hkind, hsymbol, hmodule, hname, hflags, hproperties⟩ :
        ∃ m, n = bind m s ∧ m.kind = .functionCall ∧ m.codedata.symbol = some name ∧
          m.codedata.moduleQualifier = none ∧ m.codedata.moduleName = none ∧ m.flags = .none ∧
          m.properties = PropertyBag.empty.insertAll ([] ++ (argumentProperties arguments none
            ((Scope.parameterNames? c.document.tree name).getD [])).entries) :=
      ⟨_, (Except.ok.inj h).symm, rfl, rfl, rfl, rfl, rfl, rfl⟩
    have hconsulted : consulted (bind m s) = false := by
      simp [bind_eq, consulted, hkind, hmodule]
    have hbag : argumentBag c (bind m s) arguments = argumentProperties arguments none
        ((Scope.parameterNames? c.document.tree name).getD []) := by
      rw [argumentBag, consultedTemplate, declaredNames, hconsulted]
      simp [bind_eq, hsymbol]
    rw [hbag]
    exact ⟨holds_bind (by simp [kindFlags, hflags]) hproperties s, by rw [bind_eq, hsymbol],
      by simp [bind_eq, Codedata.qualifier?, hmodule, hname]⟩
  | some qualifier =>
    obtain ⟨m, rfl, hkind, hsymbol, hmodule, hflags, hproperties⟩ :
        ∃ m, n = bind m s ∧ m.kind = .functionCall ∧ m.codedata.symbol = some name ∧
          m.codedata.moduleQualifier = some qualifier ∧ m.flags = .none ∧
          m.properties = PropertyBag.empty.insertAll
            ([] ++ (argumentProperties arguments (c.template? m.codedata) []).entries) :=
      ⟨_, (Except.ok.inj h).symm, rfl, rfl, rfl, rfl, rfl⟩
    have hconsulted : consulted (bind m s) = true := by
      simp [bind_eq, consulted, hkind, hmodule]
    have hbag : argumentBag c (bind m s) arguments =
        argumentProperties arguments (c.template? m.codedata) [] := by
      rw [argumentBag, consultedTemplate, declaredNames, hconsulted]
      simp [bind_eq]
    rw [hbag]
    exact ⟨holds_bind (by simp [kindFlags, hflags]) hproperties s, by rw [bind_eq, hsymbol],
      by simp [bind_eq, Codedata.qualifier?, hmodule]⟩

lemma holds_actionCall {c : Context} {s : Site} {n : FlowNode} {client : Phrase} {method : String}
    {arguments : List Argument} (h : actionCall c s = .ok n)
    (hshape : s.shape? = some (.remote client method arguments)) :
    Holds n s [.ofConnection client.text] (argumentBag c n arguments) ∧
      n.codedata.symbol = some method := by
  rw [actionCall, hshape] at h
  obtain ⟨m, rfl, hkind, hsymbol, hflags, hproperties⟩ :
      ∃ m, n = bind m s ∧ m.kind = .actionCall ∧ m.codedata.symbol = some method ∧
        m.flags = .none ∧ m.properties = PropertyBag.empty.insertAll ([.ofConnection client.text] ++
          (argumentProperties arguments (c.template? m.codedata) []).entries) := by
    refine ⟨_, (Except.ok.inj h).symm, ?_, rfl, ?_, ?_⟩
    all_goals
      cases Scope.connectionClass? c.document.tree c.classes client.text s.span.start.position <;>
        rfl
  have hconsulted : consulted (bind m s) = true := by simp [bind_eq, consulted, hkind]
  have hbag : argumentBag c (bind m s) arguments =
      argumentProperties arguments (c.template? m.codedata) [] := by
    rw [argumentBag, consultedTemplate, declaredNames, hconsulted]
    simp [bind_eq]
  rw [hbag]
  exact ⟨holds_bind (by simp [kindFlags, hflags]) hproperties s, by rw [bind_eq, hsymbol]⟩

lemma boundProperties_spec {s : Site} {p : Property} (h : p ∈ boundProperties s) :
    ∃ d ∈ s.declaration, p = .ofVariable d.name ∨ p = .ofType d.type.text := by
  unfold boundProperties at h
  split at h
  · simp at h
  · split at h
    · simp at h
    · rename_i d hd
      exact ⟨d, hd, by simpa using h⟩

section Holding

variable {n : FlowNode} {s : Site} {lead : List Property} {bag : PropertyBag}

lemma Holds.mem (h : Holds n s lead bag) {p : Property} (hp : p ∈ n.properties.entries) :
    p ∈ boundProperties s ∨ p ∈ lead ∨ p ∈ bag.entries := by
  rw [h.properties] at hp
  rcases PropertyBag.mem_insertAll hp with hmem | hmem
  · exact .inl hmem
  · rcases PropertyBag.mem_insertAll hmem with hmem' | hmem'
    · exact .inr (List.mem_append.mp hmem')
    · simp [PropertyBag.empty] at hmem'

/-- Structural properties leave the arguments as they are. -/
lemma Holds.free (h : Holds n s lead bag) (hlead : ∀ p ∈ lead, p.isStructural) :
    n.properties.free = bag.free := by
  have hbound : ∀ p ∈ boundProperties s, p.isStructural := by
    intro p hp
    obtain ⟨d, -, rfl | rfl⟩ := boundProperties_spec hp <;> rfl
  have hfirst : (PropertyBag.empty.insertAll lead).free = [] :=
    PropertyBag.free_insertAll_structural _ hlead
  have happend : PropertyBag.empty.insertAll (lead ++ bag.entries) =
      (PropertyBag.empty.insertAll lead).insertAll bag.entries := List.foldl_append
  rw [h.properties, PropertyBag.free_insertAll_structural _ hbound, happend,
    PropertyBag.free_insertAll bag.nodup (by simp [hfirst]), hfirst]
  rfl

/-- The arguments that are written are the ones without a structural key. -/
lemma Holds.arguments_perm (h : Holds n s lead bag) (hlead : ∀ p ∈ lead, p.isStructural) :
    (Write.argumentProperties n).Perm
      (bag.entries.filter fun p => !p.isStructural && !p.isBlank) := by
  have hgiven : (n.properties.entries.filter fun p => !p.isStructural && !p.isBlank) =
      bag.entries.filter fun p => !p.isStructural && !p.isBlank := by
    have hsplit : ∀ b : PropertyBag, (b.entries.filter fun p => !p.isStructural && !p.isBlank) =
        b.free.filter (!·.isBlank) := by
      intro b
      rw [PropertyBag.free, List.filter_filter]
      exact List.filter_congr fun p _ => Bool.and_comm _ _
    rw [hsplit, hsplit, h.free hlead]
  have hperm := List.filter_append_perm (fun p : Property => !p.optional)
    (n.properties.entries.filter fun p => !p.isStructural && !p.isBlank)
  simp only [Bool.not_not] at hperm
  rw [hgiven] at hperm
  unfold Write.argumentProperties
  rw [hgiven]
  exact hperm

end Holding

end Build

/-- What is known of a declaration that was read from a source. -/
structure Declaration.Sound (d : Declaration) : Prop where
  name : Lexer.IsName d.name
  type : d.type ≠ [] → Lexer.Legible d.type.text.toList d.type.lexemes

namespace Build

open Lexer

/-! ### Texts of a call node -/

/-- A property without a text, or with one that can be read. -/
def Readable (p : Property) : Prop :=
  p.isBlank ∨ Legible p.sourceText.toList (lexemesOf p.sourceText)

lemma Readable.of_legible {p : Property} {ls : List Lexeme} (h : Legible p.sourceText.toList ls) :
    Readable p := by
  refine .inr ?_
  rw [h.lexemesOf]
  exact h

lemma readable_boundProperties {s : Site} (hdeclared : ∀ d ∈ s.declaration, d.Sound)
    {p : Property} (hp : p ∈ boundProperties s) : Readable p := by
  obtain ⟨d, hd, rfl | rfl⟩ := boundProperties_spec hp
  · exact .of_legible (hdeclared d hd).name
  · by_cases htype : d.type = []
    · refine .inl ?_
      rw [htype]
      rfl
    · exact .of_legible ((hdeclared d hd).type htype)

lemma legible_var : Legible "var".toList [(.identifier, "var")] := by
  have hstart : Starts .identifier "var".toList [' '] :=
    starts_of_split (by decide) (by decide) (by decide) rfl
  refine ⟨fun rest hrest => ?_, ⟨'v', rfl, by decide⟩, ⟨'r', rfl, by decide⟩⟩
  simpa using Run.token (hstart.tame (hrest.tame _))

/-- A node whose properties can be read can be led by them. -/
lemma led_of_readable {n : FlowNode} (h : ∀ p ∈ n.properties.entries, Readable p) :
    Write.Led n := by
  have htext : ∀ key, ∀ text ∈ n.properties.text? key, Legible text.toList (lexemesOf text) := by
    intro key text hfound
    obtain ⟨p, hp, -, hblank, rfl⟩ := PropertyBag.text?_eq_some hfound
    exact (h p hp).resolve_left (by simp [hblank])
  refine ⟨htext "variable", ?_⟩
  unfold Write.typeText
  cases htype : n.properties.text? "type" with
  | none =>
    rw [Option.getD_none, legible_var.lexemesOf]
    exact legible_var
  | some text => exact htext "type" text htype

section Sources

variable {n : FlowNode} {s : Site} {lead : List Property} {template : Option FlowNode}
  {names : List String} {arguments : List Argument}

lemma blank_of_sound (hsound : ∀ a ∈ arguments, a.Sound) :
    ∀ a ∈ arguments, Text.blank a.value.text = false :=
  fun a ha => (hsound a ha).legible.trimmed.blank

lemma readable_argument (hsound : ∀ a ∈ arguments, a.Sound) {p : Property}
    (hp : p ∈ (argumentProperties arguments template names).entries) : Readable p := by
  rcases blank_or_argument hp with hblank | ⟨a, ha, htext⟩
  · exact .inl hblank
  · have hlegible := (hsound a ha).legible
    rw [← htext] at hlegible
    exact .of_legible hlegible

/-- An argument that is written by name has a name as its key. -/
lemma isName_of_optional (hsound : ∀ a ∈ arguments, a.Sound)
    (hnames : ∀ p ∈ (parameters template).entries, p.optional → IsName p.key) {p : Property}
    (hp : p ∈ (argumentProperties arguments template names).entries) (hoptional : p.optional) :
    IsName p.key := by
  refine forall_setArguments (P := fun p => p.optional → IsName p.key) hnames ?_ ?_ ?_ p hp
    hoptional
  · exact fun a _ q hq => hq
  · intro a _ key hadded
    simp [added, Property.asOptional] at hadded
  · exact fun a ha key hkey _ => (hsound a ha).name key hkey

lemma Holds.writable (h : Holds n s lead (argumentProperties arguments template names))
    (hlead : ∀ p ∈ lead, p.isStructural) (hsound : ∀ a ∈ arguments, a.Sound)
    (hnames : ∀ p ∈ (parameters template).entries, p.optional → IsName p.key) :
    ∀ p ∈ Write.argumentProperties n, Write.Writable p := by
  intro p hp
  obtain ⟨hentry, hgiven⟩ := List.mem_filter.mp ((h.arguments_perm hlead).mem_iff.mp hp)
  rw [Bool.and_eq_true] at hgiven
  refine ⟨(readable_argument hsound hentry).resolve_left ?_,
    isName_of_optional hsound hnames hentry⟩
  simpa using hgiven.2

lemma Holds.led (h : Holds n s lead (argumentProperties arguments template names))
    (hlead : ∀ p ∈ lead, Readable p) (hsound : ∀ a ∈ arguments, a.Sound)
    (hdeclared : ∀ d ∈ s.declaration, d.Sound) : Write.Led n := by
  refine led_of_readable fun p hp => ?_
  rcases h.mem hp with hmem | hmem | hmem
  · exact readable_boundProperties hdeclared hmem
  · exact hlead p hmem
  · exact readable_argument hsound hmem

/-- A connection is always given. -/
lemma Holds.connection {client : String}
    (h : Holds n s [.ofConnection client] (argumentProperties arguments template names))
    (hclient : Text.blank client = false) (hsound : ∀ a ∈ arguments, a.Sound) :
    ∃ p, n.properties.get? "connection" = some p ∧ p.isBlank = false ∧
      (p = .ofConnection client ∨ p ∈ (argumentProperties arguments template names).entries) := by
  have hkey : "connection" ∈ n.properties.keys := by
    rw [h.properties]
    refine PropertyBag.key_mem_insertAll ?_ _
    rw [List.singleton_append, PropertyBag.insertAll_cons]
    refine PropertyBag.key_mem_insertAll ?_ _
    exact List.mem_map_of_mem (PropertyBag.mem_insert_self _ (.ofConnection client))
  obtain ⟨p, hp, hconnection⟩ := List.mem_map.mp hkey
  have hstructural : p.isStructural := by
    rw [Property.isStructural, hconnection]
    rfl
  refine ⟨p, PropertyBag.get?_eq_some_iff.mpr ⟨hp, hconnection⟩, ?_⟩
  rcases h.mem hp with hmem | hmem | hmem
  · obtain ⟨d, -, rfl | rfl⟩ := boundProperties_spec hmem
    · exact absurd hconnection (show "variable" ≠ "connection" by decide)
    · exact absurd hconnection (show "type" ≠ "connection" by decide)
  · obtain rfl : p = .ofConnection client := by simpa using hmem
    exact ⟨hclient, .inl rfl⟩
  · exact ⟨filled_of_structural (blank_of_sound hsound) hmem hstructural, .inr hmem⟩

end Sources

/-! ### Nodes without structural arguments -/

/-- The lexemes of a type in front of a variable. -/
def typeLexemes (type : Phrase) : List Lexeme :=
  if type.isEmpty then [(.identifier, "var")] else type.lexemes

/-- The lexemes that bind a variable. -/
def boundLexemes (d : Declaration) : List Lexeme :=
  (if d.isFinal then [(.identifier, "final")] else []) ++
    (typeLexemes d.type ++ [(.identifier, d.name), (.punctuation, "=")])

/-- The lexemes in front of the call at a site. -/
def siteLead (s : Site) : List Lexeme :=
  (if s.returning then [(.identifier, "return")] else (s.declaration.map boundLexemes).getD []) ++
    if s.checked then [(.identifier, "check")] else []

/-- The text of a type, which is inferred if there is none. -/
lemma legible_typeText {n : FlowNode} {d : Declaration} (hsound : d.Sound)
    (htype : n.properties.get? "type" = some (.ofType d.type.text)) :
    Legible (Write.typeText n).toList (typeLexemes d.type) := by
  unfold Write.typeText typeLexemes
  by_cases hempty : d.type = []
  · have hblank : (Property.ofType d.type.text).isBlank := by
      rw [hempty]
      rfl
    have hnone : n.properties.text? "type" = none := by
      simp [PropertyBag.text?, htype, hblank]
    rw [hnone, Option.getD_none, if_pos (by simp [hempty])]
    exact legible_var
  · have hlegible := hsound.type hempty
    rw [Analysis.text?_of_get? htype hlegible.trimmed.blank, Option.getD_some,
      if_neg (by simpa using hempty)]
    exact hlegible

section Unmixed

variable {n : FlowNode} {s : Site} {lead : List Property} {bag : PropertyBag}

lemma Holds.get?_variable (h : Holds n s lead bag) (hreturning : s.returning = false)
    {d : Declaration} (hd : d ∈ s.declaration) :
    n.properties.get? "variable" = some (.ofVariable d.name) := by
  have hbound : boundProperties s = [.ofVariable d.name, .ofType d.type.text] := by
    simp [boundProperties, hreturning, Option.mem_def.mp hd]
  refine PropertyBag.get?_eq_some_iff.mpr ⟨?_, rfl⟩
  rw [h.properties, hbound, PropertyBag.insertAll_cons]
  exact PropertyBag.mem_insertAll_of_not_mem (PropertyBag.mem_insert_self _ _)
    (show "variable" ∉ ["type"] by decide)

lemma Holds.get?_type (h : Holds n s lead bag) (hreturning : s.returning = false)
    {d : Declaration} (hd : d ∈ s.declaration) :
    n.properties.get? "type" = some (.ofType d.type.text) := by
  have hbound : boundProperties s = [.ofVariable d.name, .ofType d.type.text] := by
    simp [boundProperties, hreturning, Option.mem_def.mp hd]
  refine PropertyBag.get?_eq_some_iff.mpr ⟨?_, rfl⟩
  rw [h.properties, hbound]
  exact PropertyBag.mem_insert_self _ (.ofType d.type.text)

lemma Holds.typeLexemes (h : Holds n s lead bag) (hreturning : s.returning = false)
    {d : Declaration} (hd : d ∈ s.declaration) (hsound : d.Sound) :
    lexemesOf (Write.typeText n) = typeLexemes d.type :=
  (legible_typeText hsound (h.get?_type hreturning hd)).lexemesOf

/-- Without structural arguments the lexemes in front of a call are the ones of its site. -/
lemma Holds.leadLexemes (h : Holds n s lead bag) (hdeclared : ∀ d ∈ s.declaration, d.Sound)
    (hlead : ∀ p ∈ lead, p.key ≠ "variable") (hbag : ∀ p ∈ bag.entries, p.isStructural = false) :
    Write.leadLexemes n = siteLead s := by
  have hchecked : Write.wordLexemes n .checked .check =
      if s.checked then [(.identifier, "check")] else [] := by
    rw [Write.wordLexemes, h.checked]
    rfl
  rw [Write.leadLexemes, hchecked, h.returning, siteLead]
  cases hreturning : s.returning with
  | true => rfl
  | false =>
    congr 1
    rw [if_neg (by simp), if_neg (by simp), Write.bindingLexemes]
    cases hd : s.declaration with
    | none =>
      have hfree : "variable" ∉ n.properties.keys := by
        intro hkey
        obtain ⟨p, hp, hvariable⟩ := List.mem_map.mp hkey
        rcases h.mem hp with hmem | hmem | hmem
        · simp [boundProperties, hreturning, hd] at hmem
        · exact hlead p hmem hvariable
        · have hstructural := hbag p hmem
          rw [Property.isStructural, hvariable] at hstructural
          exact absurd hstructural (by decide)
      rw [PropertyBag.text?_of_not_mem hfree]
      rfl
    | some d =>
      have hsound := hdeclared d hd
      have hvariable := Analysis.text?_of_get? (h.get?_variable hreturning hd)
        hsound.name.trimmed.blank
      have hfinal : Write.wordLexemes n .final .final =
          if d.isFinal then [(.identifier, "final")] else [] := by
        rw [Write.wordLexemes, h.final hreturning d hd]
        rfl
      rw [hvariable]
      dsimp only
      rw [hfinal, h.typeLexemes hreturning hd hsound]
      have hname : lexemesOf (Property.ofVariable d.name).sourceText = [(.identifier, d.name)] :=
        hsound.name.lexemesOf
      rw [hname]
      rfl

end Unmixed

end Build

/-! ### Written calls -/

/-- The lexemes of a callee. -/
def Callee.lexemes : Callee → List Lexeme
  | .function none name => [(.identifier, name)]
  | .function (some qualifier) name =>
    [(.identifier, qualifier), (.punctuation, ":"), (.identifier, name)]
  | .action client method => client ++ [(.punctuation, "->"), (.identifier, method)]

namespace Write

open Lexer

/-- The text of the name of a function. -/
def functionText (name : String) : Option String → String
  | some qualifier => qualifier ++ ":" ++ name
  | none => name

lemma legible_function {qualifier : Option String} {name : String}
    (hqualifier : ∀ q ∈ qualifier, IsName q) (hname : IsName name) :
    Legible (functionText name qualifier).toList (Callee.function qualifier name).lexemes := by
  cases qualifier with
  | none => exact hname
  | some q => simpa [functionText, Callee.lexemes] using (hqualifier q rfl).qualified hname

lemma writesCallee_function {qualifier : Option String} {name : String}
    (hqualifier : ∀ q ∈ qualifier, IsName q) (hname : IsName name) :
    WritesCallee [.name (functionText name qualifier)]
      (Callee.function qualifier name).lexemes :=
  ⟨_, legible_function hqualifier hname, fun xs ps => Piece.writeOn_name xs ps _⟩

lemma writesCallee_action {client method : String} {ls : List Lexeme}
    (hclient : Legible client.toList ls) (hmethod : IsName method) :
    WritesCallee [.name client, .mark .arrow, .name method] (Callee.action ls method).lexemes := by
  refine ⟨_, hclient.arrow hmethod, fun xs ps => ?_⟩
  have harrow : ∀ ys qs, Piece.writeOn ys (.mark .arrow :: qs) =
      Piece.writeOn (ys ++ ['-', '>']) qs := by
    intro ys qs
    simp [Piece.writeOn, Piece.write, Piece.putMark, Piece.put]
  simp only [List.cons_append, List.nil_append]
  rw [Piece.writeOn_name, harrow, Piece.writeOn_name]
  simp

lemma nonEmpty_of_isName {name : String} (h : IsName name) : nonEmpty (some name) = some name := by
  have hne : name ≠ "" := by
    rintro rfl
    exact h.trimmed.ne_nil rfl
  simp [nonEmpty, hne]

/-- The text of a call node is read as what leads it, a callee and the arguments. -/
def ReadsAs (n : FlowNode) (callee : List Lexeme) : Prop :=
  ∃ text, (Builders.standard.written n).text = .ok text ∧
    Reads text.toList (leadLexemes n ++ (callee ++ (.punctuation, "(") ::
      (argumentsLexemes (argumentProperties n) ++ [(.punctuation, ")")])) ++
        [(.punctuation, ";")])

lemma readsAs_functionCall {n : FlowNode} {qualifier : Option String} {name : String}
    (hkind : n.kind = .functionCall) (hsymbol : n.codedata.symbol = some name)
    (hqualifier : n.codedata.qualifier? = qualifier) (hnames : ∀ q ∈ qualifier, IsName q)
    (hname : IsName name) (hled : Led n) (harguments : ∀ p ∈ argumentProperties n, Writable p) :
    ReadsAs n (Callee.function qualifier name).lexemes := by
  refine reads_call ?_ hled (writesCallee_function hnames hname) harguments
  simp only [statement, hkind, functionCall, hsymbol, nonEmpty_of_isName hname, hqualifier]
  cases qualifier <;> rfl

lemma readsAs_actionCall {n : FlowNode} {p : Property} {method : String}
    (hkind : n.kind = .actionCall) (hsymbol : n.codedata.symbol = some method)
    (hconnection : n.properties.get? "connection" = some p) (hblank : p.isBlank = false)
    (hlegible : Legible p.sourceText.toList (lexemesOf p.sourceText)) (hmethod : IsName method)
    (hled : Led n) (harguments : ∀ p ∈ argumentProperties n, Writable p) :
    ReadsAs n (Callee.action (lexemesOf p.sourceText) method).lexemes := by
  refine reads_call ?_ hled (writesCallee_action hlegible hmethod) harguments
  simp only [statement, hkind, actionCall, hsymbol, nonEmpty_of_isName hmethod,
    Analysis.require_of_get? hconnection hblank]
  rfl

end Write

namespace Analysis

open Lexer

/-! ### Sites of calls -/

/-- A site of a statement that runs a call. -/
structure CallSite (s : Statement) (e : Expression) (site : Site) : Prop where
  operand : s.operand? = some e
  shape : site.shape? = some (checkedShape e)
  checked : site.checked = e.unwrapCheck.2
  returning : site.returning = s.isReturn
  declaration : site.declaration = s.declaration?

/-- The kinds of nodes that run a call with its arguments one by one. -/
def callKinds : List NodeKind := [.functionCall, .actionCall]

/-- The kinds of nodes that run a call. -/
def runKinds : List NodeKind := .dataMapper :: callKinds

lemma callSite_ofDeclaration {c : Context} {d : Declaration} {statement : Option Statement}
    (h : (ofDeclaration c d statement).1 ∈ runKinds) :
    ∃ e, CallSite (.declaration d) e (ofDeclaration c d statement).2 := by
  unfold ofDeclaration at h ⊢
  cases hvalue : d.initializer with
  | none =>
    simp only [hvalue] at h
    split at h <;> simp [runKinds, callKinds] at h
  | some value =>
    refine ⟨value, ?_⟩
    have hcalled : CallSite (.declaration d) value { Site.ofSpan d.span with
        statement := statement, declaration := some d,
        expression := some value.unwrapCheck.1, checked := value.unwrapCheck.2 } :=
      ⟨hvalue, rfl, rfl, rfl, rfl⟩
    simp only [hvalue] at h ⊢
    cases hshape : value.unwrapCheck.1.shape with
    | new type arguments =>
      simp only [hshape] at h
      split at h <;> simp [runKinds, callKinds] at h
    | call qualifier name arguments => cases qualifier <;> exact hcalled
    | remote client method arguments => exact hcalled
    | check panics inner => simp [hshape, runKinds, callKinds] at h
    | reference name => simp [hshape, runKinds, callKinds] at h
    | literal => simp [hshape, runKinds, callKinds] at h
    | other => simp [hshape, runKinds, callKinds] at h

lemma callSite_ofOperand {s : Statement} {e : Expression} {site : Site} {fallback : NodeKind}
    (hoperand : s.operand? = some e) (hdeclaration : site.declaration = s.declaration?)
    (hfallback : fallback ∉ runKinds)
    (h : (ofOperand site fallback e s.isReturn).1 ∈ runKinds) :
    CallSite s e (ofOperand site fallback e s.isReturn).2 := by
  rw [ofOperand_eq] at h ⊢
  cases hkind : callKind (checkedShape e) with
  | none =>
    rw [hkind] at h
    exact absurd h hfallback
  | some kind => exact ⟨hoperand, rfl, rfl, rfl, hdeclaration⟩

lemma node_of_build? {c : Context} {found : NodeKind × Site} {n : FlowNode}
    (h : build? .standard c found = some n) : Build.node found.1 c found.2 = .ok n := by
  unfold build? at h
  split at h
  · rename_i m hm
    obtain rfl := Option.some.inj h
    exact hm
  · simp at h

/-- A statement whose node runs a call has a site for it. -/
lemma callSite_of_statement {c : Context} {s : Statement} {n : FlowNode}
    (hn : statement .standard c s = some n) (hkind : n.kind ∈ runKinds) :
    ∃ e site, CallSite s e site ∧ Build.node n.kind c site = .ok n := by
  obtain ⟨found, hfound, hbuild⟩ := Option.bind_eq_some_iff.mp hn
  obtain ⟨kind, hkind?, hbuilt⟩ := builtAt_statement hn
  obtain rfl : kind = found.1 := Option.some.inj (hkind?.symm.trans (kind?_of_ofStatement hfound))
  have hnode : Build.node n.kind c found.2 = .ok n := hbuilt.kind ▸ node_of_build? hbuild
  rw [hbuilt.kind] at hkind
  suffices hsite : ∃ e, CallSite s e found.2 by
    obtain ⟨e, hsite⟩ := hsite
    exact ⟨e, found.2, hsite, hnode⟩
  have hfallback : NodeKind.return ∉ runKinds ∧ NodeKind.expressionStatement ∉ runKinds := by
    decide
  cases s with
  | declaration d =>
    obtain rfl := Option.some.inj hfound
    exact callSite_ofDeclaration hkind
  | exit word value span =>
    cases word with
    | «return» =>
      cases value with
      | none =>
        obtain rfl := Option.some.inj hfound
        simp [runKinds, callKinds] at hkind
      | some e =>
        obtain rfl := Option.some.inj hfound
        exact ⟨e, callSite_ofOperand rfl rfl hfallback.1 hkind⟩
    | fail =>
      obtain rfl := Option.some.inj hfound
      simp [runKinds, callKinds] at hkind
    | panic =>
      obtain rfl := Option.some.inj hfound
      simp [runKinds, callKinds] at hkind
  | expression value span =>
    obtain rfl := Option.some.inj hfound
    exact ⟨value, callSite_ofOperand rfl rfl hfallback.2 hkind⟩
  | assignment target value span =>
    obtain rfl := Option.some.inj hfound
    simp [runKinds, callKinds] at hkind
  | conditional read =>
    obtain rfl := Option.some.inj hfound
    simp [runKinds, callKinds] at hkind
  | loop value body span =>
    obtain rfl := Option.some.inj hfound
    simp [runKinds, callKinds] at hkind
  | jump word span =>
    cases word <;> obtain rfl := Option.some.inj hfound <;> simp [runKinds, callKinds] at hkind
  | unsupported construct span => simp [ofStatement] at hfound

end Analysis

end FlowCanvas
