import FlowCanvas.Build.Analysis
import FlowCanvas.Proofs.Places
import Mathlib

/-!
# What every built node has

`BuiltAt` is what a node owes to the place it is built at, whatever its kind: its id, its line
range, its source and its branches. The builders only add to it. `kind?` is the table of kinds,
and every statement that has a kind has a node.
-/

namespace FlowCanvas

namespace Build

/-- A node of a kind that stands for a stretch of the document. -/
structure BuiltAt (c : Context) (kind : NodeKind) (span : Span)
    (branches : List (Branch FlowNode)) (n : FlowNode) : Prop where
  kind : n.kind = kind
  id : n.id = some span.start.position.render
  lineRange : n.codedata.lineRange =
    some ⟨c.document.fileName, span.start.position, span.stop.position⟩
  sourceCode : ∀ source, c.document.StandsAt span source → n.codedata.sourceCode = some source
  isNew : n.codedata.isNew = false
  branches : n.branches = branches

lemma builtAt_placed (c : Context) (kind : NodeKind) (s : Site) :
    BuiltAt c kind s.span [] (placed c kind s) := by
  have hsource : ∀ source, c.document.StandsAt s.span source →
      some (c.document.slice s.span) = some source := fun source h => congrArg some h.slice_eq
  cases kind <;> exact ⟨rfl, rfl, rfl, hsource, rfl, rfl⟩

namespace BuiltAt

variable {c : Context} {kind : NodeKind} {span : Span} {branches : List (Branch FlowNode)}
  {n : FlowNode}

lemma withProperty (h : BuiltAt c kind span branches n) (p : Property) :
    BuiltAt c kind span branches (n.withProperty p) :=
  ⟨h.kind, h.id, h.lineRange, h.sourceCode, h.isNew, h.branches⟩

lemma withProperties (h : BuiltAt c kind span branches n) (ps : List Property) :
    BuiltAt c kind span branches (n.withProperties ps) :=
  ⟨h.kind, h.id, h.lineRange, h.sourceCode, h.isNew, h.branches⟩

lemma withFlag (h : BuiltAt c kind span branches n) (flag : Flags) (on : Bool) :
    BuiltAt c kind span branches (n.withFlag flag on) :=
  ⟨h.kind, h.id, h.lineRange, h.sourceCode, h.isNew, h.branches⟩

lemma withLabel (h : BuiltAt c kind span branches n) (label : String) :
    BuiltAt c kind span branches (n.withLabel label) :=
  ⟨h.kind, h.id, h.lineRange, h.sourceCode, h.isNew, h.branches⟩

lemma withClass (h : BuiltAt c kind span branches n) (symbol : Option ClassSymbol) :
    BuiltAt c kind span branches (withClass n symbol) := by
  cases symbol with
  | none => exact h
  | some symbol => exact ⟨h.kind, h.id, h.lineRange, h.sourceCode, h.isNew, h.branches⟩

lemma withModule (h : BuiltAt c kind span branches n) (qualifier : String) :
    BuiltAt c kind span branches (withModule c n qualifier) :=
  ⟨h.kind, h.id, h.lineRange, h.sourceCode, h.isNew, h.branches⟩

lemma withBranches (h : BuiltAt c kind span branches n) (branches' : List (Branch FlowNode)) :
    BuiltAt c kind span branches' { n with branches := branches' } :=
  ⟨h.kind, h.id, h.lineRange, h.sourceCode, h.isNew, rfl⟩

lemma bind (h : BuiltAt c kind span branches n) (s : Site) :
    BuiltAt c kind span branches (bind n s) := by
  unfold Build.bind
  split
  · exact (h.withFlag _ _).withFlag _ _
  · split
    · exact (h.withFlag _ _).withFlag _ _
    · exact (((h.withFlag _ _).withFlag _ _).withProperties _).withFlag _ _

/-- The codedata's symbol names are no part of the place. -/
lemma withSymbols (h : BuiltAt c kind span branches n) (symbol parent : Option String)
    (display : Bool) :
    BuiltAt c kind span branches { n with codedata := { n.codedata with
      symbol := symbol, parentSymbol := parent, inDisplayAnnotation := display } } :=
  ⟨h.kind, h.id, h.lineRange, h.sourceCode, h.isNew, h.branches⟩

end BuiltAt

/-- What a builder needs to find at a site. -/
def Suits (s : Site) : NodeKind → Prop
  | .actionCall => ∃ client method arguments, s.shape? = some (.remote client method arguments)
  | .functionCall | .dataMapper =>
    ∃ qualifier name arguments, s.shape? = some (.call qualifier name arguments)
  | .newConnection => ∃ d arguments, s.declaration = some d ∧ newArguments? s = some arguments
  | .newData => ∃ d, s.declaration = some d
  | .updateData => ∃ target value span, s.statement = some (.assignment target value span)
  | .if => ∃ c, s.statement = some (.conditional c)
  | .while => ∃ value body span, s.statement = some (.loop value body span)
  | .expressionStatement => ∃ e, s.expression = some e
  | .break | .continue | .return | .fail | .panic => True

/-- The branches of a node of a kind. -/
def branchesAt (s : Site) : NodeKind → List (Branch FlowNode)
  | .if | .while => s.branches
  | _ => []

lemma builtAt_functionCall (c : Context) {s : Site} {qualifier : Option String} {name : String}
    {arguments : List Argument} (h : s.shape? = some (.call qualifier name arguments)) :
    ∃ n, functionCall c s = .ok n ∧ BuiltAt c .functionCall s.span [] n := by
  have hlabel := ((builtAt_placed c .functionCall s).withSymbols (some name)
    (placed c .functionCall s).codedata.parentSymbol
    (placed c .functionCall s).codedata.inDisplayAnnotation).withLabel name
  cases qualifier with
  | none =>
    refine ⟨_, by rw [functionCall, h], ?_⟩
    exact (hlabel.withProperties _).bind s
  | some qualifier =>
    refine ⟨_, by rw [functionCall, h], ?_⟩
    exact ((hlabel.withModule qualifier).withProperties _).bind s

/-- A builder succeeds at every site that suits it. -/
theorem builtAt_node (c : Context) {s : Site} {kind : NodeKind} (h : Suits s kind) :
    ∃ n, node kind c s = .ok n ∧ BuiltAt c kind s.span (branchesAt s kind) n := by
  have hplaced := builtAt_placed c kind s
  cases kind with
  | actionCall =>
    obtain ⟨client, method, arguments, hshape⟩ := h
    refine ⟨_, by rw [node, actionCall, hshape], ?_⟩
    have hclass := hplaced.withClass
      (Scope.connectionClass? c.document.tree c.classes client.text s.span.start.position)
    have hsymbol := hclass.withSymbols (some method) (some client.text)
    exact (((hsymbol _).withLabel method).withProperties _).bind s
  | newConnection =>
    obtain ⟨d, arguments, hd, harguments⟩ := h
    refine ⟨_, by rw [node, newConnection, hd, harguments], ?_⟩
    have hclass := hplaced.withClass (c.clientType? d.type.text)
    exact ((((hclass.withLabel _).withSymbols _ _ (d.hasAnnotation "display")).withProperties
      _).withFlag _ _).withFlag _ _
  | functionCall =>
    obtain ⟨qualifier, name, arguments, hshape⟩ := h
    exact builtAt_functionCall c hshape
  | dataMapper =>
    obtain ⟨qualifier, name, arguments, hshape⟩ := h
    refine ⟨_, by rw [node, dataMapper, hshape], ?_⟩
    exact ((hplaced.withSymbols (some name) _ _).withProperties _).bind s
  | newData =>
    obtain ⟨d, hd⟩ := h
    refine ⟨_, by rw [node, newData, hd], ?_⟩
    exact (hplaced.withProperties _).withFlag _ _
  | updateData =>
    obtain ⟨target, value, span, hstatement⟩ := h
    refine ⟨_, by rw [node, updateData, hstatement], ?_⟩
    exact hplaced.withProperties _
  | «if» =>
    obtain ⟨read, hstatement⟩ := h
    refine ⟨_, by rw [node, ifNode, hstatement], ?_⟩
    exact (hplaced.withProperty _).withBranches s.branches
  | «while» =>
    obtain ⟨value, body, span, hstatement⟩ := h
    refine ⟨_, by rw [node, whileNode, hstatement], ?_⟩
    exact (hplaced.withProperty _).withBranches s.branches
  | «break» => exact ⟨_, rfl, hplaced⟩
  | «continue» => exact ⟨_, rfl, hplaced⟩
  | «return» => exact ⟨_, rfl, hplaced.withProperty _⟩
  | fail => exact ⟨_, rfl, hplaced.withProperty _⟩
  | panic => exact ⟨_, rfl, hplaced.withProperty _⟩
  | expressionStatement =>
    obtain ⟨e, he⟩ := h
    refine ⟨_, by rw [node, expressionNode, he], ?_⟩
    exact hplaced.withProperty _

end Build

namespace Analysis

/-- The shape behind a `check`. -/
def checkedShape (e : Expression) : Shape := e.unwrapCheck.1.shape

/-- The kind of a statement that runs a call of a shape. -/
def callKind : Shape → Option NodeKind
  | .remote .. => some .actionCall
  | .call .. => some .functionCall
  | _ => none

/-- The kind of a declaration of a type whose value has a shape. -/
def declaredKind (c : Context) (type : String) : Option Shape → NodeKind
  | none | some (.new ..) => if (c.clientType? type).isSome then .newConnection else .newData
  | some (.call none name _) => if c.isMapping name then .dataMapper else .functionCall
  | some shape => (callKind shape).getD .newData

/-- The table of kinds. -/
def kind? (c : Context) : Statement → Option NodeKind
  | .declaration d => some (declaredKind c d.type.text (d.initializer.map checkedShape))
  | .assignment .. => some .updateData
  | .conditional _ => some .if
  | .loop .. => some .while
  | .jump .break _ => some .break
  | .jump .continue _ => some .continue
  | .exit .fail .. => some .fail
  | .exit .panic .. => some .panic
  | .exit .return value _ => some ((value.bind (callKind ∘ checkedShape)).getD .return)
  | .expression value _ => some ((callKind (checkedShape value)).getD .expressionStatement)
  | .unsupported .. => none

lemma kind?_eq_none {c : Context} {s : Statement} (h : kind? c s = none) :
    ∃ construct span, s = .unsupported construct span := by
  cases s with
  | unsupported construct span => exact ⟨construct, span, rfl⟩
  | jump kind span => cases kind <;> simp [kind?] at h
  | exit kind value span => cases kind <;> simp [kind?] at h
  | declaration d => simp [kind?] at h
  | assignment target value span => simp [kind?] at h
  | conditional read => simp [kind?] at h
  | loop value body span => simp [kind?] at h
  | expression value span => simp [kind?] at h

/-- A site of a span that suits the builder of a kind, which makes a node without branches. -/
structure Fits (found : NodeKind × Site) (kind : NodeKind) (span : Span) : Prop where
  kind : found.1 = kind
  span : found.2.span = span
  suits : Build.Suits found.2 found.1
  branches : Build.branchesAt found.2 found.1 = []

lemma fits_ofDeclaration (c : Context) (d : Declaration) (statement : Option Statement) :
    Fits (ofDeclaration c d statement)
      (declaredKind c d.type.text (d.initializer.map checkedShape)) d.span := by
  unfold ofDeclaration
  cases hvalue : d.initializer with
  | none =>
    dsimp only
    split
    · rename_i hclient
      exact ⟨by simp [declaredKind, hclient], rfl, ⟨d, [], rfl, rfl⟩, rfl⟩
    · rename_i hclient
      exact ⟨by simp [declaredKind, hclient], rfl, ⟨d, rfl⟩, rfl⟩
  | some value =>
    dsimp only [Option.map_some, checkedShape]
    cases hshape : value.unwrapCheck.1.shape with
    | new type arguments =>
      dsimp only
      split
      · rename_i hclient
        refine ⟨by simp [declaredKind, hclient], rfl, ⟨d, arguments, rfl, ?_⟩, rfl⟩
        simp [Build.newArguments?, Site.shape?, hshape]
      · rename_i hclient
        exact ⟨by simp [declaredKind, hclient], rfl, ⟨d, rfl⟩, rfl⟩
    | call qualifier name arguments =>
      cases qualifier with
      | none =>
        dsimp only [declaredKind]
        split
        · exact ⟨rfl, rfl, ⟨none, name, arguments, congrArg some hshape⟩, rfl⟩
        · exact ⟨rfl, rfl, ⟨none, name, arguments, congrArg some hshape⟩, rfl⟩
      | some qualifier =>
        exact ⟨rfl, rfl, ⟨some qualifier, name, arguments, congrArg some hshape⟩, rfl⟩
    | remote client method arguments =>
      exact ⟨rfl, rfl, ⟨client, method, arguments, congrArg some hshape⟩, rfl⟩
    | check panics inner => exact ⟨rfl, rfl, ⟨d, rfl⟩, rfl⟩
    | reference name => exact ⟨rfl, rfl, ⟨d, rfl⟩, rfl⟩
    | literal => exact ⟨rfl, rfl, ⟨d, rfl⟩, rfl⟩
    | other => exact ⟨rfl, rfl, ⟨d, rfl⟩, rfl⟩

/-- The site of a declaration holds the declaration, an expression and nothing else. -/
lemma exists_ofDeclaration (c : Context) (d : Declaration) (statement : Option Statement) :
    ∃ kind expression checked, ofDeclaration c d statement =
      (kind, { Site.ofSpan d.span with
        statement := statement, declaration := some d, expression := expression,
        checked := checked }) := by
  unfold ofDeclaration
  cases d.initializer with
  | none => exact ⟨_, _, _, rfl⟩
  | some value =>
    dsimp only
    cases value.unwrapCheck.1.shape with
    | new type arguments =>
      dsimp only
      split <;> exact ⟨_, _, _, rfl⟩
    | call qualifier name arguments => cases qualifier <;> exact ⟨_, _, _, rfl⟩
    | remote client method arguments => exact ⟨_, _, _, rfl⟩
    | check panics inner => exact ⟨_, _, _, rfl⟩
    | reference name => exact ⟨_, _, _, rfl⟩
    | literal => exact ⟨_, _, _, rfl⟩
    | other => exact ⟨_, _, _, rfl⟩

lemma ofOperand_eq (site : Site) (fallback : NodeKind) (e : Expression) (returning : Bool) :
    ofOperand site fallback e returning =
      match callKind (checkedShape e) with
      | some kind => (kind, { site with
          expression := some e.unwrapCheck.1, checked := e.unwrapCheck.2, returning := returning })
      | none => (fallback, { site with expression := some e }) := by
  unfold ofOperand callKind? checkedShape
  obtain ⟨inner, checked⟩ := e.unwrapCheck
  dsimp only
  cases inner.shape <;> rfl

/-- An operand that is no call goes to the fallback. -/
lemma fits_ofOperand {site : Site} {fallback : NodeKind} {e : Expression} (returning : Bool)
    (h : Fits (fallback, { site with expression := some e }) fallback site.span) :
    Fits (ofOperand site fallback e returning) ((callKind (checkedShape e)).getD fallback)
      site.span := by
  rw [ofOperand_eq]
  cases hkind : callKind (checkedShape e) with
  | none => exact h
  | some kind =>
    unfold callKind at hkind
    split at hkind
    · rename_i client method arguments hshape
      obtain rfl := Option.some.inj hkind
      exact ⟨rfl, rfl, ⟨client, method, arguments, congrArg some hshape⟩, rfl⟩
    · rename_i qualifier name arguments hshape
      obtain rfl := Option.some.inj hkind
      exact ⟨rfl, rfl, ⟨qualifier, name, arguments, congrArg some hshape⟩, rfl⟩
    · simp at hkind

/-- The branches that a statement's node takes from its blocks. -/
def branchesFor (branches : List (Branch FlowNode)) : Statement → List (Branch FlowNode)
  | .conditional _ => branches
  | .loop .. => branches
  | _ => []

/-- The classifier hands every statement with a kind to a builder that it suits. -/
lemma suits_ofStatement {c : Context} {s : Statement} {kind : NodeKind}
    (hkind : kind? c s = some kind) (branches : List (Branch FlowNode)) :
    ∃ site, ofStatement c s branches = some (kind, site) ∧ site.span = s.span ∧
      Build.Suits site kind ∧ Build.branchesAt site kind = branchesFor branches s := by
  have hfits : ∀ {found : NodeKind × Site} {fit : NodeKind},
      ofStatement c s branches = some found → kind? c s = some fit →
      branchesFor branches s = [] → Fits found fit s.span →
        ∃ site, ofStatement c s branches = some (kind, site) ∧
        site.span = s.span ∧ Build.Suits site kind ∧
        Build.branchesAt site kind = branchesFor branches s := by
    intro found fit hfound hfit' hempty hfit
    rw [hkind] at hfit'
    obtain rfl := Option.some.inj hfit'
    obtain ⟨rfl, hspan, hsuits, hbranches⟩ := hfit
    exact ⟨found.2, hfound, hspan, hsuits, by rw [hbranches, hempty]⟩
  cases s with
  | declaration d => exact hfits rfl rfl rfl (fits_ofDeclaration c d _)
  | assignment target value span =>
    exact hfits rfl rfl rfl ⟨rfl, rfl, ⟨target, value, span, rfl⟩, rfl⟩
  | conditional read =>
    obtain rfl := Option.some.inj hkind
    exact ⟨_, rfl, rfl, ⟨read, rfl⟩, rfl⟩
  | loop value body span =>
    obtain rfl := Option.some.inj hkind
    exact ⟨_, rfl, rfl, ⟨value, body, span, rfl⟩, rfl⟩
  | jump word span => cases word <;> exact hfits rfl rfl rfl ⟨rfl, rfl, trivial, rfl⟩
  | exit word value span =>
    cases word with
    | «return» =>
      cases value with
      | none => exact hfits rfl rfl rfl ⟨rfl, rfl, trivial, rfl⟩
      | some e => exact hfits rfl rfl rfl (fits_ofOperand true ⟨rfl, rfl, trivial, rfl⟩)
    | fail => exact hfits rfl rfl rfl ⟨rfl, rfl, trivial, rfl⟩
    | panic => exact hfits rfl rfl rfl ⟨rfl, rfl, trivial, rfl⟩
  | expression value span =>
    exact hfits rfl rfl rfl (fits_ofOperand false ⟨rfl, rfl, ⟨value, rfl⟩, rfl⟩)
  | unsupported construct span => simp [kind?] at hkind

/-- The node of a statement is the one that the builder of its kind makes. -/
lemma ofBranches_of_node {c : Context} {s : Statement} {branches : List (Branch FlowNode)}
    {found : NodeKind × Site} {n : FlowNode} (hof : ofStatement c s branches = some found)
    (hnode : Build.node found.1 c found.2 = .ok n) :
    ofBranches .standard c s branches = some n := by
  have hget : (Builders.standard.get found.1).build c found.2 = .ok n := hnode
  simp [ofBranches, hof, build?, hget]

/-- Every statement with a kind has a node of that kind at its place. -/
theorem built_ofBranches {c : Context} {s : Statement} {kind : NodeKind}
    (hkind : kind? c s = some kind) (branches : List (Branch FlowNode)) :
    ∃ n, ofBranches .standard c s branches = some n ∧
      Build.BuiltAt c kind s.span (branchesFor branches s) n := by
  obtain ⟨site, hof, hspan, hsuits, hbranches⟩ := suits_ofStatement hkind branches
  obtain ⟨n, hnode, hbuilt⟩ := Build.builtAt_node c hsuits
  rw [hspan, hbranches] at hbuilt
  exact ⟨n, ofBranches_of_node hof hnode, hbuilt⟩

/-- The diagram of a range shows the construct around it and the connections where that starts. -/
lemma flow_eq (b : Builders) {c : Context} {start stop : Position} {found : Construct}
    (hfound : c.document.enclosing start stop = some found) : flow b c start stop =
      .ofNodes c.document.path.text (construct b { c with tier := .local } found)
        (connections b { c with tier := .global } found.span.start.position) := by
  rw [flow, hfound]

end Analysis

end FlowCanvas
