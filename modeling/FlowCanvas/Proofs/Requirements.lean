import FlowCanvas.Build.Builder
import FlowCanvas.Proofs.Paths

/-!
# What a node needs to be written

Each kind of node has requirements, and a control node is written with the nodes of its blocks.
`violations` lists what a node and the nodes written with it lack, in pre-order: writing fails with
the first of them, and succeeds if there is none.
-/

namespace FlowCanvas

namespace Write

/-- Something that a node needs to be written. -/
inductive Requirement where
  /-- A property whose text is not blank. -/
  | property (key : String)
  | symbol
  /-- A symbol, or a label in its place. -/
  | operation
deriving DecidableEq, Repr

namespace Requirement

def met (n : FlowNode) : Requirement → Bool
  | .property key => (n.properties.get? key).any (!·.isBlank)
  | .symbol => n.codedata.symbol.any (!·.isEmpty)
  | .operation => n.codedata.symbol.any (!·.isEmpty) || !n.metadata.label.isEmpty

/-- The error of a node of a kind that does not meet the requirement. -/
def error (kind : NodeKind) : Requirement → BuildError
  | .property key => .missingProperty kind key
  | .symbol => .missingCodedata kind "symbol"
  | .operation => .missingCodedata kind "symbol"

def violation (n : FlowNode) (r : Requirement) : List BuildError :=
  if r.met n then [] else [r.error n.kind]

lemma violation_eq_nil_iff {n : FlowNode} (r : Requirement) : r.violation n = [] ↔ r.met n := by
  simp [violation]

end Requirement

/-- The requirements of a kind, in the order in which they are looked at. -/
def requirements : NodeKind → List Requirement
  | .actionCall => [.property "connection", .operation]
  | .functionCall => [.symbol]
  | .newConnection => [.property "variable", .property "type"]
  | .dataMapper => [.property "variable", .property "functionName"]
  | .newData => [.property "variable"]
  | .updateData => [.property "variable", .property "expression"]
  | .panic => [.property "expression"]
  | .expressionStatement => [.property "expression"]
  | .if => [.property "condition"]
  | .while => [.property "condition"]
  | .break => []
  | .continue => []
  | .return => []
  | .fail => []

/-- The labels of the blocks that a node of a kind is written with. -/
def blockLabels : NodeKind → List String
  | .if => [Branch.thenLabel, Branch.elseLabel]
  | .while => [Branch.bodyLabel]
  | _ => []

/-- A node that meets its requirements, with nodes that do in the blocks it is written with. Of the
branches with one label the first is its block. -/
inductive Renderable : FlowNode → Prop
  | mk {n : FlowNode} (own : ∀ r ∈ requirements n.kind, r.met n)
    (blocks : ∀ label ∈ blockLabels n.kind, ∀ b, n.branch? label = some b →
      ∀ child ∈ b.children, Renderable child) : Renderable n

/-- The requirements that a node itself violates. -/
def ownViolations (n : FlowNode) : List BuildError :=
  (requirements n.kind).flatMap (·.violation n)

mutual

/-- The requirements that a node and the nodes written with it violate, in pre-order. -/
def violations : FlowNode → List BuildError
  | ⟨id, kind, metadata, codedata, properties, branches, flags⟩ =>
    ownViolations ⟨id, kind, metadata, codedata, properties, branches, flags⟩ ++
      (blockLabels kind).flatMap (blockViolations branches)

/-- The violations in the block of a label. -/
def blockViolations : List (Branch FlowNode) → String → List BuildError
  | [], _ => []
  | ⟨label', _, children⟩ :: rest, label =>
    if label' == label then allViolations children else blockViolations rest label

def allViolations : List FlowNode → List BuildError
  | [] => []
  | n :: ns => violations n ++ allViolations ns

end

/-- What a node at the top violates: a connection needs a scope that it can be written to. -/
def scopeViolations (n : FlowNode) : List BuildError :=
  if n.kind = .newConnection then
    match n.properties.text? "scope" with
    | none => [.missingProperty .newConnection "scope"]
    | some scope => if scope = "Local" ∨ scope = "Global" then [] else [.invalidScope scope]
  else []

/-- A connection that is declared in the file for connections. -/
def IsGlobal (n : FlowNode) : Prop :=
  n.kind = .newConnection ∧ n.properties.text? "scope" = some "Global"

/-! ### Steps that report violations -/

/-- A step that fails with the first of some violations, and succeeds without any. -/
inductive Reports {α : Type} : Except BuildError α → List BuildError → Prop
  | ok (a : α) : Reports (.ok a) []
  | error (e : BuildError) (es : List BuildError) : Reports (.error e) (e :: es)

namespace Reports

variable {α β : Type} {step : Except BuildError α} {vs ws : List BuildError}

lemma bind (h : Reports step vs) {next : α → Except BuildError β}
    (hnext : ∀ a, step = .ok a → Reports (next a) ws) : Reports (step >>= next) (vs ++ ws) := by
  cases h with
  | ok a => exact hnext a rfl
  | error e es => exact .error e (es ++ ws)

/-- The last step of several cannot fail. -/
lemma finish (h : Reports step vs) (f : α → β) : Reports (step >>= fun a => pure (f a)) vs := by
  cases h with
  | ok a => exact .ok (f a)
  | error e es => exact .error e es

lemma map (h : Reports step vs) (f : α → β) : Reports (step.map f) vs := h.finish f

lemma ok_iff (h : Reports step vs) : (∃ a, step = .ok a) ↔ vs = [] := by
  cases h with
  | ok a => simp
  | error e es => simp

lemma error_iff (h : Reports step vs) (e : BuildError) : step = .error e ↔ vs.head? = some e := by
  cases h with
  | ok a => simp
  | error e' es => simp

end Reports

lemma reports_require (n : FlowNode) (key : String) :
    Reports (require n key) ((Requirement.property key).violation n) := by
  unfold require PropertyBag.require PropertyBag.text? Requirement.violation
  cases hp : n.properties.get? key with
  | none =>
    rw [if_neg (by simp [Requirement.met, hp])]
    exact .error _ []
  | some p =>
    cases hblank : p.isBlank with
    | true =>
      rw [if_neg (by simp [Requirement.met, hp, hblank])]
      simp only [hblank, if_true]
      exact .error _ []
    | false =>
      rw [if_pos (by simp [Requirement.met, hp, hblank])]
      simpa [hblank] using Reports.ok p.sourceText

lemma isSome_nonEmpty (text : Option String) :
    (nonEmpty text).isSome = text.any (!·.isEmpty) := by
  cases text with
  | none => rfl
  | some text => cases hempty : text.isEmpty <;> simp [nonEmpty, hempty]

lemma reports_actionCall (n : FlowNode) :
    Reports (actionCall n) ((Requirement.property "connection").violation n ++
      Requirement.operation.violation n) := by
  refine (reports_require n "connection").bind fun connection _ => ?_
  have hmet : (nonEmpty n.codedata.symbol <|> nonEmpty (some n.metadata.label)).isSome =
      Requirement.operation.met n := by
    simp [Requirement.met, isSome_nonEmpty]
  cases hname : (nonEmpty n.codedata.symbol <|> nonEmpty (some n.metadata.label)) with
  | none =>
    rw [hname] at hmet
    rw [Requirement.violation, if_neg (by simp [← hmet])]
    exact .error _ []
  | some operation =>
    rw [hname] at hmet
    rw [Requirement.violation, if_pos (by simp [← hmet])]
    exact .ok _

lemma reports_functionCall (n : FlowNode) :
    Reports (functionCall n) (Requirement.symbol.violation n) := by
  unfold functionCall
  have hmet : (nonEmpty n.codedata.symbol).isSome = Requirement.symbol.met n :=
    isSome_nonEmpty n.codedata.symbol
  cases hname : nonEmpty n.codedata.symbol with
  | none =>
    rw [hname] at hmet
    rw [Requirement.violation, if_neg (by simp [← hmet])]
    exact .error _ []
  | some symbol =>
    rw [hname] at hmet
    rw [Requirement.violation, if_pos (by simp [← hmet])]
    exact .ok _

/-- Written children and what they violate, one after the other. -/
inductive WrittenBlock : List WrittenNode → List BuildError → Prop
  | nil : WrittenBlock [] []
  | cons {c : WrittenNode} {cs : List WrittenNode} {vs ws : List BuildError}
    (h : Reports c.text vs) (hs : WrittenBlock cs ws) : WrittenBlock (c :: cs) (vs ++ ws)

namespace WrittenBlock

variable {cs : List WrittenNode} {vs : List BuildError}

lemma texts (h : WrittenBlock cs vs) : Reports (texts cs) vs := by
  induction h with
  | nil => exact .ok []
  | @cons c cs vs ws h _ ih =>
    exact h.bind fun text _ => ih.finish _

lemma body (h : WrittenBlock cs vs) : Reports (body cs) vs := by
  exact h.texts.finish _

lemma alternative (h : WrittenBlock cs vs) : Reports (alternative cs) vs := by
  have hblock : Reports (Write.body cs >>= fun block =>
      pure ([Piece.space, .mark .else] ++ block)) vs := h.body.finish _
  cases h with
  | nil => exact .ok []
  | @cons c cs vs ws hc hcs =>
    cases hcs with
    | nil =>
      unfold Write.alternative
      dsimp only
      split
      · simpa using hc.finish _
      · exact hblock
    | cons => exact hblock

end WrittenBlock

/-- A node is written unless it violates a requirement of its own, or its blocks do. -/
lemma reports_statement (n : FlowNode) {branches : List (Branch WrittenNode)}
    {blocks : String → List BuildError}
    (hblocks : ∀ label ∈ blockLabels n.kind,
      WrittenBlock (childrenOf branches label) (blocks label)) :
    Reports (statement n branches)
      (ownViolations n ++ (blockLabels n.kind).flatMap blocks) := by
  unfold statement ownViolations
  cases hkind : n.kind <;>
    simp only [requirements, blockLabels, List.flatMap_cons, List.flatMap_nil, List.append_nil]
  case actionCall => exact reports_actionCall n
  case functionCall => exact reports_functionCall n
  case newConnection =>
    exact (reports_require n "variable").bind fun name _ => (reports_require n "type").finish _
  case dataMapper =>
    exact (reports_require n "variable").bind fun _ _ =>
      (reports_require n "functionName").finish _
  case newData => exact (reports_require n "variable").finish _
  case updateData =>
    exact (reports_require n "variable").bind fun name _ =>
      (reports_require n "expression").finish _
  case expressionStatement => exact (reports_require n "expression").finish _
  case panic => exact (reports_require n "expression").finish _
  case «if» =>
    rw [hkind] at hblocks
    have hthen := hblocks Branch.thenLabel (by simp [blockLabels])
    have helse := hblocks Branch.elseLabel (by simp [blockLabels])
    exact (reports_require n "condition").bind fun condition _ =>
      hthen.body.bind fun thenBlock _ => helse.alternative.finish _
  case «while» =>
    rw [hkind] at hblocks
    have hbody := hblocks Branch.bodyLabel (by simp [blockLabels])
    exact (reports_require n "condition").bind fun condition _ => hbody.body.finish _
  case «break» => exact .ok _
  case «continue» => exact .ok _
  case «return» => exact .ok _
  case fail => exact .ok _

/-! ### Nodes with their blocks -/

mutual

theorem reports_written : (n : FlowNode) → Reports (Builders.standard.written n).text (violations n)
  | ⟨id, kind, metadata, codedata, properties, branches, flags⟩ => by
    rw [Builders.written, violations]
    exact (reports_statement ⟨id, kind, metadata, codedata, properties, branches, flags⟩
      fun label _ => writtenBlock_branches branches label).map _

theorem writtenBlock_branches : (branches : List (Branch FlowNode)) → (label : String) →
    WrittenBlock (childrenOf (Builders.standard.writtenBranches branches) label)
      (blockViolations branches label)
  | [], label => by
    rw [Builders.writtenBranches, blockViolations]
    exact .nil
  | ⟨label', properties, children⟩ :: rest, label => by
    rw [Builders.writtenBranches, blockViolations]
    cases hlabel : label' == label with
    | true => simpa [childrenOf, hlabel] using writtenBlock_nodes children
    | false => simpa [childrenOf, hlabel] using writtenBlock_branches rest label

theorem writtenBlock_nodes : (ns : List FlowNode) →
    WrittenBlock (Builders.standard.writtenNodes ns) (allViolations ns)
  | [] => .nil
  | n :: ns => .cons (reports_written n) (writtenBlock_nodes ns)

end

mutual

theorem renderable_iff : (n : FlowNode) → (Renderable n ↔ violations n = [])
  | ⟨id, kind, metadata, codedata, properties, branches, flags⟩ => by
    rw [violations, List.append_eq_nil_iff, ownViolations, List.flatMap_eq_nil_iff,
      List.flatMap_eq_nil_iff]
    constructor
    · rintro ⟨hown, hblocks⟩
      exact ⟨fun r hr => r.violation_eq_nil_iff.mpr (hown r hr),
        fun label hlabel => (renderable_branches_iff branches label).mp (hblocks label hlabel)⟩
    · rintro ⟨hown, hblocks⟩
      exact .mk (fun r hr => r.violation_eq_nil_iff.mp (hown r hr)) fun label hlabel =>
        (renderable_branches_iff branches label).mpr (hblocks label hlabel)

theorem renderable_branches_iff : (branches : List (Branch FlowNode)) → (label : String) →
    ((∀ b, branches.find? (fun b => b.label == label) = some b →
      ∀ child ∈ b.children, Renderable child) ↔ blockViolations branches label = [])
  | [], label => by simp [blockViolations]
  | ⟨label', properties, children⟩ :: rest, label => by
    rw [blockViolations]
    cases hlabel : label' == label with
    | true => simpa [hlabel] using renderable_nodes_iff children
    | false => simpa [hlabel] using renderable_branches_iff rest label

theorem renderable_nodes_iff : (ns : List FlowNode) →
    ((∀ n ∈ ns, Renderable n) ↔ allViolations ns = [])
  | [] => by simp [allViolations]
  | n :: ns => by
    rw [allViolations, List.append_eq_nil_iff, List.forall_mem_cons, renderable_iff n,
      renderable_nodes_iff ns]

end

/-! ### Texts that are not empty -/

lemma mem_trimEnd {c : Char} {out : List Char} (hc : c ≠ ' ') (h : c ∈ out) :
    c ∈ Piece.trimEnd out := by
  unfold Piece.trimEnd
  rw [← List.takeWhile_append_dropWhile (p := (· == ' ')) (l := out), List.mem_append] at h
  refine h.resolve_left fun hblank => hc ?_
  simpa using List.mem_takeWhile_imp hblank

/-- What is written stays, up to blanks. -/
lemma mem_write {c : Char} {out : List Char} (hc : c ≠ ' ') (h : c ∈ out) (p : Piece) :
    c ∈ p.write out := by
  have htrim := mem_trimEnd hc h
  cases p with
  | mark m => cases m <;> simp [Piece.write, Piece.putMark, Piece.put, h, htrim]
  | name text => simp [Piece.write, Piece.put, h]
  | expression text => simp [Piece.write, Piece.put, h]
  | raw text => simp [Piece.write, Piece.put, h]
  | space =>
    cases out with
    | nil => simp at h
    | cons d out =>
      simp only [Piece.write]
      split <;> simp_all
  | newLine => simp [Piece.write, htrim]
  | semicolon => simp [Piece.write, htrim]

lemma mem_foldl_write {c : Char} (hc : c ≠ ' ') (ps : List Piece) {out : List Char}
    (h : c ∈ out) : c ∈ ps.foldl Piece.write out := by
  induction ps generalizing out with
  | nil => exact h
  | cons p ps ih => exact ih (mem_write hc h p)

/-- Pieces that one of every statement is. -/
def lasting : List Piece := [.semicolon, .mark .if, .mark .while]

lemma render_ne_empty {ps : List Piece} {p : Piece} (hp : p ∈ ps) (hlasting : p ∈ lasting) :
    Piece.render ps ≠ "" := by
  obtain ⟨c, hc, hwrite⟩ : ∃ c, c ≠ ' ' ∧ ∀ out, c ∈ Piece.write out p := by
    simp only [lasting, List.mem_cons, List.not_mem_nil, or_false] at hlasting
    rcases hlasting with rfl | rfl | rfl
    · exact ⟨';', by decide, fun out => by simp [Piece.write]⟩
    · exact ⟨'i', by decide, fun out => by simp [Piece.write, Piece.putMark, Piece.put, Mark.text]⟩
    · exact ⟨'w', by decide, fun out => by simp [Piece.write, Piece.putMark, Piece.put, Mark.text]⟩
  obtain ⟨front, back, rfl⟩ := List.append_of_mem hp
  have hmem := mem_trimEnd hc (mem_foldl_write hc back (hwrite (front.foldl Piece.write [])))
  intro hempty
  have hchars := congrArg String.toList hempty
  rw [Piece.render, List.foldl_append, List.foldl_cons, String.toList_ofList, String.toList_empty,
    List.reverse_eq_nil_iff] at hchars
  simp [hchars] at hmem

/-- A step that writes a lasting piece whenever it succeeds. -/
def Lasts (step : Except BuildError (List Piece)) : Prop :=
  ∀ ps, step = .ok ps → ∃ p ∈ ps, p ∈ lasting

lemma lasts_error (e : BuildError) : Lasts (.error e) := by
  intro ps hps
  simp at hps

lemma lasts_ok {p : Piece} (hlasting : p ∈ lasting) {ps : List Piece} (h : p ∈ ps) :
    Lasts (.ok ps) := by
  intro ps' hps
  obtain rfl := Except.ok.inj hps
  exact ⟨p, h, hlasting⟩

lemma Lasts.bind {α : Type} {step : Except BuildError α}
    {next : α → Except BuildError (List Piece)} (h : ∀ a, Lasts (next a)) :
    Lasts (step >>= next) := by
  cases step with
  | error e => exact lasts_error e
  | ok a => exact h a

lemma lasts_statement (n : FlowNode) (branches : List (Branch WrittenNode)) :
    Lasts (statement n branches) := by
  have hends : ∀ ps : List Piece, .semicolon ∈ ps → Lasts (.ok ps) := fun ps =>
    lasts_ok (by simp [lasting])
  unfold statement
  cases n.kind
  case actionCall =>
    refine .bind fun connection => ?_
    split
    · exact lasts_error _
    · exact hends _ (by simp)
  case functionCall =>
    dsimp only
    unfold functionCall
    split
    · exact lasts_error _
    · exact hends _ (by simp)
  case newConnection => exact .bind fun name => .bind fun type => hends _ (by simp)
  case dataMapper => exact .bind fun _ => .bind fun name => hends _ (by simp)
  case newData => exact .bind fun name => hends _ (by simp)
  case updateData => exact .bind fun name => .bind fun value => hends _ (by simp)
  case «if» =>
    exact .bind fun condition => .bind fun thenBlock => .bind fun elsePart =>
      lasts_ok (p := .mark .if) (by simp [lasting]) (by simp)
  case «while» =>
    exact .bind fun condition => .bind fun block =>
      lasts_ok (p := .mark .while) (by simp [lasting]) (by simp)
  case «break» => exact hends _ (by simp)
  case «continue» => exact hends _ (by simp)
  case «return» => exact hends _ (by simp [exit])
  case fail => exact hends _ (by simp [exit])
  case panic => exact .bind fun _ => hends _ (by simp [exit])
  case expressionStatement => exact .bind fun value => hends _ (by simp)

lemma text_ne_empty {n : FlowNode} {text : String}
    (h : (Builders.standard.written n).text = .ok text) : text ≠ "" := by
  obtain ⟨id, kind, metadata, codedata, properties, branches, flags⟩ := n
  rw [Builders.written] at h
  cases hps : (Builders.standard.get kind).write
      ⟨id, kind, metadata, codedata, properties, branches, flags⟩
      (Builders.standard.writtenBranches branches) with
  | error e => simp [hps, Except.map] at h
  | ok ps =>
    obtain ⟨p, hp, hlasting⟩ := lasts_statement _ _ ps hps
    obtain rfl : Piece.render ps = text := by simpa [hps, Except.map] using h
    exact render_ne_empty hp hlasting

/-! ### The edits of a node -/

lemma connectionTarget_eq (n : FlowNode) (connectionsFile : String) :
    connectionTarget n connectionsFile =
      match n.properties.text? "scope" with
      | none => .error (.missingProperty n.kind "scope")
      | some scope =>
        if scope = "Local" then .ok .current
        else if scope = "Global" then .ok (.sibling connectionsFile)
        else .error (.invalidScope scope) := by
  unfold connectionTarget require PropertyBag.require
  cases n.properties.text? "scope" with
  | none => rfl
  | some scope =>
    have hword : Tier.ofWord? scope = if scope = "Local" then some .local else
        if scope = "Global" then some .global else
          if scope = "Service" then some .service else none := by
      simp only [Tier.ofWord?, Tier.word, List.find?_cons, List.find?_nil]
      grind
    dsimp only [bind, Except.bind]
    rw [hword]
    split_ifs <;> rfl

lemma reports_target (n : FlowNode) (connectionsFile : String) :
    Reports (target n connectionsFile) (scopeViolations n) := by
  unfold target scopeViolations
  split
  · rename_i hkind
    rw [if_pos hkind, connectionTarget_eq]
    cases n.properties.text? "scope" with
    | none => exact hkind ▸ .error _ []
    | some scope =>
      dsimp only
      by_cases hlocal : scope = "Local"
      · rw [if_pos hlocal, if_pos (.inl hlocal)]
        exact .ok _
      · rw [if_neg hlocal]
        by_cases hglobal : scope = "Global"
        · rw [if_pos hglobal, if_pos (.inr hglobal)]
          exact .ok _
        · rw [if_neg hglobal, if_neg (not_or.mpr ⟨hlocal, hglobal⟩)]
          exact .error _ []
  · rename_i hkind
    rw [if_neg hkind]
    exact .ok _

/-- A node stays in its file, unless it is a global connection. -/
lemma target_cases {n : FlowNode} {connectionsFile : String} {found : Target}
    (h : target n connectionsFile = .ok found) :
    (IsGlobal n ∧ found = .sibling connectionsFile) ∨ (¬IsGlobal n ∧ found = .current) := by
  unfold target at h
  split at h
  · rename_i hkind
    rw [connectionTarget_eq] at h
    cases hscope : n.properties.text? "scope" with
    | none => simp [hscope] at h
    | some scope =>
      rw [hscope] at h
      dsimp only at h
      split_ifs at h with hlocal hglobal
      · exact .inr ⟨by simp [IsGlobal, hscope, hlocal], (Except.ok.inj h).symm⟩
      · exact .inl ⟨⟨hkind, hglobal ▸ hscope⟩, (Except.ok.inj h).symm⟩
  · rename_i hkind
    exact .inr ⟨fun hglobal => hkind hglobal.1, (Except.ok.inj h).symm⟩

lemma path_of_target {n : FlowNode} {connectionsFile : String} {found : Target}
    (h : target n connectionsFile = .ok found) (hlocal : ¬IsGlobal n) (file : Path) :
    found.path file = file := by
  obtain ⟨-, rfl⟩ := (target_cases h).resolve_left fun hboth => hlocal hboth.1
  rfl

/-- A file next to another is the name seen from the folder, or the name where there is none. -/
lemma beside_sibling (file : Path) (name : String) :
    Path.Beside file name ((Target.sibling name).path file) := by
  have hjoin := Path.beside_join file name
  cases hfolder : file.parent? with
  | some folder => simpa [Target.path, hfolder] using hjoin
  | none =>
    have hname : (⟨""⟩ : Path).join ⟨name⟩ = ⟨name⟩ := by
      unfold Path.join
      split_ifs with habsolute hempty
      · rfl
      · simp
      · simp at hempty
    simpa [Target.path, hfolder, hname] using hjoin

lemma scopeViolations_eq_nil_iff (n : FlowNode) :
    scopeViolations n = [] ↔ (n.kind = .newConnection →
      n.properties.text? "scope" = some "Local" ∨ n.properties.text? "scope" = some "Global") := by
  unfold scopeViolations
  split_ifs with hkind
  · cases n.properties.text? "scope" with
    | none => simp [hkind]
    | some scope => by_cases hvalid : scope = "Local" ∨ scope = "Global" <;> simp [hkind, hvalid]
  · simp [hkind]

lemma toSource_eq_ok {n : FlowNode} {file : Path} {connectionsFile : String} {edits : FileEdits}
    (h : Builders.standard.toSource n file connectionsFile = .ok edits) :
    ∃ found text, target n connectionsFile = .ok found ∧
      (Builders.standard.written n).text = .ok text ∧
      edits = .single (found.path file) (.ofNode n.codedata found text) := by
  have htarget :
      (Builders.standard.get n.kind).target n connectionsFile = target n connectionsFile := rfl
  unfold Builders.toSource at h
  rw [htarget] at h
  cases hfound : target n connectionsFile with
  | error e => simp [hfound, bind, Except.bind] at h
  | ok found =>
    cases htext : (Builders.standard.written n).text with
    | error e => simp [hfound, htext, bind, Except.bind] at h
    | ok text =>
      simp only [hfound, htext, bind, Except.bind, pure, Except.pure, Except.ok.injEq] at h
      exact ⟨found, text, rfl, rfl, h.symm⟩

lemma newText_ofNode (codedata : Codedata) (found : Target) (text : String) :
    (TextEdit.ofNode codedata found text).newText = text := by
  unfold TextEdit.ofNode
  split
  · split <;> rfl
  · rfl

/-- Writing a node succeeds exactly if the node is renderable and, for a connection, its scope is
local or global. It fails with what is violated first, and succeeds with one edit in one file: for a
global connection the file for connections in the folder of the file that was asked for, and that
file itself for any other node. -/
theorem toSource_reports (n : FlowNode) (file : Path) (connectionsFile : String) :
    ((∃ edits, Builders.standard.toSource n file connectionsFile = .ok edits) ↔
      Renderable n ∧ (n.kind = .newConnection →
        n.properties.text? "scope" = some "Local" ∨ n.properties.text? "scope" = some "Global")) ∧
    (∀ e, Builders.standard.toSource n file connectionsFile = .error e ↔
      (scopeViolations n ++ violations n).head? = some e) ∧
    ∀ edits, Builders.standard.toSource n file connectionsFile = .ok edits →
      ∃ (path : Path) (e : TextEdit), edits = [(path.text, [e])] ∧ e.newText ≠ "" ∧
        (IsGlobal n → Path.Beside file connectionsFile path) ∧ (¬IsGlobal n → path = file) := by
  have hreports : Reports (Builders.standard.toSource n file connectionsFile)
      (scopeViolations n ++ violations n) :=
    (reports_target n connectionsFile).bind fun found _ => (reports_written n).finish _
  refine ⟨?_, hreports.error_iff, fun edits hedits => ?_⟩
  · rw [hreports.ok_iff, List.append_eq_nil_iff, scopeViolations_eq_nil_iff, ← renderable_iff,
      and_comm]
  · obtain ⟨found, text, htarget, htext, rfl⟩ := toSource_eq_ok hedits
    refine ⟨found.path file, .ofNode n.codedata found text, rfl, ?_, fun hglobal => ?_,
      fun hlocal => path_of_target htarget hlocal file⟩
    · rw [newText_ofNode]
      exact text_ne_empty htext
    · obtain ⟨-, rfl⟩ := (target_cases htarget).resolve_right fun hboth => hboth.1 hglobal
      exact beside_sibling file connectionsFile

/-- A global connection that is asked for from a file in two folders goes to a file of the inner
folder, and fails to be written without its variable. -/
theorem toSource_reports_global :
    let n : FlowNode := (FlowNode.ofKind .newConnection).withProperties
      [.ofType "http:Client", .ofTier .global, .ofVariable "api"]
    let bare : FlowNode := (FlowNode.ofKind .newConnection).withProperties
      [.ofType "http:Client", .ofTier .global]
    (∃ e : TextEdit, Builders.standard.toSource n ⟨"./src/main.bal"⟩ "connections.bal" =
        .ok [("./src/connections.bal", [e])] ∧ e.newText ≠ "" ∧
      Path.Beside ⟨"./src/main.bal"⟩ "connections.bal" ⟨"./src/connections.bal"⟩) ∧
    (⟨"./src/connections.bal"⟩ : Path).names =
      [['s', 'r', 'c'], "connections.bal".toList] ∧
    Builders.standard.toSource bare ⟨"./src/main.bal"⟩ "connections.bal" =
      .error (.missingProperty .newConnection "variable") := by
  intro n bare
  obtain ⟨hsucceeds, -, hedits⟩ := toSource_reports n ⟨"./src/main.bal"⟩ "connections.bal"
  have hrenderable : Renderable n := (renderable_iff n).mpr (by decide +kernel)
  have hglobal : IsGlobal n := ⟨rfl, by decide +kernel⟩
  obtain ⟨edits, htext⟩ := hsucceeds.mpr ⟨hrenderable, fun _ => .inr hglobal.2⟩
  obtain ⟨path, e, rfl, hne, hbeside, -⟩ := hedits edits htext
  obtain rfl : path = ⟨"./src/connections.bal"⟩ :=
    (hbeside hglobal).joined.trans (by decide +kernel)
  refine ⟨⟨e, htext, hne, hbeside hglobal⟩, by decide +kernel, ?_⟩
  exact ((toSource_reports bare ⟨"./src/main.bal"⟩ "connections.bal").2.1 _).mpr (by decide +kernel)

end Write

end FlowCanvas
