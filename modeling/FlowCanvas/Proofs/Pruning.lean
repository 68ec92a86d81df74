import FlowCanvas.Proofs.Building
import FlowCanvas.Proofs.Lossless
import FlowCanvas.Proofs.Sorting

/-!
# Nodes that cannot be built

When the builders of some kinds fail at every site, a diagram loses the nodes of these kinds with
everything in them, and nothing else: all other nodes stay as they are and in their order.
-/

namespace FlowCanvas

namespace FlowNode

mutual

/-- A node without the nodes of some kinds inside it. A branch stays, even when none of its
children does. -/
def without (lost : List NodeKind) : FlowNode → FlowNode
  | ⟨id, kind, metadata, codedata, properties, branches, flags⟩ =>
    ⟨id, kind, metadata, codedata, properties, branchesWithout lost branches, flags⟩

def branchesWithout (lost : List NodeKind) : List (Branch FlowNode) → List (Branch FlowNode)
  | [] => []
  | ⟨label, properties, children⟩ :: bs =>
    ⟨label, properties, nodesWithout lost children⟩ :: branchesWithout lost bs

/-- Nodes without those of some kinds, at every depth. -/
def nodesWithout (lost : List NodeKind) : List FlowNode → List FlowNode
  | [] => []
  | n :: ns =>
    if lost.contains n.kind then nodesWithout lost ns else without lost n :: nodesWithout lost ns

end

/-- What is left of a node. -/
def remains? (lost : List NodeKind) (n : FlowNode) : Option FlowNode :=
  if lost.contains n.kind then none else some (n.without lost)

lemma nodesWithout_eq (lost : List NodeKind) (ns : List FlowNode) :
    nodesWithout lost ns = ns.filterMap (remains? lost) := by
  induction ns with
  | nil => rfl
  | cons n ns ih =>
    rw [nodesWithout, List.filterMap_cons, remains?]
    split_ifs
    · exact ih
    · rw [ih]

lemma nodesWithout_append (lost : List NodeKind) (ns ms : List FlowNode) :
    nodesWithout lost (ns ++ ms) = nodesWithout lost ns ++ nodesWithout lost ms := by
  simp only [nodesWithout_eq, List.filterMap_append]

lemma nodesWithout_toList (lost : List NodeKind) (n : Option FlowNode) :
    nodesWithout lost n.toList = (n.bind (remains? lost)).toList := by
  cases n with
  | none => rfl
  | some n =>
    rw [nodesWithout_eq, Option.toList_some, Option.bind_some, List.filterMap_cons]
    cases n.remains? lost <;> rfl

lemma nodesWithout_flatMap {α : Type} (lost : List NodeKind) (f : α → List FlowNode)
    (xs : List α) :
    nodesWithout lost (xs.flatMap f) = xs.flatMap fun x => nodesWithout lost (f x) := by
  simp only [nodesWithout_eq, List.filterMap_flatMap]

lemma without_eq (lost : List NodeKind) (n : FlowNode) :
    n.without lost = { n with branches := branchesWithout lost n.branches } := by
  cases n
  rw [without]

lemma without_of_branches_eq_nil (lost : List NodeKind) {n : FlowNode} (h : n.branches = []) :
    n.without lost = n := by
  cases n
  cases h
  rfl

lemma variableName_remains {lost : List NodeKind} {n m : FlowNode}
    (h : n.remains? lost = some m) : m.variableName = n.variableName := by
  rw [remains?] at h
  split_ifs at h
  obtain rfl := Option.some.inj h
  rw [without_eq]
  rfl

end FlowNode

/-- A diagram without the nodes of some kinds. -/
def Diagram.without (lost : List NodeKind) (d : Diagram) : Diagram :=
  ⟨d.filePath, FlowNode.nodesWithout lost d.nodes, FlowNode.nodesWithout lost d.connections⟩

/-- Sorting connections and taking some of them out may change places. -/
lemma Diagram.ofNodes_without (lost : List NodeKind) (filePath : String)
    (nodes connections : List FlowNode) :
    (ofNodes filePath nodes connections).without lost =
      ofNodes filePath (FlowNode.nodesWithout lost nodes)
        (FlowNode.nodesWithout lost connections) := by
  have hkeeps : ∀ a b a' b', FlowNode.remains? lost a = some a' →
      FlowNode.remains? lost b = some b' → inOrder a' b' = inOrder a b := fun a b a' b' ha hb => by
    rw [inOrder, inOrder, FlowNode.variableName_remains ha, FlowNode.variableName_remains hb]
  have hsorted := List.mergeSort_filterMap inOrder_trans inOrder_total inOrder_trans inOrder_total
    hkeeps connections
  rw [← FlowNode.nodesWithout_eq, ← FlowNode.nodesWithout_eq] at hsorted
  rw [Diagram.without, ofNodes, ofNodes, hsorted]

namespace Builders

/-- Replaces the builders of several kinds, one after the other. -/
def replaceAll (b : Builders) (list : List (NodeKind × NodeBuilder)) : Builders :=
  list.foldl (fun b r => b.replace r.1 r.2) b

lemma get_replaceAll_of_not_mem {b : Builders} {list : List (NodeKind × NodeBuilder)}
    {kind : NodeKind} (h : kind ∉ list.map Prod.fst) :
    (b.replaceAll list).get kind = b.get kind := by
  induction list generalizing b with
  | nil => rfl
  | cons r list ih =>
    rw [List.map_cons, List.mem_cons, not_or] at h
    exact (ih h.2).trans (if_neg h.1)

/-- The builder of a replaced kind is one of the new ones. -/
lemma get_replaceAll_of_mem {b : Builders} {list : List (NodeKind × NodeBuilder)}
    {kind : NodeKind} (h : kind ∈ list.map Prod.fst) :
    ∃ r ∈ list, (b.replaceAll list).get kind = r.2 := by
  induction list generalizing b with
  | nil => simp at h
  | cons r list ih =>
    by_cases hmem : kind ∈ list.map Prod.fst
    · obtain ⟨r', hr', hget⟩ := ih (b := b.replace r.1 r.2) hmem
      exact ⟨r', List.mem_cons_of_mem r hr', hget⟩
    · have hkind : kind = r.1 := (List.mem_cons.mp h).resolve_right hmem
      refine ⟨r, List.mem_cons_self, (get_replaceAll_of_not_mem hmem).trans ?_⟩
      exact if_pos hkind

end Builders

/-- A site whose branches lose the nodes of some kinds. -/
def Site.without (lost : List NodeKind) (s : Site) : Site :=
  { s with branches := FlowNode.branchesWithout lost s.branches }

namespace Build

/-- A connection does not look at branches. -/
lemma newConnection_branches (c : Context) (s : Site) (bs : List (Branch FlowNode)) :
    newConnection c { s with branches := bs } = newConnection c s := by
  have hplaced : placed c .newConnection { s with branches := bs } = placed c .newConnection s :=
    rfl
  have harguments : newArguments? { s with branches := bs } = newArguments? s := rfl
  simp only [newConnection, hplaced, harguments]
  rfl

/-- What a builder makes of a site that lost nodes is what is left of what it makes. -/
lemma node_without (lost : List NodeKind) {c : Context} {s : Site} {kind : NodeKind} {n : FlowNode}
    (hnode : node kind c s = .ok n) (hbuilt : BuiltAt c kind s.span (branchesAt s kind) n) :
    node kind c (s.without lost) = .ok (n.without lost) := by
  have hleaf : ∀ {bs : List (Branch FlowNode)}, branchesAt s kind = [] →
      node kind c { s with branches := bs } = node kind c s →
      node kind c { s with branches := bs } = .ok (n.without lost) := by
    intro bs hempty hsame
    rw [hsame, hnode, FlowNode.without_of_branches_eq_nil lost (hbuilt.branches.trans hempty)]
  cases kind with
  | «if» =>
    rw [node, ifNode] at hnode ⊢
    split at hnode
    · rename_i read hread
      obtain rfl := Except.ok.inj hnode
      rw [Site.without, hread, FlowNode.without_eq]
      rfl
    · simp at hnode
  | «while» =>
    rw [node, whileNode] at hnode ⊢
    split at hnode
    · rename_i value body span hread
      obtain rfl := Except.ok.inj hnode
      rw [Site.without, hread, FlowNode.without_eq]
      rfl
    · simp at hnode
  | actionCall => exact hleaf rfl rfl
  | newConnection => exact hleaf rfl (newConnection_branches c s _)
  | functionCall => exact hleaf rfl rfl
  | dataMapper => exact hleaf rfl rfl
  | newData => exact hleaf rfl rfl
  | updateData => exact hleaf rfl rfl
  | «break» => exact hleaf rfl rfl
  | «continue» => exact hleaf rfl rfl
  | «return» => exact hleaf rfl rfl
  | fail => exact hleaf rfl rfl
  | panic => exact hleaf rfl rfl
  | expressionStatement => exact hleaf rfl rfl

end Build

namespace Analysis

open Build FlowNode

variable {list : List (NodeKind × NodeBuilder)}

/-- Builders that fail at every site. -/
def Failing (list : List (NodeKind × NodeBuilder)) : Prop :=
  ∀ r ∈ list, ∀ c s, ∃ e, r.2.build c s = .error e

/-- A site has a node as before unless its kind is lost. -/
lemma build?_replaceAll (hfails : Failing list) (c : Context) {found : NodeKind × Site}
    (hsuits : Suits found.2 found.1) :
    build? (Builders.standard.replaceAll list) c
        (found.1, found.2.without (list.map Prod.fst)) =
      (build? .standard c found).bind (remains? (list.map Prod.fst)) := by
  obtain ⟨kind, site⟩ := found
  obtain ⟨n, hnode, hbuilt⟩ := builtAt_node c hsuits
  have hstandard : ∀ s, (Builders.standard.get kind).build c s = node kind c s := fun _ => rfl
  have hbefore : build? .standard c (kind, site) = some n := by
    rw [build?, hstandard, hnode]
  rw [hbefore, Option.bind_some, remains?, hbuilt.kind]
  by_cases hmem : kind ∈ list.map Prod.fst
  · obtain ⟨r, hr, hget⟩ := Builders.get_replaceAll_of_mem (b := .standard) hmem
    obtain ⟨e, he⟩ := hfails r hr c (site.without (list.map Prod.fst))
    rw [if_pos (List.contains_iff_mem.mpr hmem), build?, hget, he]
  · rw [if_neg (mt List.contains_iff_mem.mp hmem), build?,
      Builders.get_replaceAll_of_not_mem hmem, hstandard, node_without _ hnode hbuilt]

/-- The classifier does not look at branches. -/
lemma ofStatement_without (lost : List NodeKind) (c : Context) (s : Statement)
    (branches : List (Branch FlowNode)) :
    ofStatement c s (branchesWithout lost branches) =
      (ofStatement c s branches).map fun found => (found.1, found.2.without lost) := by
  have hoperand : ∀ (fallback : NodeKind) (e : Expression) (returning : Bool) (site : Site),
      ofOperand (site.without lost) fallback e returning =
        ((ofOperand site fallback e returning).1,
          (ofOperand site fallback e returning).2.without lost) := by
    intro fallback e returning site
    rw [ofOperand_eq, ofOperand_eq]
    split <;> rfl
  cases s with
  | declaration d =>
    obtain ⟨kind, expression, checked, hof⟩ := exists_ofDeclaration c d (some (.declaration d))
    rw [ofStatement, ofStatement, Option.map_some, hof]
    rfl
  | exit kind value span =>
    cases kind with
    | «return» =>
      cases value with
      | none => rfl
      | some e => exact congrArg some (hoperand .return e true
          { Site.ofSpan span with
            statement := some (.exit .return (some e) span), branches := branches })
    | fail => rfl
    | panic => rfl
  | expression value span => exact congrArg some (hoperand .expressionStatement value false
      { Site.ofSpan span with
        statement := some (.expression value span), branches := branches })
  | jump kind span => cases kind <;> rfl
  | assignment target value span => rfl
  | conditional read => rfl
  | loop value body span => rfl
  | unsupported construct span => rfl

/-- Every site that the classifier gives suits its kind. -/
lemma suits_of_ofStatement {c : Context} {s : Statement} {branches : List (Branch FlowNode)}
    {found : NodeKind × Site} (h : ofStatement c s branches = some found) :
    Suits found.2 found.1 := by
  cases hkind : kind? c s with
  | none =>
    obtain ⟨construct, span, rfl⟩ := kind?_eq_none hkind
    simp [ofStatement] at h
  | some kind =>
    obtain ⟨site, hsite, -, hsuits, -⟩ := suits_ofStatement hkind branches
    obtain rfl := Option.some.inj (h.symm.trans hsite)
    exact hsuits

/-- The node of a statement that lost nodes is what is left of its node. -/
lemma ofBranches_replaceAll (hfails : Failing list) (c : Context) (s : Statement)
    (branches : List (Branch FlowNode)) :
    ofBranches (Builders.standard.replaceAll list) c s
        (branchesWithout (list.map Prod.fst) branches) =
      (ofBranches .standard c s branches).bind (remains? (list.map Prod.fst)) := by
  rw [ofBranches, ofBranches, ofStatement_without]
  cases hfound : ofStatement c s branches with
  | none => rfl
  | some found => exact build?_replaceAll hfails c (suits_of_ofStatement hfound)

mutual

lemma branchesOf_replaceAll (hfails : Failing list) (c : Context) :
    ∀ s : Statement, branchesOf (Builders.standard.replaceAll list) c s =
      branchesWithout (list.map Prod.fst) (branchesOf .standard c s)
  | .conditional read => by
    rw [branchesOf, branchesOf, conditional_replaceAll hfails c read]
  | .loop value body span => by
    rw [branchesOf, branchesOf, block_replaceAll hfails c body]
    rfl
  | .declaration d => rfl
  | .assignment target value span => rfl
  | .exit kind value span => rfl
  | .jump kind span => rfl
  | .expression value span => rfl
  | .unsupported construct span => rfl

lemma conditional_replaceAll (hfails : Failing list) (c : Context) :
    ∀ read : Conditional, conditional (Builders.standard.replaceAll list) c read =
      branchesWithout (list.map Prod.fst) (conditional .standard c read)
  | .mk value body alternative span => by
    rw [conditional, conditional, block_replaceAll hfails c body,
      elseBranch_replaceAll hfails c alternative]
    rfl

lemma elseBranch_replaceAll (hfails : Failing list) (c : Context) :
    ∀ alternative : Alternative,
      elseBranch (Builders.standard.replaceAll list) c alternative =
        branchesWithout (list.map Prod.fst) (elseBranch .standard c alternative)
  | .absent => rfl
  | .block body => by
    rw [elseBranch, elseBranch, block_replaceAll hfails c body]
    rfl
  | .chained next => by
    rw [elseBranch, elseBranch, conditional_replaceAll hfails c next,
      ofBranches_replaceAll hfails, ← nodesWithout_toList]
    rfl

lemma block_replaceAll (hfails : Failing list) (c : Context) :
    ∀ body : Block, block (Builders.standard.replaceAll list) c body =
      nodesWithout (list.map Prod.fst) (block .standard c body)
  | .mk statements span => by
    rw [block, block, statements_replaceAll hfails c statements]

lemma statements_replaceAll (hfails : Failing list) (c : Context) :
    ∀ ss : List Statement, statements (Builders.standard.replaceAll list) c ss =
      nodesWithout (list.map Prod.fst) (statements .standard c ss)
  | [] => rfl
  | s :: ss => by
    rw [statements, statements, branchesOf_replaceAll hfails c s, ofBranches_replaceAll hfails,
      statements_replaceAll hfails c ss, nodesWithout_append, nodesWithout_toList]

end

lemma declaration_replaceAll (hfails : Failing list) (c : Context) (d : Declaration)
    (statement : Option Statement) :
    declaration (Builders.standard.replaceAll list) c d statement =
      (declaration .standard c d statement).bind (remains? (list.map Prod.fst)) := by
  have hbuild := build?_replaceAll hfails c (fits_ofDeclaration c d statement).suits
  have hsite : (ofDeclaration c d statement).2.without (list.map Prod.fst) =
      (ofDeclaration c d statement).2 := by
    obtain ⟨kind, expression, checked, hof⟩ := exists_ofDeclaration c d statement
    rw [hof]
    rfl
  rwa [hsite] at hbuild

lemma moduleVariable_replaceAll (hfails : Failing list) (c : Context) (d : Declaration) :
    moduleVariable (Builders.standard.replaceAll list) c d =
      (moduleVariable .standard c d).bind (remains? (list.map Prod.fst)) := by
  unfold moduleVariable
  split
  · rfl
  · dsimp only
    split
    · rfl
    · exact declaration_replaceAll hfails c d none

lemma construct_replaceAll (hfails : Failing list) (c : Context) (found : Construct) :
    construct (Builders.standard.replaceAll list) c found =
      nodesWithout (list.map Prod.fst) (construct .standard c found) := by
  have hmember : ∀ m, member (Builders.standard.replaceAll list) c m =
      (member .standard c m).bind (remains? (list.map Prod.fst)) := by
    intro m
    cases m with
    | «variable» d => exact moduleVariable_replaceAll hfails c d
    | function f => rfl
    | service s => rfl
    | classDefinition d => rfl
    | typeDefinition t => rfl
  cases found with
  | module m =>
    rw [construct, construct, nodesWithout_eq, List.filterMap_filterMap]
    exact congrArg (List.filterMap · m.members) (funext hmember)
  | function f => exact block_replaceAll hfails c f.body
  | service s =>
    rw [construct, construct, nodesWithout_flatMap]
    simp only [block_replaceAll hfails]
  | classDefinition d =>
    rw [construct, construct, nodesWithout_flatMap]
    simp only [block_replaceAll hfails]
  | «variable» d =>
    rw [construct, construct, moduleVariable_replaceAll hfails, nodesWithout_toList]
  | block body => exact block_replaceAll hfails c body
  | statement s =>
    rw [construct, construct, statement, branchesOf_replaceAll hfails, ofBranches_replaceAll hfails,
      nodesWithout_toList, statement]

lemma connections_replaceAll (hfails : Failing list) (c : Context) (p : Position) :
    connections (Builders.standard.replaceAll list) c p =
      nodesWithout (list.map Prod.fst) (connections .standard c p) := by
  rw [connections, connections, nodesWithout_eq, List.filterMap_filterMap]
  refine congrArg (List.filterMap · _) (funext fun symbol => ?_)
  unfold connection?
  simp only [declaration_replaceAll hfails, Option.bind_eq_bind, Option.bind_assoc]

/-- A diagram whose builders fail for some kinds is the diagram of all builders without the nodes
of these kinds, in its nodes, in their branches and in its connections. -/
theorem flow_replaceAll (hfails : Failing list) (c : Context) (start stop : Position) :
    flow (Builders.standard.replaceAll list) c start stop =
      (flow .standard c start stop).without (list.map Prod.fst) := by
  unfold flow
  dsimp only
  split
  · rw [Diagram.ofNodes_without]
    rfl
  · rw [Diagram.ofNodes_without, construct_replaceAll hfails, connections_replaceAll hfails]

/-- A builder that fails at every site. -/
def failing (kind : NodeKind) : NodeKind × NodeBuilder :=
  (kind, { NodeBuilder.standard kind with build := fun _ s => .error (s.unexpected kind) })

def prunedSource : String :=
  "import ballerina/http; http:Client a = check new (\"u\"); http:Client b = f(); " ++
    "function g() \x7b if c \x7b x = 1; \x7d y = 2; return; \x7d"

/-- Without assignments and function calls, an `if` that holds nothing else keeps its branch, and of
two connections the one that is not made by a call is left. -/
theorem flow_replaceAll_emptied :
    ∃ d, Document.parse ⟨"main.bal"⟩ prunedSource = .ok d ∧
      Failing [failing .updateData, failing .functionCall] ∧
      let whole := flow .standard ⟨d, .standard, Registry.empty, .local, []⟩ ⟨0, 80⟩ ⟨0, 100⟩
      let pruned := flow (Builders.standard.replaceAll [failing .updateData, failing .functionCall])
        ⟨d, .standard, Registry.empty, .local, []⟩ ⟨0, 80⟩ ⟨0, 100⟩
      pruned = whole.without [.updateData, .functionCall] ∧
      pruned.nodes.map (fun n => (n.kind, n.branches.map fun b => (b.label, b.children.length))) =
        [(.if, [("Then", 0)]), (.return, [])] ∧
      whole.connections.map (fun n => (n.kind, n.variableName)) =
        [(.newConnection, "a"), (.functionCall, "b")] ∧
      pruned.connections.map (fun n => (n.kind, n.variableName)) = [(.newConnection, "a")] := by
  have hcheck : (Document.parse ⟨"main.bal"⟩ prunedSource).toOption.any fun d =>
      (d.enclosing ⟨0, 80⟩ ⟨0, 100⟩).any fun found =>
        let shown := connections .standard ⟨d, .standard, Registry.empty, .global, []⟩
          found.span.start.position
        (FlowNode.nodesWithout [.updateData, .functionCall]
            (construct .standard ⟨d, .standard, Registry.empty, .local, []⟩ found)).map
            (fun n => (n.kind, n.branches.map fun b => (b.label, b.children.length))) =
          [(.if, [("Then", 0)]), (.return, [])] ∧
        shown.Pairwise (fun m n => Diagram.inOrder m n) ∧
        shown.map (fun n => (n.kind, n.variableName)) =
          [(.newConnection, "a"), (.functionCall, "b")] ∧
        (FlowNode.nodesWithout [.updateData, .functionCall] shown).map
          (fun n => (n.kind, n.variableName)) = [(.newConnection, "a")] := by
    decide +kernel
  obtain ⟨d, hd, hany⟩ := exists_ok_of_any hcheck
  obtain ⟨found, hfound, hall⟩ := Option.any_eq_true _ _ |>.mp hany
  obtain ⟨hnodes, hsorted, hwhole, hpruned⟩ := of_decide_eq_true hall
  have hfails : Failing [failing .updateData, failing .functionCall] := by
    intro r hr c s
    rcases List.mem_pair.mp hr with rfl | rfl <;> exact ⟨_, rfl⟩
  have hflow := flow_eq .standard (c := ⟨d, .standard, Registry.empty, .local, []⟩) hfound
  rw [Diagram.ofNodes, List.mergeSort_of_pairwise hsorted] at hflow
  refine ⟨d, hd, hfails, ?_⟩
  dsimp only
  rw [flow_replaceAll hfails, hflow]
  exact ⟨rfl, hnodes, hwhole, hpruned⟩

end Analysis

end FlowCanvas
