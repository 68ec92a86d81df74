import FlowCanvas.Proofs.Enclosing
import FlowCanvas.Proofs.Forest
import FlowCanvas.Proofs.Remains

/-!
# Zooming

The diagram of a statement's range shows the node that stands for the statement in the diagram of
every construct around it. Both are made by the same recursion over the statement, and no other
node has the line range of the statement.
-/

namespace FlowCanvas

namespace Construct

/-! ### Statements of a construct -/

lemma allNested_append (list list' : List Statement) : Statement.allNested (list ++ list') =
    Statement.allNested list ++ Statement.allNested list' := by
  induction list with
  | nil => rfl
  | cons s list ih => rw [List.cons_append, Statement.allNested, Statement.allNested, ih,
      List.append_assoc]

lemma nested_subset_allNested {s : Statement} {list : List Statement} (h : s ∈ list) :
    s.nested ⊆ Statement.allNested list := by
  obtain ⟨front, back, rfl⟩ := List.append_of_mem h
  rw [allNested_append, Statement.allNested]
  exact List.Subset.trans (List.subset_append_left _ _) (List.subset_append_right _ _)

lemma nested_eq (b : Block) : b.nested = Statement.allNested b.statements := by
  cases b
  rw [Block.nested]
  rfl

lemma allNested_singleton (s : Statement) : Statement.allNested [s] = s.nested := by
  rw [Statement.allNested, Statement.allNested, List.append_nil]

lemma allNested_subset {list list' : List Statement} (h : list ⊆ list') :
    Statement.allNested list ⊆ Statement.allNested list' := by
  induction list with
  | nil => simp [Statement.allNested]
  | cons s list ih =>
    rw [List.cons_subset] at h
    rw [Statement.allNested]
    exact List.append_subset.mpr ⟨nested_subset_allNested h.1, ih h.2⟩

/-- The statements of a child are among those of the construct. -/
lemma allNested_child {c inner : Construct} (hc : ∀ m, c ≠ .module m) (h : inner ∈ c.children) :
    Statement.allNested inner.statements ⊆ Statement.allNested c.statements := by
  match c, h with
  | .module m, _ => exact absurd rfl (hc m)
  | .function f, h =>
    obtain rfl := List.mem_singleton.mp h
    exact List.Subset.refl _
  | .service s, h =>
    obtain ⟨f, hf, rfl⟩ := List.mem_map.mp h
    exact allNested_subset fun t ht => List.mem_flatMap.mpr ⟨f, hf, ht⟩
  | .classDefinition d, h =>
    obtain ⟨f, hf, rfl⟩ := List.mem_map.mp h
    exact allNested_subset fun t ht => List.mem_flatMap.mpr ⟨f, hf, ht⟩
  | .block b, h =>
    obtain ⟨s, hs, rfl⟩ := List.mem_map.mp h
    exact allNested_subset (List.cons_subset.mpr ⟨hs, List.nil_subset _⟩)
  | .statement (.conditional (.mk value body alternative span)), h =>
    rw [statements, allNested_singleton, Statement.nested, Conditional.nested]
    rcases List.mem_cons.mp h with rfl | h
    · rw [nested_eq]
      exact List.Subset.trans (List.subset_append_left _ _) (List.subset_cons_self _ _)
    · refine List.Subset.trans ?_ (List.Subset.trans (List.subset_append_right body.nested _)
        (List.subset_cons_self _ _))
      cases alternative with
      | absent => simp [ofAlternative, Conditional.alternative] at h
      | block last =>
        obtain rfl := List.mem_singleton.mp h
        rw [Alternative.nested, nested_eq]
        exact List.Subset.refl _
      | chained next =>
        obtain rfl := List.mem_singleton.mp h
        rw [Alternative.nested, statements, allNested_singleton, Statement.nested]
        exact List.Subset.refl _
  | .statement (.loop value body span), h =>
    obtain rfl := List.mem_singleton.mp h
    rw [statements, statements, allNested_singleton, Statement.nested, nested_eq]
    exact List.subset_cons_self _ _

lemma Inside.allNested_subset {outer c : Construct} (h : Inside outer c)
    (houter : ∀ m, outer ≠ .module m) :
    Statement.allNested c.statements ⊆ Statement.allNested outer.statements := by
  induction h with
  | refl => exact List.Subset.refl _
  | @child c inner hc hinner ih =>
    refine List.Subset.trans (allNested_child (fun m => ?_) hinner) ih
    by_cases heq : c = outer
    · rw [heq]
      exact houter m
    · exact hc.ne_module heq m

/-- The statements that are counted below a construct are those that stand inside of it. -/
lemma mem_allNested_iff {c : Construct} (hc : ∀ m, c ≠ .module m) {s : Statement} :
    s ∈ Statement.allNested c.statements ↔ Inside c (.statement s) := by
  refine ⟨fun h => ?_, fun h => ?_⟩
  · obtain ⟨t, ht, hin⟩ := inside_statements h
    match c, ht with
    | .function f, ht =>
      exact ((Inside.refl.child (body_child f)).child (statement_child ht)).trans hin
    | .service d, ht =>
      obtain ⟨f, hf, ht⟩ := List.mem_flatMap.mp ht
      exact (((Inside.refl.child (List.mem_map_of_mem hf)).child (body_child f)).child
        (statement_child ht)).trans hin
    | .classDefinition d, ht =>
      obtain ⟨f, hf, ht⟩ := List.mem_flatMap.mp ht
      exact (((Inside.refl.child (List.mem_map_of_mem hf)).child (body_child f)).child
        (statement_child ht)).trans hin
    | .block b, ht => exact (Inside.refl.child (statement_child ht)).trans hin
    | .statement _, ht =>
      obtain rfl := List.mem_singleton.mp ht
      exact hin
  · refine h.allNested_subset hc ?_
    rw [statements, allNested_singleton]
    exact s.mem_nested_self

end Construct

namespace Analysis

open Build Construct FlowNode

/-! ### Nodes in preorder -/

lemma preorder_statement_eq (c : Context) (s : Statement) :
    nodesPreorder (statement .standard c s).toList = (statement .standard c s).toList ++
      branchesPreorder (branchesFor (branchesOf .standard c s) s) := by
  cases hkind : kind? c s with
  | none =>
    obtain ⟨construct, span, rfl⟩ := kind?_eq_none hkind
    rfl
  | some kind =>
    obtain ⟨n, hn, hbuilt⟩ := built_ofBranches hkind (branchesOf .standard c s)
    rw [statement, hn, Option.toList_some, nodesPreorder, nodesPreorder, preorder_eq,
      hbuilt.branches, List.append_nil]
    rfl

/-- A statement without blocks has a node without branches. -/
lemma preorder_leaf (c : Context) {s : Statement} (hnested : s.nested = [s])
    (hbranches : branchesFor (branchesOf .standard c s) s = []) :
    nodesPreorder (statement .standard c s).toList =
      s.nested.filterMap (statement .standard c) := by
  rw [preorder_statement_eq, hbranches, hnested, List.filterMap_cons]
  cases statement .standard c s <;> rfl

mutual

/-- A statement's node and the nodes in it are the nodes of the statements nested in it. -/
lemma preorder_statement (c : Context) : ∀ s : Statement,
    nodesPreorder (statement .standard c s).toList = s.nested.filterMap (statement .standard c)
  | .conditional read => by
    rw [Statement.nested]
    exact preorder_conditional c read
  | .loop value body span => by
    rw [preorder_statement_eq, branchesOf, branchesFor, branchesPreorder, branchesPreorder,
      Branch.ofChildren, preorder_block, Statement.nested, List.filterMap_cons]
    cases statement .standard c (.loop value body span) <;> simp
  | .declaration d => preorder_leaf c (by simp [Statement.nested]) rfl
  | .assignment target value span => preorder_leaf c (by simp [Statement.nested]) rfl
  | .exit kind value span => preorder_leaf c (by simp [Statement.nested]) rfl
  | .jump kind span => preorder_leaf c (by simp [Statement.nested]) rfl
  | .expression value span => preorder_leaf c (by simp [Statement.nested]) rfl
  | .unsupported construct span => preorder_leaf c (by simp [Statement.nested]) rfl

lemma preorder_conditional (c : Context) : ∀ read : Conditional,
    nodesPreorder (statement .standard c (.conditional read)).toList =
      read.nested.filterMap (statement .standard c)
  | .mk value body alternative span => by
    rw [preorder_statement_eq, branchesOf, branchesFor, conditional, branchesPreorder,
      Branch.ofChildren, preorder_block, preorder_else, Conditional.nested, List.filterMap_cons,
      List.filterMap_append]
    cases statement .standard c (.conditional (.mk value body alternative span)) <;> rfl

lemma preorder_else (c : Context) : ∀ alternative : Alternative,
    branchesPreorder (elseBranch .standard c alternative) =
      alternative.nested.filterMap (statement .standard c)
  | .absent => rfl
  | .block body => by
    rw [elseBranch, branchesPreorder, branchesPreorder, Branch.ofChildren, preorder_block,
      Alternative.nested, List.append_nil]
  | .chained next => by
    have hnext := preorder_conditional c next
    rw [statement, branchesOf] at hnext
    rw [elseBranch, branchesPreorder, branchesPreorder, Branch.ofChildren, hnext,
      Alternative.nested, List.append_nil]

lemma preorder_block (c : Context) : ∀ b : Block,
    nodesPreorder (block .standard c b) = b.nested.filterMap (statement .standard c)
  | .mk list span => by
    rw [block, Block.nested]
    exact preorder_statements c list

lemma preorder_statements (c : Context) : ∀ list : List Statement,
    nodesPreorder (statements .standard c list) =
      (Statement.allNested list).filterMap (statement .standard c)
  | [] => rfl
  | s :: list => by
    have hs := preorder_statement c s
    rw [statement] at hs
    rw [statements, nodesPreorder_append, hs, preorder_statements, Statement.allNested,
      List.filterMap_append]

end

lemma preorder_functions (c : Context) (list : List FunctionDefinition) :
    nodesPreorder (list.flatMap fun f => block .standard c f.body) =
      (Statement.allNested (list.flatMap (·.body.statements))).filterMap
        (statement .standard c) := by
  induction list with
  | nil => rfl
  | cons f list ih =>
    rw [List.flatMap_cons, List.flatMap_cons, nodesPreorder_append, ih, preorder_block, nested_eq,
      allNested_append, List.filterMap_append]

/-- The nodes of a construct in preorder are those of its statements. -/
lemma preorder_construct (c : Context) {e : Construct} (he : e.isModuleLevel = false) :
    nodesPreorder (construct .standard c e) =
      (Statement.allNested e.statements).filterMap (statement .standard c) := by
  match e, he with
  | .function f, _ =>
    rw [construct, preorder_block, nested_eq]
    rfl
  | .service s, _ => exact preorder_functions c s.functions
  | .classDefinition d, _ => exact preorder_functions c d.functions
  | .block b, _ =>
    rw [construct, preorder_block, nested_eq]
    rfl
  | .statement s, _ =>
    rw [construct, preorder_statement, Construct.statements, allNested_singleton]

/-! ### The diagram of a construct's range -/

/-- The diagram of the range of a construct. -/
def flowOf (b : Builders) (c : Context) (e : Construct) : Diagram :=
  flow b c e.span.start.position e.span.stop.position

section Zooming

variable {path : Path} {text : String} {c : Context}

lemma nodes_flowOf (h : Document.parse path text = .ok c.document) {e : Construct}
    (he : Inside (.module c.document.tree) e) (hne : e ≠ .module c.document.tree) :
    (flowOf .standard c e).nodes = construct .standard { c with tier := .local } e := by
  rw [flowOf, flow, Document.enclosing_self h he hne]
  rfl

/-- A statement has a node exactly when it is supported, and the node stands for it. -/
lemma statement_cases (h : Document.parse path text = .ok c.document) {s : Statement}
    (hs : Inside (.module c.document.tree) (.statement s)) :
    (s.isSupported = false ∧ statement .standard c s = none) ∨
      s.isSupported ∧ ∃ n, statement .standard c s = some n ∧ Mirrors c s n := by
  cases hkind : kind? c s with
  | none =>
    obtain ⟨construct, span, rfl⟩ := kind?_eq_none hkind
    exact .inl ⟨rfl, rfl⟩
  | some kind =>
    refine .inr ⟨?_, mirrors_statement h s hs ⟨kind, hkind⟩⟩
    cases s with
    | unsupported construct span => simp [kind?] at hkind
    | _ => rfl

lemma mirrors_of_statement (h : Document.parse path text = .ok c.document) {s : Statement}
    (hs : Inside (.module c.document.tree) (.statement s)) {n : FlowNode}
    (hn : statement .standard c s = some n) : Mirrors c s n := by
  rcases statement_cases h hs with ⟨-, hnone⟩ | ⟨-, n', hn', hmirrors⟩
  · simp [hnone] at hn
  · obtain rfl := Option.some.inj (hn'.symm.trans hn)
    exact hmirrors

lemma Mirrors.lineRange {c : Context} {s : Statement} {n : FlowNode} (h : Mirrors c s n) :
    n.codedata.lineRange =
      some ⟨c.document.fileName, s.span.start.position, s.span.stop.position⟩ := by
  cases h with
  | mk _ hbuilt _ _ _ => exact hbuilt.lineRange

lemma isModuleLevel_of_statement {e : Construct} {s : Statement} (he : ∀ m, e ≠ .module m)
    (hs : Inside e (.statement s)) : e.isModuleLevel = false := by
  match e, hs with
  | .module m, _ => exact absurd rfl (he m)
  | .variable d, hs => exact Construct.noConfusion (hs.eq_of_leaf rfl)
  | .function f, _ => rfl
  | .service d, _ => rfl
  | .classDefinition d, _ => rfl
  | .block b, _ => rfl
  | .statement t, _ => rfl

/-- Statements with nodes at the same line range are the same. -/
lemma eq_of_lineRange (h : Document.parse path text = .ok c.document) {s t : Statement}
    (hs : Inside (.module c.document.tree) (.statement s))
    (ht : Inside (.module c.document.tree) (.statement t))
    (hstart : t.span.start.position = s.span.start.position)
    (hstop : t.span.stop.position = s.span.stop.position) : t = s := by
  have hsself := Document.enclosing_self h hs (by simp)
  have htself := Document.enclosing_self h ht (by simp)
  rw [show (Construct.statement t).span = t.span from rfl, hstart, hstop] at htself
  exact Construct.statement.inj (Option.some.inj (htself.symm.trans hsself))

/-- A node in the diagram of a construct has the line range of a statement exactly when it is the
statement's node. -/
lemma mem_flowOf_iff (h : Document.parse path text = .ok c.document) {e : Construct}
    (he : Inside (.module c.document.tree) e) (hne : e ≠ .module c.document.tree) {s : Statement}
    (hs : Inside e (.statement s)) {n : FlowNode} :
    n ∈ nodesPreorder (flowOf .standard c e).nodes ∧ n.codedata.lineRange =
        some ⟨c.document.fileName, s.span.start.position, s.span.stop.position⟩ ↔
      statement .standard { c with tier := .local } s = some n := by
  have hmodule := he.ne_module hne
  have hrange : ∀ {t : Statement} {n : FlowNode}, Inside e (.statement t) →
      statement .standard { c with tier := .local } t = some n → n.codedata.lineRange =
        some ⟨c.document.fileName, t.span.start.position, t.span.stop.position⟩ :=
    fun ht hn =>
      (mirrors_of_statement (c := { c with tier := .local }) h (he.trans ht) hn).lineRange
  rw [nodes_flowOf h he hne, preorder_construct _ (isModuleLevel_of_statement hmodule hs),
    List.mem_filterMap]
  constructor
  · rintro ⟨⟨t, ht, hn⟩, hsame⟩
    have hin := (mem_allNested_iff hmodule).mp ht
    rw [hrange hin hn, Option.some.injEq, LineRange.mk.injEq] at hsame
    obtain rfl := eq_of_lineRange h (he.trans hs) (he.trans hin) hsame.2.1 hsame.2.2
    exact hn
  · intro hn
    exact ⟨⟨s, (mem_allNested_iff hmodule).mpr hs, hn⟩, hrange hs hn⟩

/-- The diagram of a statement's range shows the statement's node, or nothing when the statement is
unsupported. In the diagram of a construct around the statement, at whatever depth, this is the only
node that has the statement's line range; all nodes there, each before what it holds, are the nodes
that the nested statements have in their own diagrams. -/
theorem flowOf_zoomed (h : Document.parse path text = .ok c.document) {e : Construct}
    (he : Inside (.module c.document.tree) e) (hne : e ≠ .module c.document.tree) {s : Statement}
    (hs : Inside e (.statement s)) :
    (flowOf .standard c (.statement s)).nodes.length = (if s.isSupported then 1 else 0) ∧
      (∀ n ∈ (flowOf .standard c (.statement s)).nodes,
        Mirrors { c with tier := .local } s n) ∧
      (nodesPreorder (flowOf .standard c e).nodes).filter (fun n => n.codedata.lineRange =
          some ⟨c.document.fileName, s.span.start.position, s.span.stop.position⟩) =
        (flowOf .standard c (.statement s)).nodes ∧
      nodesPreorder (flowOf .standard c e).nodes =
        (Statement.allNested e.statements).flatMap fun t =>
          (flowOf .standard c (.statement t)).nodes := by
  have hmodule := he.ne_module hne
  have hlocal := isModuleLevel_of_statement hmodule hs
  have hzoom : ∀ {t : Statement}, Inside e (.statement t) →
      (flowOf .standard c (.statement t)).nodes =
        (statement .standard { c with tier := .local } t).toList :=
    fun ht => nodes_flowOf h (he.trans ht) (by simp)
  refine ⟨?_, fun n hn => ?_, ?_, ?_⟩
  · rw [hzoom hs]
    rcases statement_cases (c := { c with tier := .local }) h (he.trans hs) with
      ⟨hnot, hnone⟩ | ⟨hsupported, n, hn, -⟩
    · simp [hnot, hnone]
    · simp [hsupported, hn]
  · rw [hzoom hs, Option.mem_toList] at hn
    exact mirrors_of_statement (c := { c with tier := .local }) h (he.trans hs) hn
  · -- the nodes have ids of their own, so that none is there twice
    obtain ⟨-, -, -, hids⟩ := construct_mirrors h (Document.enclosing_self h he hne) hlocal
      (show ({ c with tier := .local } : Context).document = c.document from rfl)
    rw [← nodes_flowOf h he hne] at hids
    rw [hzoom hs]
    refine eq_toList_of_mem_iff (hids.of_map _ |>.filter _) fun n => ?_
    rw [List.mem_filter, decide_eq_true_eq]
    exact mem_flowOf_iff h he hne hs
  · rw [nodes_flowOf h he hne, preorder_construct _ hlocal, List.filterMap_eq_flatMap_toList]
    exact List.flatMap_congr fun t ht => (hzoom ((mem_allNested_iff hmodule).mp ht)).symm

/-- An assignment in an `else if` has one node, at whatever level of the function it is shown. -/
theorem flowOf_zoomed_assignment :
    ∃ c e s, Document.parse ⟨"main.bal"⟩
        "function f() \x7b\n if a \x7b \x7d else if b \x7b\n x = 1;\n \x7d\n\x7d\n" =
          .ok c.document ∧
      c.document.enclosing ⟨0, 0⟩ ⟨0, 8⟩ = some e ∧ Inside e (.statement s) ∧
      (flowOf .standard c (.statement s)).nodes.length = 1 ∧
      (nodesPreorder (flowOf .standard c e).nodes).filter (fun n => n.codedata.lineRange =
          some ⟨c.document.fileName, s.span.start.position, s.span.stop.position⟩) =
        (flowOf .standard c (.statement s)).nodes := by
  have hcheck : (Document.statementAt?
      "function f() \x7b\n if a \x7b \x7d else if b \x7b\n x = 1;\n \x7d\n\x7d\n" ⟨2, 1⟩
        ⟨2, 2⟩).any (fun read => read.2.isSupported &&
          (read.1.enclosing ⟨0, 0⟩ ⟨0, 8⟩).any fun e => !e.isModuleLevel &&
            e.span.covers read.2.span.start.byte read.2.span.stop.byte) = true := by
    decide +kernel
  obtain ⟨d, s, hd, hs, htest⟩ := Document.exists_of_statementAt? hcheck
  obtain ⟨hsupported, hany⟩ := (Bool.and_eq_true _ _).mp htest
  obtain ⟨e, he, haround⟩ := Option.any_eq_true _ _ |>.mp hany
  obtain ⟨hlevel, hcovers⟩ := (Bool.and_eq_true _ _).mp haround
  have hne : e ≠ .module d.tree := by
    rintro rfl
    simp [Construct.isModuleLevel] at hlevel
  have hin := Document.inside_of_covers hd (inside_enclosing he) hs (by simp) hcovers
  obtain ⟨hlength, -, hfilter, -⟩ :=
    flowOf_zoomed (c := ⟨d, .standard, fun _ => .error (.unavailable ""), .local, []⟩) hd
      (inside_enclosing he) hne hin
  rw [show s.isSupported = true from hsupported, if_pos rfl] at hlength
  exact ⟨⟨d, .standard, fun _ => .error (.unavailable ""), .local, []⟩, e, s, hd, he, hin,
    hlength, hfilter⟩

end Zooming

end Analysis

end FlowCanvas
