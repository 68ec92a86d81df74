import FlowCanvas.Proofs.Editing

/-!
# The forest of nodes

The nodes of a construct mirror its statements: one node for each statement that has a kind, in
order, with the text of the statement as its source and the blocks of the statement as its branches.
The ids of all nodes, read a node before what it holds, are increasing positions of the source.
-/

namespace FlowCanvas

/-- The statements whose nodes a construct is shown as. -/
def Construct.statements : Construct → List Statement
  | .function f => f.body.statements
  | .service s => s.functions.flatMap (·.body.statements)
  | .classDefinition c => c.functions.flatMap (·.body.statements)
  | .block b => b.statements
  | .statement s => [s]
  | .module _ => []
  | .variable _ => []

/-- Whether a construct stands directly in its module and holds no statements of its own. -/
def Construct.isModuleLevel : Construct → Bool
  | .module _ => true
  | .variable _ => true
  | _ => false

namespace FlowNode

mutual

/-- A node and all nodes in it, each one before what it holds. -/
def preorder : FlowNode → List FlowNode
  | ⟨id, kind, metadata, codedata, properties, branches, flags⟩ =>
    ⟨id, kind, metadata, codedata, properties, branches, flags⟩ :: branchesPreorder branches

def branchesPreorder : List (Branch FlowNode) → List FlowNode
  | [] => []
  | ⟨_, _, children⟩ :: bs => nodesPreorder children ++ branchesPreorder bs

def nodesPreorder : List FlowNode → List FlowNode
  | [] => []
  | n :: ns => preorder n ++ nodesPreorder ns

end

lemma preorder_eq (n : FlowNode) : n.preorder = n :: branchesPreorder n.branches := by
  cases n
  rw [preorder]

lemma nodesPreorder_append (ns ms : List FlowNode) :
    nodesPreorder (ns ++ ms) = nodesPreorder ns ++ nodesPreorder ms := by
  induction ns with
  | nil => rfl
  | cons n ns ih => rw [List.cons_append, nodesPreorder, nodesPreorder, ih, List.append_assoc]

end FlowNode

namespace Analysis

open Build

mutual

/-- A node stands for a statement, and its branches for the statement's blocks. Its source is what
the text of the document has at the statement's span. -/
inductive Mirrors (c : Context) : Statement → FlowNode → Prop
  | mk {s : Statement} {n : FlowNode} {kind : NodeKind} {branches : List (Branch FlowNode)}
    {source : String} (hkind : kind? c s = some kind) (hbuilt : BuiltAt c kind s.span branches n)
    (hstands : c.document.StandsAt s.span source) (hsource : n.codedata.sourceCode = some source)
    (hbranches : MirrorsBranches c s branches) : Mirrors c s n

/-- An `if` has a branch for each block, a `while` one for its body. -/
inductive MirrorsBranches (c : Context) : Statement → List (Branch FlowNode) → Prop
  | conditional {value : Expression} {body : Block} {alternative : Alternative} {span : Span}
    {nodes : List FlowNode} {others : List (Branch FlowNode)}
    (hbody : MirrorsAll c body.statements nodes) (helse : MirrorsElse c alternative others) :
    MirrorsBranches c (.conditional (.mk value body alternative span))
      (.ofChildren Branch.thenLabel nodes :: others)
  | loop {value : Expression} {body : Block} {span : Span} {nodes : List FlowNode}
    (hbody : MirrorsAll c body.statements nodes) :
    MirrorsBranches c (.loop value body span) [.ofChildren Branch.bodyLabel nodes]
  | declaration {d : Declaration} : MirrorsBranches c (.declaration d) []
  | assignment {target : Phrase} {value : Expression} {span : Span} :
    MirrorsBranches c (.assignment target value span) []
  | exit {kind : ExitKind} {value : Option Expression} {span : Span} :
    MirrorsBranches c (.exit kind value span) []
  | jump {kind : JumpKind} {span : Span} : MirrorsBranches c (.jump kind span) []
  | expression {value : Expression} {span : Span} : MirrorsBranches c (.expression value span) []

/-- There is a branch for an `else` exactly where there is one; an `else if` is its only child. -/
inductive MirrorsElse (c : Context) : Alternative → List (Branch FlowNode) → Prop
  | absent : MirrorsElse c .absent []
  | block {body : Block} {nodes : List FlowNode} (hbody : MirrorsAll c body.statements nodes) :
    MirrorsElse c (.block body) [.ofChildren Branch.elseLabel nodes]
  | chained {next : Conditional} {n : FlowNode} (hnext : Mirrors c (.conditional next) n) :
    MirrorsElse c (.chained next) [.ofChildren Branch.elseLabel [n]]

/-- One node for each statement that has a kind, in order. -/
inductive MirrorsAll (c : Context) : List Statement → List FlowNode → Prop
  | nil : MirrorsAll c [] []
  | unsupported {construct : String} {span : Span} {list : List Statement} {nodes : List FlowNode}
    (hlist : MirrorsAll c list nodes) : MirrorsAll c (.unsupported construct span :: list) nodes
  | cons {s : Statement} {n : FlowNode} {list : List Statement} {nodes : List FlowNode}
    (hs : Mirrors c s n) (hlist : MirrorsAll c list nodes) :
    MirrorsAll c (s :: list) (n :: nodes)

end

lemma MirrorsAll.append {c : Context} {list list' : List Statement} {nodes nodes' : List FlowNode}
    (h : MirrorsAll c list nodes) (h' : MirrorsAll c list' nodes') :
    MirrorsAll c (list ++ list') (nodes ++ nodes') := by
  match h with
  | .nil => exact h'
  | .unsupported hlist => exact .unsupported (hlist.append h')
  | .cons hs hlist => exact .cons hs (hlist.append h')

section Standing

variable {path : Path} {text : String} {c : Context}

/-- Every statement of a document stands in its text. -/
lemma standsAt_of_inside (h : Document.parse path text = .ok c.document) {s : Statement}
    (hin : Construct.Inside (.module c.document.tree) (.statement s)) :
    ∃ source, c.document.StandsAt s.span source := by
  obtain ⟨-, htext, ts, cs, last, -, hchars, hscanned, -, hstands⟩ := Document.parse_stands h
  obtain ⟨before, used, after, rfl, hspells⟩ := hstands _ hin
  obtain ⟨front, gap, back, hstretch⟩ := hscanned.stretch hspells.covers
  rw [← hchars, ← htext] at hstretch
  exact ⟨_, hstretch.standsAt⟩

/-- A statement whose blocks are mirrored has a node as soon as it has a kind. -/
lemma mirrors_of_kind (h : Document.parse path text = .ok c.document) {s : Statement}
    (hin : Construct.Inside (.module c.document.tree) (.statement s)) {kind : NodeKind}
    (hkind : kind? c s = some kind)
    (hbranches : MirrorsBranches c s (branchesFor (branchesOf .standard c s) s)) :
    ∃ n, statement .standard c s = some n ∧ Mirrors c s n := by
  obtain ⟨n, hn, hbuilt⟩ := built_ofBranches hkind (branchesOf .standard c s)
  obtain ⟨source, hstands⟩ := standsAt_of_inside h hin
  exact ⟨n, hn, .mk hkind hbuilt hstands (hbuilt.sourceCode source hstands) hbranches⟩

mutual

lemma mirrors_statement (h : Document.parse path text = .ok c.document) :
    ∀ s : Statement, Construct.Inside (.module c.document.tree) (.statement s) →
      (∃ kind, kind? c s = some kind) → ∃ n, statement .standard c s = some n ∧ Mirrors c s n
  | .declaration d, hin, ⟨_, hkind⟩ => mirrors_of_kind h hin hkind .declaration
  | .assignment target value span, hin, ⟨_, hkind⟩ => mirrors_of_kind h hin hkind .assignment
  | .conditional read, hin, _ => mirrors_conditional h read hin
  | .loop value body span, hin, ⟨_, hkind⟩ => mirrors_of_kind h hin hkind (by
      rw [branchesOf]
      exact .loop (mirrors_block h body (hin.child List.mem_cons_self)))
  | .exit kind value span, hin, ⟨_, hkind⟩ => mirrors_of_kind h hin hkind .exit
  | .jump kind span, hin, ⟨_, hkind⟩ => mirrors_of_kind h hin hkind .jump
  | .expression value span, hin, ⟨_, hkind⟩ => mirrors_of_kind h hin hkind .expression
  | .unsupported construct span, _, ⟨_, hkind⟩ => by simp [kind?] at hkind

lemma mirrors_conditional (h : Document.parse path text = .ok c.document) :
    ∀ read : Conditional,
      Construct.Inside (.module c.document.tree) (.statement (.conditional read)) →
      ∃ n, statement .standard c (.conditional read) = some n ∧ Mirrors c (.conditional read) n
  | .mk value body alternative span, hin => mirrors_of_kind h hin rfl (by
      rw [branchesOf, conditional]
      exact .conditional (mirrors_block h body (hin.child List.mem_cons_self))
        (mirrors_else h alternative fun inner hinner =>
          hin.child (List.mem_cons_of_mem _ hinner)))

lemma mirrors_else (h : Document.parse path text = .ok c.document) :
    ∀ alternative : Alternative, (∀ inner ∈ Construct.ofAlternative alternative,
      Construct.Inside (.module c.document.tree) inner) →
      MirrorsElse c alternative (elseBranch .standard c alternative)
  | .absent, _ => by
    rw [elseBranch]
    exact .absent
  | .block body, hin => by
    rw [elseBranch]
    exact .block (mirrors_block h body (hin _ List.mem_cons_self))
  | .chained next, hin => by
    obtain ⟨n, hn, hmirrors⟩ := mirrors_conditional h next (hin _ List.mem_cons_self)
    rw [statement, branchesOf] at hn
    rw [elseBranch, hn]
    exact .chained hmirrors

lemma mirrors_block (h : Document.parse path text = .ok c.document) :
    ∀ b : Block, Construct.Inside (.module c.document.tree) (.block b) →
      MirrorsAll c b.statements (block .standard c b)
  | .mk list span, hin => by
    rw [block]
    exact mirrors_statements h list fun s hs => hin.child (List.mem_map_of_mem hs)

lemma mirrors_statements (h : Document.parse path text = .ok c.document) :
    ∀ list : List Statement,
      (∀ s ∈ list, Construct.Inside (.module c.document.tree) (.statement s)) →
      MirrorsAll c list (statements .standard c list)
  | [], _ => by
    rw [statements]
    exact .nil
  | s :: list, hin => by
    have hlist := mirrors_statements h list fun s hs => hin s (List.mem_cons_of_mem _ hs)
    rw [statements]
    cases hkind : kind? c s with
    | none =>
      obtain ⟨construct, span, rfl⟩ := kind?_eq_none hkind
      exact .unsupported hlist
    | some kind =>
      obtain ⟨n, hn, hmirrors⟩ := mirrors_statement h s (hin s List.mem_cons_self) ⟨kind, hkind⟩
      rw [statement] at hn
      rw [hn]
      exact .cons hmirrors hlist

end

end Standing

/-! ### Ids -/

/-- The ids of nodes are the positions of tokens, in order. -/
def Numbered (nodes : List FlowNode) (ts : Phrase) : Prop :=
  ∃ ps : List Position, nodes.map (·.id) = ps.map (fun p => some p.render) ∧
    ps.Sublist (ts.map Token.position)

lemma numbered_nil (ts : Phrase) : Numbered [] ts := ⟨[], rfl, List.nil_sublist _⟩

lemma Numbered.append {ns ms : List FlowNode} {ts us : Phrase} (h : Numbered ns ts)
    (h' : Numbered ms us) : Numbered (ns ++ ms) (ts ++ us) := by
  obtain ⟨ps, hps, hsub⟩ := h
  obtain ⟨qs, hqs, hsub'⟩ := h'
  refine ⟨ps ++ qs, by rw [List.map_append, List.map_append, hps, hqs], ?_⟩
  rw [List.map_append]
  exact hsub.append hsub'

lemma Numbered.mono {ns : List FlowNode} {ts us : Phrase} (h : Numbered ns ts)
    (hsub : ts.Sublist us) : Numbered ns us := by
  obtain ⟨ps, hps, hsub'⟩ := h
  exact ⟨ps, hps, hsub'.trans (hsub.map _)⟩

lemma Numbered.within {ns : List FlowNode} {ts : Phrase} (h : Numbered ns ts)
    (before after : Phrase) : Numbered ns (before ++ (ts ++ after)) :=
  h.mono ((List.sublist_append_left ts after).trans (List.sublist_append_right before _))

lemma Numbered.prepend {ns : List FlowNode} {ts : Phrase} (h : Numbered ns ts) (us : Phrase) :
    Numbered ns (us ++ ts) :=
  (numbered_nil us).append h

/-- The node at a span has the position of the span's first token. -/
lemma numbered_preorder {c : Context} {kind : NodeKind} {span : Span}
    {branches : List (Branch FlowNode)} {n : FlowNode} {word : Token} {ts : Phrase}
    (hbuilt : BuiltAt c kind span branches n) (hcovers : Parser.Covers span (word :: ts))
    (h : Numbered (FlowNode.branchesPreorder branches) ts) : Numbered n.preorder (word :: ts) := by
  obtain ⟨first, last, hfirst, -, rfl⟩ := hcovers
  obtain rfl := Option.some.inj hfirst
  obtain ⟨ps, hps, hsub⟩ := h
  rw [FlowNode.preorder_eq, hbuilt.branches]
  refine ⟨word.position :: ps, ?_, hsub.cons_cons _⟩
  rw [List.map_cons, List.map_cons, hps, hbuilt.id]
  rfl

mutual

lemma numbered_node {c : Context} {s : Statement} {n : FlowNode} {ts rest : Phrase}
    (hs : Parser.Spells s ts rest) (h : Mirrors c s n) : Numbered n.preorder ts := by
  have hcovers := hs.covers
  obtain @⟨_, _, kind, branches, _, -, hbuilt, -, -, hbranches⟩ := h
  match hs with
  | .leaf hleaf =>
    obtain ⟨word, more, hts⟩ := List.exists_cons_of_ne_nil (Parser.spells_ne_nil (.leaf hleaf))
    have hempty : Numbered (FlowNode.branchesPreorder branches) more := by
      cases hleaf <;> cases hbranches <;> exact numbered_nil more
    rw [hts] at hcovers ⊢
    exact numbered_preorder hbuilt hcovers hempty
  | .conditional hword hread =>
    exact numbered_preorder hbuilt hcovers (numbered_conditional hread hbranches)
  | .loop hword hvalue hbody =>
    refine numbered_preorder hbuilt hcovers (Numbered.prepend ?_ _)
    cases hbranches with
    | loop hmirrors =>
      simpa [FlowNode.branchesPreorder, Branch.ofChildren] using numbered_block hbody hmirrors

lemma numbered_conditional {c : Context} {read : Conditional} {word : Token}
    {branches : List (Branch FlowNode)} {ts rest : Phrase}
    (hread : Parser.SpellsConditional read word ts rest)
    (h : MirrorsBranches c (.conditional read) branches) :
    Numbered (FlowNode.branchesPreorder branches) ts := by
  match hread with
  | @Parser.SpellsConditional.absent _ value body us _ hvalue hbody hnext =>
    cases h with
    | conditional hmirrors helse =>
      cases helse with
      | absent =>
        have hthen := (numbered_block hbody hmirrors).prepend value.tokens
        simpa [FlowNode.branchesPreorder, Branch.ofChildren] using hthen
  | @Parser.SpellsConditional.block _ other value body last us vs _ hvalue hbody hword hlast =>
    cases h with
    | conditional hmirrors helse =>
      cases helse with
      | block hmirrors' =>
        have hthen := (numbered_block hbody hmirrors).prepend value.tokens
        have helse := (numbered_block hlast hmirrors').prepend [other]
        simpa [FlowNode.branchesPreorder, Branch.ofChildren] using hthen.append helse
  | @Parser.SpellsConditional.chained _ other word' value body next us vs _ hvalue hbody hword hif
      hnext =>
    cases h with
    | conditional hmirrors helse =>
      cases helse with
      | chained hmirrors' =>
        obtain ⟨-, hbuilt, -, -, hbranches⟩ := hmirrors'
        have hthen := (numbered_block hbody hmirrors).prepend value.tokens
        have helse := (numbered_preorder hbuilt hnext.covers
          (numbered_conditional hnext hbranches)).prepend [other]
        simpa [FlowNode.branchesPreorder, FlowNode.nodesPreorder, Branch.ofChildren] using
          hthen.append helse

lemma numbered_block {c : Context} {b : Block} {nodes : List FlowNode} {ts : Phrase}
    (hb : Parser.SpellsBlock b ts) (h : MirrorsAll c b.statements nodes) :
    Numbered (FlowNode.nodesPreorder nodes) ts := by
  match hb with
  | .mk hbrace hclose hlist => exact (numbered_all hlist h).mono (by simp)

lemma numbered_all {c : Context} {list : List Statement} {nodes : List FlowNode}
    {ts rest : Phrase} (hlist : Parser.SpellsAll list ts rest) (h : MirrorsAll c list nodes) :
    Numbered (FlowNode.nodesPreorder nodes) ts := by
  match hlist with
  | .nil =>
    cases h
    exact numbered_nil []
  | .cons hfirst hs hothers =>
    cases h with
    | unsupported h => exact (numbered_all hothers h).prepend _
    | cons hmirrors h => exact (numbered_node hs hmirrors).append (numbered_all hothers h)

end

end Analysis

namespace Lexer

/-- Tokens stand at increasing positions. -/
lemma Scanned.positions {here : Place} {cs rest : List Char} {ts : Phrase}
    (h : Scanned here cs ts rest) :
    (∀ p ∈ ts.map Token.position, here.position ≤ p) ∧
      (ts.map Token.position).Pairwise (· < ·) := by
  induction h with
  | nil here rest => simp
  | @cons here gap text cs rest kind ts hgap hstart hrest ih =>
    obtain ⟨hbelow, hpairwise⟩ := ih
    have hgap' : here.position ≤ (here.advance gap).position := here.position_le_advance gap
    have htext : (here.advance gap).position < ((here.advance gap).advance text).position := by
      obtain ⟨-, c, cs, rfl, -⟩ := hstart
      exact Place.position_lt_advance _ (by simp)
    have hafter : ∀ p ∈ ts.map Token.position, (here.advance gap).position < p := fun p hp =>
      Position.lt_of_lt_of_le htext (hbelow p hp)
    constructor
    · intro p hp
      rcases List.mem_cons.mp hp with rfl | hmem
      · exact hgap'
      · exact Position.le_trans hgap' (Position.le_of_lt (hafter p hmem))
    · exact List.pairwise_cons.mpr ⟨hafter, hpairwise⟩

end Lexer

namespace Analysis

open FlowCanvas.Parser

section Numbering

variable {path : Path} {text : String} {c : Context}
  (h : Document.parse path text = .ok c.document)
include h

/-- The nodes of functions are numbered by the tokens that hold their bodies. -/
lemma numbered_functions {list : List FunctionDefinition}
    (hin : ∀ f ∈ list, Construct.Inside (.module c.document.tree) (.function f)) {ts : Phrase}
    (hstands : Holds ts (list.map (·.body))) :
    MirrorsAll c (list.flatMap (·.body.statements))
        (list.flatMap fun f => block .standard c f.body) ∧
      Numbered (FlowNode.nodesPreorder (list.flatMap fun f => block .standard c f.body)) ts := by
  induction list generalizing ts with
  | nil => exact ⟨.nil, numbered_nil ts⟩
  | cons f list ih =>
    cases hstands with
    | cons hb hbs =>
      have hmirrors := mirrors_block h f.body ((hin f List.mem_cons_self).child List.mem_cons_self)
      obtain ⟨hothers, hnumbered⟩ := ih (fun g hg => hin g (List.mem_cons_of_mem _ hg)) hbs
      rw [List.flatMap_cons, List.flatMap_cons, FlowNode.nodesPreorder_append]
      exact ⟨hmirrors.append hothers, ((numbered_block hb hmirrors).append hnumbered).prepend _⟩

/-- The nodes of a construct are numbered by its tokens. -/
lemma numbered_construct {found : Construct} (hlocal : found.isModuleLevel = false)
    (hin : Construct.Inside (.module c.document.tree) found) {ts : Phrase}
    (hstands : Construct.Stands ts found) :
    MirrorsAll c found.statements (construct .standard c found) ∧
      Numbered (FlowNode.nodesPreorder (construct .standard c found)) ts := by
  match found, hin, hstands with
  | .function f, hin, hstands =>
    have hfunction : ∀ g ∈ [f], Construct.Inside (.module c.document.tree) (.function g) :=
      List.forall_mem_singleton.mpr hin
    have hnumbered := numbered_functions h hfunction hstands
    rw [List.flatMap_singleton, List.flatMap_singleton] at hnumbered
    exact hnumbered
  | .service s, hin, hstands =>
    exact numbered_functions h (fun f hf => hin.child (List.mem_map_of_mem hf)) hstands
  | .classDefinition d, hin, hstands =>
    exact numbered_functions h (fun f hf => hin.child (List.mem_map_of_mem hf)) hstands
  | .block b, hin, hstands =>
    obtain ⟨before, used, after, rfl, hb⟩ := holds_singleton_iff.mp hstands
    have hmirrors := mirrors_block h b hin
    refine ⟨hmirrors, ?_⟩
    exact (numbered_block hb hmirrors).within before after
  | .statement s, hin, hstands =>
    obtain ⟨before, used, after, rfl, hspells⟩ := hstands
    cases hkind : kind? c s with
    | none =>
      obtain ⟨construct, span, rfl⟩ := kind?_eq_none hkind
      exact ⟨.unsupported .nil, numbered_nil _⟩
    | some kind =>
      obtain ⟨n, hn, hmirrors⟩ := mirrors_statement h s hin ⟨kind, hkind⟩
      rw [construct, hn]
      refine ⟨.cons hmirrors .nil, ?_⟩
      have hnode := (numbered_node hspells hmirrors).within before after
      simpa [FlowNode.nodesPreorder] using hnode

end Numbering

/-- No builder fails on what the classifier hands to it. -/
lemma build_of_classified {c : Context} {s : Statement} {branches : List (Branch FlowNode)}
    {found : NodeKind × Site} (h : ofStatement c s branches = some found) :
    ∃ n, (Builders.standard.get found.1).build c found.2 = .ok n := by
  cases hkind : kind? c s with
  | none =>
    obtain ⟨construct, span, rfl⟩ := kind?_eq_none hkind
    simp [ofStatement] at h
  | some kind =>
    obtain ⟨site, hsite, -, hsuits, -⟩ := suits_ofStatement hkind branches
    rw [h] at hsite
    obtain rfl := Option.some.inj hsite
    obtain ⟨n, hn, -⟩ := Build.builtAt_node c hsuits
    exact ⟨n, hn⟩

/-- The forest of nodes of a construct mirrors its forest of statements. No builder fails, and the
ids in preorder are increasing positions, so that no two nodes share one. -/
theorem construct_mirrors {path : Path} {text : String} {d : Document}
    (hparse : Document.parse path text = .ok d) {start stop : Position} {found : Construct}
    (hfound : d.enclosing start stop = some found) (hlocal : found.isModuleLevel = false)
    {c : Context} (hdocument : c.document = d) :
    MirrorsAll c found.statements (construct .standard c found) ∧
      (∀ s branches at', ofStatement c s branches = some at' →
        ∃ n, (Builders.standard.get at'.1).build c at'.2 = .ok n) ∧
      (∃ ps : List Position, ps.Pairwise (· < ·) ∧
        (FlowNode.nodesPreorder (construct .standard c found)).map (·.id) =
          ps.map fun p => some p.render) ∧
      ((FlowNode.nodesPreorder (construct .standard c found)).map (·.id)).Nodup := by
  subst hdocument
  obtain ⟨-, -, ts, cs, last, -, -, hscanned, -, hstands⟩ := Document.parse_stands hparse
  have hinside := Construct.inside_enclosing hfound
  obtain ⟨hmirrors, ps, hps, hsub⟩ :=
    numbered_construct hparse hlocal hinside (hstands found hinside)
  have hpairwise : ps.Pairwise (· < ·) := hscanned.positions.2.sublist hsub
  refine ⟨hmirrors, fun s branches at' => build_of_classified, ⟨ps, hpairwise, hps⟩, ?_⟩
  rw [hps]
  refine hpairwise.map _ fun p q hlt heq => ?_
  obtain rfl := Position.render_injective (Option.some.inj heq)
  rw [Position.lt_def] at hlt
  omega

/-- A function whose `if` has an `else if`, in a context with a mapping and no templates. -/
theorem construct_mirrors_chain :
    ∃ d found, Document.parse ⟨"main.bal"⟩
        "function f() \x7b if a \x7b \x7d else if b \x7b x = 1; \x7d \x7d" = .ok d ∧
      d.enclosing ⟨0, 0⟩ ⟨0, 45⟩ = some found ∧ found.isModuleLevel = false ∧
      MirrorsAll ⟨d, .standard, fun _ => .error (.unavailable ""), .local, ["g"]⟩ found.statements
        (construct .standard ⟨d, .standard, fun _ => .error (.unavailable ""), .local, ["g"]⟩
          found) := by
  have hcheck : (Document.parse ⟨"main.bal"⟩
        "function f() \x7b if a \x7b \x7d else if b \x7b x = 1; \x7d \x7d").toOption.any
      (fun d => (d.enclosing ⟨0, 0⟩ ⟨0, 45⟩).any (!·.isModuleLevel)) = true := by
    decide +kernel
  obtain ⟨d, hd, hany⟩ := Option.any_eq_true _ _ |>.mp hcheck
  obtain ⟨found, hfound, hlocal⟩ := Option.any_eq_true _ _ |>.mp hany
  have hparse : Document.parse ⟨"main.bal"⟩
      "function f() \x7b if a \x7b \x7d else if b \x7b x = 1; \x7d \x7d" = .ok d := by
    cases hread : Document.parse ⟨"main.bal"⟩
        "function f() \x7b if a \x7b \x7d else if b \x7b x = 1; \x7d \x7d" with
    | error e => simp [hread, Except.toOption] at hd
    | ok d' => simpa [hread, Except.toOption] using hd
  rw [Bool.not_eq_true'] at hlocal
  exact ⟨d, found, hparse, hfound, hlocal, (construct_mirrors hparse hfound hlocal rfl).1⟩

end Analysis

end FlowCanvas
