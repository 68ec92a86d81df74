import FlowCanvas.Proofs.Connections
import FlowCanvas.Proofs.Scopes

/-!
# Symbols of the open constructs

The symbols that are visible at a position are those that the open constructs declare, from the
module inwards.
-/

namespace FlowCanvas

namespace Scope

open Construct

/-! ### What a construct declares -/

/-- The symbol of a statement that is a declaration, from the end of the declaration on. -/
def localAt? (p : Position) : Statement → Option Symbol
  | .declaration d =>
    if d.span.stop.position ≤ p then some (.ofDeclaration .localVariable d) else none
  | _ => none

/-- The symbol of a parameter. It stands for the whole function. -/
def ofParameter (f : FunctionDefinition) (q : Parameter) : Symbol :=
  ⟨q.name, .parameter, some q.type.text, f.span⟩

/-- The symbols that a construct declares itself, in source order. -/
def declared (p : Position) : Construct → List Symbol
  | .module m => m.members.filterMap Symbol.ofMember?
  | .service s => s.fields.map (.ofDeclaration .classField)
  | .classDefinition c => c.fields.map (.ofDeclaration .classField)
  | .function f => f.parameters.map (ofParameter f)
  | .block b => b.statements.filterMap (localAt? p)
  | .variable _ => []
  | .statement _ => []

/-- The symbols that the open constructs inside a construct declare. -/
def symbolsIn (p : Position) (c : Construct) : List Symbol := (openAt p c).flatMap (declared p)

section Walk

variable {p : Position}

lemma symbolsIn_eq (c : Construct) : symbolsIn p c =
    declared p c ++ (c.children.filter (isOpen p)).flatMap (symbolsIn p) := by
  rw [symbolsIn, openAt_eq, List.flatMap_cons, List.flatMap_assoc]
  rfl

lemma symbolsIn_leaf {c : Construct} (hdeclared : declared p c = []) (hchildren : c.children = []) :
    symbolsIn p c = [] := by
  rw [symbolsIn_eq, hdeclared, hchildren]
  rfl

/-- Two lists that are made side by side are made one behind the other, when nothing of the second
comes in front of something of the first. -/
lemma flatMap_append_of_pairwise {α β : Type} {l : List α} {f g : α → List β}
    (h : l.Pairwise fun a b => g a = [] ∨ f b = []) :
    (l.flatMap fun a => f a ++ g a) = l.flatMap f ++ l.flatMap g := by
  induction l with
  | nil => rfl
  | cons a l ih =>
    obtain ⟨ha, hl⟩ := List.pairwise_cons.mp h
    rw [List.flatMap_cons, List.flatMap_cons, List.flatMap_cons, ih hl]
    by_cases hg : g a = []
    · simp [hg]
    · have hf : l.flatMap f = [] :=
        List.flatMap_eq_nil_iff.mpr fun b hb => (ha b hb).resolve_left hg
      simp [hf]

lemma flatMap_filter_eq {α β : Type} (test : α → Bool) (f : α → List β) (l : List α) :
    (l.filter test).flatMap f = l.flatMap fun a => if test a then f a else [] := by
  induction l with
  | nil => rfl
  | cons a l ih =>
    rw [List.flatMap_cons, ← ih]
    cases htest : test a <;> simp [htest]

lemma symbolsIn_statement (s : Statement) : symbolsIn p (.statement s) =
    (Construct.statement s).children.flatMap fun c => if isOpen p c then symbolsIn p c else [] := by
  rw [symbolsIn_eq, flatMap_filter_eq]
  rfl

end Walk

section Document

variable {path : Path} {text : String} {doc : Document} {p : Position}

/-- Constructs are not over when they start. -/
lemma not_started {c : Construct} (h : Document.parse path text = .ok doc)
    (hc : Inside (.module doc.tree) c) (hne : c ≠ .module doc.tree)
    (hlt : p < c.span.start.position) : ¬c.span.stop.position ≤ p := by
  intro hle
  have hfilled := Document.start_lt_stop h hc hne
  rw [Position.lt_def] at hlt hfilled
  rw [Position.le_def] at hle
  omega

/-- Where a declaration is over, the statements in front of it are closed. -/
lemma closed_before {s t : Statement} (h : Document.parse path text = .ok doc)
    (hs : Inside (.module doc.tree) (.statement s)) (ht : Inside (.module doc.tree) (.statement t))
    (hle : s.span.stop.byte ≤ t.span.start.byte) :
    isOpen p (.statement s) = false ∨ localAt? p t = none := by
  by_cases hopen : isOpen p (.statement s) = true
  · refine .inr ?_
    cases t with
    | declaration d =>
      simp only [isOpen, Bool.and_eq_true, decide_eq_true_eq] at hopen
      have hbetween := Document.stop_le_start h hs (by simp) ht (by simp) hle
      rw [localAt?, if_neg]
      exact not_started h ht (by simp) (Position.lt_of_lt_of_le hopen.2 hbetween)
    | _ => rfl
  · exact .inl (by simpa using hopen)

lemma isOpen_of_lt {s : Statement} (hlt : p < s.span.stop.position) :
    isOpen p (.statement s) = s.span.contains p := by
  simp [isOpen, Span.contains, hlt, Position.le_of_lt hlt]

lemma isOpen_of_le {s : Statement} (hle : s.span.stop.position ≤ p) :
    isOpen p (.statement s) = false := by
  simp [isOpen, Position.not_lt.mpr hle]

lemma statementLocals_leaf {s : Statement} (hchildren : (Construct.statement s).children = [])
    (hlocals : statementLocals p s = (localAt? p s).toList) :
    statementLocals p s = (localAt? p s).toList ++
      if isOpen p (.statement s) then symbolsIn p (.statement s) else [] := by
  rw [hlocals, symbolsIn_leaf rfl hchildren, ite_self, List.append_nil]

mutual

/-- A statement brings its own symbol into scope, or those in the blocks that are open. -/
lemma statementLocals_eq (h : Document.parse path text = .ok doc) : ∀ s : Statement,
    Inside (.module doc.tree) (.statement s) → statementLocals p s = (localAt? p s).toList ++
      if isOpen p (.statement s) then symbolsIn p (.statement s) else []
  | .declaration d, _ => statementLocals_leaf rfl (by
      rw [statementLocals, localAt?]
      split <;> rfl)
  | .conditional c, hs => by
    have hread := conditionalLocals_eq h c hs
    rw [statementLocals, show localAt? p (.conditional c) = none from rfl]
    by_cases hle : c.span.stop.position ≤ p
    · rw [if_pos hle, isOpen_of_le hle]
      rfl
    · have hlt := Position.not_le.mp hle
      rw [if_neg hle, isOpen_of_lt hlt, hread hlt]
      rfl
  | .loop value body span, hs => by
    have hbody := blockLocals_eq h body (hs.child List.mem_cons_self)
    rw [statementLocals, show localAt? p (.loop value body span) = none from rfl]
    by_cases hle : span.stop.position ≤ p
    · rw [if_pos hle, isOpen_of_le hle]
      rfl
    · rw [if_neg hle, isOpen_of_lt (Position.not_le.mp hle), hbody, symbolsIn_statement, children,
        List.flatMap_singleton]
      change _ = if span.contains p then
        if body.span.contains p then symbolsIn p (.block body) else [] else []
      cases span.contains p <;> rfl
  | .assignment .., _ => statementLocals_leaf rfl (by simp [statementLocals, localAt?])
  | .exit .., _ => statementLocals_leaf rfl (by simp [statementLocals, localAt?])
  | .jump .., _ => statementLocals_leaf rfl (by simp [statementLocals, localAt?])
  | .expression .., _ => statementLocals_leaf rfl (by simp [statementLocals, localAt?])
  | .unsupported .., _ => statementLocals_leaf rfl (by simp [statementLocals, localAt?])

lemma conditionalLocals_eq (h : Document.parse path text = .ok doc) : ∀ c : Conditional,
    Inside (.module doc.tree) (.statement (.conditional c)) → p < c.span.stop.position →
      conditionalLocals p c = symbolsIn p (.statement (.conditional c))
  | .mk value body alternative span, hc, hlt => by
    have hbody := blockLocals_eq h body (hc.child List.mem_cons_self)
    -- an `else` ends with the whole statement, which has not ended at `p`
    have hothers := alternativeLocals_eq h alternative fun child hchild => by
      have hstop := ((Document.parse_tight h _ hc).2 child hchild).2.2
      exact ⟨hc.child (List.mem_cons_of_mem _ hchild), hstop ▸ hlt⟩
    rw [conditionalLocals, hothers, hbody, symbolsIn_statement, flatMap_filter_eq]
    rfl

lemma alternativeLocals_eq (h : Document.parse path text = .ok doc) : ∀ a : Alternative,
    (∀ child ∈ ofAlternative a, Inside (.module doc.tree) child ∧ p < child.span.stop.position) →
      alternativeLocals p a = ((ofAlternative a).filter (isOpen p)).flatMap (symbolsIn p)
  | .absent, _ => rfl
  | .block b, hchildren => by
    have hb := blockLocals_eq h b (hchildren _ List.mem_cons_self).1
    rw [alternativeLocals, hb, flatMap_filter_eq, ofAlternative, List.flatMap_singleton]
    rfl
  | .chained next, hchildren => by
    obtain ⟨hnext, hlt⟩ := hchildren _ List.mem_cons_self
    rw [alternativeLocals, conditionalLocals_eq h next hnext hlt, flatMap_filter_eq, ofAlternative,
      List.flatMap_singleton, isOpen_of_lt hlt]
    rfl

/-- A block brings its own declarations into scope, and then those of the open constructs in it. -/
lemma blockLocals_eq (h : Document.parse path text = .ok doc) : ∀ b : Block,
    Inside (.module doc.tree) (.block b) → blockLocals p b = symbolsIn p (.block b)
  | .mk list span, hb => by
    have hlist : ∀ s ∈ list, Inside (.module doc.tree) (.statement s) :=
      fun s hs => hb.child (statement_child hs)
    have hordered := List.pairwise_map.mp ((Document.parse_nested h).2 _ hb).ordered
    rw [blockLocals, statementsLocals_eq h list hlist, flatMap_append_of_pairwise, symbolsIn_eq,
      flatMap_filter_eq, ← List.filterMap_eq_flatMap_toList, children, List.flatMap_map]
    · rfl
    · refine hordered.imp_of_mem fun {s t} hs ht hle => ?_
      rcases closed_before (p := p) h (hlist s hs) (hlist t ht) hle with hclosed | hnone
      · exact .inl (by rw [hclosed]; rfl)
      · exact .inr (by rw [hnone]; rfl)

lemma statementsLocals_eq (h : Document.parse path text = .ok doc) : ∀ list : List Statement,
    (∀ s ∈ list, Inside (.module doc.tree) (.statement s)) → statementsLocals p list =
      list.flatMap fun s => (localAt? p s).toList ++
        if isOpen p (.statement s) then symbolsIn p (.statement s) else []
  | [], _ => by rw [statementsLocals]; rfl
  | s :: list, hlist => by
    rw [List.forall_mem_cons] at hlist
    rw [statementsLocals, statementLocals_eq h s hlist.1, statementsLocals_eq h list hlist.2,
      List.flatMap_cons]

end

/-- In front of a block nothing of it is in scope. -/
lemma symbolsIn_block_of_lt (h : Document.parse path text = .ok doc) {b : Block}
    (hb : Inside (.module doc.tree) (.block b)) (hlt : p < b.span.start.position) :
    symbolsIn p (.block b) = [] := by
  have hstarts : ∀ s ∈ b.statements, Inside (.module doc.tree) (.statement s) ∧
      p < s.span.start.position := by
    intro s hs
    have hchild := statement_child hs
    have hwithin := Document.positions_within h hb (by simp) (Inside.refl.child hchild)
    exact ⟨hb.child hchild, Position.lt_of_lt_of_le hlt hwithin.1⟩
  rw [symbolsIn_eq, List.append_eq_nil_iff, declared, List.filterMap_eq_nil_iff]
  constructor
  · intro s hs
    cases s with
    | declaration d =>
      exact if_neg (not_started h (hstarts _ hs).1 (by simp) (hstarts _ hs).2)
    | _ => rfl
  · rw [flatMap_filter_eq, List.flatMap_eq_nil_iff]
    intro c hc
    obtain ⟨s, hs, rfl⟩ := List.mem_map.mp hc
    have hclosed : ¬s.span.start.position ≤ p := Position.not_le.mpr (hstarts s hs).2
    simp [isOpen, hclosed]

/-- A function brings its parameters into scope, and then the symbols of its body. -/
lemma functionLocals_eq (h : Document.parse path text = .ok doc) {f : FunctionDefinition}
    (hf : Inside (.module doc.tree) (.function f)) :
    functionLocals p f =
      if isOpen p (.function f) then symbolsIn p (.function f) else [] := by
  have hbody := hf.child (body_child f)
  have hstop := (Document.parse_tight h _ hf).2
  rw [functionLocals, blockLocals_eq h f.body hbody]
  change (if f.span.contains p then _ else _) = if f.span.contains p then _ else _
  by_cases hopen : f.span.contains p = true
  · rw [if_pos hopen, if_pos hopen, symbolsIn_eq (.function f), flatMap_filter_eq, children,
      List.flatMap_singleton]
    by_cases hopen' : f.body.span.contains p = true
    · rw [show isOpen p (.block f.body) = true from hopen', if_pos rfl]
      rfl
    · -- a function ends with its body, so that `p` is in front of the body
      have hlt : p < f.body.span.start.position := by
        rw [Span.contains, Bool.and_eq_true, decide_eq_true_eq, decide_eq_true_eq] at hopen hopen'
        rw [← hstop] at hopen'
        exact Position.not_le.mp fun hle => hopen' ⟨hle, hopen.2⟩
      rw [symbolsIn_block_of_lt h hbody hlt, ite_self]
      rfl
  · rw [if_neg hopen, if_neg hopen]

/-- An object brings its fields into scope, and then the symbols of its open functions. -/
lemma objectLocals_eq (h : Document.parse path text = .ok doc) {owner : Construct}
    {fields : List Declaration} {functions : List FunctionDefinition}
    (howner : Inside (.module doc.tree) owner)
    (hdeclared : declared p owner = fields.map (.ofDeclaration .classField))
    (hchildren : owner.children = functions.map .function) :
    objectLocals p fields functions = symbolsIn p owner := by
  rw [objectLocals, symbolsIn_eq, hdeclared, hchildren, flatMap_filter_eq, List.flatMap_map]
  refine congrArg _ (List.flatMap_congr fun f hf => ?_)
  exact functionLocals_eq h (howner.child (hchildren ▸ List.mem_map_of_mem hf))

/-- A member brings the symbols of its construct into scope while the construct is open. -/
lemma memberLocals_eq (h : Document.parse path text = .ok doc) {x : Member}
    (hx : x ∈ doc.tree.members) : memberLocals p x =
      (Construct.ofMember? x).toList.flatMap fun c =>
        if isOpen p c then symbolsIn p c else [] := by
  have hin : ∀ {c}, Construct.ofMember? x = some c → Inside (.module doc.tree) c :=
    fun hof => Inside.refl.child (member_child hx hof)
  cases x with
  | function f =>
    rw [memberLocals, functionLocals_eq h (hin rfl)]
    exact (List.flatMap_singleton _ _).symm
  | service s =>
    rw [memberLocals, objectLocals_eq h (hin rfl) rfl rfl]
    exact (List.flatMap_singleton _ _).symm
  | classDefinition d =>
    rw [memberLocals, objectLocals_eq h (hin rfl) rfl rfl]
    exact (List.flatMap_singleton _ _).symm
  | «variable» d =>
    simp [memberLocals, Construct.ofMember?, symbolsIn_leaf (c := .variable d) rfl rfl]
  | typeDefinition t => rfl

/-- The visible symbols are those that the open constructs declare, outermost first. -/
theorem visible_eq_symbolsIn (h : Document.parse path text = .ok doc) (p : Position) :
    visible doc.tree p = symbolsIn p (.module doc.tree) := by
  rw [visible, symbolsIn_eq, flatMap_filter_eq, children, List.filterMap_eq_flatMap_toList
    Construct.ofMember?, List.flatMap_assoc]
  exact congrArg _ (List.flatMap_congr fun x hx => memberLocals_eq h hx)

end Document

end Scope

end FlowCanvas
