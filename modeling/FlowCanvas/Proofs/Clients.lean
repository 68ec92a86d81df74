import FlowCanvas.Proofs.Scoping

/-!
# Clients of remote calls

The client of a remote call is looked up among all symbols in scope, whether it is written as a name
or as a field of the object. A parameter or a local hides a field of its name either way.
-/

namespace FlowCanvas

namespace Scope

open Construct

lemma dropLeading_append (beginning text : String) :
    dropLeading beginning (beginning ++ text) = text := by
  have hprefix : beginning.toList.isPrefixOf (beginning ++ text).toList = true := by
    rw [String.toList_append, List.isPrefixOf_iff_prefix]
    exact List.prefix_append _ _
  rw [dropLeading, if_pos hprefix, String.toList_append, ← String.length_toList,
    List.drop_left, String.ofList_toList]

lemma dropLeading_of_not_prefix {beginning text : String}
    (h : ¬beginning.toList <+: text.toList) : dropLeading beginning text = text := by
  rw [dropLeading, if_neg]
  rwa [List.isPrefixOf_iff_prefix]

/-! ### Types of names -/

/-- The type of the last symbol of a name. -/
def typeOf? (symbols : List Symbol) (name : String) : Option String :=
  (symbols.reverse.find? fun s => s.name == name).bind (·.type)

lemma connectionClass?_eq (m : SourceModule) (classes : ClassIndex) (client : String)
    (p : Position) : connectionClass? m classes client p =
      (typeOf? (visible m p) (dropLeading "self." client)).bind (clientType? m classes) :=
  (Option.bind_assoc _ _ _).symm

/-- Later symbols with types hide earlier ones. -/
lemma typeOf?_append {front back : List Symbol} (h : ∀ s ∈ back, s.type.isSome) (name : String) :
    typeOf? (front ++ back) name = (typeOf? back name).or (typeOf? front name) := by
  rw [typeOf?, List.reverse_append, List.find?_append, typeOf?, typeOf?]
  cases hfind : back.reverse.find? fun s => s.name == name with
  | none => rfl
  | some symbol =>
    have hmem := List.mem_reverse.mp (List.mem_of_find?_eq_some hfind)
    obtain ⟨type, htype⟩ := Option.isSome_iff_exists.mp (h symbol hmem)
    simp [htype]

/-- The type of a name among symbols that are made from entries with names and types. -/
lemma typeOf?_map {α : Type} {symbol : α → Symbol} (entry : α → String × String)
    (h : ∀ a, (symbol a).name = (entry a).1 ∧ (symbol a).type = some (entry a).2) (l : List α)
    (name : String) : typeOf? (l.map symbol) name = (l.map entry).reverse.lookup name := by
  rw [typeOf?, ← List.map_reverse, ← List.map_reverse]
  induction l.reverse with
  | nil => rfl
  | cons a l ih =>
    obtain ⟨hname, htype⟩ := h a
    rw [List.map_cons, List.map_cons, List.find?_cons, List.lookup_cons, hname, BEq.comm]
    cases (name == (entry a).1) with
    | true => exact htype
    | false => exact ih

/-- The names of a function's parameters and of some locals, with their types. -/
def innerTypes (f : FunctionDefinition) (locals : List Declaration) : List (String × String) :=
  f.parameters.map (fun q => (q.name, q.type.text)) ++ locals.map fun d => (d.name, d.type.text)

lemma typeOf?_inner (f : FunctionDefinition) (locals : List Declaration) (name : String) :
    typeOf? (f.parameters.map (ofParameter f) ++
      locals.map (Symbol.ofDeclaration .localVariable)) name =
        (innerTypes f locals).reverse.lookup name := by
  have htyped : ∀ s ∈ locals.map (Symbol.ofDeclaration .localVariable), s.type.isSome :=
    List.forall_mem_map.mpr fun d _ => rfl
  rw [typeOf?_append htyped,
    typeOf?_map (fun d => (d.name, d.type.text)) (by simp [Symbol.ofDeclaration]),
    typeOf?_map (fun q => (q.name, q.type.text)) (by simp [ofParameter]), innerTypes,
    List.reverse_append, List.lookup_append]

section Calls

variable {path : Path} {text : String} {doc : Document} {p : Position} {x : Member}
  {f : FunctionDefinition}

/-- What stands around a local in scope stands around every later local in scope. -/
lemma blocks_inward (h : Document.parse path text = .ok doc)
    (hf : Inside (.module doc.tree) (.function f)) {d e : Declaration} {b : Block}
    (he : Inside (.function f) (.statement (.declaration e))) (hd : InScope p f d)
    (hscope : InScope p f e) (hle : d.span.stop.byte ≤ e.span.start.byte)
    (hb : Inside (.function f) (.block b)) (hin : Inside (.block b) (.statement (.declaration d))) :
    Inside (.block b) (.statement (.declaration e)) := by
  have hblock := hf.trans hb
  have hinside := hf.trans he
  refine Document.inside_of_covers h hblock hinside (by simp) (covers_iff.mpr ⟨?_, ?_⟩)
  · have hbounds := Inside.bounds (Document.parse_nested h).2 hblock hin
    have hfilled := (Document.parse_placed h (hblock.trans hin) (by simp)).1
    exact hbounds.1.trans (hfilled.le.trans hle)
  · -- the block would end in front of the position
    by_contra hlt
    have hstop := (Document.parse_placed h hblock (by simp)).2.2.position_lt
      (Document.parse_placed h hinside (by simp)).2.2 (Nat.lt_of_not_le hlt)
    exact Position.not_le.mpr hstop
      (Position.le_trans hscope.declared (hd.blocks b hb hin))

/-- A statement stands strictly inside of its function. -/
lemma statement_strict (h : Document.parse path text = .ok doc)
    (hf : Inside (.module doc.tree) (.function f)) {s : Statement}
    (hs : Inside (.function f) (.statement s)) :
    f.span.start.position < s.span.start.position ∧
      s.span.start.position < f.span.stop.position := by
  have hbody := hf.child (body_child f)
  have hin := hs.of_function.resolve_left (by simp)
  have hwithin := Document.positions_within h hbody (by simp) hin
  have hspan := Document.start_lt_stop h (hf.trans hs) (by simp)
  obtain ⟨hstart, hstop⟩ := Document.parse_tight h _ hf
  have hfront := (Document.parse_placed h hf (by simp)).2.1.position_lt
    (Document.parse_placed h hbody (by simp)).2.1 hstart
  refine ⟨Position.lt_of_lt_of_le hfront hwithin.1, ?_⟩
  rw [show f.span.stop = f.body.span.stop from hstop]
  exact Position.lt_of_lt_of_le hspan hwithin.2

/-- A call on `name` or `self.name` is resolved by the innermost and latest parameter or local of
that name in scope, and by the field of the object only where there is none. -/
theorem connectionClass?_scoped (h : Document.parse path text = .ok doc)
    (hx : x ∈ doc.tree.members) (hf : f ∈ x.functions) {s : Statement}
    (hs : Inside (.function f) (.statement s)) (classes : ClassIndex) (client name : String)
    (hclient : client = "self." ++ name ∨
      client = name ∧ ¬"self.".toList <+: name.toList) :
    ∃ locals : List Declaration,
      (∀ d, d ∈ locals ↔ Inside (.function f) (.statement (.declaration d)) ∧
        InScope s.span.start.position f d) ∧
      (locals.Pairwise fun a b => a.span.stop.byte ≤ b.span.start.byte ∧
        ∀ around, Inside (.function f) (.block around) →
          Inside (.block around) (.statement (.declaration a)) →
            Inside (.block around) (.statement (.declaration b))) ∧
      (∀ type, (innerTypes f locals).reverse.lookup name = some type →
        connectionClass? doc.tree classes client s.span.start.position =
          clientType? doc.tree classes type) ∧
      ((innerTypes f locals).reverse.lookup name = none →
        ∀ type, (x.fields.map fun d => (d.name, d.type.text)).reverse.lookup name = some type →
          connectionClass? doc.tree classes client s.span.start.position =
            clientType? doc.tree classes type) := by
  have hin := inside_of_member hx hf
  obtain ⟨hstart, hstop⟩ := statement_strict h hin hs
  obtain ⟨locals, hlocals, hordered, hmem⟩ := exists_locals h hx hf
    (contains_iff.mpr ⟨Position.le_of_lt hstart, Position.le_of_lt hstop⟩)
  have hname : dropLeading "self." client = name := by
    rcases hclient with rfl | ⟨rfl, hnot⟩
    · exact dropLeading_append "self." name
    · exact dropLeading_of_not_prefix hnot
  have htyped : ∀ symbol ∈ f.parameters.map (ofParameter f) ++
      locals.map (Symbol.ofDeclaration .localVariable), symbol.type.isSome :=
    List.forall_mem_append.mpr
      ⟨List.forall_mem_map.mpr fun q _ => rfl, List.forall_mem_map.mpr fun d _ => rfl⟩
  have hfields : ∀ symbol ∈ x.fields.map (Symbol.ofDeclaration .classField),
      symbol.type.isSome := List.forall_mem_map.mpr fun d _ => rfl
  have hclass : connectionClass? doc.tree classes client s.span.start.position =
      (((innerTypes f locals).reverse.lookup name).or
        (((x.fields.map fun d => (d.name, d.type.text)).reverse.lookup name).or
          (typeOf? (doc.tree.members.filterMap Symbol.ofMember?) name))).bind
            (clientType? doc.tree classes) := by
    rw [connectionClass?_eq, visible_strict h hx hf hstart hstop, hlocals, hname, outerSymbols,
      List.append_assoc, List.append_assoc, ← List.append_assoc, typeOf?_append htyped,
      typeOf?_inner, typeOf?_append hfields,
      typeOf?_map (fun d => (d.name, d.type.text)) (by simp [Symbol.ofDeclaration])]
  refine ⟨locals, hmem, hordered.imp_of_mem fun {a b} ha hb hle => ⟨hle, fun around haround hin' =>
    blocks_inward h hin ((hmem b).mp hb).1 ((hmem a).mp ha).2 ((hmem b).mp hb).2 hle haround hin'⟩,
    fun type htype => ?_, fun hnone type htype => ?_⟩
  · rw [hclass, htype, Option.some_or, Option.bind_some]
  · rw [hclass, hnone, htype, Option.none_or, Option.some_or, Option.bind_some]

/-- A parameter hides the field that a call names, and the call gets the class of the parameter. -/
theorem connectionClass?_scoped_hidden :
    ∃ doc x f s, Document.parse ⟨"main.bal"⟩ ("import ballerina/http; client class A \x7b\x7d " ++
        "service / on l \x7b http:Client c = check new (1); " ++
        "function f(A c) \x7b self.c->get(); \x7d \x7d") = .ok doc ∧
      x ∈ doc.tree.members ∧ f ∈ x.functions ∧ Inside (.function f) (.statement s) ∧
      (x.fields.map fun d => (d.name, d.type.text)) = [("c", "http:Client")] ∧
      connectionClass? doc.tree .standard "self.c" s.span.start.position =
        clientType? doc.tree .standard "A" ∧
      clientType? doc.tree .standard "A" ≠ clientType? doc.tree .standard "http:Client" := by
  have hcheck : (Document.parse ⟨"main.bal"⟩ ("import ballerina/http; client class A \x7b\x7d " ++
      "service / on l \x7b http:Client c = check new (1); " ++
      "function f(A c) \x7b self.c->get(); \x7d \x7d")).toOption.any
        (fun doc => (clientType? doc.tree .standard "A" !=
            clientType? doc.tree .standard "http:Client") &&
          doc.tree.members.any fun x =>
            ((x.fields.map fun d => (d.name, d.type.text)) == [("c", "http:Client")]) &&
            x.functions.any fun f =>
              ((f.parameters.map fun q => (q.name, q.type.text)) == [("c", "A")]) &&
              f.body.statements.any fun s =>
                (visible doc.tree s.span.start.position).all (·.kind != .localVariable)) =
          true := by
    decide +kernel
  obtain ⟨doc, hdoc, htest⟩ := exists_ok_of_any hcheck
  obtain ⟨hclasses, hany⟩ := (Bool.and_eq_true _ _).mp htest
  obtain ⟨x, hx, hmember⟩ := List.any_eq_true.mp hany
  obtain ⟨hfields, hany⟩ := (Bool.and_eq_true _ _).mp hmember
  obtain ⟨f, hf, hfunction⟩ := List.any_eq_true.mp hany
  obtain ⟨hparameters, hany⟩ := (Bool.and_eq_true _ _).mp hfunction
  obtain ⟨s, hs, hall⟩ := List.any_eq_true.mp hany
  have hin : Inside (.function f) (.statement s) :=
    (Inside.refl.child (body_child f)).child (statement_child hs)
  obtain ⟨locals, hlocals, -, hinner, -⟩ :=
    connectionClass?_scoped hdoc hx hf hin .standard "self.c" "c" (.inl rfl)
  have hnone : locals = [] := by
    refine List.eq_nil_iff_forall_not_mem.mpr fun d hd => ?_
    obtain ⟨hd, hscope⟩ := (hlocals d).mp hd
    have hmem := (mem_visible_iff hdoc (inside_of_member hx hf) hd).mpr hscope
    exact absurd (List.all_eq_true.mp hall _ hmem) (by simp [Symbol.ofDeclaration])
  refine ⟨doc, x, f, s, hdoc, hx, hf, hin, beq_iff_eq.mp hfields, hinner "A" ?_,
    bne_iff_ne.mp hclasses⟩
  rw [innerTypes, hnone, beq_iff_eq.mp hparameters]
  rfl

end Calls

end Scope

end FlowCanvas
