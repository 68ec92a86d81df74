import FlowCanvas.Proofs.Visibility

/-!
# Scopes of locals

A local is visible in its function from its end on, as long as the blocks around it have not ended
and the statements around it are not over. What is visible comes outermost first, so that the last
symbol of a name is the innermost and latest one.
-/

namespace FlowCanvas

/-- The fields of an object. -/
def Member.fields : Member → List Declaration
  | .service s => s.fields
  | .classDefinition c => c.fields
  | _ => []

/-- The functions of an object, or the function itself. -/
def Member.functions : Member → List FunctionDefinition
  | .function f => [f]
  | .service s => s.functions
  | .classDefinition c => c.functions
  | _ => []

namespace Construct

lemma exists_parent {outer inner : Construct} (h : Inside outer inner) (hne : inner ≠ outer) :
    ∃ c, Inside outer c ∧ inner ∈ c.children := by
  cases h with
  | refl => exact absurd rfl hne
  | child hc hinner => exact ⟨_, hc, hinner⟩

/-- Declarations stand directly in blocks. -/
lemma block_of_declaration {c : Construct} {d : Declaration}
    (h : .statement (.declaration d) ∈ c.children) :
    ∃ b, c = .block b ∧ .declaration d ∈ b.statements := by
  match c, h with
  | .block b, h =>
    obtain ⟨s, hs, heq⟩ := List.mem_map.mp h
    obtain rfl := Construct.statement.inj heq
    exact ⟨b, rfl, hs⟩
  | .module m, h =>
    obtain ⟨x, -, hof⟩ := List.mem_filterMap.mp h
    cases x <;> simp [ofMember?] at hof
  | .function f, h => simp [children] at h
  | .service s, h => simp [children] at h
  | .classDefinition e, h => simp [children] at h
  | .statement (.conditional (.mk _ _ alternative _)), h =>
    cases alternative <;> simp [children, ofAlternative, Conditional.alternative] at h
  | .statement (.loop ..), h => simp [children] at h

lemma isControl_of_child {s : Statement} {c : Construct}
    (h : c ∈ (Construct.statement s).children) : s.isControl := by
  cases s <;> simp [children] at h <;> rfl

end Construct

namespace Scope

open Construct

/-- Where a local of a function is in scope: in the function, from the end of the declaration on, up
to the ends of the blocks around it and in front of the ends of the statements around it. -/
structure InScope (p : Position) (f : FunctionDefinition) (d : Declaration) : Prop where
  function : f.span.contains p
  declared : d.span.stop.position ≤ p
  blocks : ∀ b, Inside (.function f) (.block b) → Inside (.block b) (.statement (.declaration d)) →
    p ≤ b.span.stop.position
  controls : ∀ s, s.isControl → Inside (.function f) (.statement s) →
    Inside (.statement s) (.statement (.declaration d)) → p < s.span.stop.position

/-- A construct that is open, with everything around it. -/
def Around (m : SourceModule) (p : Position) (c : Construct) : Prop :=
  Inside (.module m) c ∧ ∀ e, Inside (.module m) e → Inside e c → e.isOpen p

section Document

variable {path : Path} {text : String} {doc : Document} {p : Position}

lemma mem_openAt_module (h : Document.parse path text = .ok doc) {c : Construct} :
    c ∈ openAt p (.module doc.tree) ↔ Around doc.tree p c := by
  rw [mem_openAt_iff, open_iff (Document.parse_nested h).2 fun c hc hne =>
    (Document.parse_placed h hc hne).1]
  refine and_congr_right fun _ => forall₃_congr fun e _ _ => ⟨fun hopen => ?_, fun hopen _ => hopen⟩
  by_cases he : e = .module doc.tree
  · rw [he]
    rfl
  · exact hopen he

lemma contains_iff {span : Span} :
    span.contains p ↔ span.start.position ≤ p ∧ p ≤ span.stop.position := by
  simp [Span.contains]

lemma isOpen_statement_iff {s : Statement} :
    isOpen p (.statement s) ↔ s.span.start.position ≤ p ∧ p < s.span.stop.position := by
  simp [isOpen]

/-- What is around a position is open inside of everything around it. -/
lemma Around.open (h : Document.parse path text = .ok doc) {outer c : Construct}
    (houter : Inside (.module doc.tree) outer) (hin : Inside outer c)
    (hc : Around doc.tree p c) : Open p outer c := by
  have hnested : ∀ c, Inside outer c → Nested c :=
    fun c hc => (Document.parse_nested h).2 c (houter.trans hc)
  refine (open_iff hnested fun e he hne => ?_).mpr
    ⟨hin, fun e he hin _ => hc.2 e (houter.trans he) hin⟩
  refine (Document.parse_placed h (houter.trans he) ?_).1
  rintro rfl
  exact hne (houter.antisymm he)

section Local

variable {f : FunctionDefinition} {d : Declaration} {b : Block}

/-- The range of a declaration lies in the range of everything around it. -/
lemma stands_around (h : Document.parse path text = .ok doc) {c : Construct}
    (hc : Inside (.module doc.tree) c) (hin : Inside c (.statement (.declaration d))) :
    c.span.covers d.span.start.byte d.span.stop.byte :=
  hin.covers (fun c' hc' => (Document.parse_nested h).2 c' (hc.trans hc'))
    (covers_iff.mpr ⟨le_rfl, le_rfl⟩)

/-- What is around a declaration in scope is open. -/
lemma isOpen_of_inScope (h : Document.parse path text = .ok doc)
    (hf : Inside (.module doc.tree) (.function f))
    (hd : Inside (.function f) (.statement (.declaration d))) (hscope : InScope p f d)
    {e : Construct} (he : Inside (.module doc.tree) e)
    (hin : Inside e (.statement (.declaration d))) (hne : e ≠ .statement (.declaration d)) :
    e.isOpen p := by
  have hfilled := (Document.parse_placed h (hf.trans hd) (by simp)).1
  have hstart : e ≠ .module doc.tree → e.span.start.position ≤ p := by
    intro hmodule
    have hwithin := (Document.positions_within h he hmodule hin).1
    have hspan := Document.start_lt_stop h (hf.trans hd) (by simp)
    exact Position.le_trans hwithin (Position.le_trans (Position.le_of_lt hspan) hscope.declared)
  have howner : Inside e (.function f) → e ≠ .module doc.tree → e.span.contains p := by
    intro hef hmodule
    have hwithin := Document.positions_within h he hmodule hef
    have hcontains := contains_iff.mp hscope.function
    exact contains_iff.mpr ⟨Position.le_trans hwithin.1 hcontains.1,
      Position.le_trans hcontains.2 hwithin.2⟩
  -- the function and `e` both stand around the declaration, so one of them is inside the other
  rcases Inside.chain (Document.parse_nested h).2 hfilled hf he (stands_around h hf hd)
    (stands_around h he hin) with hfe | hef
  · rcases hfe.of_function with rfl | hbody
    · exact hscope.function
    · match e, hbody.isLocal rfl with
      | .block b, _ =>
        exact contains_iff.mpr ⟨hstart (by simp), hscope.blocks b hfe hin⟩
      | .statement s, _ =>
        obtain ⟨child, hchild, -⟩ := hin.cases_head.resolve_left hne
        exact isOpen_statement_iff.mpr ⟨hstart (by simp),
          hscope.controls s (isControl_of_child hchild) hfe hin⟩
  · match e, hef with
    | .module m, _ => rfl
    | .function g, hef => exact howner hef (by simp)
    | .service s, hef => exact howner hef (by simp)
    | .classDefinition c, hef => exact howner hef (by simp)
    | .variable v, hef => exact howner hef (by simp)
    | .block b, hef => exact absurd (hef.isLocal rfl) (by simp [isLocal])
    | .statement s, hef => exact absurd (hef.isLocal rfl) (by simp [isLocal])

/-- A declaration is in scope when it is over and its block is open with everything around. -/
lemma inScope_iff (h : Document.parse path text = .ok doc)
    (hf : Inside (.module doc.tree) (.function f)) (hb : Inside (.function f) (.block b))
    (hd : .declaration d ∈ b.statements) :
    InScope p f d ↔ Around doc.tree p (.block b) ∧ d.span.stop.position ≤ p := by
  have hchild := statement_child hd
  have hblock := hf.trans hb
  constructor
  · refine fun hscope => ⟨⟨hblock, fun e he hin => ?_⟩, hscope.declared⟩
    refine isOpen_of_inScope h hf (hb.child hchild) hscope he (hin.child hchild) ?_
    rintro rfl
    exact Construct.noConfusion (hin.eq_of_leaf rfl)
  · rintro ⟨⟨-, hopen⟩, hle⟩
    have hfilled := (Document.parse_placed h (hblock.child hchild) (by simp)).1
    have hparent : ∀ {e}, Inside (.module doc.tree) e → Inside e (.statement (.declaration d)) →
        e ≠ .statement (.declaration d) → e.isOpen p := fun he hin hne =>
      hopen _ he (Inside.parent (Document.parse_nested h).2 hblock he hchild hfilled hin hne)
    refine ⟨hopen _ hf hb, hle, fun b' hb' hin => ?_, fun s hs hs' hin => ?_⟩
    · exact (contains_iff.mp (hparent (hf.trans hb') hin (by simp))).2
    · refine (isOpen_statement_iff.mp (hparent (hf.trans hs') hin ?_)).2
      rintro heq
      rw [Construct.statement.inj heq] at hs
      simp [Statement.isControl] at hs

lemma localAt?_eq_some_iff {s : Statement} {symbol : Symbol} : localAt? p s = some symbol ↔
    ∃ d, s = .declaration d ∧ d.span.stop.position ≤ p ∧
      symbol = .ofDeclaration .localVariable d := by
  cases s with
  | declaration d =>
    rw [localAt?]
    split
    · rename_i hle
      constructor
      · intro heq
        exact ⟨d, rfl, hle, (Option.some.inj heq).symm⟩
      · rintro ⟨d', heq, -, rfl⟩
        rw [Statement.declaration.inj heq]
    · rename_i hle
      refine ⟨fun heq => by simp at heq, ?_⟩
      rintro ⟨d', heq, hle', -⟩
      rw [Statement.declaration.inj heq] at hle
      exact absurd hle' hle
  | _ => simp [localAt?]

/-- Only blocks declare locals. -/
lemma declared_local {c : Construct} {symbol : Symbol} (h : symbol ∈ declared p c)
    (hkind : symbol.kind = .localVariable) : ∃ b d, c = .block b ∧
      .declaration d ∈ b.statements ∧ d.span.stop.position ≤ p ∧
      symbol = .ofDeclaration .localVariable d := by
  match c, h with
  | .block b, h =>
    obtain ⟨s, hs, hsymbol⟩ := List.mem_filterMap.mp h
    obtain ⟨d, rfl, hle, rfl⟩ := localAt?_eq_some_iff.mp hsymbol
    exact ⟨b, d, rfl, hs, hle, rfl⟩
  | .module m, h =>
    obtain ⟨x, -, hof⟩ := List.mem_filterMap.mp h
    cases x with
    | «variable» d =>
      obtain rfl := Option.some.inj hof
      cases hlistener : d.isListener <;> simp [Symbol.ofDeclaration, hlistener] at hkind
    | service s => simp [Symbol.ofMember?] at hof
    | _ =>
      obtain rfl := Option.some.inj hof
      simp at hkind
  | .service s, h =>
    obtain ⟨d, -, rfl⟩ := List.mem_map.mp h
    simp [Symbol.ofDeclaration] at hkind
  | .classDefinition s, h =>
    obtain ⟨d, -, rfl⟩ := List.mem_map.mp h
    simp [Symbol.ofDeclaration] at hkind
  | .function g, h =>
    obtain ⟨q, -, rfl⟩ := List.mem_map.mp h
    simp [ofParameter] at hkind

/-- Declarations with one span are the same. -/
lemma declaration_unique (h : Document.parse path text = .ok doc) {d d' : Declaration}
    (hd : Inside (.module doc.tree) (.statement (.declaration d)))
    (hd' : Inside (.module doc.tree) (.statement (.declaration d'))) (hspan : d'.span = d.span) :
    d' = d := by
  have hself := Document.enclosing_self h hd (by simp)
  have hself' := Document.enclosing_self h hd' (by simp)
  rw [show (Construct.statement (.declaration d')).span =
    (Construct.statement (.declaration d)).span from hspan, hself] at hself'
  exact (Statement.declaration.inj (Construct.statement.inj (Option.some.inj hself'))).symm

lemma mem_symbolsIn_iff {c : Construct} {symbol : Symbol} :
    symbol ∈ symbolsIn p c ↔ ∃ e, Open p c e ∧ symbol ∈ declared p e := by
  simp only [symbolsIn, List.mem_flatMap, mem_openAt_iff]

lemma declaration_of_symbol (h : Document.parse path text = .ok doc) {d d' : Declaration}
    (hd : Inside (.module doc.tree) (.statement (.declaration d)))
    (hd' : Inside (.module doc.tree) (.statement (.declaration d')))
    (heq : Symbol.ofDeclaration .localVariable d = .ofDeclaration .localVariable d') : d' = d :=
  declaration_unique h hd hd' (Symbol.mk.inj heq).2.2.2.symm

/-- A declaration of a block is among the symbols of what is around the block exactly when it is
over and the block is open. -/
lemma mem_symbolsIn_local (h : Document.parse path text = .ok doc) {outer : Construct}
    (houter : Inside (.module doc.tree) outer) (hb : Inside outer (.block b))
    (hd : .declaration d ∈ b.statements) :
    .ofDeclaration .localVariable d ∈ symbolsIn p outer ↔
      Open p outer (.block b) ∧ d.span.stop.position ≤ p := by
  rw [mem_symbolsIn_iff]
  constructor
  · rintro ⟨e, he, hmem⟩
    obtain ⟨b', d', rfl, hd', hle, heq⟩ := declared_local hmem rfl
    have hchild := statement_child hd
    have hchild' := statement_child hd'
    have hblock := houter.trans hb
    have hblock' := houter.trans he.inside
    obtain rfl := declaration_of_symbol h (hblock.child hchild) (hblock'.child hchild') heq
    have hnested := (Document.parse_nested h).2
    have hfilled := (Document.parse_placed h (hblock.child hchild) (by simp)).1
    -- both blocks hold the declaration directly, so that each is inside the other
    have hin := Inside.parent hnested hblock hblock' hchild hfilled (Inside.refl.child hchild')
      (by simp)
    have hin' := Inside.parent hnested hblock' hblock hchild' hfilled (Inside.refl.child hchild)
      (by simp)
    exact ⟨hin.antisymm hin' ▸ he, hle⟩
  · rintro ⟨hopen, hle⟩
    refine ⟨_, hopen, List.mem_filterMap.mpr ⟨_, hd, ?_⟩⟩
    exact localAt?_eq_some_iff.mpr ⟨d, rfl, hle, rfl⟩

/-- A local is visible exactly where it is in scope. -/
lemma mem_visible_iff (h : Document.parse path text = .ok doc)
    (hf : Inside (.module doc.tree) (.function f))
    (hd : Inside (.function f) (.statement (.declaration d))) :
    .ofDeclaration .localVariable d ∈ visible doc.tree p ↔ InScope p f d := by
  obtain ⟨c, hc, hmem⟩ := exists_parent hd (by simp)
  obtain ⟨b, rfl, hb⟩ := block_of_declaration hmem
  rw [visible_eq_symbolsIn h, mem_symbolsIn_local h .refl (hf.trans hc) hb, inScope_iff h hf hc hb,
    ← mem_openAt_module h, mem_openAt_iff]

end Local

/-! ### Source order -/

lemma locals_of_block (h : Document.parse path text = .ok doc) {b : Block}
    (hb : Inside (.module doc.tree) (.block b)) :
    (declared p (.block b)).Pairwise fun x y =>
      x.declaration.stop.byte ≤ y.declaration.start.byte := by
  have hordered := List.pairwise_map.mp ((Document.parse_nested h).2 _ hb).ordered
  refine List.pairwise_filterMap.mpr (hordered.imp fun {s t} hle x hx y hy => ?_)
  obtain ⟨d, rfl, -, rfl⟩ := localAt?_eq_some_iff.mp hx
  obtain ⟨d', rfl, -, rfl⟩ := localAt?_eq_some_iff.mp hy
  exact hle

/-- The locals of a block stand in front of those of the blocks inside of it. -/
lemma locals_inward (h : Document.parse path text = .ok doc) {a b : Block} {d d' : Declaration}
    (ha : Inside (.module doc.tree) (.block a)) (hb : Around doc.tree p (.block b))
    (hin : Inside (.block a) (.block b)) (hne : Construct.block a ≠ .block b)
    (hd : .declaration d ∈ a.statements) (hle : d.span.stop.position ≤ p)
    (hd' : .declaration d' ∈ b.statements) : d.span.stop.byte ≤ d'.span.start.byte := by
  obtain ⟨child, hchild, hin⟩ := hin.cases_head.resolve_left hne
  obtain ⟨s, hs, rfl⟩ := List.mem_map.mp hchild
  have hnested := (Document.parse_nested h).2
  have hdeclaration := statement_child hd
  rcases (hnested _ ha).apart hdeclaration hchild with heq | hbefore | hbehind
  · rw [← heq] at hin
    exact Construct.noConfusion (hin.eq_of_leaf rfl)
  · have hwithin := Inside.bounds hnested (ha.child hchild) (hin.child (statement_child hd'))
    exact hbefore.trans hwithin.1
  · -- the statement around the inner block is open, so that nothing behind it is over
    have hopen := (isOpen_statement_iff.mp (hb.2 _ (ha.child hchild) hin)).2
    have hbetween := Document.stop_le_start h (ha.child hchild) (by simp)
      (ha.child hdeclaration) (by simp) hbehind
    exact absurd hle (not_started h (ha.child hdeclaration) (by simp)
      (Position.lt_of_lt_of_le hopen hbetween))

/-- The visible locals stand one behind the other. -/
lemma locals_ordered (h : Document.parse path text = .ok doc) :
    ((visible doc.tree p).filter (·.kind = .localVariable)).Pairwise fun x y =>
      x.declaration.stop.byte ≤ y.declaration.start.byte := by
  have hnested := (Document.parse_nested h).2
  rw [visible_eq_symbolsIn h, symbolsIn, List.filter_flatMap]
  have hlocal : ∀ {c : Construct} {symbol : Symbol},
      symbol ∈ (declared p c).filter (·.kind = .localVariable) → ∃ b d, c = .block b ∧
        .declaration d ∈ b.statements ∧ d.span.stop.position ≤ p ∧
        symbol = .ofDeclaration .localVariable d := fun hmem => by
    obtain ⟨hmem, hkind⟩ := List.mem_filter.mp hmem
    exact declared_local hmem (by simpa using hkind)
  refine List.pairwise_flatMap.mpr ⟨fun c hc => ?_, (pairwise_openAt hnested).imp_of_mem
    fun {a b} ha hb hab x hx y hy => ?_⟩
  · by_cases hblock : ∃ b, c = .block b
    · obtain ⟨b, rfl⟩ := hblock
      exact (locals_of_block h ((mem_openAt_module h).mp hc).1).filter _
    · have hempty : (declared p c).filter (·.kind = .localVariable) = [] := by
        refine List.eq_nil_iff_forall_not_mem.mpr fun symbol hmem => ?_
        obtain ⟨b, -, rfl, -⟩ := hlocal hmem
        exact hblock ⟨b, rfl⟩
      rw [hempty]
      exact .nil
  · obtain ⟨a, d, rfl, hd, hle, rfl⟩ := hlocal hx
    obtain ⟨b, d', rfl, hd', -, rfl⟩ := hlocal hy
    have ha' := ((mem_openAt_module h).mp ha).1
    have hb' := (mem_openAt_module h).mp hb
    rcases hab with ⟨hin, hne⟩ | hle'
    · exact locals_inward h ha' hb' hin hne hd hle hd'
    · have hwithin := Inside.bounds hnested ha' (Inside.refl.child (statement_child hd))
      have hwithin' := Inside.bounds hnested hb'.1 (Inside.refl.child (statement_child hd'))
      exact hwithin.2.trans (hle'.trans hwithin'.1)

lemma local_of_visible {symbol : Symbol} (h : symbol ∈ visible doc.tree p)
    (hkind : symbol.kind = .localVariable) :
    ∃ d, symbol = .ofDeclaration .localVariable d ∧
      Inside (.module doc.tree) (.statement (.declaration d)) := by
  obtain ⟨d, statement, hdeclares⟩ := declares_of_visible h
    (show Analysis.tierOf? symbol.kind = some .local by rw [hkind]; rfl)
  cases hdeclares with
  | ofBlock hd => exact ⟨d, rfl, hd⟩
  | _ => simp [Symbol.ofDeclaration] at hkind

/-- No local is visible twice. -/
lemma locals_nodup (h : Document.parse path text = .ok doc) :
    ((visible doc.tree p).filter (·.kind = .localVariable)).Nodup := by
  refine (locals_ordered h).imp_of_mem fun {x y} hx _ hle => ?_
  rintro rfl
  obtain ⟨hmem, hkind⟩ := List.mem_filter.mp hx
  obtain ⟨d, rfl, hd⟩ := local_of_visible hmem (by simpa using hkind)
  have hfilled : d.span.start.byte < d.span.stop.byte :=
    (Document.parse_placed h hd (by simp)).1
  exact hfilled.not_ge hle

/-! ### Outermost first -/

lemma symbolsIn_sublist {c inner : Construct} (hinner : inner ∈ c.children)
    (hopen : inner.isOpen p) :
    (declared p c ++ symbolsIn p inner).Sublist (symbolsIn p c) := by
  obtain ⟨front, back, hsplit⟩ := List.append_of_mem (List.mem_filter.mpr ⟨hinner, hopen⟩)
  rw [symbolsIn_eq c, hsplit, List.flatMap_append, List.flatMap_cons]
  exact ((List.sublist_append_left _ _).trans (List.sublist_append_right _ _)).append_left _

lemma bounds_of_isOpen {c : Construct} (hc : ∀ m, c ≠ .module m) (h : c.isOpen p) :
    c.span.start.position ≤ p ∧ p ≤ c.span.stop.position := by
  match c, h with
  | .module m, _ => exact absurd rfl (hc m)
  | .statement s, h =>
    have hbounds := isOpen_statement_iff.mp h
    exact ⟨hbounds.1, Position.le_of_lt hbounds.2⟩
  | .function f, h => exact contains_iff.mp h
  | .service s, h => exact contains_iff.mp h
  | .classDefinition d, h => exact contains_iff.mp h
  | .variable v, h => exact contains_iff.mp h
  | .block b, h => exact contains_iff.mp h

lemma isOpen_of_contains {c : Construct} (hc : ∀ s, c ≠ .statement s) (h : c.span.contains p) :
    c.isOpen p := by
  cases c with
  | module m => rfl
  | statement s => exact absurd rfl (hc s)
  | _ => exact h

/-- Strictly inside a child no other child is open. -/
lemma symbolsIn_strict (h : Document.parse path text = .ok doc) {c inner : Construct}
    (hc : Inside (.module doc.tree) c) (hinner : inner ∈ c.children)
    (hstart : inner.span.start.position < p) (hstop : p < inner.span.stop.position) :
    symbolsIn p c = declared p c ++ symbolsIn p inner := by
  have hmodule : ∀ {a}, a ∈ c.children → a ≠ .module doc.tree :=
    fun ha => ne_module_of_child ha doc.tree
  obtain ⟨front, back, hsplit⟩ := List.append_of_mem hinner
  have hordered := ((Document.parse_nested h).2 c hc).ordered
  rw [hsplit, List.pairwise_append, List.pairwise_cons] at hordered
  obtain ⟨-, ⟨hbehind, -⟩, hbefore⟩ := hordered
  have hopen : inner.isOpen p := by
    cases inner with
    | statement s => exact isOpen_statement_iff.mpr ⟨Position.le_of_lt hstart, hstop⟩
    | _ =>
      refine isOpen_of_contains (by simp) (contains_iff.mpr ?_)
      exact ⟨Position.le_of_lt hstart, Position.le_of_lt hstop⟩
  have hfront : ∀ a ∈ front, (if a.isOpen p then symbolsIn p a else []) = [] := by
    intro a ha
    have hmem : a ∈ c.children := hsplit ▸ List.mem_append_left _ ha
    refine if_neg fun hopen => ?_
    have hbounds := bounds_of_isOpen (ne_module_of_child hmem) hopen
    have hle := Document.stop_le_start h (hc.child hmem) (hmodule hmem) (hc.child hinner)
      (hmodule hinner) (hbefore a ha inner List.mem_cons_self)
    exact Position.not_le.mpr hstart (Position.le_trans hbounds.2 hle)
  have hback : ∀ a ∈ back, (if a.isOpen p then symbolsIn p a else []) = [] := by
    intro a ha
    have hmem : a ∈ c.children := hsplit ▸ List.mem_append_right _ (List.mem_cons_of_mem _ ha)
    refine if_neg fun hopen => ?_
    have hbounds := bounds_of_isOpen (ne_module_of_child hmem) hopen
    have hle := Document.stop_le_start h (hc.child hinner) (hmodule hinner) (hc.child hmem)
      (hmodule hmem) (hbehind a ha)
    exact Position.not_le.mpr hstop (Position.le_trans hle hbounds.1)
  rw [symbolsIn_eq c, flatMap_filter_eq, hsplit, List.flatMap_append, List.flatMap_cons,
    List.flatMap_eq_nil_iff.mpr hfront, List.flatMap_eq_nil_iff.mpr hback, if_pos hopen,
    List.nil_append, List.append_nil]

section Members

variable {x : Member} {f : FunctionDefinition}

/-- A function is a member itself or stands in an object whose fields are declared there. -/
lemma owner_cases (hf : f ∈ x.functions) :
    (Construct.ofMember? x = some (.function f) ∧ x.fields = []) ∨
      ∃ owner, Construct.ofMember? x = some owner ∧ .function f ∈ owner.children ∧
        ∀ p, declared p owner = x.fields.map (.ofDeclaration .classField) := by
  cases x with
  | function g =>
    obtain rfl := List.mem_singleton.mp hf
    exact .inl ⟨rfl, rfl⟩
  | service s => exact .inr ⟨_, rfl, List.mem_map_of_mem hf, fun _ => rfl⟩
  | classDefinition c => exact .inr ⟨_, rfl, List.mem_map_of_mem hf, fun _ => rfl⟩
  | «variable» d => simp [Member.functions] at hf
  | typeDefinition t => simp [Member.functions] at hf

lemma inside_of_member {m : SourceModule} (hx : x ∈ m.members) (hf : f ∈ x.functions) :
    Inside (.module m) (.function f) := by
  rcases owner_cases hf with ⟨hof, -⟩ | ⟨owner, hof, hchild, -⟩
  · exact Inside.refl.child (member_child hx hof)
  · exact (Inside.refl.child (member_child hx hof)).child hchild

/-- The symbols around the locals of a function: those of the module, the fields of the object
around the function, and the parameters. -/
def outerSymbols (m : SourceModule) (x : Member) (f : FunctionDefinition) : List Symbol :=
  m.members.filterMap Symbol.ofMember? ++
    (x.fields.map (.ofDeclaration .classField) ++ f.parameters.map (ofParameter f))

lemma symbolsIn_function (h : Document.parse path text = .ok doc)
    (hf : Inside (.module doc.tree) (.function f)) (hcontains : f.span.contains p) :
    symbolsIn p (.function f) = f.parameters.map (ofParameter f) ++ blockLocals p f.body := by
  have heq := functionLocals_eq h hf (p := p)
  rw [functionLocals, if_pos hcontains, show (Construct.function f).isOpen p = true from hcontains,
    if_pos rfl] at heq
  exact heq.symm

/-- At a position of a function, what is visible holds the symbols of the module, those of the
object around, the parameters and the locals of the function, in this order. -/
lemma outer_sublist (h : Document.parse path text = .ok doc) (hx : x ∈ doc.tree.members)
    (hf : f ∈ x.functions) (hcontains : f.span.contains p) :
    (outerSymbols doc.tree x f ++ blockLocals p f.body).Sublist (visible doc.tree p) := by
  have hin := inside_of_member hx hf
  rw [visible_eq_symbolsIn h, outerSymbols, List.append_assoc, List.append_assoc,
    ← symbolsIn_function h hin hcontains]
  rcases owner_cases hf with ⟨hof, hfields⟩ | ⟨owner, hof, hchild, hdeclared⟩
  · rw [hfields]
    exact symbolsIn_sublist (member_child hx hof) hcontains
  · have howner := Inside.refl.child (member_child hx hof)
    have hmodule := ne_module_of_child (member_child hx hof)
    have hopen : owner.isOpen p := by
      have hwithin := Document.positions_within h howner (hmodule _) (Inside.refl.child hchild)
      have hbounds := contains_iff.mp hcontains
      refine isOpen_of_contains (fun s => ?_) (contains_iff.mpr
        ⟨Position.le_trans hwithin.1 hbounds.1, Position.le_trans hbounds.2 hwithin.2⟩)
      rintro rfl
      cases x <;> simp [Construct.ofMember?] at hof
    rw [← hdeclared p]
    exact ((symbolsIn_sublist hchild hcontains).append_left _).trans
      (symbolsIn_sublist (member_child hx hof) hopen)

/-- Strictly inside a function nothing else is visible. -/
lemma visible_strict (h : Document.parse path text = .ok doc) (hx : x ∈ doc.tree.members)
    (hf : f ∈ x.functions) (hstart : f.span.start.position < p) (hstop : p < f.span.stop.position) :
    visible doc.tree p = outerSymbols doc.tree x f ++ blockLocals p f.body := by
  have hin := inside_of_member hx hf
  have hcontains : f.span.contains p :=
    contains_iff.mpr ⟨Position.le_of_lt hstart, Position.le_of_lt hstop⟩
  rw [visible_eq_symbolsIn h, outerSymbols, List.append_assoc, List.append_assoc,
    ← symbolsIn_function h hin hcontains]
  rcases owner_cases hf with ⟨hof, hfields⟩ | ⟨owner, hof, hchild, hdeclared⟩
  · rw [hfields, symbolsIn_strict h .refl (member_child hx hof) hstart hstop]
    rfl
  · have howner := Inside.refl.child (member_child hx hof)
    have hmodule := ne_module_of_child (member_child hx hof)
    have hwithin := Document.positions_within h howner (hmodule _) (Inside.refl.child hchild)
    rw [symbolsIn_strict h .refl (member_child hx hof)
      (Position.lt_of_le_of_lt hwithin.1 hstart) (Position.lt_of_lt_of_le hstop hwithin.2),
      symbolsIn_strict h howner hchild hstart hstop, hdeclared p]
    rfl

/-- The locals of a function that are in scope, in source order. -/
lemma exists_locals (h : Document.parse path text = .ok doc) (hx : x ∈ doc.tree.members)
    (hf : f ∈ x.functions) (hcontains : f.span.contains p) :
    ∃ locals : List Declaration,
      blockLocals p f.body = locals.map (.ofDeclaration .localVariable) ∧
      (locals.Pairwise fun a b => a.span.stop.byte ≤ b.span.start.byte) ∧
      ∀ d, d ∈ locals ↔ Inside (.function f) (.statement (.declaration d)) ∧ InScope p f d := by
  have hin := inside_of_member hx hf
  have hbody : Inside (.function f) (.block f.body) := Inside.refl.child (body_child f)
  have hsublist := (List.sublist_append_right _ _).trans (outer_sublist h hx hf hcontains)
  obtain ⟨ds, hds⟩ : ∃ ds : List {d // Inside (.block f.body) (.statement (.declaration d))},
      ds.map (fun d => Symbol.ofDeclaration .localVariable d.1) = blockLocals p f.body := by
    have hrange : blockLocals p f.body ∈ Set.range (List.map fun
        d : {d // Inside (.block f.body) (.statement (.declaration d))} =>
          Symbol.ofDeclaration .localVariable d.1) := by
      rw [Set.range_list_map]
      intro symbol hsymbol
      obtain ⟨d, rfl, hd⟩ := localOf_block hsymbol
      exact ⟨⟨d, hd⟩, rfl⟩
    exact hrange
  have hlocals : blockLocals p f.body =
      (ds.map Subtype.val).map (.ofDeclaration .localVariable) := by
    rw [← hds, List.map_map]
    rfl
  refine ⟨ds.map Subtype.val, hlocals, ?_, fun d => ⟨fun hd => ?_, fun ⟨hd, hscope⟩ => ?_⟩⟩
  · have hordered := (locals_ordered h).sublist (hsublist.filter (·.kind = .localVariable))
    rw [hlocals, List.filter_eq_self.mpr fun symbol hsymbol => by
      obtain ⟨d, -, rfl⟩ := List.mem_map.mp hsymbol
      rfl] at hordered
    exact List.pairwise_map.mp hordered
  · obtain ⟨⟨d, hd'⟩, -, rfl⟩ := List.mem_map.mp hd
    refine ⟨hbody.trans hd', (mem_visible_iff h hin (hbody.trans hd')).mp (hsublist.subset ?_)⟩
    rw [hlocals]
    exact List.mem_map_of_mem hd
  · obtain ⟨c, hc, hmem⟩ := exists_parent hd (by simp)
    obtain ⟨b, rfl, hb⟩ := block_of_declaration hmem
    obtain ⟨haround, hle⟩ := (inScope_iff h hin hc hb).mp hscope
    have hin' := hc.of_function.resolve_left (by simp)
    have hsymbol := (mem_symbolsIn_local h (hin.trans hbody) hin' hb).mpr
      ⟨haround.open h (hin.trans hbody) hin', hle⟩
    rw [← blockLocals_eq h f.body (hin.trans hbody), hlocals] at hsymbol
    obtain ⟨d', hd', heq⟩ := List.mem_map.mp hsymbol
    obtain ⟨⟨d', hinside⟩, -, rfl⟩ := List.mem_map.mp hd'
    obtain rfl := declaration_of_symbol h (hin.trans hd)
      (hin.trans (hbody.trans hinside)) heq.symm
    exact hd'

end Members

/-! ### The last symbol of a name -/

lemma exists_last_of_find? {α β : Type} {l : List α} {g : α → List β} {test : β → Bool} {b : β}
    (h : (l.flatMap g).reverse.find? test = some b) :
    ∃ front a back, l = front ++ a :: back ∧ (g a).reverse.find? test = some b ∧
      ∀ a' ∈ back, ∀ b' ∈ g a', test b' = false := by
  induction l using List.reverseRecOn with
  | nil => simp at h
  | append_singleton l a ih =>
    rw [List.flatMap_append, List.flatMap_singleton, List.reverse_append, List.find?_append] at h
    cases hlast : (g a).reverse.find? test with
    | some b' =>
      rw [hlast, Option.some_or] at h
      exact ⟨l, a, [], rfl, hlast.trans h, by simp⟩
    | none =>
      rw [hlast, Option.none_or] at h
      obtain ⟨front, a', back, rfl, hfind, hback⟩ := ih h
      refine ⟨front, a', back ++ [a], by simp, hfind, fun c hc b' hb' => ?_⟩
      rcases List.mem_append.mp hc with hc | hc
      · exact hback c hc b' hb'
      · obtain rfl := List.mem_singleton.mp hc
        simpa using List.find?_eq_none.mp hlast b' (List.mem_reverse.mpr hb')

/-- The last symbol of a name is the latest one of a construct that stands inside of all others that
declare the name, or behind them. -/
lemma last_visible (h : Document.parse path text = .ok doc) {name : String} {symbol : Symbol}
    (hfind : (visible doc.tree p).reverse.find? (fun s => s.name == name) = some symbol) :
    ∃ c, Around doc.tree p c ∧
      (declared p c).reverse.find? (fun s => s.name == name) = some symbol ∧
      ∀ e, Around doc.tree p e → e ≠ c → name ∈ (declared p e).map (·.name) →
        Inside e c ∨ e.span.stop.byte ≤ c.span.start.byte := by
  rw [visible_eq_symbolsIn h] at hfind
  obtain ⟨front, c, back, hsplit, hc, hback⟩ := exists_last_of_find? hfind
  have hordered := pairwise_openAt (p := p) (Document.parse_nested h).2
  rw [hsplit, List.pairwise_append] at hordered
  have hmem : ∀ {e}, e ∈ front ++ c :: back ↔ Around doc.tree p e :=
    fun {e} => hsplit ▸ mem_openAt_module h
  refine ⟨c, hmem.mp (by simp), hc, fun e he hne hname => ?_⟩
  rcases List.mem_append.mp (hmem.mpr he) with hfront | hbehind
  · exact (hordered.2.2 e hfront c List.mem_cons_self).imp And.left id
  · have hlater := (List.mem_cons.mp hbehind).resolve_left hne
    obtain ⟨s, hs, hname⟩ := List.mem_map.mp hname
    exact absurd (hback e hlater s hs) (by simp [hname])

/-- The symbols of a local among those that are visible. -/
lemma filter_local (h : Document.parse path text = .ok doc) {f : FunctionDefinition}
    {d : Declaration} (hf : Inside (.module doc.tree) (.function f))
    (hd : Inside (.function f) (.statement (.declaration d))) :
    (InScope p f d → (visible doc.tree p).filter (fun s =>
        s.kind = .localVariable ∧ s.declaration = d.span) = [.ofDeclaration .localVariable d]) ∧
      (¬InScope p f d → (visible doc.tree p).filter (fun s =>
        s.kind = .localVariable ∧ s.declaration = d.span) = []) := by
  have hsymbol : ∀ symbol, symbol ∈ (visible doc.tree p).filter (fun s =>
      s.kind = .localVariable ∧ s.declaration = d.span) ↔
        InScope p f d ∧ symbol = .ofDeclaration .localVariable d := by
    intro symbol
    rw [List.mem_filter, decide_eq_true_eq, ← mem_visible_iff h hf hd]
    constructor
    · rintro ⟨hmem, hkind, hspan⟩
      obtain ⟨d', rfl, hd'⟩ := local_of_visible hmem hkind
      obtain rfl := declaration_unique h (hf.trans hd) hd' hspan
      exact ⟨hmem, rfl⟩
    · rintro ⟨hmem, rfl⟩
      exact ⟨hmem, rfl, rfl⟩
  constructor
  · intro hscope
    refine eq_toList_of_mem_iff (o := some (Symbol.ofDeclaration .localVariable d)) ?_ fun s => ?_
    · refine (locals_nodup (p := p) h).sublist (List.monotone_filter_right _ fun s hs => ?_)
      exact decide_eq_true (of_decide_eq_true hs).1
    · rw [hsymbol, Option.some.injEq]
      exact ⟨fun ⟨_, heq⟩ => heq.symm, fun heq => ⟨hscope, heq.symm⟩⟩
  · intro hscope
    exact List.eq_nil_iff_forall_not_mem.mpr fun s hs => hscope ((hsymbol s).mp hs).1

/-- Where a local is in scope it has one symbol, elsewhere none. At a position of a function the
visible symbols hold those of the module, the fields of the object around the function, its
parameters and its locals in source order, and nothing else strictly inside the function. The last
symbol of a name is the latest of the innermost construct that declares the name. -/
theorem visible_scoped (h : Document.parse path text = .ok doc) (p : Position) :
    (∀ x ∈ doc.tree.members, ∀ f ∈ x.functions,
      ∀ d, Inside (.function f) (.statement (.declaration d)) →
        (InScope p f d → (visible doc.tree p).filter (fun s =>
          s.kind = .localVariable ∧ s.declaration = d.span) = [.ofDeclaration .localVariable d]) ∧
        (¬InScope p f d → (visible doc.tree p).filter (fun s =>
          s.kind = .localVariable ∧ s.declaration = d.span) = [])) ∧
      (∀ x ∈ doc.tree.members, ∀ f ∈ x.functions, f.span.contains p →
        ∃ locals : List Declaration,
          (∀ d, d ∈ locals ↔
            Inside (.function f) (.statement (.declaration d)) ∧ InScope p f d) ∧
          (locals.Pairwise fun a b => a.span.stop.byte ≤ b.span.start.byte) ∧
          (outerSymbols doc.tree x f ++ locals.map (Symbol.ofDeclaration .localVariable)).Sublist
            (visible doc.tree p) ∧
          (f.span.start.position < p → p < f.span.stop.position → visible doc.tree p =
            outerSymbols doc.tree x f ++ locals.map (Symbol.ofDeclaration .localVariable))) ∧
      ∀ name symbol,
        (visible doc.tree p).reverse.find? (fun s => s.name == name) = some symbol →
          ∃ c, Around doc.tree p c ∧
            (declared p c).reverse.find? (fun s => s.name == name) = some symbol ∧
            ∀ e, Around doc.tree p e → e ≠ c → name ∈ (declared p e).map (·.name) →
              Inside e c ∨ e.span.stop.byte ≤ c.span.start.byte := by
  refine ⟨fun x hx f hf d hd => filter_local h (inside_of_member hx hf) hd,
    fun x hx f hf hcontains => ?_, fun name symbol => last_visible h⟩
  obtain ⟨locals, hlocals, hordered, hmem⟩ := exists_locals h hx hf hcontains
  have hsublist := outer_sublist h hx hf hcontains
  rw [hlocals] at hsublist
  refine ⟨locals, hmem, hordered, hsublist, fun hstart hstop => ?_⟩
  rw [visible_strict h hx hf hstart hstop, hlocals]

/-- In the block of an `if` the declaration of the block hides the one of the function. -/
theorem visible_scoped_hidden :
    ∃ doc symbol c x f, Document.parse ⟨"main.bal"⟩
        "function f(int a) \x7b\n int x = 1;\n if a \x7b\n int x = 2;\n g(x);\n \x7d\n\x7d\n" =
          .ok doc ∧
      (visible doc.tree ⟨4, 1⟩).reverse.find? (fun s => s.name == "x") = some symbol ∧
      symbol.declaration.start.position = ⟨3, 1⟩ ∧ Around doc.tree ⟨4, 1⟩ c ∧
      (declared ⟨4, 1⟩ c).reverse.find? (fun s => s.name == "x") = some symbol ∧
      x ∈ doc.tree.members ∧ f ∈ x.functions ∧ f.span.contains ⟨4, 1⟩ ∧
      ∃ locals : List Declaration,
        (∀ d, d ∈ locals ↔
          Inside (.function f) (.statement (.declaration d)) ∧ InScope ⟨4, 1⟩ f d) ∧
        (outerSymbols doc.tree x f ++ locals.map (Symbol.ofDeclaration .localVariable)).Sublist
          (visible doc.tree ⟨4, 1⟩) := by
  have hcheck : (Document.parse ⟨"main.bal"⟩
      "function f(int a) \x7b\n int x = 1;\n if a \x7b\n int x = 2;\n g(x);\n \x7d\n\x7d\n"
        ).toOption.any (fun doc =>
          ((visible doc.tree ⟨4, 1⟩).reverse.find? (fun s => s.name == "x")).any
            (fun symbol => symbol.declaration.start.position == ⟨3, 1⟩) &&
          doc.tree.members.any fun x => x.functions.any (·.span.contains ⟨4, 1⟩)) = true := by
    decide +kernel
  obtain ⟨doc, hdoc, htest⟩ := exists_ok_of_any hcheck
  rw [Bool.and_eq_true] at htest
  obtain ⟨symbol, hsymbol, hstart⟩ := Option.any_eq_true _ _ |>.mp htest.1
  obtain ⟨x, hx, hx'⟩ := List.any_eq_true.mp htest.2
  obtain ⟨f, hf, hcontains⟩ := List.any_eq_true.mp hx'
  obtain ⟨-, horder, hlast⟩ := visible_scoped hdoc ⟨4, 1⟩
  obtain ⟨c, haround, hdeclared, -⟩ := hlast "x" symbol hsymbol
  obtain ⟨locals, hmem, -, hsublist, -⟩ := horder x hx f hf hcontains
  exact ⟨doc, symbol, c, x, f, hdoc, hsymbol, beq_iff_eq.mp hstart, haround, hdeclared, hx, hf,
    hcontains, locals, hmem, hsublist⟩

end Document

end Scope

end FlowCanvas
