import FlowCanvas.Proofs.Enclosing

/-!
# Open constructs

The constructs around a position are found by going into every child that is open there. They come
outermost first: of two of them, the second stands inside the first or behind it.
-/

namespace FlowCanvas

/-! ### Places of a text -/

/-- The place is reached by a walk over the text. -/
def Text.Reaches (text : List Char) (place : Place) : Prop :=
  ∃ xs ys, text = xs ++ ys ∧ place = Place.origin.advance xs

namespace Text.Reaches

variable {text : List Char} {a b : Place}

/-- Places that are reached are in the order of their bytes. -/
lemma position_lt (ha : Reaches text a) (hb : Reaches text b) (h : a.byte < b.byte) :
    a.position < b.position := by
  obtain ⟨xs, ys, htext, rfl⟩ := ha
  obtain ⟨xs', ys', htext', rfl⟩ := hb
  rw [Place.byte_origin_advance, Place.byte_origin_advance] at h
  rcases List.append_eq_append_iff.mp (htext.symm.trans htext') with ⟨zs, rfl, -⟩ | ⟨zs, rfl, -⟩
  · rw [Place.advance_append]
    refine Place.position_lt_advance _ ?_
    rintro rfl
    simp at h
  · rw [byteLength_append] at h
    omega

lemma position_le (ha : Reaches text a) (hb : Reaches text b) (h : a.byte ≤ b.byte) :
    a.position ≤ b.position := by
  obtain ⟨xs, ys, htext, rfl⟩ := ha
  obtain ⟨xs', ys', htext', rfl⟩ := hb
  rw [Place.byte_origin_advance, Place.byte_origin_advance] at h
  rcases List.append_eq_append_iff.mp (htext.symm.trans htext') with ⟨zs, rfl, -⟩ | ⟨zs, rfl, -⟩
  · rw [Place.advance_append]
    exact Place.position_le_advance _ _
  · have hzs : zs = [] := by
      by_contra hne
      have := Lexer.byteLength_pos hne
      rw [byteLength_append] at h
      omega
    rw [hzs, List.append_nil]
    exact Position.le_refl _

end Text.Reaches

lemma Position.not_le {p q : Position} : ¬p ≤ q ↔ q < p := by
  rw [le_def, lt_def]
  omega

lemma Position.not_lt {p q : Position} : ¬p < q ↔ q ≤ p := by
  rw [le_def, lt_def]
  omega

lemma Position.lt_of_le_of_lt {p q r : Position} (hpq : p ≤ q) (hqr : q < r) : p < r := by
  rw [lt_def] at *
  rw [le_def] at hpq
  omega

namespace Construct

/-! ### Constructs around a construct -/

lemma Inside.eq_or_depth_lt {outer inner : Construct} (h : Inside outer inner) :
    inner = outer ∨ inner.depth < outer.depth := by
  induction h with
  | refl => exact .inl rfl
  | child _ hinner ih =>
    have hless := depth_lt hinner
    rcases ih with rfl | ih
    · exact .inr hless
    · exact .inr (hless.trans ih)

lemma Inside.child_ne {outer c inner : Construct} (h : Inside outer c)
    (hinner : inner ∈ c.children) : inner ≠ outer := by
  rintro rfl
  have hless := depth_lt hinner
  rcases h.eq_or_depth_lt with rfl | hlt
  · exact hless.false
  · omega

lemma Inside.antisymm {a b : Construct} (h : Inside a b) (h' : Inside b a) : a = b := by
  rcases h.eq_or_depth_lt with heq | hlt
  · exact heq.symm
  · rcases h'.eq_or_depth_lt with heq | hlt'
    · exact heq
    · omega

/-- Children are the same or one stands behind the other. -/
lemma Nested.apart {c a b : Construct} (h : Nested c) (ha : a ∈ c.children) (hb : b ∈ c.children) :
    a = b ∨ a.span.stop.byte ≤ b.span.start.byte ∨ b.span.stop.byte ≤ a.span.start.byte := by
  have hordered := List.pairwise_iff_getElem.mp h.ordered
  obtain ⟨i, hleft, rfl⟩ := List.getElem_of_mem ha
  obtain ⟨j, hright, rfl⟩ := List.getElem_of_mem hb
  rcases lt_trichotomy i j with hij | rfl | hij
  · exact .inr (.inl (hordered i j hleft hright hij))
  · exact .inl rfl
  · exact .inr (.inr (hordered j i hright hleft hij))

section Around

variable {outer : Construct} (hnested : ∀ c, Inside outer c → Nested c)

include hnested

lemma Inside.bounds {c inner : Construct} (hc : Inside outer c) (h : Inside c inner) :
    c.span.start.byte ≤ inner.span.start.byte ∧ inner.span.stop.byte ≤ c.span.stop.byte :=
  covers_iff.mp (h.covers (fun c' hc' => hnested c' (hc.trans hc'))
    (covers_iff.mpr ⟨le_rfl, le_rfl⟩))

/-- Of two constructs around a range that is not empty, one stands inside the other. -/
lemma Inside.chain {lo hi : Nat} (hlt : lo < hi) {x y : Construct} (hx : Inside outer x)
    (hy : Inside outer y) (hxcovers : x.span.covers lo hi) (hycovers : y.span.covers lo hi) :
    Inside x y ∨ Inside y x := by
  induction hx with
  | refl => exact .inl hy
  | @child c x hc hx ih =>
    have hbelow : ∀ c', Inside c c' → Nested c' := fun c' hc' => hnested c' (hc.trans hc')
    rcases ih ((Inside.refl.child hx).covers hbelow hxcovers) with hin | hin
    · rcases hin.cases_head with rfl | ⟨child, hchild, hin⟩
      · exact .inr (Inside.refl.child hx)
      · have hcovers := hin.covers (fun c' hc' => hbelow c' ((Inside.refl.child hchild).trans hc'))
          hycovers
        obtain rfl := (hbelow c .refl).unique hlt hchild hx hcovers hxcovers
        exact .inl hin
    · exact .inr (hin.child hx)

/-- What stands around a child stands around its parent. -/
lemma Inside.parent {x y inner : Construct} (hx : Inside outer x) (hy : Inside outer y)
    (hinner : inner ∈ x.children) (hfilled : inner.span.start.byte < inner.span.stop.byte)
    (h : Inside y inner) (hne : y ≠ inner) : Inside y x := by
  have hself : inner.span.covers inner.span.start.byte inner.span.stop.byte :=
    covers_iff.mpr ⟨le_rfl, le_rfl⟩
  have hcovers : ∀ {c}, Inside outer c → Inside c inner →
      c.span.covers inner.span.start.byte inner.span.stop.byte :=
    fun hc hin => hin.covers (fun c' hc' => hnested c' (hc.trans hc')) hself
  rcases Inside.chain hnested hfilled hx hy (hcovers hx (Inside.refl.child hinner)) (hcovers hy h)
    with hin | hin
  · rcases hin.cases_head with rfl | ⟨child, hchild, hin⟩
    · exact .refl
    · have hchildcovers := hcovers (hx.child hchild) (hin.trans h)
      obtain rfl := (hnested x hx).unique hfilled hchild hinner hchildcovers hself
      exact absurd (h.antisymm hin) hne
  · exact hin

end Around

/-! ### The walk through open constructs -/

/-- Whether a position lies in a construct. A statement is over at its end, other constructs only
behind it. -/
def isOpen (p : Position) : Construct → Bool
  | .module _ => true
  | .statement s => s.span.start.position ≤ p && p < s.span.stop.position
  | c => c.span.contains p

/-- A construct and the open constructs inside of it, outermost first, at most `n` levels deep. -/
def openIn (p : Position) : Nat → Construct → List Construct
  | 0, c => [c]
  | n + 1, c => c :: (c.children.filter (isOpen p)).flatMap (openIn p n)

/-- A construct and the open constructs inside of it, outermost first. -/
def openAt (p : Position) (c : Construct) : List Construct := openIn p c.depth c

/-- The construct `inner` stands inside of `outer`, and what lies between is open. -/
inductive Open (p : Position) (outer : Construct) : Construct → Prop
  | refl : Open p outer outer
  | child {c inner : Construct} (h : Open p outer c) (hinner : inner ∈ c.children)
    (hopen : inner.isOpen p) : Open p outer inner

section Walk

variable {p : Position}

lemma children_of_depth {c : Construct} (h : c.depth = 0) : c.children = [] := by
  refine List.eq_nil_iff_forall_not_mem.mpr fun inner hinner => ?_
  have := depth_lt hinner
  omega

lemma openIn_eq {n : Nat} {c : Construct} (h : c.depth ≤ n) :
    openIn p n c = c :: (c.children.filter (isOpen p)).flatMap (openAt p) := by
  induction n using Nat.strong_induction_on generalizing c with
  | _ n ih =>
    have hchildren : ∀ m, c.depth ≤ m + 1 → m < n →
        (c.children.filter (isOpen p)).flatMap (openIn p m) =
          (c.children.filter (isOpen p)).flatMap (openAt p) := by
      intro m hm hlt
      refine List.flatMap_congr fun inner hinner => ?_
      have hless := depth_lt (List.mem_of_mem_filter hinner)
      rw [openAt, ih m hlt (by omega), ih inner.depth (by omega) le_rfl]
    cases n with
    | zero => simp [openIn, children_of_depth (Nat.le_zero.mp h)]
    | succ m => rw [openIn, hchildren m h (Nat.lt_succ_self m)]

lemma openAt_eq (c : Construct) :
    openAt p c = c :: (c.children.filter (isOpen p)).flatMap (openAt p) :=
  openIn_eq le_rfl

lemma Open.trans {outer c inner : Construct} (h : Open p outer c) (h' : Open p c inner) :
    Open p outer inner := by
  induction h' with
  | refl => exact h
  | child _ hinner hopen ih => exact ih.child hinner hopen

lemma Open.inside {outer c : Construct} (h : Open p outer c) : Inside outer c := by
  induction h with
  | refl => exact .refl
  | child _ hinner _ ih => exact ih.child hinner

lemma open_of_mem {n : Nat} {outer c : Construct} (h : c ∈ openIn p n outer) :
    Open p outer c := by
  induction n generalizing outer with
  | zero =>
    obtain rfl := List.mem_singleton.mp h
    exact .refl
  | succ n ih =>
    rcases List.mem_cons.mp h with rfl | h
    · exact .refl
    · obtain ⟨child, hchild, h⟩ := List.mem_flatMap.mp h
      obtain ⟨hmem, hopen⟩ := List.mem_filter.mp hchild
      exact (Open.refl.child hmem hopen).trans (ih h)

lemma mem_openAt_trans {outer c inner : Construct} (h : c ∈ openAt p outer)
    (h' : inner ∈ openAt p c) : inner ∈ openAt p outer := by
  induction hdepth : outer.depth using Nat.strong_induction_on generalizing outer with
  | _ n ih =>
    subst hdepth
    rw [openAt_eq] at h ⊢
    rcases List.mem_cons.mp h with rfl | h
    · rwa [← openAt_eq]
    · obtain ⟨child, hchild, h⟩ := List.mem_flatMap.mp h
      have hinner := ih child.depth (depth_lt (List.mem_of_mem_filter hchild)) h rfl
      exact List.mem_cons_of_mem _ (List.mem_flatMap.mpr ⟨child, hchild, hinner⟩)

/-- The walk finds exactly what is open. -/
lemma mem_openAt_iff {outer c : Construct} : c ∈ openAt p outer ↔ Open p outer c := by
  refine ⟨open_of_mem, fun h => ?_⟩
  induction h with
  | refl =>
    rw [openAt_eq]
    exact List.mem_cons_self
  | @child c inner _ hinner hopen ih =>
    refine mem_openAt_trans ih ?_
    rw [openAt_eq]
    have hself : inner ∈ openAt p inner := by
      rw [openAt_eq]
      exact List.mem_cons_self
    exact List.mem_cons_of_mem c
      (List.mem_flatMap.mpr ⟨inner, List.mem_filter.mpr ⟨hinner, hopen⟩, hself⟩)

section Tree

variable {outer : Construct} (hnested : ∀ c, Inside outer c → Nested c)

include hnested

/-- A construct is open when it is inside and everything around it is open. -/
lemma open_iff (hfilled : ∀ c, Inside outer c → c ≠ outer → c.span.start.byte < c.span.stop.byte)
    {c : Construct} : Open p outer c ↔ Inside outer c ∧
      ∀ e, Inside outer e → Inside e c → e ≠ outer → e.isOpen p := by
  constructor
  · intro h
    refine ⟨h.inside, fun e he hin hne => ?_⟩
    induction h with
    | refl => exact absurd (hin.antisymm he) hne
    | @child c inner hc hinner hopen ih =>
      by_cases heq : e = inner
      · rwa [heq]
      · refine ih (Inside.parent hnested hc.inside he hinner ?_ hin heq)
        exact hfilled inner (hc.inside.child hinner) (hc.inside.child_ne hinner)
  · rintro ⟨h, hopen⟩
    induction h with
    | refl => exact .refl
    | @child c inner hc hinner ih =>
      refine (ih fun e he hin => hopen e he (hin.child hinner)).child hinner ?_
      exact hopen inner (hc.child hinner) .refl (hc.child_ne hinner)

/-- Of two open constructs, the second stands inside the first or behind it. -/
lemma pairwise_openAt : (openAt p outer).Pairwise fun a b =>
    (Inside a b ∧ a ≠ b) ∨ a.span.stop.byte ≤ b.span.start.byte := by
  induction hdepth : outer.depth using Nat.strong_induction_on generalizing outer with
  | _ n ih =>
    subst hdepth
    have hbelow : ∀ child ∈ outer.children, ∀ c, Inside child c → Nested c :=
      fun child hchild c hc => hnested c ((Inside.refl.child hchild).trans hc)
    rw [openAt_eq, List.pairwise_cons]
    refine ⟨fun c hc => .inl ?_, List.pairwise_flatMap.mpr ⟨fun child hchild => ?_, ?_⟩⟩
    · obtain ⟨child, hchild, hc⟩ := List.mem_flatMap.mp hc
      have hmem := List.mem_of_mem_filter hchild
      have hin := (mem_openAt_iff.mp hc).inside
      refine ⟨(Inside.refl.child hmem).trans hin, ?_⟩
      rintro rfl
      exact hin.child_ne hmem rfl
    · have hmem := List.mem_of_mem_filter hchild
      exact ih child.depth (depth_lt hmem) (hbelow child hmem) rfl
    · refine ((hnested outer .refl).ordered.filter _).imp_of_mem fun {a b} ha hb hle x hx y hy => ?_
      have hxa := Inside.bounds (hbelow a (List.mem_of_mem_filter ha)) .refl
        (mem_openAt_iff.mp hx).inside
      have hyb := Inside.bounds (hbelow b (List.mem_of_mem_filter hb)) .refl
        (mem_openAt_iff.mp hy).inside
      exact .inr (by omega)

end Tree

end Walk

end Construct

namespace Document

open Construct Lexer TreeNode

variable {path : Path} {text : String} {d : Document}

/-- A construct below the module takes up text, and its ends are places of the text. -/
lemma parse_placed (h : parse path text = .ok d) {c : Construct} (hc : Inside (.module d.tree) c)
    (hne : c ≠ .module d.tree) : c.span.start.byte < c.span.stop.byte ∧
      Text.Reaches text.toList c.span.start ∧ Text.Reaches text.toList c.span.stop := by
  have hwithin := (parse_nested h).1 c hc
  obtain ⟨tree, htree, rfl⟩ := parse_eq_ok_iff.mp h
  obtain ⟨ts, hts, -, -, hfits⟩ := Parser.parse_spans htree
  obtain ⟨cs, last, hsource, hscanned, -⟩ := scanned_of_tokenize hts
  have hne' : TreeNode.construct c ≠ .construct (.module tree) :=
    fun heq => hne (TreeNode.construct.inj heq)
  have hreaches : ∀ t ∈ ts, Text.Reaches text.toList t.span.start ∧
      Text.Reaches text.toList t.span.stop := by
    intro t ht
    obtain ⟨front, left, htext, hstart, hstop, -⟩ := hscanned.token_place ht
    exact ⟨⟨front, _, hsource.trans htext, hstart⟩,
      ⟨_, left, hsource.trans (htext.trans (List.append_assoc _ _ _).symm), hstop⟩⟩
  obtain ⟨t, ht, u, hu, hstart, hstop⟩ := (hfits _ hwithin).2.resolve_left hne'
  rw [show c.span = (TreeNode.construct c).span from rfl]
  refine ⟨?_, hstart ▸ (hreaches t ht).1, hstop ▸ (hreaches u hu).2⟩
  cases hwithin with
  | refl => exact absurd rfl hne'
  | part houter hp => exact (hfits _ houter).1.filled _ hp

section Positions

variable {a b : Construct} (h : parse path text = .ok d) (ha : Inside (.module d.tree) a)
  (hne : a ≠ .module d.tree)

include h ha hne

lemma start_lt_stop : a.span.start.position < a.span.stop.position :=
  have hplaced := parse_placed h ha hne
  hplaced.2.1.position_lt hplaced.2.2 hplaced.1

/-- What stands inside a construct lies between the ends of the construct. -/
lemma positions_within (hin : Inside a b) : a.span.start.position ≤ b.span.start.position ∧
    b.span.stop.position ≤ a.span.stop.position := by
  have hb : b ≠ .module d.tree := by
    rintro rfl
    exact hne (ha.antisymm hin).symm
  have hbounds := Inside.bounds (parse_nested h).2 ha hin
  have hplaced := parse_placed h ha hne
  have hplaced' := parse_placed h (ha.trans hin) hb
  exact ⟨hplaced.2.1.position_le hplaced'.2.1 hbounds.1,
    hplaced'.2.2.position_le hplaced.2.2 hbounds.2⟩

lemma stop_le_start (hb : Inside (.module d.tree) b) (hne' : b ≠ .module d.tree)
    (hle : a.span.stop.byte ≤ b.span.start.byte) :
    a.span.stop.position ≤ b.span.start.position :=
  (parse_placed h ha hne).2.2.position_le (parse_placed h hb hne').2.1 hle

end Positions

end Document

end FlowCanvas
