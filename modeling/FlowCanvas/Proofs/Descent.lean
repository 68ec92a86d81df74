import FlowCanvas.Proofs.Spans
import FlowCanvas.Proofs.StatementEdits

/-!
# The smallest construct around a range

The search for a construct goes into the first child that covers a range and never comes back. The
children of a construct stand apart, so that no other child covers a range that is not empty: the
search ends inside of every construct that covers it.
-/

namespace FlowCanvas

namespace Construct

/-! ### Depth -/

lemma le_greatest {n : Nat} {ns : List Nat} (h : n ∈ ns) : n ≤ greatest ns := by
  induction ns with
  | nil => simp at h
  | cons m ns ih =>
    rcases List.mem_cons.mp h with rfl | h
    · exact Nat.le_max_left _ _
    · exact (ih h).trans (Nat.le_max_right _ _)

lemma statementDepth_le {s : Statement} {list : List Statement} (h : s ∈ list) :
    statementDepth s ≤ statementsDepth list := by
  induction list with
  | nil => simp at h
  | cons s' list ih =>
    rw [statementsDepth]
    rcases List.mem_cons.mp h with rfl | h
    · exact Nat.le_max_left _ _
    · exact (ih h).trans (Nat.le_max_right _ _)

lemma depth_of_member {m : Member} {c : Construct} (h : ofMember? m = some c) :
    c.depth = memberDepth m := by
  cases m <;> simp only [ofMember?, Option.some.injEq, reduceCtorEq] at h <;> subst h <;> rfl

lemma depth_of_alternative {a : Alternative} {c : Construct} (h : c ∈ ofAlternative a) :
    c.depth ≤ alternativeDepth a := by
  cases a with
  | absent => simp [ofAlternative] at h
  | block b =>
    obtain rfl := List.mem_singleton.mp h
    rw [alternativeDepth]
    rfl
  | chained next =>
    obtain rfl := List.mem_singleton.mp h
    rw [alternativeDepth, depth, statementDepth]

/-- Constructs stand deeper than those inside of them, so that a search may go on to the end. -/
lemma depth_lt {c inner : Construct} (h : inner ∈ c.children) : inner.depth < c.depth := by
  match c, h with
  | .module m, h =>
    obtain ⟨member, hmember, hof⟩ := List.mem_filterMap.mp h
    rw [depth_of_member hof]
    exact Nat.lt_succ_of_le (le_greatest (List.mem_map_of_mem hmember))
  | .function f, h =>
    obtain rfl := List.mem_singleton.mp h
    exact Nat.lt_succ_self _
  | .service s, h =>
    obtain ⟨f, hf, rfl⟩ := List.mem_map.mp h
    exact Nat.lt_succ_of_le (le_greatest (List.mem_map_of_mem hf))
  | .classDefinition d, h =>
    obtain ⟨f, hf, rfl⟩ := List.mem_map.mp h
    exact Nat.lt_succ_of_le (le_greatest (List.mem_map_of_mem hf))
  | .block (.mk list span), h =>
    obtain ⟨s, hs, rfl⟩ := List.mem_map.mp h
    rw [depth, depth, blockDepth]
    exact Nat.lt_succ_of_le (statementDepth_le hs)
  | .statement (.conditional (.mk value body alternative span)), h =>
    rw [depth, statementDepth, conditionalDepth]
    rcases List.mem_cons.mp h with rfl | h
    · exact Nat.lt_succ_of_le (Nat.le_max_left _ _)
    · exact Nat.lt_succ_of_le ((depth_of_alternative h).trans (Nat.le_max_right _ _))
  | .statement (.loop value body span), h =>
    obtain rfl := List.mem_singleton.mp h
    rw [depth, depth, statementDepth]
    exact Nat.lt_succ_self _

/-! ### The search -/

/-- The children of a construct lie inside of its span, one behind the other. -/
structure Nested (c : Construct) : Prop where
  inside : ∀ inner ∈ c.children,
    c.span.start.byte ≤ inner.span.start.byte ∧ inner.span.stop.byte ≤ c.span.stop.byte
  ordered : c.children.Pairwise fun a b => a.span.stop.byte ≤ b.span.start.byte

section Search

variable {lo hi : Nat}

lemma covers_iff {span : Span} :
    span.covers lo hi ↔ span.start.byte ≤ lo ∧ hi ≤ span.stop.byte := by
  simp [Span.covers]

/-- A range that is not empty has at most one child around it. -/
lemma Nested.unique {c a b : Construct} (h : Nested c) (hlt : lo < hi) (ha : a ∈ c.children)
    (hb : b ∈ c.children) (hcovers : a.span.covers lo hi) (hcovers' : b.span.covers lo hi) :
    a = b := by
  have hordered := List.pairwise_iff_getElem.mp h.ordered
  rw [covers_iff] at hcovers hcovers'
  obtain ⟨i, hleft, rfl⟩ := List.getElem_of_mem ha
  obtain ⟨j, hright, rfl⟩ := List.getElem_of_mem hb
  rcases lt_trichotomy i j with hij | rfl | hij
  · have hle := hordered i j hleft hright hij
    omega
  · rfl
  · have hle := hordered j i hright hleft hij
    omega

lemma Inside.covers {outer inner : Construct} (h : Inside outer inner)
    (hnested : ∀ c, Inside outer c → Nested c) (hcovers : inner.span.covers lo hi) :
    outer.span.covers lo hi := by
  induction h with
  | refl => exact hcovers
  | @child c inner hc hinner ih =>
    have hinside := (hnested c hc).inside inner hinner
    rw [covers_iff] at hcovers
    exact ih (covers_iff.mpr ⟨hinside.1.trans hcovers.1, hcovers.2.trans hinside.2⟩)

lemma covers_descend {n : Nat} {c : Construct} (h : c.span.covers lo hi) :
    (descend lo hi n c).span.covers lo hi := by
  induction n generalizing c with
  | zero => exact h
  | succ n ih =>
    rw [descend]
    split
    · rename_i child hfind
      exact ih (by simpa using List.find?_some hfind)
    · exact h

/-- The search never passes by a construct that covers the range. -/
lemma inside_descend_of_covers {n : Nat} {c inner : Construct} (hlt : lo < hi)
    (hdepth : c.depth ≤ n) (hnested : ∀ c', Inside c c' → Nested c') (hinner : Inside c inner)
    (hcovers : inner.span.covers lo hi) : Inside inner (descend lo hi n c) := by
  induction n generalizing c with
  | zero =>
    rcases hinner.cases_head with rfl | ⟨child, hchild, -⟩
    · exact .refl
    · have := depth_lt hchild
      omega
  | succ n ih =>
    rcases hinner.cases_head with rfl | ⟨child, hchild, hin⟩
    · exact inside_descend lo hi (n + 1) c
    · have hbelow : ∀ c', Inside child c' → Nested c' := fun c' hc' =>
        hnested c' ((Inside.refl.child hchild).trans hc')
      have hchildCovers := hin.covers hbelow hcovers
      have hless := depth_lt hchild
      rw [descend]
      split
      · rename_i found hfind
        obtain rfl := (hnested c .refl).unique hlt (List.mem_of_find?_eq_some hfind) hchild
          (by simpa using List.find?_some hfind) hchildCovers
        exact ih (by omega) hbelow hin
      · rename_i hfind
        exact absurd hchildCovers (by simpa using List.find?_eq_none.mp hfind child hchild)

/-- The construct that is found is the smallest one around a range that is not empty. -/
theorem inside_smallest {c inner : Construct} (hlt : lo < hi)
    (hnested : ∀ c', Inside c c' → Nested c') (hinner : Inside c inner)
    (hcovers : inner.span.covers lo hi) : Inside inner (c.smallest lo hi) :=
  inside_descend_of_covers hlt le_rfl hnested hinner hcovers

end Search

end Construct

namespace TreeNode

open Construct

lemma within_of_inside {outer c : Construct}
    (hchildren : ∀ n, Within (.construct outer) n → n.children ⊆ n.parts) (h : Inside outer c) :
    Within (.construct outer) (.construct c) := by
  induction h with
  | refl => exact .refl
  | child _ hinner ih => exact ih.part (hchildren _ ih (List.mem_map_of_mem hinner))

lemma Fits.nested {text : List Char} {c : Construct} (h : Fits text (.construct c)) : Nested c :=
  ⟨fun _ hinner => h.inside _ (h.children (List.mem_map_of_mem hinner)),
    List.pairwise_map.mp h.ordered⟩

end TreeNode

namespace Document

open Construct Lexer TreeNode

/-- Every construct of a document is a node of its tree, and its children stand apart. -/
lemma parse_nested {path : Path} {text : String} {d : Document} (h : parse path text = .ok d) :
    (∀ c, Inside (.module d.tree) c → Within (.construct (.module d.tree)) (.construct c)) ∧
      ∀ c, Inside (.module d.tree) c → Nested c := by
  obtain ⟨tree, htree, rfl⟩ := parse_eq_ok_iff.mp h
  obtain ⟨ts, -, -, -, hfits⟩ := Parser.parse_spans htree
  have hwithin : ∀ c, Inside (.module tree) c → Within (.construct (.module tree)) (.construct c) :=
    fun c hc => within_of_inside (fun n hn => (hfits n hn).1.children) hc
  exact ⟨hwithin, fun c hc => (hfits _ (hwithin c hc)).1.nested⟩

lemma offset?_advance {d : Document} {xs ys : List Char} (h : d.text.toList = xs ++ ys) :
    d.offset? (Place.origin.advance xs).position = some (byteLength xs) := by
  have hoffset := Text.offset?_advance xs ys
  obtain ⟨l, hl, -⟩ := Option.map_eq_some_iff.mp hoffset
  obtain ⟨hline, -⟩ := List.getElem?_eq_some_iff.mp hl
  rw [offset?, h, Text.editOffset?, if_neg (fun hend => absurd hend.1 hline.ne)]
  exact hoffset

/-- The ends of a token lead back to its bytes. -/
lemma offset?_token {d : Document} {ts : Phrase} (h : tokenize d.text = .ok ts) {t : Token}
    (ht : t ∈ ts) : d.offset? t.span.start.position = some t.span.start.byte ∧
      d.offset? t.span.stop.position = some t.span.stop.byte := by
  obtain ⟨cs, last, hsource, hscanned, -⟩ := scanned_of_tokenize h
  obtain ⟨front, left, htext, hstart, hstop, -⟩ := hscanned.token_place ht
  rw [hstart, hstop, Place.byte_origin_advance, Place.byte_origin_advance]
  constructor
  · exact offset?_advance (hsource.trans htext)
  · exact offset?_advance (hsource.trans (htext.trans (List.append_assoc _ _ _).symm))

/-- The span of a node leads to the smallest construct around the node. -/
theorem enclosing_node {path : Path} {text : String} {d : Document} (h : parse path text = .ok d)
    {n : TreeNode} (hn : Within (.construct (.module d.tree)) n)
    (hne : n ≠ .construct (.module d.tree)) :
    ∃ found, d.enclosing n.span.start.position n.span.stop.position = some found ∧
      Inside (.module d.tree) found ∧
      found.span.covers n.span.start.byte n.span.stop.byte ∧
      ∀ c, Inside (.module d.tree) c → c.span.covers n.span.start.byte n.span.stop.byte →
        Inside c found := by
  obtain ⟨-, hnested⟩ := parse_nested h
  obtain ⟨tree, htree, rfl⟩ := parse_eq_ok_iff.mp h
  obtain ⟨ts, hts, hfirst, hlast, hfits⟩ := Parser.parse_spans htree
  obtain ⟨t, ht, u, hu, hstart, hstop⟩ := (hfits n hn).2.resolve_left hne
  have hlo := (offset?_token (d := ⟨path, text, tree⟩) hts ht).1
  have hhi := (offset?_token (d := ⟨path, text, tree⟩) hts hu).2
  rw [← hstart] at hlo
  rw [← hstop] at hhi
  obtain ⟨hfilled, hinside⟩ : n.span.start.byte < n.span.stop.byte ∧
      n.span.stop.byte ≤ byteLength text.toList := by
    obtain ⟨cs, last, hsource, hscanned, -⟩ := scanned_of_tokenize hts
    obtain ⟨front, left, htext, -, hend, -⟩ := hscanned.token_place hu
    cases hn with
    | refl => exact absurd rfl hne
    | @part outer _ houter hp =>
      refine ⟨(hfits outer houter).1.filled n hp, ?_⟩
      rw [hstop, hend, Place.byte_origin_advance, hsource, htext, byteLength_append,
        byteLength_append, byteLength_append]
      omega
  refine ⟨(Construct.module tree).smallest n.span.start.byte n.span.stop.byte, ?_,
    inside_descend _ _ _ _, ?_, fun c hc hcovers => inside_smallest hfilled hnested hc hcovers⟩
  · rw [enclosing, hlo, hhi]
    simp [hfilled.not_gt]
  · refine covers_descend (covers_iff.mpr ⟨?_, ?_⟩)
    · exact hfirst.le.trans (Nat.zero_le _)
    · exact hinside.trans hlast.ge

end Document

end FlowCanvas
