import FlowCanvas.Proofs.Tightness

/-!
# The construct at a range

Every position has an offset except those behind the last line, and a range whose offsets are in
order lies in a smallest construct. Since constructs are wider than what they hold, the span of a
construct leads back to the construct.
-/

namespace FlowCanvas

lemma byteLength_take_le (n : Nat) (cs : List Char) : byteLength (cs.take n) ≤ byteLength cs := by
  conv_rhs => rw [← List.take_append_drop n cs, byteLength_append]
  exact Nat.le_add_right _ _

/-- A list without repetitions that holds at most one thing. -/
lemma eq_toList_of_mem_iff {α : Type} {l : List α} {o : Option α} (hnodup : l.Nodup)
    (h : ∀ a, a ∈ l ↔ o = some a) : l = o.toList := by
  have hperm : l.Perm o.toList :=
    (List.perm_ext_iff_of_nodup hnodup (by cases o <;> simp)).mpr fun a => by simp [h]
  cases o with
  | none => exact hperm.eq_nil
  | some a => exact hperm.eq_singleton

namespace Text

/-- A line ends inside the text. -/
lemma lineStart_add_le (text : List Char) {n : Nat} {l : List Char}
    (h : (lines text)[n]? = some l) :
    lineStart (lines text) n + byteLength l ≤ byteLength text := by
  induction text generalizing n l with
  | nil =>
    cases n with
    | zero =>
      obtain rfl := Option.some.inj h
      exact le_rfl
    | succ n => simp [lines, pieces] at h
  | cons c cs ih =>
    by_cases hc : c = '\n'
    · subst hc
      rw [lines_cons_newLine] at h ⊢
      cases n with
      | zero =>
        obtain rfl := Option.some.inj h
        exact Nat.zero_le _
      | succ n =>
        have hle := ih h
        have hsize : '\n'.utf8Size = 1 := rfl
        simp only [lineStart_cons_succ, byteLength_nil, byteLength_cons, hsize]
        omega
    · obtain ⟨l', ls, hl, hcons⟩ := lines_cons hc cs
      rw [hl] at ih
      rw [hcons] at h ⊢
      cases n with
      | zero =>
        obtain rfl := Option.some.inj h
        have hle := @ih 0 l' rfl
        simp only [lineStart, byteLength_cons] at hle ⊢
        omega
      | succ n =>
        have hle := @ih (n + 1) l h
        simp only [lineStart_cons_succ, byteLength_cons] at hle ⊢
        omega

lemma offset?_le {text : List Char} {p : Position} {n : Nat} (h : offset? text p = some n) :
    n ≤ byteLength text := by
  obtain ⟨l, hl, rfl⟩ := Option.map_eq_some_iff.mp h
  have hline := lineStart_add_le text hl
  have htake := byteLength_take_le p.column l
  omega

end Text

namespace Construct

lemma ne_module_of_child {c inner : Construct} (h : inner ∈ c.children) (m : SourceModule) :
    inner ≠ .module m := by
  rintro rfl
  match c, h with
  | .module m', h =>
    obtain ⟨member, -, hof⟩ := List.mem_filterMap.mp h
    cases member <;> simp [ofMember?] at hof
  | .function f, h => simp [children] at h
  | .service s, h => simp [children] at h
  | .classDefinition d, h => simp [children] at h
  | .block b, h => simp [children] at h
  | .statement (.conditional (.mk _ _ alternative _)), h =>
    cases alternative <;> simp [children, ofAlternative, Conditional.alternative] at h
  | .statement (.loop ..), h => simp [children] at h

/-- Modules do not stand inside of other constructs. -/
lemma Inside.ne_module {outer c : Construct} (h : Inside outer c) (hne : c ≠ outer)
    (m : SourceModule) : c ≠ .module m := by
  cases h with
  | refl => exact absurd rfl hne
  | child _ hinner => exact ne_module_of_child hinner m

end Construct

namespace Document

open Construct

variable {path : Path} {text : String} {d : Document}

lemma offset?_eq_none_iff {p : Position} :
    d.offset? p = none ↔ Text.lineCount d.text.toList ≤ p.line ∧
      ¬(p.line = Text.lineCount d.text.toList ∧ p.column = 0) := by
  unfold offset? Text.editOffset?
  split_ifs with hend
  · simp [hend]
  · simp only [Text.offset?, Option.map_eq_none_iff, List.getElem?_eq_none_iff]
    exact ⟨fun h => ⟨h, hend⟩, fun h => h.1⟩

lemma offset?_le {p : Position} {n : Nat} (h : d.offset? p = some n) :
    n ≤ byteLength d.text.toList := by
  unfold offset? Text.editOffset? at h
  split_ifs at h
  · exact (Option.some.inj h).ge
  · exact Text.offset?_le h

lemma enclosing_eq_none_iff {start stop : Position} :
    d.enclosing start stop = none ↔ d.offset? start = none ∨ d.offset? stop = none ∨
      ∃ lo hi, d.offset? start = some lo ∧ d.offset? stop = some hi ∧ hi < lo := by
  rw [enclosing]
  cases hlo : d.offset? start with
  | none => simp
  | some lo =>
    cases hhi : d.offset? stop with
    | none => simp
    | some hi => simp

/-- A range of the text that is not empty has a smallest construct around it. -/
lemma enclosing_of_lt (h : parse path text = .ok d) {start stop : Position} {lo hi : Nat}
    (hlo : d.offset? start = some lo) (hhi : d.offset? stop = some hi) (hlt : lo < hi) :
    ∃ found, d.enclosing start stop = some found ∧ Inside (.module d.tree) found ∧
      found.span.covers lo hi ∧
      ∀ c, Inside (.module d.tree) c → (c.span.covers lo hi ↔ Inside c found) := by
  obtain ⟨-, hnested⟩ := parse_nested h
  have hmodule : (Construct.module d.tree).span.covers lo hi := by
    obtain ⟨tree, htree, rfl⟩ := parse_eq_ok_iff.mp h
    obtain ⟨ts, -, hfirst, hlast, -⟩ := Parser.parse_spans htree
    exact covers_iff.mpr ⟨hfirst.le.trans (Nat.zero_le lo), (offset?_le hhi).trans hlast.ge⟩
  have hcovers : ((Construct.module d.tree).smallest lo hi).span.covers lo hi :=
    covers_descend hmodule
  refine ⟨(Construct.module d.tree).smallest lo hi, ?_, inside_descend _ _ _ _, hcovers,
    fun c hc => ⟨fun hc' => inside_smallest hlt hnested hc hc', fun hin => ?_⟩⟩
  · rw [enclosing, hlo, hhi]
    simp [hlt.not_gt]
  · exact hin.covers (fun c' hc' => hnested c' (hc.trans hc')) hcovers

/-- The span of a construct leads to the construct. -/
lemma enclosing_self (h : parse path text = .ok d) {c : Construct}
    (hc : Inside (.module d.tree) c) (hne : c ≠ .module d.tree) :
    d.enclosing c.span.start.position c.span.stop.position = some c := by
  obtain ⟨hwithin, hnested⟩ := parse_nested h
  obtain ⟨found, hfound, -, hcovers, hleast⟩ :=
    enclosing_node h (hwithin c hc) fun heq => hne (TreeNode.construct.inj heq)
  have hinside := hleast c hc (covers_iff.mpr ⟨le_rfl, le_rfl⟩)
  rcases hinside.cases_head with rfl | ⟨child, hchild, hin⟩
  · exact hfound
  · -- the child would cover the span of `c`, and `c` is wider than its children
    have hbelow := hin.covers (fun c' hc' => hnested c' ((hc.child hchild).trans hc')) hcovers
    have hnot := (parse_tight h c hc).not_covers (hc.ne_module hne) hchild
    exact absurd hbelow (by simp [TreeNode.span, hnot])

/-- A construct around the range of another has the other inside. -/
lemma inside_of_covers (h : parse path text = .ok d) {c inner : Construct}
    (hc : Inside (.module d.tree) c) (hinner : Inside (.module d.tree) inner)
    (hne : inner ≠ .module d.tree)
    (hcovers : c.span.covers inner.span.start.byte inner.span.stop.byte) : Inside c inner := by
  obtain ⟨found, hfound, -, -, hleast⟩ := enclosing_node h ((parse_nested h).1 inner hinner)
    fun heq => hne (TreeNode.construct.inj heq)
  rw [show (TreeNode.construct inner).span = inner.span from rfl, enclosing_self h hinner hne]
    at hfound
  obtain rfl := Option.some.inj hfound
  exact hleast c hc hcovers

/-- A range has no construct exactly when an end has no offset or the ends are out of order; the
positions without an offset are those behind the start of the line after the last. A range that is
not empty leads to the smallest construct around it: the constructs that cover the range are the
found one and those around it. The span of a construct below the module leads to that construct. -/
theorem enclosing_least (h : parse path text = .ok d) :
    (∀ start stop, d.enclosing start stop = none ↔
      d.offset? start = none ∨ d.offset? stop = none ∨
        ∃ lo hi, d.offset? start = some lo ∧ d.offset? stop = some hi ∧ hi < lo) ∧
      (∀ p, d.offset? p = none ↔ Text.lineCount text.toList ≤ p.line ∧
        ¬(p.line = Text.lineCount text.toList ∧ p.column = 0)) ∧
      (∀ start stop lo hi, d.offset? start = some lo → d.offset? stop = some hi → lo < hi →
        ∃ found, d.enclosing start stop = some found ∧ Inside (.module d.tree) found ∧
          found.span.covers lo hi ∧
          ∀ c, Inside (.module d.tree) c → (c.span.covers lo hi ↔ Inside c found)) ∧
      ∀ c, Inside (.module d.tree) c → c ≠ .module d.tree →
        d.enclosing c.span.start.position c.span.stop.position = some c := by
  refine ⟨fun start stop => enclosing_eq_none_iff, fun p => ?_, fun start stop lo hi hlo hhi hlt =>
    enclosing_of_lt h hlo hhi hlt, fun c hc hne => enclosing_self h hc hne⟩
  obtain ⟨-, htext, -⟩ := parse_stands h
  rw [← htext]
  exact offset?_eq_none_iff

/-- The type of a declaration leads to the smallest construct around it. -/
theorem enclosing_least_declaration :
    ∃ d found, parse ⟨"main.bal"⟩
        "function f() \x7b\n if a \x7b \x7d else if b \x7b\n int x = 1;\n \x7d\n\x7d\n" = .ok d ∧
      d.enclosing ⟨2, 1⟩ ⟨2, 4⟩ = some found ∧
      (∀ c, Inside (.module d.tree) c → (c.span.covers 38 41 ↔ Inside c found)) ∧
      ∀ c, Inside (.module d.tree) c → c ≠ .module d.tree →
        d.enclosing c.span.start.position c.span.stop.position = some c := by
  have hcheck : (parse ⟨"main.bal"⟩
      "function f() \x7b\n if a \x7b \x7d else if b \x7b\n int x = 1;\n \x7d\n\x7d\n").toOption.any
        (fun d => d.offset? ⟨2, 1⟩ = some 38 ∧ d.offset? ⟨2, 4⟩ = some 41) = true := by
    decide +kernel
  obtain ⟨d, hd, hoffsets⟩ := exists_ok_of_any hcheck
  obtain ⟨hlo, hhi⟩ := of_decide_eq_true hoffsets
  obtain ⟨-, -, hrange, hself⟩ := enclosing_least hd
  obtain ⟨found, hfound, -, -, hleast⟩ := hrange ⟨2, 1⟩ ⟨2, 4⟩ 38 41 hlo hhi (by decide)
  exact ⟨d, found, hd, hfound, hleast, hself⟩

end Document

end FlowCanvas
