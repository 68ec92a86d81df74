import FlowCanvas.Document
import Mathlib

/-!
# Places and offsets

Walking over characters moves a place forward. The position that a walk from the start of a text
reaches leads back to the number of bytes walked over, and the slice between two such places is the
text between them.
-/

namespace FlowCanvas

namespace Position

lemma lt_of_lt_of_le {p q r : Position} (hpq : p < q) (hqr : q ≤ r) : p < r := by
  rw [lt_def] at *
  rw [le_def] at hqr
  omega

lemma le_of_lt {p q : Position} (h : p < q) : p ≤ q := by
  rw [lt_def] at h
  rw [le_def]
  omega

lemma le_refl (p : Position) : p ≤ p := by
  rw [le_def]
  omega

lemma le_trans {p q r : Position} (hpq : p ≤ q) (hqr : q ≤ r) : p ≤ r := by
  rw [le_def] at *
  omega

/-- Positions are told apart by how they are written. -/
lemma render_injective : Function.Injective render := by
  intro p q h
  have hcolon : ∀ n, ':' ∉ Nat.toDigits 10 n := fun n hmem =>
    absurd (Nat.isDigit_of_mem_toDigits (by omega) (by omega) hmem) (by decide)
  have hdigits : Function.Injective (Nat.toDigits 10) :=
    Function.LeftInverse.injective fun _ => Nat.ofDigitChars_ten_toDigits
  have hlist := congrArg String.toList h
  simp only [render, String.toList_append, Nat.toString_eq_ofList_toDigits,
    String.toList_ofList] at hlist
  rw [List.append_assoc, List.append_assoc] at hlist
  obtain ⟨hline, -, hcolumn⟩ :=
    (List.append_cons_inj_of_notMem (hcolon p.line) (hcolon p.column)).mp hlist
  cases p
  cases q
  rw [Position.mk.injEq]
  exact ⟨hdigits hline, hdigits hcolumn⟩

end Position

namespace Place

lemma position_lt_step (p : Place) (c : Char) : p.position < (p.step c).position := by
  rw [Position.lt_def]
  by_cases hc : c = '\n'
  · simp [step, hc]
  · simp [step, hc]

lemma position_le_advance (p : Place) (cs : List Char) : p.position ≤ (p.advance cs).position := by
  induction cs generalizing p with
  | nil => exact Position.le_refl _
  | cons c cs ih => exact Position.le_of_lt (Position.lt_of_lt_of_le (p.position_lt_step c) (ih _))

lemma position_lt_advance (p : Place) {cs : List Char} (hne : cs ≠ []) :
    p.position < (p.advance cs).position := by
  obtain ⟨c, cs, rfl⟩ := List.exists_cons_of_ne_nil hne
  exact Position.lt_of_lt_of_le (p.position_lt_step c) (position_le_advance _ cs)

/-- Where a walk ends, seen from its start: a walk that meets a line feed forgets the column. -/
lemma position_advance (p : Place) (cs : List Char) :
    (p.advance cs).position =
      ⟨p.position.line + (origin.advance cs).position.line,
        if (origin.advance cs).position.line = 0 then
          p.position.column + (origin.advance cs).position.column
        else (origin.advance cs).position.column⟩ := by
  induction cs generalizing p with
  | nil => simp [origin, Position.zero]
  | cons c cs ih =>
    rw [advance_cons, advance_cons, ih (p.step c), ih (origin.step c)]
    generalize (origin.advance cs).position = q
    by_cases hc : c = '\n'
    · simp only [step, hc, if_true, origin, Position.zero, Position.mk.injEq]
      constructor
      · omega
      · by_cases hq : q.line = 0
        · simp [hq]
        · simp [hq]
    · simp only [step, hc, if_false, origin, Position.zero, Position.mk.injEq]
      constructor
      · omega
      · by_cases hq : q.line = 0
        · simp only [hq, if_true]
          omega
        · simp [hq]

end Place

namespace Text

lemma lines_cons_newLine (cs : List Char) : lines ('\n' :: cs) = [] :: lines cs := rfl

lemma lines_cons {c : Char} (hc : c ≠ '\n') (cs : List Char) :
    ∃ l ls, lines cs = l :: ls ∧ lines (c :: cs) = (c :: l) :: ls := by
  obtain ⟨l, ls, hl⟩ := List.exists_cons_of_ne_nil (pieces_ne_nil '\n' cs)
  exact ⟨l, ls, hl, by simp [lines, pieces, hc, hl]⟩

lemma lineStart_cons_succ (l : List Char) (ls : List (List Char)) (n : Nat) :
    lineStart (l :: ls) (n + 1) = byteLength l + 1 + lineStart ls n := rfl

/-- A walk to the end of `xs` leads to the byte after `xs`. -/
theorem offset?_advance (xs ys : List Char) :
    offset? (xs ++ ys) (Place.origin.advance xs).position = some (byteLength xs) := by
  induction xs with
  | nil =>
    obtain ⟨l, ls, hl⟩ := List.exists_cons_of_ne_nil (pieces_ne_nil '\n' ys)
    simp [offset?, Place.origin, Position.zero, lines, hl, lineStart]
  | cons c xs ih =>
    rw [Place.advance_cons, Place.position_advance]
    unfold offset? at ih ⊢
    generalize (Place.origin.advance xs).position = q at ih ⊢
    by_cases hc : c = '\n'
    · subst hc
      rw [List.cons_append, lines_cons_newLine]
      simp only [Place.step, if_true, Place.origin, Position.zero, Nat.zero_add, ite_self,
        Nat.add_comm 1 q.line, List.getElem?_cons_succ, lineStart_cons_succ, byteLength_nil,
        byteLength_cons]
      obtain ⟨l, hl, hbytes⟩ := Option.map_eq_some_iff.mp ih
      rw [hl, Option.map_some, show '\n'.utf8Size = 1 from rfl, ← hbytes, Nat.add_assoc]
    · obtain ⟨l, ls, hl, hcons⟩ := lines_cons hc (xs ++ ys)
      rw [List.cons_append, hcons]
      rw [hl] at ih
      simp only [Place.step, hc, if_false, Place.origin, Position.zero, Nat.zero_add,
        byteLength_cons]
      obtain ⟨line, column⟩ := q
      cases line with
      | zero =>
        have hbytes : byteLength (l.take column) = byteLength xs := by
          simpa [lineStart] using ih
        simp [lineStart, Nat.add_comm 1 column, hbytes]
      | succ n =>
        obtain ⟨l', hl', hbytes⟩ := Option.map_eq_some_iff.mp ih
        simp only [List.getElem?_cons_succ, lineStart_cons_succ] at hl' hbytes ⊢
        rw [hl', Option.map_some, Option.some.injEq]
        simp only [Nat.add_eq_zero_iff, Nat.one_ne_zero, and_false, if_false, byteLength_cons]
        omega

end Text

namespace Document

lemma sliceFrom_before (lo hi here : Nat) (cs : List Char) (h : hi ≤ here) :
    sliceFrom lo hi here cs = [] := by
  induction cs generalizing here with
  | nil => rfl
  | cons c cs ih =>
    simp only [sliceFrom]
    rw [ih _ (by omega), if_neg (by omega)]

lemma sliceFrom_inside (lo here : Nat) (xs ys : List Char) (h : lo ≤ here) :
    sliceFrom lo (here + byteLength xs) here (xs ++ ys) = xs := by
  induction xs generalizing here with
  | nil => exact sliceFrom_before lo _ here ys (by simp)
  | cons c cs ih =>
    have hc := c.utf8Size_pos
    simp only [List.cons_append, sliceFrom, byteLength_cons]
    rw [if_pos (by omega), ← Nat.add_assoc, ih _ (by omega)]

lemma sliceFrom_after (lo hi here : Nat) (xs ys : List Char) (h : here + byteLength xs ≤ lo) :
    sliceFrom lo hi here (xs ++ ys) = sliceFrom lo hi (here + byteLength xs) ys := by
  induction xs generalizing here with
  | nil => simp
  | cons c cs ih =>
    have hc := c.utf8Size_pos
    simp only [byteLength_cons] at h
    simp only [List.cons_append, sliceFrom, byteLength_cons]
    rw [if_neg (by omega), ih _ (by omega), Nat.add_assoc]

/-- A source is what the text of a document has between the two ends of a span: as many bytes are
before it as the start says, and as many up to its end as the stop says. -/
def StandsAt (d : Document) (span : Span) (source : String) : Prop :=
  ∃ before after : List Char, d.text.toList = before ++ (source.toList ++ after) ∧
    byteLength before = span.start.byte ∧ byteLength (before ++ source.toList) = span.stop.byte

variable {d : Document} {span : Span}

/-- The places around a stretch of the text are the ends of a span at which it stands. -/
lemma standsAt_of_places {xs ys zs : List Char} (htext : d.text.toList = xs ++ (ys ++ zs))
    (hstart : span.start = Place.origin.advance xs)
    (hstop : span.stop = Place.origin.advance (xs ++ ys)) : d.StandsAt span (.ofList ys) := by
  refine ⟨xs, zs, by rw [htext, String.toList_ofList], ?_, ?_⟩
  · rw [hstart, Place.byte_advance, Place.origin, Nat.zero_add]
  · rw [hstop, Place.byte_advance, Place.origin, Nat.zero_add, String.toList_ofList]

/-- The slice of a span is what stands there. -/
theorem StandsAt.slice_eq {source : String} (h : d.StandsAt span source) :
    d.slice span = source := by
  obtain ⟨before, after, htext, hstart, hstop⟩ := h
  rw [byteLength_append] at hstop
  unfold slice
  rw [htext, ← hstart, ← hstop, sliceFrom_after _ _ _ _ _ (by simp), Nat.zero_add,
    sliceFrom_inside _ _ _ _ (Nat.le_refl _), String.ofList_toList]

end Document

end FlowCanvas
