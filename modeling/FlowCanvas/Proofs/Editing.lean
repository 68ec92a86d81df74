import FlowCanvas.Proofs.Leaves
import FlowCanvas.Proofs.Places

/-!
# Statements in their document

A statement is a stretch of the text of its document. A text that is read as the tokens of the
statement, and starts like it, can take its place: the tokens around it stay what they are.
-/

namespace FlowCanvas

namespace TextEdit

/-- The text after an edit. There is none when an end of the edit is past the text. -/
def apply (e : TextEdit) (text : String) : Option String := do
  let lo ← Text.offset? text.toList e.start
  let hi ← Text.offset? text.toList e.stop
  return .ofList (Document.sliceFrom 0 lo 0 text.toList ++ e.newText.toList ++
    Document.sliceFrom hi (byteLength text.toList) 0 text.toList)

/-- An edit between the places around a stretch of a text replaces that stretch. -/
lemma apply_eq {text : String} {xs ys zs : List Char} (htext : text.toList = xs ++ (ys ++ zs))
    (newText : String) :
    apply ⟨(Place.origin.advance xs).position, (Place.origin.advance (xs ++ ys)).position, newText⟩
      text = some (.ofList (xs ++ (newText.toList ++ zs))) := by
  have hstart := Text.offset?_advance xs (ys ++ zs)
  have hstop := Text.offset?_advance (xs ++ ys) zs
  have hfront : Document.sliceFrom 0 (byteLength xs) 0 (xs ++ (ys ++ zs)) = xs := by
    simpa using Document.sliceFrom_inside 0 0 xs (ys ++ zs) (Nat.le_refl 0)
  have hback : Document.sliceFrom (byteLength (xs ++ ys)) (byteLength (xs ++ ys ++ zs)) 0
      (xs ++ ys ++ zs) = zs := by
    rw [Document.sliceFrom_after _ _ _ _ _ (by simp), byteLength_append (xs ++ ys)]
    simpa using Document.sliceFrom_inside (byteLength (xs ++ ys)) (byteLength (xs ++ ys)) zs []
      (Nat.le_refl _)
  rw [List.append_assoc] at hstop hback
  simp only [apply, htext, hstart, hstop, Option.bind_eq_bind, Option.bind_some, hfront, hback]
  simp

end TextEdit

namespace Lexer

open FlowCanvas.Parser

/-- The stretch `used` of the tokens of a text, from `span.start` to `span.stop`: `front` is the
text of the tokens before it, `back` the text of the tokens behind it. -/
structure Stretch (text : List Char) (before used after : Phrase) (span : Span)
    (front gap back last : List Char) : Prop where
  chars : text = front ++ gap ++ ((Phrase.text used).toList ++ (back ++ last))
  start : span.start = Place.origin.advance (front ++ gap)
  stop : span.stop = Place.origin.advance (front ++ gap ++ (Phrase.text used).toList)
  layout : Gap false gap
  reads_front : Run front before.lexemes (gap ++ ((Phrase.text used).toList ++ (back ++ last)))
  reads_back : Run back after.lexemes last

/-- A span from the first token to the last one starts behind the layout in front of the tokens and
ends with their text. -/
lemma Scanned.covered {here : Place} {cs rest : List Char} {ts : Phrase} {span : Span}
    (h : Scanned here cs ts rest) (hcovers : Covers span ts) :
    ∃ gap, Gap false gap ∧ cs = gap ++ (Phrase.text ts).toList ∧
      span.start = here.advance gap ∧ span.stop = here.advance cs := by
  obtain ⟨first, final, hfirst, hfinal, rfl⟩ := hcovers
  obtain ⟨more, rfl⟩ := List.head?_eq_some_iff.mp hfirst
  obtain ⟨init, hinit⟩ := List.getLast?_eq_some_iff.mp hfinal
  obtain ⟨hgap, hstart, -, -⟩ := h.head
  refine ⟨first.gap.toList, hgap, ?_, hstart, ?_⟩
  · rw [h.chars, Phrase.tail_eq_gap_append_text, String.toList_append]
  · rw [hinit] at h
    exact h.stop

lemma Scanned.stretch {cs last : List Char} {before used after : Phrase} {span : Span}
    (h : Scanned .origin cs (before ++ (used ++ after)) last) (hcovers : Covers span used) :
    ∃ front gap back, Stretch (cs ++ last) before used after span front gap back last := by
  obtain ⟨front, ys, rfl, hfront, hys⟩ := h.split
  obtain ⟨us, back, rfl, hus, hback⟩ := hys.split
  obtain ⟨gap, hgap, hchars, hstart, hstop⟩ := hus.covered hcovers
  refine ⟨front, gap, back, ?_, ?_, ?_, hgap, ?_, hback.run⟩
  · simp [hchars]
  · simpa using hstart
  · simpa [hchars] using hstop
  · simpa [hchars] using hfront.run

namespace Stretch

variable {text front gap back last : List Char} {before used after : Phrase} {span : Span}

lemma standsAt {d : Document}
    (h : Stretch d.text.toList before used after span front gap back last) :
    d.StandsAt span (Phrase.text used) := by
  have hplaces := Document.standsAt_of_places h.chars h.start h.stop
  rwa [String.ofList_toList] at hplaces

/-- The tokens of a document stay what they are when a stretch of them is written anew. -/
lemma run_edited (h : Stretch text before used after span front gap back last)
    (hne : used ≠ []) {new : List Char} (hnew : Reads new used.lexemes)
    (hlike : StartsLike new (Phrase.text used).toList) :
    Run (front ++ (gap ++ (new ++ back))) (before ++ (used ++ after)).lexemes last := by
  have htame := (hlike.tame (back ++ last)).append gap
  have hfront := h.reads_front.tame htame
  have hused : Run (gap ++ new) used.lexemes (back ++ last) := by
    obtain ⟨t, ts, rfl⟩ := List.exists_cons_of_ne_nil hne
    exact (hnew.run (back ++ last)).gap h.layout
  have hback := hused.append h.reads_back
  rw [Phrase.lexemes_append, Phrase.lexemes_append]
  refine Run.append ?_ (by simpa using hback)
  simpa using hfront

end Stretch

end Lexer

namespace Document

open Lexer FlowCanvas.Parser

/-- The tokens of the text at a span, without their layout. -/
def lexemesAt (d : Document) (span : Span) : List Lexeme :=
  match tokenize (d.slice span) with
  | .ok ts => Phrase.lexemes ts
  | .error _ => []

lemma tokenize_slice {d : Document} {before used after : Phrase} {span : Span}
    {front gap back last : List Char} (hsource : Sourced used)
    (h : Stretch d.text.toList before used after span front gap back last) :
    ∃ us, tokenize (d.slice span) = .ok us ∧ Phrase.lexemes us = used.lexemes := by
  rw [h.standsAt.slice_eq]
  obtain ⟨here, cs, rest, hscanned⟩ := hsource
  exact tokenize_of_run (by simp) (hscanned.text_run.of_safe safe_nil) rfl

end Document

end FlowCanvas
