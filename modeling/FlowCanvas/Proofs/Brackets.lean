import FlowCanvas.Source.Parser.Cursor
import Mathlib

/-!
# Phrases without a mark

`depthAfter? mark depth ts` walks over a phrase and counts its open brackets. It fails at a mark
outside brackets and at a closer with nothing open, the two places where a search ends. `Free`
phrases are the ones a search passes over entirely, so `cut` finds a mark exactly behind a free
phrase.
-/

namespace FlowCanvas

namespace Brackets

/-- The brackets open after a phrase, when `depth` are open in front of it. -/
def depthAfter? (mark : String) : Nat → Phrase → Option Nat
  | depth, [] => some depth
  | depth, t :: ts =>
    if depth == 0 && t.is mark then none
    else if t.isOpener then depthAfter? mark (depth + 1) ts
    else if t.isCloser then
      match depth with
      | 0 => none
      | depth + 1 => depthAfter? mark depth ts
    else depthAfter? mark depth ts

/-- A phrase whose brackets match, with no mark outside them. -/
def Free (mark : String) (ts : Phrase) : Prop := depthAfter? mark 0 ts = some 0

lemma depthAfter?_append (mark : String) (depth : Nat) (ts us : Phrase) :
    depthAfter? mark depth (ts ++ us) =
      (depthAfter? mark depth ts).bind fun d => depthAfter? mark d us := by
  fun_induction depthAfter? mark depth ts with
  | case1 depth => rfl
  | case2 depth t ts hmark => simp [depthAfter?, hmark]
  | case3 depth t ts hmark hopen ih => simp [depthAfter?, hmark, hopen, ih]
  | case4 t ts hmark hopen hclose => simp [depthAfter?, hmark, hopen]
  | case5 t ts hopen hclose depth hmark ih => simp [depthAfter?, hopen, hclose, ih]
  | case6 depth t ts hmark hopen hclose ih => simp [depthAfter?, hmark, hopen, hclose, ih]

lemma cutFrom_cons (mark : String) (depth : Nat) (t : Token) (ts : Phrase) :
    cutFrom mark depth (t :: ts) =
      if depth == 0 && t.is mark then some ([], t, ts)
      else
        (if t.isOpener then cutFrom mark (depth + 1) ts
        else if t.isCloser then (if depth = 0 then none else cutFrom mark (depth - 1) ts)
        else cutFrom mark depth ts).map fun (before, found, after) =>
          (t :: before, found, after) := by
  rw [cutFrom.eq_def]
  cases depth with
  | zero => split_ifs <;> simp_all
  | succ depth => split_ifs <;> simp_all

lemma cutFrom_append {mark : String} {depth depth' : Nat} {ts : Phrase}
    (h : depthAfter? mark depth ts = some depth') (us : Phrase) :
    cutFrom mark depth (ts ++ us) =
      (cutFrom mark depth' us).map fun (before, found, after) => (ts ++ before, found, after) := by
  fun_induction depthAfter? mark depth ts with
  | case1 depth =>
    obtain rfl := Option.some.inj h
    simp
  | case2 depth t ts hmark => simp at h
  | case3 depth t ts hmark hopen ih =>
    rw [List.cons_append, cutFrom_cons, if_neg hmark, if_pos hopen, ih h, Option.map_map]
    rfl
  | case4 t ts hmark hopen hclose => simp at h
  | case5 t ts hopen hclose depth hmark ih =>
    rw [List.cons_append, cutFrom_cons, if_neg hmark, if_neg hopen, if_pos hclose,
      if_neg (by omega),
      Nat.succ_sub_one, ih h, Option.map_map]
    rfl
  | case6 depth t ts hmark hopen hclose ih =>
    rw [List.cons_append, cutFrom_cons, if_neg hmark, if_neg hopen, if_neg hclose, ih h,
      Option.map_map]
    rfl

lemma cutFrom_spec {mark : String} {depth : Nat} {ts before after : Phrase} {found : Token}
    (h : cutFrom mark depth ts = some (before, found, after)) :
    ts = before ++ found :: after ∧ depthAfter? mark depth before = some 0 ∧ found.is mark := by
  fun_induction cutFrom mark depth ts generalizing before with
  | case1 depth => simp at h
  | case2 depth t ts hmark =>
    simp only [Option.some.injEq, Prod.mk.injEq] at h
    obtain ⟨rfl, rfl, rfl⟩ := h
    simp only [Bool.and_eq_true, beq_iff_eq] at hmark
    exact ⟨rfl, by simp [depthAfter?, hmark.1], hmark.2⟩
  | case3 depth t ts hmark hopen ih =>
    obtain ⟨⟨before', found', after'⟩, hcut, heq⟩ := Option.map_eq_some_iff.mp h
    simp only [Prod.mk.injEq] at heq
    obtain ⟨rfl, rfl, rfl⟩ := heq
    obtain ⟨rfl, hdepth, hfound⟩ := ih hcut
    exact ⟨rfl, by simp [depthAfter?, hmark, hopen, hdepth], hfound⟩
  | case4 t ts hmark hopen hclose => simp at h
  | case5 t ts hopen hclose depth hmark ih =>
    obtain ⟨⟨before', found', after'⟩, hcut, heq⟩ := Option.map_eq_some_iff.mp h
    simp only [Prod.mk.injEq] at heq
    obtain ⟨rfl, rfl, rfl⟩ := heq
    obtain ⟨rfl, hdepth, hfound⟩ := ih hcut
    exact ⟨rfl, by simp [depthAfter?, hopen, hclose, hdepth], hfound⟩
  | case6 depth t ts hmark hopen hclose ih =>
    obtain ⟨⟨before', found', after'⟩, hcut, heq⟩ := Option.map_eq_some_iff.mp h
    simp only [Prod.mk.injEq] at heq
    obtain ⟨rfl, rfl, rfl⟩ := heq
    obtain ⟨rfl, hdepth, hfound⟩ := ih hcut
    exact ⟨rfl, by simp [depthAfter?, hmark, hopen, hclose, hdepth], hfound⟩

/-- A phrase is divided at a mark exactly when everything in front of the mark is free of it. -/
theorem cut_eq_some_iff {mark : String} {ts before after : Phrase} {found : Token} :
    cut mark ts = some (before, found, after) ↔
      ts = before ++ found :: after ∧ Free mark before ∧ found.is mark := by
  constructor
  · exact cutFrom_spec
  · rintro ⟨rfl, hfree, hfound⟩
    have hhere : cutFrom mark 0 (found :: after) = some ([], found, after) := by
      simp [cutFrom, hfound]
    rw [cut, cutFrom_append hfree, hhere]
    simp

lemma cut_of_free {mark : String} {ts : Phrase} (h : Free mark ts) : cut mark ts = none := by
  have happend := cutFrom_append h []
  simpa [cut, cutFrom] using happend

lemma depthAfter?_of_cutFrom {mark mark' : String} {depth depth' : Nat} {ts : Phrase}
    (h : depthAfter? mark depth ts = some depth') (hcut : cutFrom mark' depth ts = none) :
    depthAfter? mark' depth ts = some depth' := by
  fun_induction depthAfter? mark depth ts with
  | case1 depth => simpa [depthAfter?] using h
  | case2 depth t ts hmark => simp at h
  | case3 depth t ts hmark hopen ih =>
    rw [cutFrom_cons] at hcut
    split at hcut
    · simp at hcut
    · rename_i hmark'
      rw [Option.map_eq_none_iff] at hcut
      rw [depthAfter?.eq_def]
      simp only [hmark', hopen, Bool.false_eq_true, if_false, if_true]
      exact ih h hcut
  | case4 t ts hmark hopen hclose => simp at h
  | case5 t ts hopen hclose depth hmark ih =>
    rw [cutFrom_cons, if_neg (by simp), if_neg hopen, if_pos hclose, if_neg (by omega),
      Nat.succ_sub_one, Option.map_eq_none_iff] at hcut
    simp only [depthAfter?, hopen, hclose, Bool.false_eq_true, if_false, if_true]
    exact ih h hcut
  | case6 depth t ts hmark hopen hclose ih =>
    rw [cutFrom_cons] at hcut
    split at hcut
    · simp at hcut
    · rename_i hmark'
      rw [Option.map_eq_none_iff] at hcut
      rw [depthAfter?.eq_def]
      simp only [hmark', hopen, hclose, Bool.false_eq_true, if_false]
      exact ih h hcut

/-- A phrase whose brackets match is free of every mark that is not found in it. -/
lemma free_of_cut_eq_none {mark mark' : String} {ts : Phrase} (h : Free mark ts)
    (hcut : cut mark' ts = none) : Free mark' ts :=
  depthAfter?_of_cutFrom h hcut

lemma Free.append {mark : String} {ts us : Phrase} (ht : Free mark ts) (hu : Free mark us) :
    Free mark (ts ++ us) := by
  unfold Free at *
  rw [depthAfter?_append, ht]
  exact hu

lemma Free.nil (mark : String) : Free mark [] := rfl

end Brackets

namespace Parser

open Brackets

lemma through_eq_ok_iff {mark : String} {ts body rest : Phrase} {found : Token} :
    through mark ts = .ok ((body, found), rest) ↔
      ts = body ++ found :: rest ∧ Free mark body ∧ found.is mark := by
  rw [← cut_eq_some_iff, through]
  split
  · rename_i hcut
    simp [hcut, and_assoc]
  · rename_i hcut
    simp [hcut]

lemma upTo_eq_ok_iff {mark : String} {ts body rest : Phrase} :
    upTo mark ts = .ok (body, rest) ↔
      ts = body ++ rest ∧ Free mark body ∧ sees mark rest := by
  rw [upTo]
  split
  · rename_i before found after hcut
    obtain ⟨rfl, hfree, hfound⟩ := cut_eq_some_iff.mp hcut
    constructor
    · intro h
      simp only [Except.ok.injEq, Prod.mk.injEq] at h
      obtain ⟨rfl, rfl⟩ := h
      exact ⟨rfl, hfree, hfound⟩
    · rintro ⟨heq, hfree', hsees⟩
      cases rest with
      | nil => simp [sees] at hsees
      | cons t rest =>
        have hcut' := cut_eq_some_iff.mpr ⟨heq, hfree', hsees⟩
        rw [hcut'] at hcut
        simp only [Option.some.injEq, Prod.mk.injEq] at hcut
        obtain ⟨rfl, rfl, rfl⟩ := hcut
        rfl
  · rename_i hcut
    constructor
    · intro h
      simp at h
    · rintro ⟨rfl, hfree, hsees⟩
      cases rest with
      | nil => simp [sees] at hsees
      | cons t rest =>
        have hcut' : cut mark (body ++ t :: rest) = some (body, t, rest) :=
          cut_eq_some_iff.mpr ⟨rfl, hfree, hsees⟩
        rw [hcut'] at hcut
        simp at hcut

lemma eat_eq_some_iff {mark : String} {ts rest : Phrase} :
    eat mark ts = some rest ↔ ∃ t, ts = t :: rest ∧ t.is mark := by
  cases ts with
  | nil => simp [eat]
  | cons t ts =>
    by_cases h : t.is mark = true
    · simp [eat, h]
    · simp only [eat, h, Bool.false_eq_true, if_false, reduceCtorEq, List.cons.injEq, false_iff]
      rintro ⟨u, ⟨rfl, -⟩, hu⟩
      exact h hu

lemma eat_eq_none_iff {mark : String} {ts : Phrase} :
    eat mark ts = none ↔ sees mark ts = false := by
  cases ts with
  | nil => simp [eat, sees]
  | cons t ts => simp [eat, sees]

lemma readIf_eq_ok_iff {test : Token → Bool} {expected : String} {ts rest : Phrase} {t : Token} :
    readIf test expected ts = .ok (t, rest) ↔ ts = t :: rest ∧ test t := by
  cases ts with
  | nil => simp [readIf]
  | cons u us =>
    rw [readIf]
    split
    · rename_i hu
      constructor
      · intro h
        simp only [Except.ok.injEq, Prod.mk.injEq] at h
        obtain ⟨rfl, rfl⟩ := h
        exact ⟨rfl, hu⟩
      · rintro ⟨heq, -⟩
        obtain ⟨rfl, rfl⟩ := List.cons.inj heq
        rfl
    · rename_i hu
      constructor
      · intro h
        simp at h
      · rintro ⟨heq, ht⟩
        obtain ⟨rfl, rfl⟩ := List.cons.inj heq
        exact absurd ht hu

lemma expect_eq_ok_iff {mark : String} {ts rest : Phrase} {t : Token} :
    expect mark ts = .ok (t, rest) ↔ ts = t :: rest ∧ t.is mark :=
  readIf_eq_ok_iff

lemma identifier_eq_ok_iff {ts rest : Phrase} {t : Token} :
    identifier ts = .ok (t, rest) ↔ ts = t :: rest ∧ t.isIdentifier :=
  readIf_eq_ok_iff

/-- A sequence of steps succeeds when each of them does. -/
lemma bind_eq_ok_iff {α β : Type} {m : Except SyntaxError α} {k : α → Except SyntaxError β}
    {b : β} :
    (m >>= k) = .ok b ↔ ∃ a, m = .ok a ∧ k a = .ok b := by
  cases m with
  | error e => simp [bind, Except.bind]
  | ok a => simp [bind, Except.bind]

end Parser

end FlowCanvas
