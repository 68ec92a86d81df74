import FlowCanvas.Proofs.Wording
import FlowCanvas.Source.Expression
import Mathlib

/-!
# Groups of brackets

`levelAfter?` counts the open brackets of a phrase like `depthAfter?`, with no mark to stop at. A
phrase is matched when every bracket in it is closed in it. The last group of a phrase encloses a
matched one, so a phrase is divided at its last group in one way only.
-/

namespace FlowCanvas

namespace Brackets

/-- The brackets open after a phrase, when `depth` are open in front of it. -/
def levelAfter? : Nat → Phrase → Option Nat
  | depth, [] => some depth
  | depth, t :: ts =>
    if t.isOpener then levelAfter? (depth + 1) ts
    else if t.isCloser then
      match depth with
      | 0 => none
      | depth + 1 => levelAfter? depth ts
    else levelAfter? depth ts

/-- A phrase whose brackets match. -/
def Matched (ts : Phrase) : Prop := levelAfter? 0 ts = some 0

lemma levelAfter?_append (depth : Nat) (ts us : Phrase) :
    levelAfter? depth (ts ++ us) = (levelAfter? depth ts).bind fun d => levelAfter? d us := by
  fun_induction levelAfter? depth ts with
  | case1 depth => rfl
  | case2 depth t ts hopen ih => simp [levelAfter?, hopen, ih]
  | case3 t ts hopen hclose => simp [levelAfter?, hopen, hclose]
  | case4 t ts hopen hclose depth ih => simp [levelAfter?, hopen, hclose, ih]
  | case5 depth t ts hopen hclose ih => simp [levelAfter?, hopen, hclose, ih]

/-- More open brackets in front of a phrase are open after it too. -/
lemma levelAfter?_add {depth depth' : Nat} {ts : Phrase} (h : levelAfter? depth ts = some depth')
    (more : Nat) : levelAfter? (depth + more) ts = some (depth' + more) := by
  fun_induction levelAfter? depth ts with
  | case1 depth =>
    obtain rfl := Option.some.inj h
    rfl
  | case2 depth t ts hopen ih =>
    rw [levelAfter?.eq_def]
    simp only [hopen, if_true]
    rw [show depth + more + 1 = depth + 1 + more by omega]
    exact ih h
  | case3 t ts hopen hclose => simp at h
  | case4 t ts hopen hclose depth ih =>
    rw [show depth + 1 + more = depth + more + 1 by omega]
    simp only [levelAfter?, hopen, hclose, if_true, Bool.false_eq_true, if_false]
    exact ih h
  | case5 depth t ts hopen hclose ih =>
    rw [levelAfter?.eq_def]
    simp only [hopen, hclose, Bool.false_eq_true, if_false]
    exact ih h

lemma Matched.level {ts : Phrase} (h : Matched ts) (depth : Nat) :
    levelAfter? depth ts = some depth := by
  simpa using levelAfter?_add h depth

lemma Matched.nil : Matched [] := rfl

lemma Matched.append {ts us : Phrase} (ht : Matched ts) (hu : Matched us) :
    Matched (ts ++ us) := by
  unfold Matched at *
  rw [levelAfter?_append, ht]
  exact hu

/-- A token that is no bracket is matched. -/
lemma matched_singleton {t : Token} (hopen : t.isOpener = false) (hclose : t.isCloser = false) :
    Matched [t] := by
  simp [Matched, levelAfter?, hopen, hclose]

lemma matched_identifier {t : Token} (h : t.isIdentifier) : Matched [t] := by
  have hkind : t.kind = .identifier := by simpa [Token.isIdentifier] using h
  exact matched_singleton (by simp [Token.isOpener, hkind]) (by simp [Token.isCloser, hkind])

lemma matched_of_isWord {t : Token} {words : List String} (h : t.isWord words) : Matched [t] := by
  simp only [Token.isWord, Bool.and_eq_true] at h
  exact matched_identifier h.1

lemma matched_of_text {t : Token} {text : String} (h : t.text = text)
    (htext : text ∉ ["(", "[", "\x7b", "\x7b|", ")", "]", "\x7d", "|\x7d"]) : Matched [t] := by
  simp only [List.mem_cons, List.not_mem_nil, or_false, not_or] at htext
  exact matched_singleton (by simp [Token.isOpener, h, htext]) (by simp [Token.isCloser, h, htext])

lemma matched_mark {t : Token} {mark : String} (h : t.is mark)
    (hmark : mark ∉ ["(", "[", "\x7b", "\x7b|", ")", "]", "\x7d", "|\x7d"]) : Matched [t] := by
  simp only [Token.is, Bool.and_eq_true, beq_iff_eq] at h
  exact matched_of_text h.2 hmark

lemma levelAfter?_of_depthAfter? {mark : String} {depth depth' : Nat} {ts : Phrase}
    (h : depthAfter? mark depth ts = some depth') : levelAfter? depth ts = some depth' := by
  fun_induction depthAfter? mark depth ts with
  | case1 depth => exact h
  | case2 depth t ts hmark => simp at h
  | case3 depth t ts hmark hopen ih => simpa [levelAfter?, hopen] using ih h
  | case4 t ts hmark hopen hclose => simp at h
  | case5 t ts hopen hclose depth hmark ih => simpa [levelAfter?, hopen, hclose] using ih h
  | case6 depth t ts hmark hopen hclose ih => simpa [levelAfter?, hopen, hclose] using ih h

lemma Free.matched {mark : String} {ts : Phrase} (h : Free mark ts) : Matched ts :=
  levelAfter?_of_depthAfter? h

/-- No mark is found inside brackets. -/
lemma depthAfter?_of_levelAfter? (mark : String) {depth depth' : Nat} {ts : Phrase}
    (h : levelAfter? depth ts = some depth') :
    depthAfter? mark (depth + 1) ts = some (depth' + 1) := by
  fun_induction levelAfter? depth ts with
  | case1 depth =>
    obtain rfl := Option.some.inj h
    rfl
  | case2 depth t ts hopen ih => simpa [depthAfter?, hopen] using ih h
  | case3 t ts hopen hclose => simp at h
  | case4 t ts hopen hclose depth ih => simpa [depthAfter?, hopen, hclose] using ih h
  | case5 depth t ts hopen hclose ih => simpa [depthAfter?, hopen, hclose] using ih h

lemma not_isOpener {t : Token} (h : t.isCloser) : t.isOpener = false := by
  have hcloser : ∀ mark ∈ [")", "]", "\x7d", "|\x7d"],
      ["(", "[", "\x7b", "\x7b|"].contains mark = false := by decide
  simp only [Token.isCloser, Bool.and_eq_true] at h
  simp only [Token.isOpener, h.1, Bool.true_and]
  exact hcloser _ (List.contains_iff_mem.mp h.2)

lemma matched_group {first last : Token} {inner : Phrase} (hopen : first.isOpener)
    (hinner : Matched inner) (hclose : last.isCloser) : Matched (first :: (inner ++ [last])) := by
  have hlevel := hinner.level 1
  simp only [Matched, levelAfter?, hopen, if_true, Nat.zero_add]
  rw [levelAfter?_append, hlevel]
  simp [levelAfter?, not_isOpener hclose, hclose]

/-- A phrase whose brackets match is free of every mark that would close one. -/
lemma Matched.free {ts : Phrase} (h : Matched ts) {mark : String}
    (hmark : ∀ t ∈ ts, t.is mark → t.isCloser) : Free mark ts := by
  have hlevel : ∀ depth, depthAfter? mark depth ts = levelAfter? depth ts := by
    intro depth
    clear h
    fun_induction levelAfter? depth ts with
    | case1 depth => rfl
    | case2 depth t ts hopen ih =>
      have hnot : t.is mark = false := by
        rw [← Bool.not_eq_true]
        intro his
        rw [not_isOpener (hmark t List.mem_cons_self his)] at hopen
        exact absurd hopen (by decide)
      simp [depthAfter?, hnot, hopen, ih fun u hu => hmark u (List.mem_cons_of_mem t hu)]
    | case3 t ts hopen hclose => simp [depthAfter?, hopen, hclose]
    | case4 t ts hopen hclose depth ih =>
      simp [depthAfter?, hopen, hclose, ih fun u hu => hmark u (List.mem_cons_of_mem t hu)]
    | case5 depth t ts hopen hclose ih =>
      have hnot : t.is mark = false := by
        rw [← Bool.not_eq_true]
        intro his
        exact absurd (hmark t List.mem_cons_self his) (by simp [hclose])
      simp [depthAfter?, hnot, hopen, hclose, ih fun u hu => hmark u (List.mem_cons_of_mem t hu)]
  rw [Free, hlevel]
  exact h

lemma free_singleton {mark : String} {t : Token} (h : Matched [t]) (hmark : t.is mark = false) :
    Free mark [t] := by
  refine h.free fun u hu his => ?_
  obtain rfl := List.mem_singleton.mp hu
  rw [hmark] at his
  exact absurd his (by decide)

lemma free_mark {t : Token} {mark mark' : String} (h : t.is mark')
    (hmark' : mark' ∉ ["(", "[", "\x7b", "\x7b|", ")", "]", "\x7d", "|\x7d"]) (hne : mark' ≠ mark) :
    Free mark [t] :=
  free_singleton (matched_mark h hmark') (Parser.is_eq_false h hne)

/-- A group is free of every mark that is not its bracket. -/
lemma free_group {mark : String} {first last : Token} {inner : Phrase} (hopen : first.isOpener)
    (hmark : first.is mark = false) (hinner : Matched inner) (hclose : last.isCloser) :
    Free mark (first :: (inner ++ [last])) := by
  unfold Free
  have hdepth := depthAfter?_of_levelAfter? mark hinner
  simp only [depthAfter?, hmark, Bool.and_false, Bool.false_eq_true, if_false, hopen, if_true]
  rw [depthAfter?_append, hdepth]
  simp [depthAfter?, not_isOpener hclose, hclose]

/-! ### The last group -/

lemma openBefore_spec {depth : Nat} (hdepth : 0 < depth) {inner before found : Phrase}
    {ts : Phrase} (h : openBefore depth inner ts = some (before, found)) :
    ∃ first mid, ts.reverse = before ++ first :: mid ∧ found = mid ++ inner ∧ first.isOpener ∧
      first.is "(" ∧ levelAfter? 0 mid = some (depth - 1) := by
  fun_induction openBefore depth inner ts with
  | case1 depth inner => simp at h
  | case2 depth inner t ts hclose ih =>
    obtain ⟨first, mid, hts, rfl, hopen, hparen, hlevel⟩ := ih (by omega) h
    refine ⟨first, mid ++ [t], by simp [hts], by simp, hopen, hparen, ?_⟩
    rw [levelAfter?_append, hlevel]
    obtain ⟨depth, rfl⟩ := Nat.exists_eq_succ_of_ne_zero hdepth.ne'
    simp [levelAfter?, not_isOpener hclose, hclose]
  | case3 depth inner t ts hclose hopen hlast hparen =>
    simp only [Option.some.injEq, Prod.mk.injEq] at h
    obtain ⟨rfl, rfl⟩ := h
    refine ⟨t, [], by simp, rfl, hopen, hparen, ?_⟩
    rw [show depth - 1 = 0 by omega]
    rfl
  | case4 depth inner t ts hclose hopen hlast hparen => simp at h
  | case5 depth inner t ts hclose hopen hlast ih =>
    obtain ⟨first, mid, hts, rfl, hfirst, hparen, hlevel⟩ := ih (by omega) h
    refine ⟨first, mid ++ [t], by simp [hts], by simp, hfirst, hparen, ?_⟩
    rw [levelAfter?_append, hlevel]
    simp only [Option.bind_some, levelAfter?, hopen, if_true]
    congr 1
    omega
  | case6 depth inner t ts hclose hopen ih =>
    obtain ⟨first, mid, hts, rfl, hfirst, hparen, hlevel⟩ := ih hdepth h
    refine ⟨first, mid ++ [t], by simp [hts], by simp, hfirst, hparen, ?_⟩
    rw [levelAfter?_append, hlevel]
    simp [levelAfter?, hopen, hclose]

/-- A matched phrase is passed over backwards. -/
lemma openBefore_append {depth : Nat} (hdepth : 0 < depth) {mid : Phrase}
    (h : levelAfter? 0 mid = some (depth - 1)) (inner ts : Phrase) :
    openBefore depth inner (mid.reverse ++ ts) = openBefore 1 (mid ++ inner) ts := by
  induction mid using List.reverseRecOn generalizing depth inner with
  | nil =>
    have hone : depth = 1 := by
      have hlevel := Option.some.inj h
      omega
    rw [hone]
    rfl
  | append_singleton mid t ih =>
    rw [levelAfter?_append] at h
    obtain ⟨level, hmid, hlevel⟩ := Option.bind_eq_some_iff.mp h
    rw [List.reverse_append, List.reverse_singleton, List.singleton_append, List.cons_append,
      List.append_assoc, List.singleton_append, openBefore]
    by_cases hclose : t.isCloser
    · rw [if_pos hclose]
      cases level with
      | zero => simp [levelAfter?, not_isOpener hclose, hclose] at hlevel
      | succ level =>
        have hlevel' : level = depth - 1 := by
          simpa [levelAfter?, not_isOpener hclose, hclose] using hlevel
        exact ih (by omega) (by rw [hmid]; congr 1; omega) _
    · rw [if_neg hclose]
      by_cases hopen : t.isOpener
      · have hlevel' : level + 1 = depth - 1 := by simpa [levelAfter?, hopen] using hlevel
        rw [if_pos hopen, if_neg (by omega)]
        exact ih (by omega) (by rw [hmid]; congr 1; omega) _
      · have hlevel' : level = depth - 1 := by simpa [levelAfter?, hopen, hclose] using hlevel
        rw [if_neg hopen]
        exact ih hdepth (by rw [hmid, hlevel']) _

/-- A phrase is divided at its last group, which is in parentheses and encloses a matched
phrase. -/
theorem splitLastGroup?_eq_some_iff {ts callee inner : Phrase} :
    splitLastGroup? ts = some (callee, inner) ↔
      ∃ first last, ts = callee ++ first :: (inner ++ [last]) ∧ first.isOpener ∧ first.is "(" ∧
        last.is ")" ∧ Matched inner := by
  constructor
  · intro h
    unfold splitLastGroup? at h
    split at h
    · simp at h
    · rename_i last before hreverse
      split at h
      · rename_i hlast
        obtain ⟨first, mid, hbefore, rfl, hopen, hparen, hlevel⟩ := openBefore_spec Nat.one_pos h
        refine ⟨first, last, ?_, hopen, hparen, hlast, by rw [List.append_nil]; exact hlevel⟩
        rw [← List.reverse_reverse ts, hreverse, List.reverse_cons, hbefore]
        simp
      · simp at h
  · rintro ⟨first, last, rfl, hopen, hparen, hlast, hinner⟩
    have hreverse : (callee ++ first :: (inner ++ [last])).reverse =
        last :: (inner.reverse ++ first :: callee.reverse) := by simp
    have hclose : first.isCloser = false := by
      by_contra hclose
      rw [not_isOpener (by simpa using hclose)] at hopen
      simp at hopen
    unfold splitLastGroup?
    rw [hreverse]
    simp only [hlast, if_true]
    rw [openBefore_append Nat.one_pos hinner]
    simp [openBefore, hclose, hopen, hparen]

/-! ### Segments -/

/-- Phrases with a comma token between them. -/
inductive Joined : List Phrase → Phrase → Prop
  | single {ts : Phrase} : Joined [ts] ts
  | cons {ts us : Phrase} {comma : Token} {list : List Phrase} (hcomma : comma.is ",")
    (hlist : Joined list us) : Joined (ts :: list) (ts ++ comma :: us)

lemma segmentsFrom_of_free {depth : Nat} {ts : Phrase} (h : depthAfter? "," depth ts = some 0) :
    segmentsFrom depth ts = [ts] := by
  fun_induction depthAfter? "," depth ts with
  | case1 depth => rfl
  | case2 depth t ts hmark => simp at h
  | case3 depth t ts hmark hopen ih =>
    rw [segmentsFrom.eq_def]
    simp only [hmark, Bool.false_eq_true, if_false, hopen, if_true, ih h, consFirst]
  | case4 t ts hmark hopen hclose => simp at h
  | case5 t ts hopen hclose depth hmark ih =>
    simp [segmentsFrom, hopen, hclose, ih h, consFirst]
  | case6 depth t ts hmark hopen hclose ih =>
    rw [segmentsFrom.eq_def]
    simp only [hmark, Bool.false_eq_true, if_false, hopen, hclose, ih h, consFirst]

lemma segmentsFrom_append {depth : Nat} {ts : Phrase} (h : depthAfter? "," depth ts = some 0)
    {comma : Token} (hcomma : comma.is ",") {us : Phrase} (hus : us ≠ []) :
    segmentsFrom depth (ts ++ comma :: us) = ts :: segmentsFrom 0 us := by
  fun_induction depthAfter? "," depth ts with
  | case1 depth =>
    obtain rfl := Option.some.inj h
    simp [segmentsFrom, hcomma, hus]
  | case2 depth t ts hmark => simp at h
  | case3 depth t ts hmark hopen ih =>
    rw [List.cons_append, segmentsFrom.eq_def]
    simp only [hmark, Bool.false_eq_true, if_false, hopen, if_true, ih h, consFirst]
  | case4 t ts hmark hopen hclose => simp at h
  | case5 t ts hopen hclose depth hmark ih =>
    simp [segmentsFrom, hopen, hclose, ih h, consFirst]
  | case6 depth t ts hmark hopen hclose ih =>
    rw [List.cons_append, segmentsFrom.eq_def]
    simp only [hmark, Bool.false_eq_true, if_false, hopen, hclose, ih h, consFirst]

lemma Joined.ne_nil {list : List Phrase} {ts : Phrase} (h : Joined list ts)
    (hne : ∀ seg ∈ list, seg ≠ []) : ts ≠ [] := by
  cases h with
  | single => exact hne _ (by simp)
  | cons => simp

/-- The segments of joined phrases are the phrases. -/
lemma segments_of_joined {list : List Phrase} {ts : Phrase} (h : Joined list ts)
    (hne : ∀ seg ∈ list, seg ≠ []) (hfree : ∀ seg ∈ list, Free "," seg) : segments ts = list := by
  have hfrom : segmentsFrom 0 ts = list := by
    induction h with
    | single => exact segmentsFrom_of_free (hfree _ (by simp))
    | @cons seg us comma list hcomma hlist ih =>
      have hus := hlist.ne_nil fun seg hseg => hne seg (List.mem_cons_of_mem _ hseg)
      rw [segmentsFrom_append (hfree seg (by simp)) hcomma hus,
        ih (fun seg hseg => hne seg (List.mem_cons_of_mem _ hseg))
          (fun seg hseg => hfree seg (List.mem_cons_of_mem _ hseg))]
  rw [segments, hfrom, if_neg (by simpa using h.ne_nil hne)]

lemma Joined.matched {list : List Phrase} {ts : Phrase} (h : Joined list ts)
    (hfree : ∀ seg ∈ list, Free "," seg) (hcommas : ∀ t ∈ ts, t.is "," → t.kind = .punctuation) :
    Matched ts := by
  induction h with
  | single => exact (hfree _ (by simp)).matched
  | @cons seg us comma list hcomma hlist ih =>
    have hmark : Matched [comma] := by
      have hkind := hcommas comma (by simp) hcomma
      simp only [Token.is, Bool.and_eq_true, beq_iff_eq] at hcomma
      simp [Matched, levelAfter?, Token.isOpener, Token.isCloser, hkind, hcomma.2]
    refine (hfree seg (by simp)).matched.append (hmark.append ?_)
    exact ih (fun seg hseg => hfree seg (List.mem_cons_of_mem _ hseg))
      (fun t ht => hcommas t (by simp [ht]))

/-- Parts of a phrase without a comma outside brackets, the first one behind `depth` open ones. -/
structure Segmented (depth : Nat) (ts seg : Phrase) (list : List Phrase) : Prop where
  first : depthAfter? "," depth seg = some 0
  start : seg <+: ts
  free : ∀ seg ∈ list, Free "," seg
  inside : ∀ seg ∈ list, seg <:+: ts

lemma Segmented.cons {depth depth' : Nat} {ts seg : Phrase} {list : List Phrase}
    (h : Segmented depth' ts seg list) {t : Token}
    (hstep : ∀ us, depthAfter? "," depth (t :: us) = depthAfter? "," depth' us) :
    Segmented depth (t :: ts) (t :: seg) list := by
  refine ⟨(hstep seg).trans h.first, List.cons_prefix_cons.mpr ⟨rfl, h.start⟩, h.free, ?_⟩
  exact fun seg hseg => List.infix_cons (h.inside seg hseg)

lemma segmentsFrom_spec {depth : Nat} {ts : Phrase} (h : levelAfter? depth ts = some 0) :
    ∃ seg list, segmentsFrom depth ts = seg :: list ∧ Segmented depth ts seg list := by
  fun_induction segmentsFrom depth ts with
  | case1 depth =>
    obtain rfl := Option.some.inj h
    exact ⟨[], [], rfl, rfl, List.prefix_refl _, by simp, by simp⟩
  | case2 depth t ts hcomma ih =>
    simp only [Bool.and_eq_true, beq_iff_eq] at hcomma
    obtain ⟨rfl, hcomma⟩ := hcomma
    have htext : t.text = "," := by
      simp only [Token.is, Bool.and_eq_true, beq_iff_eq] at hcomma
      exact hcomma.2
    have hts : levelAfter? 0 ts = some 0 := by
      simpa [levelAfter?, Token.isOpener, Token.isCloser, htext] using h
    have hparts : ∀ part ∈ (if ts.isEmpty then [] else segmentsFrom 0 ts),
        Free "," part ∧ part <:+: t :: ts := by
      intro part hpart
      split at hpart
      · simp at hpart
      · obtain ⟨seg, list, heq, hsegmented⟩ := ih hts
        rw [heq] at hpart
        rcases List.mem_cons.mp hpart with rfl | hmem
        · exact ⟨hsegmented.first, List.infix_cons hsegmented.start.isInfix⟩
        · exact ⟨hsegmented.free part hmem, List.infix_cons (hsegmented.inside part hmem)⟩
    exact ⟨[], _, rfl, rfl, List.nil_prefix, fun part hpart => (hparts part hpart).1,
      fun part hpart => (hparts part hpart).2⟩
  | case3 depth t ts hmark hopen ih =>
    obtain ⟨seg, list, heq, hsegmented⟩ := ih (by simpa [levelAfter?, hopen] using h)
    refine ⟨t :: seg, list, by rw [heq]; rfl, hsegmented.cons fun us => ?_⟩
    rw [depthAfter?.eq_def]
    simp only [hmark, hopen, Bool.false_eq_true, if_false, if_true]
  | case4 t ts hopen hclose hmark => simp [levelAfter?, hopen, hclose] at h
  | case5 t ts hopen hclose depth hmark ih =>
    obtain ⟨seg, list, heq, hsegmented⟩ := ih (by simpa [levelAfter?, hopen, hclose] using h)
    refine ⟨t :: seg, list, by rw [heq]; rfl, hsegmented.cons fun us => ?_⟩
    simp [depthAfter?, hopen, hclose]
  | case6 depth t ts hmark hopen hclose ih =>
    obtain ⟨seg, list, heq, hsegmented⟩ := ih (by simpa [levelAfter?, hopen, hclose] using h)
    refine ⟨t :: seg, list, by rw [heq]; rfl, hsegmented.cons fun us => ?_⟩
    rw [depthAfter?.eq_def]
    simp only [hmark, hopen, hclose, Bool.false_eq_true, if_false]

/-- The segments of a matched phrase have no comma outside brackets, and stand in the phrase. -/
lemma segments_spec {ts : Phrase} (h : Matched ts) :
    ∀ seg ∈ segments ts, Free "," seg ∧ seg <:+: ts := by
  intro seg hseg
  unfold segments at hseg
  split at hseg
  · simp at hseg
  · obtain ⟨first, list, heq, hsegmented⟩ := segmentsFrom_spec h
    rw [heq] at hseg
    rcases List.mem_cons.mp hseg with rfl | hmem
    · exact ⟨hsegmented.first, hsegmented.start.isInfix⟩
    · exact ⟨hsegmented.free seg hmem, hsegmented.inside seg hmem⟩

end Brackets

end FlowCanvas
