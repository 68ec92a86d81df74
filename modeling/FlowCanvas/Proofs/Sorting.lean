import FlowCanvas.Diagram
import FlowCanvas.Proofs.ByteLoops

/-!
# Sorted connections

Sorting is stable, so that taking items out before or after it gives the same list, and items that
stand for each other keep their order. Connections are sorted by the name of their variable, which
is the order of its bytes.
-/

namespace List

variable {α β : Type} {le : α → α → Bool} {le' : β → β → Bool}

/-- A list has at most one division into what stands before an item and what does not. -/
lemma append_inj_of_split {p : α → Bool} {xs ys xs' ys' : List α} (h : xs ++ ys = xs' ++ ys')
    (hxs : ∀ x ∈ xs, p x = false) (hys : ∀ y ∈ ys, p y = true) (hxs' : ∀ x ∈ xs', p x = false)
    (hys' : ∀ y ∈ ys', p y = true) : xs = xs' ∧ ys = ys' := by
  have hfilter : ys = ys' := by
    have hnone : xs.filter p = [] := filter_eq_nil_iff.mpr (by simpa using hxs)
    have hnone' : xs'.filter p = [] := filter_eq_nil_iff.mpr (by simpa using hxs')
    have hboth := congrArg (filter p) h
    rwa [filter_append, filter_append, hnone, hnone', nil_append, nil_append,
      filter_eq_self.mpr hys, filter_eq_self.mpr hys'] at hboth
  subst hfilter
  exact ⟨append_cancel_right h, rfl⟩

/-- Sorting goes on without the items that a map leaves out, when the map keeps the order. -/
theorem mergeSort_filterMap {f : α → Option β} (htrans : ∀ a b c, le a b → le b c → le a c)
    (htotal : ∀ a b, le a b || le b a) (htrans' : ∀ a b c, le' a b → le' b c → le' a c)
    (htotal' : ∀ a b, le' a b || le' b a)
    (hf : ∀ a b a' b', f a = some a' → f b = some b' → le' a' b' = le a b) (xs : List α) :
    (xs.filterMap f).mergeSort le' = (xs.mergeSort le).filterMap f := by
  induction xs with
  | nil => simp
  | cons a xs ih =>
    obtain ⟨before, after, hsorted, hrest, hbefore⟩ := mergeSort_cons htrans htotal a xs
    rw [hsorted, filterMap_append]
    rw [hrest, filterMap_append] at ih
    cases ha : f a with
    | none => rw [filterMap_cons_none ha, filterMap_cons_none ha, ih]
    | some a' =>
      rw [filterMap_cons_some ha, filterMap_cons_some ha]
      obtain ⟨before', after', hsorted', hrest', hbefore'⟩ :=
        mergeSort_cons htrans' htotal' a' (xs.filterMap f)
      have hpairwise := pairwise_mergeSort htrans htotal (a :: xs)
      have hpairwise' := pairwise_mergeSort htrans' htotal' (a' :: xs.filterMap f)
      rw [hsorted] at hpairwise
      rw [hsorted'] at hpairwise'
      have hafter := (pairwise_cons.mp (pairwise_append.mp hpairwise).2.1).1
      have hafter' := (pairwise_cons.mp (pairwise_append.mp hpairwise').2.1).1
      -- both halves are told apart by whether they may stand behind the new item
      obtain ⟨hfirst, hlast⟩ := append_inj_of_split (p := le' a') (hrest'.symm.trans ih)
        (by simpa using hbefore') hafter'
        (fun b' hb' => by
          obtain ⟨b, hb, hfb⟩ := mem_filterMap.mp hb'
          rw [hf a b a' b' ha hfb]
          simpa using hbefore b hb)
        (fun b' hb' => by
          obtain ⟨b, hb, hfb⟩ := mem_filterMap.mp hb'
          rw [hf a b a' b' ha hfb]
          exact hafter b hb)
      rw [hsorted', hfirst, hlast]

end List

namespace FlowCanvas

namespace Indexed

/-! ### Characters and their bytes -/

end Indexed

namespace Diagram

lemma inOrder_iff (a b : FlowNode) : inOrder a b ↔ a.variableName ≤ b.variableName := by
  rw [inOrder, Bool.not_eq_true', decide_eq_false_iff_not, not_lt]

lemma inOrder_trans (a b c : FlowNode) (hab : inOrder a b) (hbc : inOrder b c) : inOrder a c := by
  rw [inOrder_iff] at *
  exact hab.trans hbc

lemma inOrder_total (a b : FlowNode) : inOrder a b || inOrder b a := by
  rw [Bool.or_eq_true, inOrder_iff, inOrder_iff]
  exact le_total _ _

end Diagram

end FlowCanvas
