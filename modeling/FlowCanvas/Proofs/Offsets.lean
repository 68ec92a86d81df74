import FlowCanvas.Proofs.Lossless

/-!
# Positions and offsets correspond

The byte offsets between the characters of a text and the positions on its lines are in the same
order. A column behind the end of its line stands for the end, and a line behind the last one has
no offset.
-/

namespace FlowCanvas.Text

/-- Whether a byte offset lies between two characters or at an end of the text. -/
def IsBoundary (text : List Char) (o : Nat) : Prop :=
  ∃ front back, text = front ++ back ∧ o = byteLength front

lemma byteLength_le_of_prefix {xs ys : List Char} (h : xs <+: ys) :
    byteLength xs ≤ byteLength ys := by
  obtain ⟨zs, rfl⟩ := h
  rw [byteLength_append]
  omega

/-- Of two walks over one text the one over fewer bytes ends in front of the other. -/
lemma position_lt_of_byteLength_lt {text xs ys xs' ys' : List Char} (h : text = xs ++ ys)
    (h' : text = xs' ++ ys') (hlt : byteLength xs < byteLength xs') :
    (Place.origin.advance xs).position < (Place.origin.advance xs').position := by
  have hprefix : xs <+: xs' := by
    refine (List.prefix_or_prefix_of_prefix ⟨ys, h.symm⟩ ⟨ys', h'.symm⟩).resolve_right ?_
    intro hback
    have hle := byteLength_le_of_prefix hback
    omega
  obtain ⟨zs, rfl⟩ := hprefix
  have hne : zs ≠ [] := by
    rintro rfl
    simp at hlt
  rw [Place.advance_append]
  exact Place.position_lt_advance _ hne

/-- A walk leads to every column of a line, and to the end of the line for the columns behind. -/
lemma exists_walk {text l : List Char} {p : Position} (h : (lines text)[p.line]? = some l) :
    ∃ xs ys, text = xs ++ ys ∧
      (Place.origin.advance xs).position = ⟨p.line, min p.column l.length⟩ := by
  induction text generalizing p l with
  | nil =>
    obtain ⟨hline, rfl⟩ : p.line = 0 ∧ l = [] := by
      simpa [lines, pieces, List.getElem?_singleton, eq_comm] using h
    exact ⟨[], [], rfl, by simp [Place.origin, Position.zero, hline]⟩
  | cons c text ih =>
    obtain ⟨line, column⟩ := p
    by_cases hc : c = '\n'
    · subst hc
      rw [lines_cons_newLine] at h
      cases line with
      | zero =>
        obtain rfl : [] = l := by simpa using h
        exact ⟨[], '\n' :: text, rfl, by simp [Place.origin, Position.zero]⟩
      | succ n =>
        obtain ⟨xs, ys, rfl, hwalk⟩ := @ih l ⟨n, column⟩ (by simpa using h)
        refine ⟨'\n' :: xs, ys, rfl, ?_⟩
        rw [Place.advance_cons, Place.position_advance, hwalk]
        simp [Place.step, Place.origin, Position.zero, Nat.add_comm]
    · obtain ⟨l', ls, hl, hcons⟩ := lines_cons hc text
      rw [hcons] at h
      cases line with
      | zero =>
        obtain rfl : c :: l' = l := by simpa using h
        cases column with
        | zero => exact ⟨[], c :: text, rfl, by simp [Place.origin, Position.zero]⟩
        | succ n =>
          obtain ⟨xs, ys, rfl, hwalk⟩ := @ih l' ⟨0, n⟩ (by simp [hl])
          refine ⟨c :: xs, ys, rfl, ?_⟩
          rw [Place.advance_cons, Place.position_advance, hwalk]
          simp [Place.step, hc, Place.origin, Position.zero]
          omega
      | succ n =>
        obtain ⟨xs, ys, rfl, hwalk⟩ := @ih l ⟨n + 1, column⟩ (by simpa [hl] using h)
        refine ⟨c :: xs, ys, rfl, ?_⟩
        rw [Place.advance_cons, Place.position_advance, hwalk]
        simp [Place.step, hc, Place.origin, Position.zero]

lemma offset?_eq_none_iff {text : List Char} {p : Position} :
    offset? text p = none ↔ lineCount text ≤ p.line := by
  rw [offset?, Option.map_eq_none_iff, List.getElem?_eq_none_iff, lineCount]

/-- A position on a line of the text has the offset of a boundary, and the boundary's position is
the position itself, up to columns behind the end of the line. -/
lemma exists_boundary {text l : List Char} {p : Position} (h : (lines text)[p.line]? = some l) :
    ∃ o, offset? text p = some o ∧ IsBoundary text o ∧
      positionAt text o = ⟨p.line, min p.column l.length⟩ := by
  obtain ⟨xs, ys, rfl, hwalk⟩ := exists_walk h
  refine ⟨byteLength xs, ?_, ⟨xs, ys, rfl, rfl⟩, (positionAt_byteLength xs ys).trans hwalk⟩
  have hoffset := offset?_advance xs ys
  rw [hwalk] at hoffset
  rw [← hoffset]
  simp [offset?, h, ← List.take_eq_take_min]

lemma offset?_mono {text : List Char} {p q : Position} {lo hi : Nat} (hle : p ≤ q)
    (hp : offset? text p = some lo) (hq : offset? text q = some hi) : lo ≤ hi := by
  obtain ⟨l, hl, -⟩ := Option.map_eq_some_iff.mp hp
  obtain ⟨l', hl', -⟩ := Option.map_eq_some_iff.mp hq
  obtain ⟨lo', hlo, ⟨xs, ys, htext, rfl⟩, hplo⟩ := exists_boundary hl
  obtain ⟨hi', hhi, ⟨xs', ys', htext', rfl⟩, hphi⟩ := exists_boundary hl'
  obtain rfl := Option.some.inj (hp.symm.trans hlo)
  obtain rfl := Option.some.inj (hq.symm.trans hhi)
  by_contra hlt
  have hback := position_lt_of_byteLength_lt htext' htext (by omega)
  rw [← positionAt_byteLength xs' ys', ← positionAt_byteLength xs ys, ← htext, ← htext', hplo,
    hphi, Position.lt_def] at hback
  dsimp only at hback
  rw [Position.le_def] at hle
  rcases hle with hline | ⟨hline, hcolumn⟩
  · omega
  · rw [hline] at hl
    obtain rfl := Option.some.inj (hl.symm.trans hl')
    omega

/-- The boundaries between the characters of a text and the positions on its lines correspond, in
order; a column behind the end of its line stands for the end. -/
theorem boundaries_correspond (text : List Char) :
    (∀ o, IsBoundary text o → offset? text (positionAt text o) = some o) ∧
    (∀ o o', IsBoundary text o → IsBoundary text o' → o < o' →
      positionAt text o < positionAt text o') ∧
    (∀ p, offset? text p = none ↔ lineCount text ≤ p.line) ∧
    (∀ p l, (lines text)[p.line]? = some l → ∃ o, offset? text p = some o ∧ IsBoundary text o ∧
      positionAt text o = ⟨p.line, min p.column l.length⟩) ∧
    ∀ p q lo hi, p ≤ q → offset? text p = some lo → offset? text q = some hi → lo ≤ hi := by
  refine ⟨?_, ?_, fun p => offset?_eq_none_iff, fun p l => exists_boundary,
    fun p q lo hi => offset?_mono⟩
  · rintro _ ⟨xs, ys, rfl, rfl⟩
    rw [positionAt_byteLength]
    exact offset?_advance xs ys
  · rintro _ _ ⟨xs, ys, htext, rfl⟩ ⟨xs', ys', htext', rfl⟩ hlt
    have hwalks := position_lt_of_byteLength_lt htext htext' hlt
    rw [← positionAt_byteLength xs ys, ← positionAt_byteLength xs' ys', ← htext, ← htext'] at hwalks
    exact hwalks

end FlowCanvas.Text
