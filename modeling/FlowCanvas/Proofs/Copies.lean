import FlowCanvas.Proofs.Leaves
import FlowCanvas.Proofs.Wording

/-!
# Copies of phrases

A phrase is a copy of another one when the two have the same text: the same tokens with the same
layout between them, at any places and behind any layout. A text that is moved to another place is
scanned as a copy of its tokens.
-/

namespace FlowCanvas

namespace Token

/-- The token without its place. -/
def unspanned (t : Token) : Token := { t with span := default }

lemma same_of_unspanned {t u : Token} (h : t.unspanned = u.unspanned) : Same t u :=
  ⟨congrArg (·.kind) h, congrArg (·.text) h⟩

lemma same_of_erase {t u : Token} (h : t.erase = u.erase) : Same t u :=
  ⟨congrArg (·.kind) h, congrArg (·.text) h⟩

lemma erase_of_same {t u : Token} (h : Same t u) : t.erase = u.erase := by
  simp [erase, h.1, h.2]

lemma Same.symm {t u : Token} (h : Same t u) : Same u t := ⟨h.1.symm, h.2.symm⟩

end Token

namespace Phrase

/-- A phrase without its places and without the layout in front of it. -/
def unplaced : Phrase → Phrase
  | [] => []
  | t :: ts => t.erase :: ts.map Token.unspanned

/-- Phrases that differ in their places and in the layout in front of them only. -/
def Copy (ts us : Phrase) : Prop := ts.unplaced = us.unplaced

lemma copy_of_unspanned {ts us : Phrase} (h : ts.map Token.unspanned = us.map Token.unspanned) :
    Copy ts us := by
  cases ts with
  | nil =>
    obtain rfl : us = [] := List.map_eq_nil_iff.mp h.symm
    rfl
  | cons t ts =>
    cases us with
    | nil => simp at h
    | cons u us =>
      obtain ⟨hhead, htail⟩ := List.cons.inj h
      have herase := Token.erase_of_same (Token.same_of_unspanned hhead)
      rw [Copy, unplaced, unplaced, herase, htail]

namespace Copy

variable {ts us vs : Phrase}

lemma refl (ts : Phrase) : Copy ts ts := Eq.refl _

lemma symm (h : Copy ts us) : Copy us ts := Eq.symm h

lemma trans (h : Copy ts us) (h' : Copy us vs) : Copy ts vs := Eq.trans h h'

lemma cons {t u : Token} (hsame : Token.Same t u)
    (h : ts.map Token.unspanned = us.map Token.unspanned) : Copy (t :: ts) (u :: us) := by
  rw [Copy, unplaced, unplaced, Token.erase_of_same hsame, h]

lemma unplaced_eq (h : Copy ts us) : us.unplaced = ts.unplaced := Eq.symm h

lemma singleton {t u : Token} (h : Token.Same t u) : Copy [t] [u] := cons h rfl

lemma cons_inv {t : Token} (h : Copy (t :: ts) us) :
    ∃ u vs, us = u :: vs ∧ Token.Same t u ∧
      ts.map Token.unspanned = vs.map Token.unspanned := by
  cases us with
  | nil => simp [Copy, unplaced] at h
  | cons u us =>
    obtain ⟨hhead, htail⟩ := List.cons.inj h
    exact ⟨u, us, rfl, Token.same_of_erase hhead, htail⟩

lemma cons_left {t : Token} (h : Copy (t :: ts) us) :
    ∃ u vs, us = u :: vs ∧ Token.Same t u ∧ Copy ts vs := by
  obtain ⟨u, vs, rfl, hsame, htail⟩ := h.cons_inv
  exact ⟨u, vs, rfl, hsame, copy_of_unspanned htail⟩

lemma nil_left (h : Copy [] us) : us = [] := by
  cases us with
  | nil => rfl
  | cons u us => simp [Copy, unplaced] at h

lemma singleton_left {t : Token} (h : Copy [t] us) : ∃ u, us = [u] ∧ Token.Same t u := by
  obtain ⟨u, vs, rfl, hsame, hrest⟩ := h.cons_left
  obtain rfl := hrest.nil_left
  exact ⟨u, rfl, hsame⟩

/-- A copy of two phrases is a copy of the first and a copy of the second. -/
lemma append_left (h : Copy (ts ++ us) vs) :
    ∃ ws xs, vs = ws ++ xs ∧ Copy ts ws ∧ Copy us xs := by
  cases ts with
  | nil => exact ⟨[], vs, rfl, rfl, h⟩
  | cons t ts =>
    rw [List.cons_append] at h
    obtain ⟨u, rest, rfl, hsame, htail⟩ := h.cons_inv
    rw [List.map_append] at htail
    obtain ⟨ws, xs, rfl, hws, hxs⟩ := List.map_eq_append_iff.mp htail.symm
    exact ⟨u :: ws, xs, rfl, .cons hsame hws.symm, copy_of_unspanned hxs.symm⟩

lemma concat_left {t : Token} (h : Copy (ts ++ [t]) us) :
    ∃ vs u, us = vs ++ [u] ∧ Copy ts vs ∧ Token.Same t u := by
  obtain ⟨vs, ws, rfl, hvs, hws⟩ := h.append_left
  obtain ⟨u, rfl, hsame⟩ := hws.singleton_left
  exact ⟨vs, u, rfl, hvs, hsame⟩

lemma dropLast (h : Copy ts us) : Copy (List.dropLast ts) (List.dropLast us) := by
  rcases List.eq_nil_or_concat' ts with rfl | ⟨init, last, rfl⟩
  · rw [h.nil_left]
    exact refl _
  · obtain ⟨init', last', rfl, hinit, -⟩ := h.concat_left
    simpa using hinit

lemma alike (h : Copy ts us) : Alike ts us := by
  cases ts with
  | nil =>
    obtain rfl := h.nil_left
    exact .nil
  | cons t ts =>
    obtain ⟨u, vs, rfl, hsame, htail⟩ := h.cons_inv
    refine .cons hsame (alike_iff.mpr ?_)
    have hlexemes := congrArg (List.map fun t : Token => (t.kind, t.text)) htail
    rw [List.map_map, List.map_map] at hlexemes
    exact hlexemes

lemma ne_nil (h : Copy ts us) (hne : ts ≠ []) : us ≠ [] := h.alike.ne_nil hne

lemma tail_of_unspanned (h : ts.map Token.unspanned = us.map Token.unspanned) :
    Phrase.tail ts = Phrase.tail us := by
  have htexts := congrArg (List.map fun t : Token => t.gap ++ t.text) h
  rw [List.map_map, List.map_map] at htexts
  exact congrArg String.join htexts

/-- Copies have one text. -/
lemma text (h : Copy ts us) : Phrase.text ts = Phrase.text us := by
  cases ts with
  | nil => rw [h.nil_left]
  | cons t ts =>
    obtain ⟨u, vs, rfl, hsame, htail⟩ := h.cons_inv
    rw [Phrase.text_cons, Phrase.text_cons, hsame.2, tail_of_unspanned htail]

end Copy

end Phrase

namespace Lexer

/-! ### Moved texts -/

lemma Scanned.append {here : Place} {xs ys rest : List Char} {ts us : Phrase}
    (hx : Scanned here xs ts (ys ++ rest)) (hy : Scanned (here.advance xs) ys us rest) :
    Scanned here (xs ++ ys) (ts ++ us) rest := by
  generalize hleft : ys ++ rest = left at hx
  induction hx with
  | nil here _ => simpa using hy
  | @cons here gap text cs _ kind ts hgap hstart _ ih =>
    subst hleft
    have hstep := @Scanned.cons here gap text (cs ++ ys) rest kind _ hgap
      (by simpa [List.append_assoc] using hstart) (ih (by simpa using hy) rfl)
    simpa [List.append_assoc] using hstep

/-- Tokens are scanned alike in front of every text that opens no more than the one they were
scanned in front of. -/
lemma Scanned.tame {here : Place} {xs rest rest' : List Char} {ts : Phrase}
    (h : Scanned here xs ts rest) (ht : Tame rest rest') : Scanned here xs ts rest' := by
  induction h with
  | nil here _ => exact .nil here rest'
  | cons hgap hstart _ ih => exact .cons hgap (hstart.tame (ht.append _)) (ih ht)

lemma Scanned.moved {here : Place} {xs rest : List Char} {ts : Phrase}
    (h : Scanned here xs ts rest) (there : Place) :
    ∃ us, Scanned there xs us rest ∧ ts.map Token.unspanned = us.map Token.unspanned := by
  induction h generalizing there with
  | nil _ rest => exact ⟨[], .nil there rest, rfl⟩
  | @cons here gap text cs rest kind ts hgap hstart _ ih =>
    obtain ⟨us, hus, hsame⟩ := ih ((there.advance gap).advance text)
    refine ⟨_ :: us, .cons hgap hstart hus, ?_⟩
    rw [List.map_cons, List.map_cons, hsame]
    rfl

/-- The text of scanned tokens, behind any layout at any place, is scanned as a copy of them. -/
lemma Scanned.copy {here : Place} {xs rest rest' : List Char} {ts : Phrase}
    (h : Scanned here xs ts rest) (ht : Tame rest rest') {gap : List Char} (hgap : Gap false gap)
    (hne : ts ≠ []) (there : Place) :
    ∃ us, Scanned there (gap ++ (Phrase.text ts).toList) us rest' ∧ Phrase.Copy ts us := by
  cases h with
  | nil => exact absurd rfl hne
  | @cons _ gap' text cs _ kind ts _ hstart hrest =>
    obtain ⟨us, hus, hsame⟩ := (hrest.tame ht).moved ((there.advance gap).advance text)
    refine ⟨⟨kind, .ofList text, .ofList gap, there.advance gap,
      (there.advance gap).advance text⟩ :: us, ?_, .cons ⟨rfl, rfl⟩ hsame⟩
    have hscanned := @Scanned.cons there gap text _ _ kind _ hgap (hstart.tame (ht.append _)) hus
    simpa [Phrase.text_cons, ← hrest.chars] using hscanned

/-- More layout in front of scanned tokens makes a copy of them. -/
lemma Scanned.padded {here : Place} {xs rest gap : List Char} {ts : Phrase}
    (h : Scanned here xs ts rest) (hgap : Gap false gap) (hne : ts ≠ []) (there : Place) :
    ∃ us, Scanned there (gap ++ xs) us rest ∧ Phrase.Copy ts us := by
  obtain ⟨t, us, rfl⟩ := List.exists_cons_of_ne_nil hne
  have hcopy := h.copy (Tame.refl rest) (hgap.append h.head.1) hne there
  have hchars := h.chars
  rw [Phrase.tail_eq_gap_append_text, String.toList_append] at hchars
  rw [hchars, ← List.append_assoc]
  exact hcopy

lemma scan_of_scanned {here : Place} {cs last : List Char} {ts : Phrase}
    (h : Scanned here cs ts last) (hlast : Final last) {n : Nat} (hn : (cs ++ last).length ≤ n) :
    scan n here (cs ++ last) = .ok (ts, last) := by
  induction h generalizing n with
  | nil here rest =>
    cases n with
    | zero => rfl
    | succ n => simp [scan, show splitLayout false rest = (rest, []) from hlast]
  | @cons here gap text cs rest kind ts hgap hstart hrest ih =>
    obtain ⟨hsolid, c, tail, rfl, hsplit⟩ := hstart
    cases n with
    | zero => simp at hn
    | succ n =>
      have hlayout := splitLayout_gap hgap hsolid
      simp only [List.cons_append] at hlayout
      have hscan := ih hlast (n := n) (by simp at hn ⊢; omega)
      simp only [List.append_assoc, List.cons_append, scan, hlayout, hsplit, hscan]

/-- A text of scanned tokens with layout after them is tokenized to these tokens. -/
theorem tokenize_of_scanned {source : String} {cs last : List Char} {ts : Phrase}
    (hsource : source.toList = cs ++ last) (h : Scanned .origin cs ts last) (hlast : Final last) :
    tokenize source = .ok ts := by
  unfold tokenize scanAll
  rw [hsource, scan_of_scanned h hlast le_rfl]
  rfl

end Lexer

end FlowCanvas
