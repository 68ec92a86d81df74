import FlowCanvas.Proofs.Editing
import FlowCanvas.Proofs.Copies
import FlowCanvas.Proofs.Remains

/-!
# Seams

Where a text is put between two others, tokens could grow together. They do not at a seam behind a
`;` or a `}`, nor behind a `{` that no bar follows: such a token ends where it does in front of any
text. So a text whose last token is one of these can be put behind another such token, and the
tokens on both sides stay what they are.
-/

namespace FlowCanvas

namespace Lexer

/-- The last token, if there is one, is a mark that nothing in front of `rest` grows into. -/
def Ends (ts : Phrase) (rest : List Char) : Prop :=
  ∀ t ∈ ts.getLast?, t.text = ";" ∨ t.text = "\x7d" ∨ t.text = "\x7b" ∧ rest.head? ≠ some '|'

/-- A mark of one character that starts no layout, and no longer mark but one that goes on with
`e`. -/
def GrowsBy (e m : Char) : Prop :=
  [m] ∈ marks.map String.toList ∧
    (∀ m' ∈ marks, m'.toList.head? = some m → m'.toList.tail.head? ∈ [none, some e]) ∧
    Text.isLayoutBlank m = false ∧ m ≠ '#' ∧ m ≠ '/'

instance (e m : Char) : Decidable (GrowsBy e m) := inferInstanceAs (Decidable (_ ∧ _))

/-- A mark is a token in front of everything but the character that would extend it. -/
lemma starts_mark {m e : Char} (hm : GrowsBy e m) {rest : List Char} (h : rest.head? ≠ some e) :
    Starts .punctuation [m] rest := by
  obtain ⟨hmem, hgrows, hblank, hhash, hslash⟩ := hm
  refine starts_of_split hblank hhash hslash (splitToken_eq_ok_iff.mpr ⟨rfl, .mark ?_⟩)
  refine ⟨hmem, List.prefix_append _ _, fun m' hm' hpre => ?_⟩
  have hhead := hgrows m' hm'
  match m'.toList, hpre, hhead with
  | [], _, _ => simp
  | [c], _, _ => simp
  | c :: c' :: cs, hpre, hhead =>
    obtain ⟨rfl, hrest⟩ := List.cons_prefix_cons.mp hpre
    obtain ⟨left, rfl⟩ := hrest
    exact absurd (by simpa using hhead rfl) h

/-- A mark at the end of a phrase is read alike in front of every text. -/
lemma starts_of_ends {kind : TokenKind} {text rest rest' : List Char} (h : Starts kind text rest)
    (hmark : text = [';'] ∨ text = ['\x7d'] ∨ text = ['\x7b'] ∧ rest'.head? ≠ some '|') :
    Starts kind text rest' := by
  have hkind {c : Char} (hstart : Starts .punctuation [c] rest') (hc : isWordStart c = false)
      (htext : text = [c]) (hquote : (c == '"' || c == '\x60') = false)
      (hdigit : c.isDigit = false) : Starts kind text rest' := by
    subst htext
    obtain ⟨-, d, ds, hcons, hsplit⟩ := h
    obtain ⟨rfl, rfl⟩ := List.cons.inj hcons
    obtain rfl : kind = .punctuation := by
      simp only [splitToken, hquote, hdigit, hc, Bool.false_eq_true, if_false] at hsplit
      split at hsplit
      · simpa using (Prod.mk.inj (Except.ok.inj hsplit)).1.symm
      · simp at hsplit
    exact hstart
  rcases hmark with htext | htext | ⟨htext, hhead⟩
  · exact hkind (starts_of_split (by decide) (by decide) (by decide) rfl) (by decide) htext
      (by decide) (by decide)
  · exact hkind (starts_of_split (by decide) (by decide) (by decide) rfl) (by decide) htext
      (by decide) (by decide)
  · exact hkind (starts_mark (by decide) hhead) (by decide) htext (by decide) (by decide)

/-- What follows a mark at the end of a phrase is nothing to the tokens in front of the mark. -/
lemma tame_of_ends {c : Char} (hc : c = ';' ∨ c = '\x7d' ∨ c = '\x7b') (rest rest' : List Char) :
    Tame (c :: rest) (c :: rest') := by
  have hsafe {c : Char} (hbreak : isBreak c) : Tame (c :: rest) (c :: rest') :=
    Safe.tame (safe_cons hbreak rest') _
  rcases hc with rfl | rfl | rfl
  · exact hsafe (by decide)
  · intro e he hpre
    cases e with
    | nil => exact List.nil_prefix
    | cons a e =>
      obtain ⟨rfl, -⟩ := List.cons_prefix_cons.mp hpre
      refine List.cons_prefix_cons.mpr ⟨rfl, ?_⟩
      cases he with
      | mark h =>
        have hmarks : ∀ x ∈ markTails.map String.toList, x.head? = some '\x7d' → x.tail = [] := by
          decide
        obtain rfl : e = [] := hmarks _ h rfl
        exact List.nil_prefix
      | word => exact List.nil_prefix
  · exact hsafe (by decide)

/-- Tokens that end with such a mark are read alike in front of every text. -/
lemma Scanned.of_ends {here : Place} {xs rest rest' : List Char} {ts : Phrase}
    (h : Scanned here xs ts rest) (hends : Ends ts rest') : Scanned here xs ts rest' := by
  rcases List.eq_nil_or_concat' ts with rfl | ⟨init, last, rfl⟩
  · cases h
    exact .nil here rest'
  · obtain ⟨ys, zs, rfl, hinit, hlast⟩ := h.split
    have hmark := hends last (by simp)
    cases hlast with
    | @cons _ gap text _ _ kind _ hgap hstart hnil =>
      cases hnil
      simp only [List.append_nil, List.nil_append] at hstart hinit ⊢
      have hmark' : text = [';'] ∨ text = ['\x7d'] ∨ text = ['\x7b'] ∧ rest'.head? ≠ some '|' := by
        simpa [← String.toList_inj] using hmark
      obtain ⟨c, rfl, hc⟩ : ∃ c, text = [c] ∧ (c = ';' ∨ c = '\x7d' ∨ c = '\x7b') := by
        rcases hmark' with rfl | rfl | ⟨rfl, -⟩
        · exact ⟨_, rfl, .inl rfl⟩
        · exact ⟨_, rfl, .inr (.inl rfl)⟩
        · exact ⟨_, rfl, .inr (.inr rfl)⟩
      have htame : Tame (gap ++ [c] ++ rest) (gap ++ [c] ++ rest') := by
        simpa using (tame_of_ends hc rest rest').append gap
      have hlast' := @Scanned.cons (here.advance ys) gap [c] [] rest' kind [] hgap
        (by simpa using starts_of_ends hstart hmark') (.nil _ rest')
      exact (hinit.tame htame).append (by simpa using hlast')

lemma Run.scanned {xs rest : List Char} {ls : List (TokenKind × String)} (h : Run xs ls rest)
    (here : Place) : ∃ ts, Scanned here xs ts rest ∧ Phrase.lexemes ts = ls := by
  induction h generalizing here with
  | nil rest => exact ⟨[], .nil here rest, rfl⟩
  | @cons gap text cs rest kind ls hgap hstart _ ih =>
    obtain ⟨ts, hts, rfl⟩ := ih ((here.advance gap).advance text)
    exact ⟨_, .cons hgap hstart hts, rfl⟩

/-- A text put between two others: the tokens in front stay, those of the text and those behind it
are copied. -/
lemma Scanned.splice {here there beyond : Place} {xs gap cs zs last left left' : List Char}
    {before ts after : Phrase} (hbefore : Scanned here xs before left)
    (hends : Ends before (gap ++ cs ++ zs ++ last)) (hgap : Gap false gap)
    (hts : Scanned there cs ts left') (hne : ts ≠ []) (hends' : Ends ts (zs ++ last))
    (hafter : Scanned beyond zs after last) :
    ∃ us vs, Scanned here (xs ++ (gap ++ cs ++ zs)) (before ++ (us ++ vs)) last ∧
      Phrase.Copy ts us ∧ Phrase.Copy after vs := by
  obtain ⟨us, hus, hcopy⟩ := (hts.of_ends hends').padded hgap hne (here.advance xs)
  obtain ⟨vs, hvs, hsame⟩ := hafter.moved ((here.advance xs).advance (gap ++ cs))
  refine ⟨us, vs, ?_, hcopy, Phrase.copy_of_unspanned hsame⟩
  exact (hbefore.of_ends (by simpa using hends)).append (hus.append hvs)

end Lexer

namespace Parser

open Lexer

lemma text_of_is {t : Token} {mark : String} (h : t.is mark) : t.text = mark := by
  simp only [Token.is, Bool.and_eq_true, beq_iff_eq] at h
  exact h.2

/-- The last token, if there is one, is a semicolon or a closing brace. -/
def Closes (ts : Phrase) : Prop := ∀ t ∈ ts.getLast?, t.is ";" ∨ t.is "\x7d"

lemma closes_append {us : Phrase} (h : Closes us) (hne : us ≠ []) (ts : Phrase) :
    Closes (ts ++ us) := by
  intro t ht
  rw [List.getLast?_append_of_ne_nil _ hne] at ht
  exact h t ht

lemma closes_concat {t : Token} (h : t.is ";" ∨ t.is "\x7d") (ts : Phrase) :
    Closes (ts ++ [t]) := by
  intro u hu
  obtain rfl : t = u := by simpa using hu
  exact h

lemma Closes.copy {ts us : Phrase} (h : Closes ts) (hcopy : ts.Copy us) : Closes us := by
  rcases List.eq_nil_or_concat' ts with rfl | ⟨init, last, rfl⟩
  · rw [hcopy.nil_left]
    exact h
  · obtain ⟨init', last', rfl, -, hsame⟩ := hcopy.concat_left
    have hlast := h last (by simp)
    rw [hsame.is, hsame.is] at hlast
    exact closes_concat hlast init'

lemma Closes.ends {ts : Phrase} (h : Closes ts) (rest : List Char) : Ends ts rest := by
  intro t ht
  rcases h t ht with hmark | hmark
  · exact .inl (text_of_is hmark)
  · exact .inr (.inl (text_of_is hmark))

end Parser

end FlowCanvas
