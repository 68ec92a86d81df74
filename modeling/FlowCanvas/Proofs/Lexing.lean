import FlowCanvas.Token.Lexer
import Mathlib

/-!
# Reading tokens in a context

`Starts kind text rest` says that the scanner takes exactly `text` off a text that goes on with
`rest`. Whether it does depends on a few characters of `rest` only, and `Tame rest rest'` says
that `rest'` opens nothing with them that `rest` does not. `Run` chains such steps: it is what a
text is read as, whatever its place, and `Run.tame` carries it into another context.
-/

namespace FlowCanvas.Lexer

/-! ### Layout -/

/-- Layout that starts inside a comment or not and ends outside of one. -/
inductive Gap : Bool → List Char → Prop
  | nil : Gap false []
  | blank {c : Char} {cs : List Char} (h : Text.isLayoutBlank c) (rest : Gap false cs) :
    Gap false (c :: cs)
  | hash {cs : List Char} (rest : Gap true cs) : Gap false ('#' :: cs)
  | slashes {cs : List Char} (rest : Gap true cs) : Gap false ('/' :: '/' :: cs)
  | newLine {cs : List Char} (rest : Gap false cs) : Gap true ('\n' :: cs)
  | comment {c : Char} {cs : List Char} (h : c ≠ '\n') (rest : Gap true cs) : Gap true (c :: cs)

/-- The characters that start a token and no layout. -/
def Solid (cs : List Char) : Prop := splitLayout false cs = ([], cs)

lemma solid_cons_iff (c : Char) (cs : List Char) :
    Solid (c :: cs) ↔
      Text.isLayoutBlank c = false ∧ c ≠ '#' ∧ ¬(c = '/' ∧ cs.head? = some '/') := by
  unfold Solid
  rw [splitLayout]
  by_cases hb : Text.isLayoutBlank c = true
  · simp [hb]
  · by_cases hh : c = '#'
    · simp [hh, show Text.isLayoutBlank '#' = false from rfl]
    · by_cases hs : c = '/' ∧ cs.head? = some '/'
      · simp [hs.1, hs.2, show Text.isLayoutBlank '/' = false from rfl]
      · have hs' : (c == '/' && cs.head? == some '/') = false := by
          simpa using hs
        simp [hb, hh, hs, hs']

lemma splitLayout_gap {comment : Bool} {gap : List Char} (h : Gap comment gap) {cs : List Char}
    (hs : Solid cs) : splitLayout comment (gap ++ cs) = (gap, cs) := by
  induction h with
  | nil => exact hs
  | blank hb _ ih => simp [splitLayout, hb, ih]
  | hash _ ih => simp [splitLayout, ih, show Text.isLayoutBlank '#' = false from rfl]
  | slashes _ ih => simp [splitLayout, ih, show Text.isLayoutBlank '/' = false from rfl]
  | newLine _ ih => simp [splitLayout, ih]
  | comment hc _ ih => simp [splitLayout, ih, bne_iff_ne.mpr hc]

/-- What the scanner takes for layout in front of a token is layout, and a token starts after
it. -/
lemma gap_of_splitLayout {comment : Bool} {cs gap rest : List Char} {c : Char}
    (h : splitLayout comment cs = (gap, c :: rest)) :
    cs = gap ++ c :: rest ∧ Gap comment gap ∧ Solid (c :: rest) := by
  induction cs generalizing comment gap with
  | nil => simp [splitLayout] at h
  | cons d ds ih =>
    cases comment with
    | true =>
      simp only [splitLayout, if_true, Prod.mk.injEq] at h
      obtain ⟨rfl, hrest⟩ := h
      obtain ⟨hds, hgap, hsolid⟩ := ih (Prod.ext rfl hrest)
      refine ⟨congrArg (d :: ·) hds, ?_, hsolid⟩
      by_cases hd : d = '\n'
      · subst hd
        exact .newLine (by simpa using hgap)
      · exact .comment hd (by simpa [bne_iff_ne.mpr hd] using hgap)
    | false =>
      simp only [splitLayout, Bool.false_eq_true, if_false] at h
      split at h
      · rename_i hb
        obtain ⟨rfl, hrest⟩ := Prod.mk.inj h
        obtain ⟨hds, hgap, hsolid⟩ := ih (Prod.ext rfl hrest)
        exact ⟨congrArg (d :: ·) hds, .blank hb hgap, hsolid⟩
      · rename_i hb
        split at h
        · rename_i hstart
          obtain ⟨rfl, hrest⟩ := Prod.mk.inj h
          obtain ⟨hds, hgap, hsolid⟩ := ih (Prod.ext rfl hrest)
          refine ⟨congrArg (d :: ·) hds, ?_, hsolid⟩
          rcases Bool.or_eq_true _ _ ▸ hstart with hd | hd
          · rw [beq_iff_eq] at hd
            subst hd
            exact .hash hgap
          · obtain ⟨hd, hhead⟩ : d = '/' ∧ ds.head? = some '/' := by simpa using hd
            subst hd
            obtain ⟨es, rfl⟩ : ∃ es, ds = '/' :: es := by
              cases ds with
              | nil => simp at hhead
              | cons e es => exact ⟨es, by simpa using hhead⟩
            simp only [splitLayout, if_true] at hgap ⊢
            cases hgap with
            | comment _ hrest' => exact .slashes (by simpa using hrest')
        · rename_i hstart
          obtain ⟨rfl, hcons⟩ := Prod.mk.inj h
          obtain ⟨rfl, rfl⟩ := List.cons.inj hcons
          refine ⟨rfl, .nil, (solid_cons_iff d ds).mpr ⟨by simpa using hb, ?_, ?_⟩⟩
          · rintro rfl
            simp at hstart
          · rintro ⟨rfl, hhead⟩
            simp [hhead] at hstart

/-! ### The characters a token depends on -/

/-- What may follow a mark of the table in a longer one. -/
def markTails : List String := ["==", "=", ">", "..", ".<", ".", "<", "|", "\x7d", "&", ":"]

lemma drop_mem_markTails :
    ∀ m ∈ marks, ∀ m' ∈ marks, m.toList.isPrefixOf m'.toList → m ≠ m' →
      m'.toList.drop m.toList.length ∈ markTails.map String.toList := by
  decide

/-- The beginnings of a text that could belong to the token in front of it. -/
inductive Extends : List Char → Prop
  | mark {e : List Char} (h : e ∈ markTails.map String.toList) : Extends e
  | slash : Extends ['/']
  | word {c : Char} (h : isWordChar c) : Extends [c]
  | fraction {c : Char} (h : c.isDigit) : Extends ['.', c]

lemma isWordChar_of_isDigit {c : Char} (h : c.isDigit) : isWordChar c := by
  simp [isWordChar, Char.isAlphanum, h]

lemma extends_tail {a b : Char} {e : List Char} (h : Extends (a :: b :: e)) :
    Extends (b :: e) := by
  cases h with
  | mark h =>
    have htails : ∀ x ∈ markTails.map String.toList,
        x.tail = [] ∨ x.tail ∈ markTails.map String.toList := by decide
    rcases htails _ h with hnil | htail
    · simp at hnil
    · exact .mark htail
  | fraction h => exact .word (isWordChar_of_isDigit h)

/-- No token in front of `rest'` reaches further into it than it would into `rest`. -/
def Tame (rest rest' : List Char) : Prop := ∀ e, Extends e → e <+: rest' → e <+: rest

lemma Tame.refl (rest : List Char) : Tame rest rest := fun _ _ h => h

lemma Tame.cons {rest rest' : List Char} (c : Char) (h : Tame rest rest') :
    Tame (c :: rest) (c :: rest') := by
  intro e he hpre
  cases e with
  | nil => exact List.nil_prefix
  | cons a e =>
    obtain ⟨rfl, htail⟩ := List.cons_prefix_cons.mp hpre
    refine List.cons_prefix_cons.mpr ⟨rfl, ?_⟩
    cases e with
    | nil => exact List.nil_prefix
    | cons b e => exact h _ (extends_tail he) htail

lemma Tame.append {rest rest' : List Char} (h : Tame rest rest') (cs : List Char) :
    Tame (cs ++ rest) (cs ++ rest') := by
  induction cs with
  | nil => exact h
  | cons c cs ih => exact ih.cons c

/-- Characters that end every token in front of them. -/
def isBreak (c : Char) : Bool := !isWordChar c && !"=>.<|\x7d&:/".toList.contains c

lemma extends_head {c : Char} {e : List Char} (h : Extends (c :: e)) : isBreak c = false := by
  have hmarks : ∀ x ∈ markTails.map String.toList,
      x.head?.all ("=>.<|\x7d&:/".toList.contains ·) := by decide
  cases h with
  | mark h =>
    have hc : "=>.<|\x7d&:/".toList.contains c = true := hmarks _ h
    simp only [isBreak, hc, Bool.not_true, Bool.and_false]
  | slash => decide
  | word h => simp [isBreak, h]
  | fraction => decide

/-- A text that starts with no part of the token in front of it. -/
def Safe (rest : List Char) : Prop := ∀ c ∈ rest.head?, isBreak c

lemma safe_nil : Safe [] := by
  intro c hc
  simp at hc

lemma Safe.tame {rest' : List Char} (h : Safe rest') (rest : List Char) : Tame rest rest' := by
  intro e he hpre
  cases e with
  | nil => exact List.nil_prefix
  | cons c e =>
    obtain ⟨tail, rfl⟩ := hpre
    have hbreak := h c rfl
    rw [extends_head he] at hbreak
    exact absurd hbreak (by decide)

/-! ### One token -/

lemma splitString_spec {quote : Char} {escapes : Bool} {cs body rest : List Char}
    (h : splitString quote escapes cs = some (body, rest)) :
    cs = body ++ rest ∧ ∀ rest',
      splitString quote escapes (body ++ rest') = some (body, rest') := by
  fun_induction splitString quote escapes cs generalizing body with
  | case1 => simp at h
  | case2 => simp at h
  | case3 c hesc d ds ih =>
    obtain ⟨⟨tail, left⟩, hsplit, heq⟩ := Option.map_eq_some_iff.mp h
    obtain ⟨rfl, rfl⟩ := Prod.mk.inj heq
    obtain ⟨rfl, hall⟩ := ih hsplit
    refine ⟨rfl, fun rest' => ?_⟩
    simp only [List.cons_append]
    rw [splitString]
    simp [hesc, hall rest']
  | case4 c cs hesc hquote =>
    obtain ⟨rfl, rfl⟩ := Prod.mk.inj (Option.some.inj h)
    refine ⟨rfl, fun rest' => ?_⟩
    simp only [List.cons_append, List.nil_append]
    rw [splitString.eq_def]
    simp [hesc, hquote]
  | case5 c cs hesc hquote ih =>
    obtain ⟨⟨tail, left⟩, hsplit, heq⟩ := Option.map_eq_some_iff.mp h
    obtain ⟨rfl, rfl⟩ := Prod.mk.inj heq
    obtain ⟨rfl, hall⟩ := ih hsplit
    refine ⟨rfl, fun rest' => ?_⟩
    simp only [List.cons_append]
    rw [splitString.eq_def]
    simp [hesc, hquote, hall rest']

lemma splitNumber_append (cs : List Char) : (splitNumber cs).1 ++ (splitNumber cs).2 = cs := by
  induction cs with
  | nil => rfl
  | cons c cs ih =>
    rw [splitNumber]
    split
    · simp [ih]
    · rfl

lemma splitNumber_tame {cs rest rest' : List Char} (h : splitNumber (cs ++ rest) = (cs, rest))
    (ht : Tame rest rest') : splitNumber (cs ++ rest') = (cs, rest') := by
  induction cs with
  | nil =>
    cases rest' with
    | nil => rfl
    | cons c' tail =>
      -- A longer number in front of `rest'` would be a longer one in front of `rest`.
      simp only [List.nil_append] at h ⊢
      rw [splitNumber, if_neg]
      intro hc
      rcases Bool.or_eq_true _ _ ▸ hc with hword | hpoint
      · obtain ⟨tail', rfl⟩ := ht [c'] (.word hword) ⟨tail, rfl⟩
        simp [splitNumber, hword] at h
      · obtain ⟨rfl, hdigit⟩ : c' = '.' ∧ tail.head?.any Char.isDigit = true := by
          simpa using hpoint
        cases tail with
        | nil => simp at hdigit
        | cons d tail =>
          obtain ⟨tail', rfl⟩ := ht ['.', d] (.fraction (by simpa using hdigit)) ⟨tail, rfl⟩
          simp [splitNumber, show d.isDigit = true by simpa using hdigit] at h
  | cons c cs ih =>
    rw [List.cons_append, splitNumber] at h ⊢
    split at h
    · rename_i hc
      obtain ⟨hcs, hrest⟩ := Prod.mk.inj h
      have hsplit : splitNumber (cs ++ rest) = (cs, rest) :=
        Prod.ext (List.cons.inj hcs).2 hrest
      have hhead : (isWordChar c || (c == '.' && (cs ++ rest').head?.any Char.isDigit)) = true := by
        cases cs with
        | cons d cs => simpa using hc
        | nil =>
          rcases Bool.or_eq_true _ _ ▸ hc with hword | hpoint
          · simp [hword]
          · -- A number does not end in a point.
            cases rest with
            | nil => simp at hpoint
            | cons d rest =>
              have hd : d.isDigit = true := by
                have := (Bool.and_eq_true _ _ ▸ hpoint : _ ∧ _).2
                simpa using this
              simp [splitNumber, isWordChar_of_isDigit hd] at hsplit
      rw [if_pos hhead, ih hsplit]
    · exact absurd (congrArg List.length (Prod.mk.inj h).1) (by simp)

lemma splitMark_tame {text rest rest' : List Char}
    (h : splitMark? (text ++ rest) = some (text, rest))
    (ht : Tame rest rest') : splitMark? (text ++ rest') = some (text, rest') := by
  obtain ⟨m, hfind, heq⟩ := Option.map_eq_some_iff.mp h
  obtain ⟨hm, -⟩ := Prod.mk.inj heq
  obtain ⟨-, earlier, later, hmarks, hearlier⟩ := List.find?_eq_some_iff_append.mp hfind
  have hlength : m.length = text.length := by rw [← hm, String.length_toList]
  have hfind' : (marks.find? fun m => m.toList.isPrefixOf (text ++ rest')) = some m := by
    refine List.find?_eq_some_iff_append.mpr ⟨?_, earlier, later, hmarks, ?_⟩
    · rw [hm, List.isPrefixOf_iff_prefix]
      exact List.prefix_append text rest'
    · intro m' hm'
      have hnot := hearlier m' hm'
      simp only [Bool.not_eq_true', ← Bool.not_eq_true, List.isPrefixOf_iff_prefix] at hnot ⊢
      intro hpre
      apply hnot
      -- An earlier mark in front of `rest'` either lies in the token or is longer than it.
      rcases List.prefix_or_prefix_of_prefix hpre (List.prefix_append text rest') with hin | hlong
      · exact hin.trans (List.prefix_append text rest)
      · have hne : m ≠ m' := by
          rintro rfl
          exact hnot (hm ▸ List.prefix_append text rest)
        have htail := drop_mem_markTails m (by simp [hmarks]) m' (by simp [hmarks, hm'])
          (by rw [hm, List.isPrefixOf_iff_prefix]; exact hlong) hne
        obtain ⟨e, he⟩ := hlong
        rw [hm, ← he, List.drop_left] at htail
        rw [← he] at hpre ⊢
        exact (List.prefix_append_right_inj text).mpr
          (ht e (.mark htail) ((List.prefix_append_right_inj text).mp hpre))
  rw [splitMark?, hfind', Option.map_some, hm, hlength, List.drop_left]

/-- The scanner takes `text` off the front of `text ++ rest`, as a token of a kind. -/
def Starts (kind : TokenKind) (text rest : List Char) : Prop :=
  Solid (text ++ rest) ∧ ∃ c cs, text = c :: cs ∧ splitToken c (cs ++ rest) = .ok (kind, text, rest)

lemma splitToken_append {c : Char} {cs text rest : List Char} {kind : TokenKind}
    (h : splitToken c cs = .ok (kind, text, rest)) :
    ∃ tail, text = c :: tail ∧ cs = tail ++ rest := by
  rw [splitToken] at h
  split at h
  · split at h
    · rename_i body left hsplit
      simp only [Except.ok.injEq, Prod.mk.injEq] at h
      obtain ⟨-, rfl, rfl⟩ := h
      exact ⟨body, rfl, (splitString_spec hsplit).1⟩
    · simp at h
  · split at h
    · simp only [Except.ok.injEq, Prod.mk.injEq] at h
      obtain ⟨-, rfl, rfl⟩ := h
      exact ⟨_, rfl, (splitNumber_append cs).symm⟩
    · split at h
      · simp only [Except.ok.injEq, Prod.mk.injEq] at h
        obtain ⟨-, rfl, rfl⟩ := h
        exact ⟨_, rfl, (List.takeWhile_append_dropWhile).symm⟩
      · split at h
        · rename_i mark left hsplit
          simp only [Except.ok.injEq, Prod.mk.injEq] at h
          obtain ⟨-, rfl, rfl⟩ := h
          obtain ⟨m, hfind, heq⟩ := Option.map_eq_some_iff.mp hsplit
          obtain ⟨rfl, rfl⟩ := Prod.mk.inj heq
          have hfound : m.toList.isPrefixOf (c :: cs) = true :=
            (List.find?_eq_some_iff_append.mp hfind).1
          obtain ⟨left, hleft⟩ := List.isPrefixOf_iff_prefix.mp hfound
          have hne : m.toList ≠ [] := by
            have hall : ∀ m ∈ marks, m.toList ≠ [] := by decide
            exact hall m (List.mem_of_find?_eq_some hfind)
          obtain ⟨d, tail, htext⟩ := List.exists_cons_of_ne_nil hne
          rw [htext, List.cons_append] at hleft
          obtain ⟨rfl, rfl⟩ := List.cons.inj hleft
          refine ⟨tail, htext, ?_⟩
          rw [← String.length_toList, htext]
          simp
        · simp at h

lemma Starts.tame {kind : TokenKind} {text rest rest' : List Char} (h : Starts kind text rest)
    (ht : Tame rest rest') : Starts kind text rest' := by
  obtain ⟨hsolid, c, cs, rfl, hsplit⟩ := h
  refine ⟨?_, c, cs, rfl, ?_⟩
  · rw [List.cons_append, solid_cons_iff] at hsolid ⊢
    refine ⟨hsolid.1, hsolid.2.1, ?_⟩
    rintro ⟨rfl, hhead⟩
    apply hsolid.2.2 ⟨rfl, ?_⟩
    cases cs with
    | cons d cs => simpa using hhead
    | nil =>
      cases rest' with
      | nil => simp at hhead
      | cons d rest' =>
        obtain rfl : d = '/' := by simpa using hhead
        obtain ⟨tail, rfl⟩ := ht ['/'] .slash ⟨rest', rfl⟩
        rfl
  · rw [splitToken] at hsplit ⊢
    split at hsplit
    · rename_i hquote
      rw [if_pos hquote]
      split at hsplit
      · rename_i body left hstring
        simp only [Except.ok.injEq, Prod.mk.injEq, List.cons.injEq, true_and] at hsplit
        obtain ⟨rfl, rfl, -⟩ := hsplit
        rw [(splitString_spec hstring).2 rest']
      · simp at hsplit
    · rename_i hquote
      rw [if_neg hquote]
      split at hsplit
      · rename_i hdigit
        rw [if_pos hdigit]
        simp only [Except.ok.injEq, Prod.mk.injEq, List.cons.injEq, true_and] at hsplit
        obtain ⟨rfl, hcs, hrest⟩ := hsplit
        rw [splitNumber_tame (Prod.ext hcs hrest) ht]
      · rename_i hdigit
        rw [if_neg hdigit]
        split at hsplit
        · rename_i hword
          rw [if_pos hword]
          simp only [Except.ok.injEq, Prod.mk.injEq, List.cons.injEq, true_and] at hsplit
          obtain ⟨rfl, hcs, hrest⟩ := hsplit
          have hinside : ∀ d ∈ cs, isWordChar d := by
            intro d hd
            rw [← hcs] at hd
            exact List.mem_takeWhile_imp hd
          have houtside : rest'.takeWhile isWordChar = [] := by
            cases rest' with
            | nil => rfl
            | cons d tail =>
              rw [List.takeWhile_cons_of_neg]
              intro hd
              obtain ⟨tail', rfl⟩ := ht [d] (.word hd) ⟨tail, rfl⟩
              rw [List.takeWhile_append_of_pos hinside] at hcs
              simp [hd] at hcs
          have houtside' : rest'.dropWhile isWordChar = rest' := by
            have := List.takeWhile_append_dropWhile (p := isWordChar) (l := rest')
            rwa [houtside, List.nil_append] at this
          rw [List.takeWhile_append_of_pos hinside, List.dropWhile_append_of_pos hinside, houtside,
            houtside', List.append_nil]
        · rename_i hword
          rw [if_neg hword]
          split at hsplit
          · rename_i mark left hmark
            simp only [Except.ok.injEq, Prod.mk.injEq] at hsplit
            obtain ⟨rfl, rfl, rfl⟩ := hsplit
            have hmark' : splitMark? (c :: cs ++ rest') = some (c :: cs, rest') :=
              splitMark_tame hmark ht
            rw [List.cons_append] at hmark'
            rw [hmark']
          · simp at hsplit

/-! ### The characters of a token -/

lemma isWordChar_toNat {c : Char} (h : isWordChar c) :
    (48 ≤ c.toNat ∧ c.toNat ≤ 57) ∨ (65 ≤ c.toNat ∧ c.toNat ≤ 90) ∨
      (97 ≤ c.toNat ∧ c.toNat ≤ 122) ∨ c.toNat = 95 := by
  simp only [isWordChar, Char.isAlphanum, Char.isAlpha, Char.isUpper, Char.isLower, Char.isDigit,
    Bool.or_eq_true, Bool.and_eq_true, decide_eq_true_eq, UInt32.le_iff_toNat_le, ge_iff_le,
    beq_iff_eq] at h
  rcases h with ((h | h) | h) | rfl
  · exact .inr (.inl h)
  · exact .inr (.inr (.inl h))
  · exact .inl h
  · exact .inr (.inr (.inr rfl))

lemma isBlank_of_isWordChar {c : Char} (h : isWordChar c) : Text.isBlank c = false := by
  have hranges := isWordChar_toNat h
  simp only [Text.isBlank, Text.blankRanges, List.any_cons, List.any_nil, Bool.or_false,
    Bool.or_eq_false_iff, Bool.and_eq_false_iff, decide_eq_false_iff_not, Nat.not_le]
  omega

lemma isWordStart_cases {c : Char} (h : isWordStart c) : isWordChar c ∨ c = '\x27' := by
  simp only [isWordStart, Bool.or_eq_true, beq_iff_eq] at h
  rcases h with (h | h) | h
  · exact .inl (by simp [isWordChar, Char.isAlphanum, h])
  · exact .inl (by simp [isWordChar, h])
  · exact .inr h

lemma mem_splitNumber {cs : List Char} {d : Char} (h : d ∈ (splitNumber cs).1) :
    isWordChar d ∨ d = '.' := by
  induction cs with
  | nil => simp [splitNumber] at h
  | cons c cs ih =>
    rw [splitNumber] at h
    split at h
    · rename_i hc
      rcases List.mem_cons.mp h with rfl | hmem
      · rcases Bool.or_eq_true _ _ ▸ hc with hword | hpoint
        · exact .inl hword
        · simp only [Bool.and_eq_true, beq_iff_eq] at hpoint
          exact .inr hpoint.1
      · exact ih hmem
    · simp at h

lemma getLast_splitNumber {cs : List Char} {d : Char} (h : (splitNumber cs).1.getLast? = some d) :
    isWordChar d := by
  induction cs with
  | nil => simp [splitNumber] at h
  | cons c cs ih =>
    rw [splitNumber] at h
    split at h
    · rename_i hc
      cases hsplit : (splitNumber cs).1 with
      | cons e es =>
        apply ih
        simpa [hsplit] using h
      | nil =>
        obtain rfl : c = d := by simpa [hsplit] using h
        rcases Bool.or_eq_true _ _ ▸ hc with hword | hpoint
        · exact hword
        · obtain ⟨-, hdigit⟩ : c = '.' ∧ cs.head?.any Char.isDigit = true := by simpa using hpoint
          cases cs with
          | nil => simp at hdigit
          | cons e es =>
            have he : isWordChar e := isWordChar_of_isDigit (by simpa using hdigit)
            simp [splitNumber, he] at hsplit
    · simp at h

lemma getLast_splitString {quote : Char} {escapes : Bool} {cs body rest : List Char}
    (h : splitString quote escapes cs = some (body, rest)) : body.getLast? = some quote := by
  fun_induction splitString quote escapes cs generalizing body with
  | case1 => simp at h
  | case2 => simp at h
  | case3 c hesc d ds ih =>
    obtain ⟨⟨tail, left⟩, hsplit, heq⟩ := Option.map_eq_some_iff.mp h
    obtain ⟨rfl, rfl⟩ := Prod.mk.inj heq
    simp [List.getLast?_cons, ih hsplit]
  | case4 c cs hesc hquote =>
    obtain ⟨rfl, rfl⟩ := Prod.mk.inj (Option.some.inj h)
    simpa using hquote
  | case5 c cs hesc hquote ih =>
    obtain ⟨⟨tail, left⟩, hsplit, heq⟩ := Option.map_eq_some_iff.mp h
    obtain ⟨rfl, rfl⟩ := Prod.mk.inj heq
    simp [List.getLast?_cons, ih hsplit]

/-- A text that has no blanks at its ends. -/
structure Trimmed (cs : List Char) : Prop where
  head : ∃ c, cs.head? = some c ∧ Text.isBlank c = false
  last : ∃ c, cs.getLast? = some c ∧ Text.isBlank c = false

/-- The token that the scanner takes off has no blanks at its ends, and only a string holds a line
feed. -/
lemma splitToken_chars {c : Char} {cs text rest : List Char} {kind : TokenKind}
    (h : splitToken c cs = .ok (kind, text, rest)) :
    Trimmed text ∧ (kind ≠ .string → '\n' ∉ text) := by
  rw [splitToken] at h
  split at h
  · rename_i hquote
    have hblank : Text.isBlank c = false := by
      rcases Bool.or_eq_true _ _ ▸ hquote with hc | hc <;> rw [beq_iff_eq.mp hc] <;> decide
    split at h
    · rename_i body left hsplit
      simp only [Except.ok.injEq, Prod.mk.injEq] at h
      obtain ⟨rfl, rfl, -⟩ := h
      refine ⟨⟨⟨c, rfl, hblank⟩, ⟨c, ?_, hblank⟩⟩, fun hkind => absurd rfl hkind⟩
      simp [List.getLast?_cons, getLast_splitString hsplit]
    · simp at h
  · split at h
    · rename_i hdigit
      simp only [Except.ok.injEq, Prod.mk.injEq] at h
      obtain ⟨rfl, rfl, -⟩ := h
      have hword : isWordChar c := isWordChar_of_isDigit hdigit
      refine ⟨⟨⟨c, rfl, isBlank_of_isWordChar hword⟩, ?_⟩, fun _ hmem => ?_⟩
      · cases hlast : (splitNumber cs).1.getLast? with
        | none => exact ⟨c, by simp [List.getLast?_cons, hlast], isBlank_of_isWordChar hword⟩
        | some d =>
          exact ⟨d, by simp [List.getLast?_cons, hlast],
            isBlank_of_isWordChar (getLast_splitNumber hlast)⟩
      · rcases List.mem_cons.mp hmem with rfl | hmem
        · exact absurd hdigit (by decide)
        · rcases mem_splitNumber hmem with hnl | hnl <;> exact absurd hnl (by decide)
    · split at h
      · rename_i hstart
        simp only [Except.ok.injEq, Prod.mk.injEq] at h
        obtain ⟨rfl, rfl, -⟩ := h
        have hblank : Text.isBlank c = false := by
          rcases isWordStart_cases hstart with hword | rfl
          · exact isBlank_of_isWordChar hword
          · decide
        refine ⟨⟨⟨c, rfl, hblank⟩, ?_⟩, fun _ hmem => ?_⟩
        · cases hlast : (cs.takeWhile isWordChar).getLast? with
          | none => exact ⟨c, by simp [List.getLast?_cons, hlast], hblank⟩
          | some d =>
            have hd : isWordChar d := List.mem_takeWhile_imp (List.mem_of_getLast? hlast)
            exact ⟨d, by simp [List.getLast?_cons, hlast], isBlank_of_isWordChar hd⟩
        · rcases List.mem_cons.mp hmem with rfl | hmem
          · exact absurd hstart (by decide)
          · exact absurd (List.mem_takeWhile_imp hmem) (by decide)
      · split at h
        · rename_i mark left hsplit
          simp only [Except.ok.injEq, Prod.mk.injEq] at h
          obtain ⟨rfl, rfl, -⟩ := h
          obtain ⟨m, hfind, heq⟩ := Option.map_eq_some_iff.mp hsplit
          obtain ⟨rfl, -⟩ := Prod.mk.inj heq
          have hm := List.mem_of_find?_eq_some hfind
          have hends : ∀ m ∈ marks, (m.toList.head?.any fun c => !Text.isBlank c) ∧
              (m.toList.getLast?.any fun c => !Text.isBlank c) ∧ '\n' ∉ m.toList := by decide
          obtain ⟨hhead, hlast, hnl⟩ := hends m hm
          simp only [Option.any_eq_true, Bool.not_eq_true'] at hhead hlast
          exact ⟨⟨hhead, hlast⟩, fun _ => hnl⟩
        · simp at h

lemma Starts.trimmed {kind : TokenKind} {text rest : List Char} (h : Starts kind text rest) :
    Trimmed text := by
  obtain ⟨-, c, cs, -, hsplit⟩ := h
  exact (splitToken_chars hsplit).1

lemma Starts.no_newLine {kind : TokenKind} {text rest : List Char} (h : Starts kind text rest)
    (hkind : kind ≠ .string) : '\n' ∉ text := by
  obtain ⟨-, c, cs, -, hsplit⟩ := h
  exact (splitToken_chars hsplit).2 hkind

end FlowCanvas.Lexer
