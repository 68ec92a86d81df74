import FlowCanvas.Proofs.Scanning

/-!
# The grammar of layout and tokens

`Layout gap rest` and `TokenAt kind text rest` say what blanks, comments and tokens are without
saying how they are found. Both look at the rest of the text, since a comment goes on to the end of
its line and a word, a number or a mark as far as it can. The scanner takes off exactly what the
grammar allows, and it fails exactly where the grammar has no token.
-/

namespace FlowCanvas.Lexer

/-! ### Layout -/

/-- A comment without the line feed that ends it. -/
def IsComment (cs : List Char) : Prop := (['#'] <+: cs ∨ ['/', '/'] <+: cs) ∧ '\n' ∉ cs

/-- The end of a line or of the text. -/
def EndsLine (rest : List Char) : Prop := ∀ c ∈ rest.head?, c = '\n'

/-- Blanks and comments in front of a rest. A comment takes all of its line. -/
inductive Layout : List Char → List Char → Prop
  | nil (rest : List Char) : Layout [] rest
  | blank {c : Char} {gap rest : List Char} (hc : Text.isLayoutBlank c) (h : Layout gap rest) :
    Layout (c :: gap) rest
  | comment {body gap rest : List Char} (hbody : IsComment body) (hline : EndsLine (gap ++ rest))
    (h : Layout gap rest) : Layout (body ++ gap) rest

/-- A text that starts with no blank and no comment. -/
structure Bare (cs : List Char) : Prop where
  blank : ∀ c ∈ cs.head?, Text.isLayoutBlank c = false
  hash : ¬['#'] <+: cs
  slashes : ¬['/', '/'] <+: cs

lemma bare_iff_solid {cs : List Char} : Bare cs ↔ Solid cs := by
  cases cs with
  | nil => exact ⟨fun _ => rfl, fun _ => ⟨by simp, by simp, by simp⟩⟩
  | cons c cs =>
    rw [solid_cons_iff]
    have hslashes : ['/', '/'] <+: c :: cs ↔ c = '/' ∧ cs.head? = some '/' := by
      cases cs with
      | nil => simp [List.cons_prefix_cons]
      | cons d cs => simp [List.cons_prefix_cons, eq_comm]
    constructor
    · rintro ⟨hblank, hhash, hcomment⟩
      exact ⟨hblank c rfl, fun hc => hhash (by simp [hc]), fun hc => hcomment (hslashes.mpr hc)⟩
    · rintro ⟨hblank, hhash, hcomment⟩
      refine ⟨fun d hd => ?_, fun hc => hhash ?_, fun hc => hcomment (hslashes.mp hc)⟩
      · obtain rfl : c = d := Option.some.inj hd
        exact hblank
      · simpa [List.cons_prefix_cons, eq_comm] using hc

/-- At the end of a line a comment is over, whether one was open or not. -/
lemma splitLayout_endsLine {cs : List Char} (h : EndsLine cs) :
    splitLayout true cs = splitLayout false cs := by
  cases cs with
  | nil => rfl
  | cons c cs =>
    obtain rfl : c = '\n' := h c rfl
    simp [splitLayout, show Text.isLayoutBlank '\n' = true from rfl]

lemma splitLayout_comment {body : List Char} (h : '\n' ∉ body) (cs : List Char) :
    splitLayout true (body ++ cs) =
      (body ++ (splitLayout true cs).1, (splitLayout true cs).2) := by
  induction body with
  | nil => rfl
  | cons c body ih =>
    obtain ⟨hc, hbody⟩ := not_or.mp (List.mem_cons.not.mp h)
    have hne : (c != '\n') = true := bne_iff_ne.mpr (Ne.symm hc)
    simp [splitLayout, hne, ih hbody]

lemma splitLayout_of_isComment {body : List Char} (h : IsComment body) (cs : List Char) :
    splitLayout false (body ++ cs) =
      (body ++ (splitLayout true cs).1, (splitLayout true cs).2) := by
  obtain ⟨⟨tail, rfl⟩ | ⟨tail, rfl⟩, hline⟩ := h
  · have htail := splitLayout_comment (show '\n' ∉ tail by simpa using hline) cs
    simp [splitLayout, htail, show Text.isLayoutBlank '#' = false from rfl]
  · have htail := splitLayout_comment (show '\n' ∉ tail by simpa using hline) cs
    simp [splitLayout, htail, show Text.isLayoutBlank '/' = false from rfl]

lemma splitLayout_of_layout {gap rest : List Char} (h : Layout gap rest) (hrest : Bare rest) :
    splitLayout false (gap ++ rest) = (gap, rest) := by
  induction h with
  | nil rest => exact bare_iff_solid.mp hrest
  | blank hc _ ih => simp [splitLayout, hc, ih hrest]
  | comment hbody hline _ ih =>
    rw [List.append_assoc, splitLayout_of_isComment hbody, splitLayout_endsLine hline, ih hrest]

/-- What is left of a comment is the rest of its line, and layout goes on behind it. -/
lemma layout_of_splitLayout {comment : Bool} {cs gap rest : List Char}
    (h : splitLayout comment cs = (gap, rest)) :
    Bare rest ∧ ∃ body gap', gap = body ++ gap' ∧ Layout gap' rest ∧ '\n' ∉ body ∧
      (comment = false → body = []) ∧ (comment = true → EndsLine (gap' ++ rest)) := by
  induction cs generalizing comment gap with
  | nil =>
    obtain ⟨rfl, rfl⟩ := Prod.mk.inj h
    exact ⟨⟨by simp, by simp, by simp⟩, [], [], rfl, .nil [], by simp, fun _ => rfl,
      fun _ c hc => by simp at hc⟩
  | cons c cs ih =>
    cases comment with
    | true =>
      simp only [splitLayout, if_true, Prod.mk.injEq] at h
      obtain ⟨rfl, hrest⟩ := h
      obtain ⟨hbare, body, gap', hgap, hlayout, hline, hfalse, htrue⟩ := ih (Prod.ext rfl hrest)
      by_cases hc : c = '\n'
      · subst hc
        obtain rfl := hfalse rfl
        refine ⟨hbare, [], '\n' :: gap', by simpa using hgap, .blank rfl hlayout, by simp,
          fun _ => rfl, fun _ d hd => (Option.some.inj hd).symm⟩
      · exact ⟨hbare, c :: body, gap', congrArg (c :: ·) hgap, hlayout,
          by simp [hline, Ne.symm hc], by simp, fun _ => htrue (by simpa using hc)⟩
    | false =>
      simp only [splitLayout, Bool.false_eq_true, if_false] at h
      split at h
      · rename_i hblank
        obtain ⟨rfl, hrest⟩ := Prod.mk.inj h
        obtain ⟨hbare, body, gap', hgap, hlayout, -, hfalse, -⟩ := ih (Prod.ext rfl hrest)
        obtain rfl := hfalse rfl
        exact ⟨hbare, [], c :: gap', by simpa using hgap, .blank hblank hlayout, by simp,
          fun _ => rfl, by simp⟩
      · rename_i hblank
        split at h
        · rename_i hmark
          obtain ⟨rfl, hrest⟩ := Prod.mk.inj h
          obtain ⟨hbare, body, gap', hgap, hlayout, hline, -, htrue⟩ := ih (Prod.ext rfl hrest)
          refine ⟨hbare, [], c :: body ++ gap', congrArg (c :: ·) hgap, ?_, by simp, fun _ => rfl,
            by simp⟩
          refine .comment ⟨?_, ?_⟩ (htrue rfl) hlayout
          · rcases Bool.or_eq_true _ _ ▸ hmark with hc | hc
            · exact .inl (by simp [beq_iff_eq.mp hc])
            · -- the second slash is the first character of the comment's body
              obtain ⟨rfl, hhead⟩ : c = '/' ∧ cs.head? = some '/' := by simpa using hc
              obtain ⟨tail, rfl⟩ := List.head?_eq_some_iff.mp hhead
              simp only [splitLayout, if_true] at hgap
              cases body with
              | nil =>
                have hslash := htrue rfl '/' (by rw [← List.nil_append gap', ← hgap]; rfl)
                exact absurd hslash (by decide)
              | cons d body =>
                obtain rfl := (List.cons.inj hgap).1
                exact .inr (by simp [List.cons_prefix_cons])
          · rw [List.mem_cons, not_or]
            refine ⟨?_, hline⟩
            rintro rfl
            exact hblank rfl
        · rename_i hmark
          obtain ⟨rfl, rfl⟩ := Prod.mk.inj h
          refine ⟨bare_iff_solid.mpr ((solid_cons_iff c cs).mpr ⟨by simpa using hblank, ?_, ?_⟩),
            [], [], rfl, .nil _, by simp, fun _ => rfl, by simp⟩
          · rintro rfl
            simp at hmark
          · rintro ⟨rfl, hhead⟩
            simp [hhead] at hmark

/-- The scanner takes off all the layout in front of what starts with none. -/
theorem splitLayout_eq_iff {cs gap rest : List Char} :
    splitLayout false cs = (gap, rest) ↔ cs = gap ++ rest ∧ Layout gap rest ∧ Bare rest := by
  constructor
  · intro h
    obtain ⟨hbare, body, gap', rfl, hlayout, -, hnil, -⟩ := layout_of_splitLayout h
    obtain rfl := hnil rfl
    have happend := splitLayout_append false cs
    rw [h] at happend
    exact ⟨happend.symm, hlayout, hbare⟩
  · rintro ⟨rfl, hlayout, hbare⟩
    exact splitLayout_of_layout hlayout hbare

/-! ### Strings -/

/-- A string literal behind its opening quote. A backslash hides the next character in `"`
strings only. -/
inductive Quoted (quote : Char) : List Char → Prop
  | close : Quoted quote [quote]
  | escape {c : Char} {cs : List Char} (hquote : quote = '"') (h : Quoted quote cs) :
    Quoted quote ('\\' :: c :: cs)
  | plain {c : Char} {cs : List Char} (hc : c ≠ quote) (hescape : ¬(quote = '"' ∧ c = '\\'))
    (h : Quoted quote cs) : Quoted quote (c :: cs)

lemma quoted_of_splitString {quote : Char} {cs body rest : List Char}
    (h : splitString quote (quote == '"') cs = some (body, rest)) : Quoted quote body := by
  generalize hescapes : (quote == '"') = escapes at h
  fun_induction splitString quote escapes cs generalizing body with
  | case1 => simp at h
  | case2 => simp at h
  | case3 c hescape d ds ih =>
    obtain ⟨⟨tail, left⟩, hsplit, heq⟩ := Option.map_eq_some_iff.mp h
    obtain ⟨rfl, rfl⟩ := Prod.mk.inj heq
    simp only [Bool.and_eq_true, beq_iff_eq] at hescape
    obtain ⟨rfl, rfl⟩ := hescape
    exact .escape (beq_iff_eq.mp hescapes) (ih hsplit)
  | case4 c cs hescape hquote =>
    obtain ⟨rfl, rfl⟩ := Prod.mk.inj (Option.some.inj h)
    rw [beq_iff_eq.mp hquote]
    exact .close
  | case5 c cs hescape hquote ih =>
    obtain ⟨⟨tail, left⟩, hsplit, heq⟩ := Option.map_eq_some_iff.mp h
    obtain ⟨rfl, rfl⟩ := Prod.mk.inj heq
    refine .plain (by simpa using hquote) ?_ (ih hsplit)
    rintro ⟨hq, rfl⟩
    rw [hq] at hescapes
    exact hescape (by rw [← hescapes]; rfl)

lemma splitString_of_quoted {quote : Char} {body : List Char} (h : Quoted quote body)
    (hquote : quote ≠ '\\') (rest : List Char) :
    splitString quote (quote == '"') (body ++ rest) = some (body, rest) := by
  induction h with
  | close => simp [splitString.eq_def, hquote]
  | escape hq _ ih =>
    subst hq
    rw [List.cons_append, List.cons_append, splitString.eq_def]
    simpa using ih
  | @plain c cs hc hescape _ ih =>
    have hnot : (quote == '"' && c == '\\') = false := by
      simpa using hescape
    rw [List.cons_append, splitString.eq_def]
    simp [hnot, hc, ih]

/-- A quote that is not closed. -/
def Unclosed (quote : Char) (cs : List Char) : Prop := ∀ body, Quoted quote body → ¬body <+: cs

lemma splitString_eq_none_iff {quote : Char} {cs : List Char} (hquote : quote ≠ '\\') :
    splitString quote (quote == '"') cs = none ↔ Unclosed quote cs := by
  constructor
  · rintro h body hbody ⟨rest, rfl⟩
    simp [splitString_of_quoted hbody hquote rest] at h
  · intro h
    cases hsplit : splitString quote (quote == '"') cs with
    | none => rfl
    | some result =>
      obtain ⟨body, rest⟩ := result
      obtain ⟨rfl, -⟩ := splitString_spec hsplit
      exact absurd (List.prefix_append body rest) (h body (quoted_of_splitString hsplit))

/-! ### Numbers -/

/-- The rest of a number in front of other text: word characters, and points in front of digits, as
far as they go. -/
inductive NumberTail : List Char → List Char → Prop
  | stop {rest : List Char} (hword : ∀ c ∈ rest.head?, isWordChar c = false)
    (hpoint : ∀ c, c.isDigit → ¬['.', c] <+: rest) : NumberTail [] rest
  | word {c : Char} {cs rest : List Char} (hc : isWordChar c) (h : NumberTail cs rest) :
    NumberTail (c :: cs) rest
  | point {c : Char} {cs rest : List Char} (hc : c.isDigit) (h : NumberTail (c :: cs) rest) :
    NumberTail ('.' :: c :: cs) rest

lemma numberTail_splitNumber (cs : List Char) :
    NumberTail (splitNumber cs).1 (splitNumber cs).2 := by
  induction cs with
  | nil => exact NumberTail.stop (by simp [splitNumber]) (by simp [splitNumber])
  | cons c cs ih =>
    rw [splitNumber]
    split
    · rename_i hc
      rcases Bool.or_eq_true _ _ ▸ hc with hword | hpoint
      · exact .word hword ih
      · obtain ⟨rfl, hdigit⟩ : c = '.' ∧ cs.head?.any Char.isDigit = true := by simpa using hpoint
        cases cs with
        | nil => simp at hdigit
        | cons d cs =>
          have hd : d.isDigit := by simpa using hdigit
          have hsplit : splitNumber (d :: cs) = (d :: (splitNumber cs).1, (splitNumber cs).2) := by
            rw [splitNumber, if_pos (by simp [isWordChar_of_isDigit hd])]
          rw [hsplit] at ih ⊢
          exact .point hd ih
    · rename_i hc
      simp only [Bool.or_eq_true, not_or, Bool.not_eq_true] at hc
      refine .stop (fun d hd => ?_) fun d hd hpre => ?_
      · obtain rfl : c = d := Option.some.inj hd
        exact hc.1
      · obtain ⟨rfl, htail⟩ := List.cons_prefix_cons.mp hpre
        obtain ⟨tail, rfl⟩ := htail
        simp [hd] at hc

lemma splitNumber_of_numberTail {cs rest : List Char} (h : NumberTail cs rest) :
    splitNumber (cs ++ rest) = (cs, rest) := by
  induction h with
  | @stop rest hword hpoint =>
    cases rest with
    | nil => rfl
    | cons c rest =>
      rw [List.nil_append, splitNumber, if_neg]
      intro hc
      rcases Bool.or_eq_true _ _ ▸ hc with hc | hc
      · simp [hword c rfl] at hc
      · obtain ⟨rfl, hdigit⟩ : c = '.' ∧ rest.head?.any Char.isDigit = true := by simpa using hc
        cases rest with
        | nil => simp at hdigit
        | cons d rest => exact hpoint d (by simpa using hdigit) (by simp [List.cons_prefix_cons])
  | word hc _ ih => rw [List.cons_append, splitNumber, if_pos (by simp [hc]), ih]
  | point hc _ ih =>
    rw [List.cons_append] at ih
    rw [List.cons_append, List.cons_append, splitNumber, if_pos (by simp [hc]), ih]

/-! ### Marks -/

/-- No mark of the table is the beginning of a later one. -/
lemma marks_pairwise :
    marks.Pairwise fun m m' => m.toList.isPrefixOf m'.toList = false := by
  decide +kernel

/-- A mark is the longest entry of the table that a text starts with. -/
structure LongestMark (m cs : List Char) : Prop where
  mem : m ∈ marks.map String.toList
  starts : m <+: cs
  longest : ∀ m' ∈ marks, m'.toList <+: cs → m'.toList.length ≤ m.length

lemma longestMark_of_splitMark {cs m rest : List Char} (h : splitMark? cs = some (m, rest)) :
    cs = m ++ rest ∧ LongestMark m cs := by
  obtain ⟨found, hfind, heq⟩ := Option.map_eq_some_iff.mp h
  obtain ⟨rfl, rfl⟩ := Prod.mk.inj heq
  obtain ⟨hfound, earlier, later, hmarks, hearlier⟩ := List.find?_eq_some_iff_append.mp hfind
  rw [List.isPrefixOf_iff_prefix] at hfound
  have hmem : found ∈ marks := List.mem_of_find?_eq_some hfind
  refine ⟨?_, ⟨List.mem_map_of_mem hmem, hfound, fun m' hm' hpre => ?_⟩⟩
  · obtain ⟨tail, rfl⟩ := hfound
    rw [← String.length_toList, List.drop_left]
  · -- a longer entry would stand behind one of its own beginnings
    rcases List.prefix_or_prefix_of_prefix hfound hpre with hlong | hshort
    · rw [hmarks] at hm'
      rcases List.mem_append.mp hm' with hbefore | hafter
      · have hnot := hearlier m' hbefore
        rw [Bool.not_eq_true', ← Bool.not_eq_true, List.isPrefixOf_iff_prefix] at hnot
        exact absurd hpre hnot
      · rcases List.mem_cons.mp hafter with rfl | hafter
        · exact le_rfl
        · have hpairs := marks_pairwise
          rw [hmarks, List.pairwise_append, List.pairwise_cons] at hpairs
          have hnot := hpairs.2.1.1 m' hafter
          rw [← Bool.not_eq_true, List.isPrefixOf_iff_prefix] at hnot
          exact absurd hlong hnot
    · exact hshort.length_le

lemma splitMark_of_longestMark {m rest : List Char} (h : LongestMark m (m ++ rest)) :
    splitMark? (m ++ rest) = some (m, rest) := by
  obtain ⟨m', hm', rfl⟩ := List.mem_map.mp h.mem
  cases hsplit : splitMark? (m'.toList ++ rest) with
  | none =>
    rw [splitMark?, Option.map_eq_none_iff, List.find?_eq_none] at hsplit
    have hnot := hsplit m' hm'
    rw [List.isPrefixOf_iff_prefix] at hnot
    exact absurd (List.prefix_append _ _) hnot
  | some result =>
    obtain ⟨found, left⟩ := result
    obtain ⟨heq, hlongest⟩ := longestMark_of_splitMark hsplit
    obtain ⟨found', hfound', rfl⟩ := List.mem_map.mp hlongest.mem
    have hlength : m'.toList.length = found'.toList.length :=
      (hlongest.longest m' hm' h.starts).antisymm (h.longest found' hfound' hlongest.starts)
    obtain ⟨hsame, rfl⟩ := List.append_inj heq hlength
    rw [hsame]

lemma splitMark_eq_none_iff {cs : List Char} :
    splitMark? cs = none ↔ ∀ m ∈ marks, ¬m.toList <+: cs := by
  simp only [splitMark?, Option.map_eq_none_iff, List.find?_eq_none, List.isPrefixOf_iff_prefix]

/-! ### Tokens -/

/-- A token in front of a rest. -/
inductive TokenAt : TokenKind → List Char → List Char → Prop
  | string {quote : Char} {body rest : List Char} (hquote : quote = '"' ∨ quote = '\x60')
    (hbody : Quoted quote body) : TokenAt .string (quote :: body) rest
  | number {c : Char} {cs rest : List Char} (hc : c.isDigit) (hcs : NumberTail cs rest) :
    TokenAt .number (c :: cs) rest
  | identifier {c : Char} {cs rest : List Char} (hc : isWordStart c) (hcs : ∀ d ∈ cs, isWordChar d)
    (hrest : ∀ d ∈ rest.head?, isWordChar d = false) : TokenAt .identifier (c :: cs) rest
  | mark {m rest : List Char} (hm : LongestMark m (m ++ rest)) : TokenAt .punctuation m rest

/-- A character that no token starts with. -/
structure StartsNothing (c : Char) : Prop where
  quote : c ≠ '"' ∧ c ≠ '\x60'
  digit : c.isDigit = false
  word : isWordStart c = false
  mark : ∀ m ∈ marks, m.toList.head? ≠ some c

/-- Why no token starts with `c` in front of `cs`. -/
inductive FailsAt (c : Char) (cs : List Char) : Failure → Prop
  | unterminated (hquote : c = '"' ∨ c = '\x60') (h : Unclosed c cs) :
    FailsAt c cs .unterminatedString
  | unexpected (h : StartsNothing c) : FailsAt c cs (.unexpectedCharacter c)

/-- The first characters of marks are marks themselves and start nothing else. -/
lemma marks_heads :
    ∀ m ∈ marks, ∃ c, m.toList.head? = some c ∧ [c] ∈ marks.map String.toList ∧ c ≠ '"' ∧
      c ≠ '\x60' ∧ c.isDigit = false ∧ isWordStart c = false := by
  have hall : ∀ m ∈ marks, m.toList.head?.any fun c => (marks.map String.toList).contains [c] &&
      (c != '"' && (c != '\x60' && (!c.isDigit && !isWordStart c))) := by
    decide +kernel
  intro m hm
  simpa [Option.any_eq_true] using hall m hm

lemma not_quote_of_digit {c : Char} (h : c.isDigit) : (c == '"' || c == '\x60') = false := by
  by_contra hne
  rw [Bool.not_eq_false, Bool.or_eq_true, beq_iff_eq, beq_iff_eq] at hne
  rcases hne with rfl | rfl <;> exact absurd h (by decide)

lemma not_quote_of_wordStart {c : Char} (h : isWordStart c) :
    (c == '"' || c == '\x60') = false := by
  by_contra hne
  rw [Bool.not_eq_false, Bool.or_eq_true, beq_iff_eq, beq_iff_eq] at hne
  rcases hne with rfl | rfl <;> exact absurd h (by decide)

lemma not_digit_of_wordStart {c : Char} (h : isWordStart c) : c.isDigit = false := by
  by_contra hdigit
  rw [Bool.not_eq_false] at hdigit
  simp only [isWordStart, Char.isAlpha, Char.isUpper, Char.isLower, Bool.or_eq_true,
    Bool.and_eq_true, decide_eq_true_eq, UInt32.le_iff_toNat_le, ge_iff_le, beq_iff_eq] at h
  simp only [Char.isDigit, Bool.and_eq_true, decide_eq_true_eq, UInt32.le_iff_toNat_le,
    ge_iff_le] at hdigit
  have h9 : '9'.val.toNat = 57 := rfl
  have hA : 'A'.val.toNat = 65 := rfl
  have ha : 'a'.val.toNat = 97 := rfl
  rcases h with ((h | h) | rfl) | rfl
  · omega
  · omega
  · exact absurd hdigit (by decide)
  · exact absurd hdigit (by decide)

/-- The scanner takes a token off a text exactly if the grammar has one there. -/
theorem splitToken_eq_ok_iff {c : Char} {cs text rest : List Char} {kind : TokenKind} :
    splitToken c cs = .ok (kind, text, rest) ↔ c :: cs = text ++ rest ∧ TokenAt kind text rest := by
  constructor
  · intro h
    obtain ⟨tail, htext, hcs⟩ := splitToken_append h
    refine ⟨by rw [htext, hcs, List.cons_append], ?_⟩
    rw [splitToken] at h
    split_ifs at h with hquote hdigit hword
    · split at h
      · rename_i body left hsplit
        simp only [Except.ok.injEq, Prod.mk.injEq] at h
        obtain ⟨rfl, rfl, rfl⟩ := h
        exact .string (by simpa using hquote) (quoted_of_splitString hsplit)
      · simp at h
    · simp only [Except.ok.injEq, Prod.mk.injEq] at h
      obtain ⟨rfl, rfl, rfl⟩ := h
      exact .number hdigit (numberTail_splitNumber cs)
    · simp only [Except.ok.injEq, Prod.mk.injEq] at h
      obtain ⟨rfl, rfl, rfl⟩ := h
      refine .identifier hword (fun d hd => List.mem_takeWhile_imp hd) fun d hd => ?_
      have hnot := List.head?_dropWhile_not isWordChar cs
      rw [Option.mem_def.mp hd] at hnot
      exact hnot
    · split at h
      · rename_i m left hsplit
        simp only [Except.ok.injEq, Prod.mk.injEq] at h
        obtain ⟨rfl, rfl, rfl⟩ := h
        obtain ⟨heq, hmark⟩ := longestMark_of_splitMark hsplit
        exact .mark (heq ▸ hmark)
      · simp at h
  · rintro ⟨heq, h⟩
    cases h with
    | @string quote body _ hquote hbody =>
      rw [List.cons_append] at heq
      obtain ⟨rfl, rfl⟩ := List.cons.inj heq
      have hslash : c ≠ '\\' := by rcases hquote with rfl | rfl <;> decide
      rw [splitToken, if_pos (by simpa using hquote), splitString_of_quoted hbody hslash]
    | @number d ds _ hc hcs =>
      rw [List.cons_append] at heq
      obtain ⟨rfl, rfl⟩ := List.cons.inj heq
      rw [splitToken, if_neg (by simp [not_quote_of_digit hc]), if_pos hc,
        splitNumber_of_numberTail hcs]
    | @identifier d ds _ hc hcs hrest =>
      rw [List.cons_append] at heq
      obtain ⟨rfl, rfl⟩ := List.cons.inj heq
      have hstop : rest.takeWhile isWordChar = [] ∧ rest.dropWhile isWordChar = rest := by
        cases rest with
        | nil => exact ⟨rfl, rfl⟩
        | cons d rest => simp [hrest d rfl]
      rw [splitToken, if_neg (by simp [not_quote_of_wordStart hc]),
        if_neg (by simp [not_digit_of_wordStart hc]), if_pos hc,
        List.takeWhile_append_of_pos hcs, List.dropWhile_append_of_pos hcs, hstop.1, hstop.2,
        List.append_nil]
    | mark hm =>
      obtain ⟨m, hmem, rfl⟩ := List.mem_map.mp hm.mem
      obtain ⟨d, hd, -, hquote, hquote', hdigit, hword⟩ := marks_heads m hmem
      obtain ⟨tail, htail⟩ := List.head?_eq_some_iff.mp hd
      obtain rfl : c = d := by
        rw [htail] at heq
        exact (List.cons.inj heq).1
      rw [splitToken, if_neg (by simp [hquote, hquote']), if_neg (by simp [hdigit]),
        if_neg (by simp [hword]), heq, splitMark_of_longestMark hm]

/-- The scanner fails exactly where the grammar has no token. -/
theorem splitToken_eq_error_iff {c : Char} {cs : List Char} {failure : Failure} :
    splitToken c cs = .error failure ↔ FailsAt c cs failure := by
  constructor
  · intro h
    rw [splitToken] at h
    split_ifs at h with hquote hdigit hword
    · split at h
      · simp at h
      · rename_i hsplit
        obtain rfl := Except.error.inj h
        have hc : c = '"' ∨ c = '\x60' := by simpa using hquote
        refine .unterminated hc ((splitString_eq_none_iff ?_).mp hsplit)
        rcases hc with rfl | rfl <;> decide
    · split at h
      · simp at h
      · rename_i hsplit
        obtain rfl := Except.error.inj h
        refine .unexpected ⟨by simpa using hquote, by simpa using hdigit, by simpa using hword, ?_⟩
        intro m hm hhead
        obtain ⟨d, hd, hsingle, -⟩ := marks_heads m hm
        obtain rfl : c = d := Option.some.inj (hhead.symm.trans hd)
        obtain ⟨m', hm', hm''⟩ := List.mem_map.mp hsingle
        refine splitMark_eq_none_iff.mp hsplit m' hm' ?_
        rw [hm'']
        exact List.cons_prefix_cons.mpr ⟨rfl, List.nil_prefix⟩
  · intro h
    cases h with
    | unterminated hquote h =>
      have hslash : c ≠ '\\' := by rcases hquote with rfl | rfl <;> decide
      rw [splitToken, if_pos (by simpa using hquote), (splitString_eq_none_iff hslash).mpr h]
    | unexpected h =>
      have hnone : splitMark? (c :: cs) = none := by
        refine splitMark_eq_none_iff.mpr fun m hm hpre => ?_
        obtain ⟨d, hd, -⟩ := marks_heads m hm
        obtain ⟨tail, htail⟩ := List.head?_eq_some_iff.mp hd
        rw [htail] at hpre
        obtain rfl := (List.cons_prefix_cons.mp hpre).1
        exact h.mark m hm hd
      rw [splitToken, if_neg (by simp [h.quote.1, h.quote.2]), if_neg (by simp [h.digit]),
        if_neg (by simp [h.word]), hnone]

end FlowCanvas.Lexer
