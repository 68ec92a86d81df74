import FlowCanvas.Proofs.Lexing

/-!
# Runs of tokens

`Run` is what a stretch of text is read as in front of a given rest, and `Scanned` is the same
with the tokens themselves: their layout and their places. `tokenize` succeeds exactly on the
texts that are a run followed by layout.
-/

namespace FlowCanvas

namespace Lexer

/-- The text `cs` in front of `rest` is read as the lexemes `ls`, and ends with the last one. -/
inductive Run : List Char → List (TokenKind × String) → List Char → Prop
  | nil (rest : List Char) : Run [] [] rest
  | cons {gap text cs rest : List Char} {kind : TokenKind} {ls : List (TokenKind × String)}
    (hgap : Gap false gap) (hstart : Starts kind text (cs ++ rest)) (hrest : Run cs ls rest) :
    Run (gap ++ (text ++ cs)) ((kind, .ofList text) :: ls) rest

lemma Run.append {xs ys rest : List Char} {ls ms : List (TokenKind × String)}
    (hx : Run xs ls (ys ++ rest)) (hy : Run ys ms rest) : Run (xs ++ ys) (ls ++ ms) rest := by
  generalize hleft : ys ++ rest = left at hx
  induction hx with
  | nil _ => simpa using hy
  | cons hgap hstart _ ih =>
    subst hleft
    have hstep := Run.cons hgap (by simpa [List.append_assoc] using hstart) (ih rfl)
    simpa [List.append_assoc] using hstep

/-- A run is read alike in front of every text that opens no more than the one it was read in
front of. -/
lemma Run.tame {xs rest rest' : List Char} {ls : List (TokenKind × String)} (h : Run xs ls rest)
    (ht : Tame rest rest') : Run xs ls rest' := by
  induction h with
  | nil _ => exact .nil rest'
  | cons hgap hstart _ ih => exact .cons hgap (hstart.tame (ht.append _)) (ih ht)

lemma Run.of_safe {xs rest rest' : List Char} {ls : List (TokenKind × String)}
    (h : Run xs ls rest) (hs : Safe rest') : Run xs ls rest' :=
  h.tame (hs.tame rest)

lemma Gap.append {comment : Bool} {xs ys : List Char} (hx : Gap comment xs) (hy : Gap false ys) :
    Gap comment (xs ++ ys) := by
  induction hx with
  | nil => exact hy
  | blank h _ ih => exact .blank h ih
  | hash _ ih => exact .hash ih
  | slashes _ ih => exact .slashes ih
  | newLine _ ih => exact .newLine ih
  | comment h _ ih => exact .comment h ih

/-- More layout in front changes nothing. -/
lemma Run.gap {gap xs rest : List Char} {l : TokenKind × String} {ls : List (TokenKind × String)}
    (hgap : Gap false gap) (h : Run xs (l :: ls) rest) : Run (gap ++ xs) (l :: ls) rest := by
  cases h with
  | @cons gap' text cs _ kind _ hgap' hstart hrest =>
    simpa [List.append_assoc] using Run.cons (hgap.append hgap') hstart hrest

lemma Run.token {kind : TokenKind} {text rest : List Char} (h : Starts kind text rest) :
    Run text [(kind, .ofList text)] rest := by
  simpa using Run.cons Gap.nil (by simpa using h) (Run.nil rest)

/-- The text `cs`, from `here` on and in front of `rest`, is read as the tokens `ts`, and ends with
the last one. -/
inductive Scanned : Place → List Char → Phrase → List Char → Prop
  | nil (here : Place) (rest : List Char) : Scanned here [] [] rest
  | cons {here : Place} {gap text cs rest : List Char} {kind : TokenKind} {ts : Phrase}
    (hgap : Gap false gap) (hstart : Starts kind text (cs ++ rest))
    (hrest : Scanned (here.advance gap |>.advance text) cs ts rest) :
    Scanned here (gap ++ (text ++ cs))
      (⟨kind, .ofList text, .ofList gap, here.advance gap, here.advance gap |>.advance text⟩ :: ts)
      rest

lemma Scanned.run {here : Place} {cs rest : List Char} {ts : Phrase}
    (h : Scanned here cs ts rest) : Run cs ts.lexemes rest := by
  induction h with
  | nil _ rest => exact .nil rest
  | cons hgap hstart _ ih => exact .cons hgap hstart ih

lemma Scanned.split {here : Place} {cs rest : List Char} {ts us : Phrase}
    (h : Scanned here cs (ts ++ us) rest) :
    ∃ xs ys, cs = xs ++ ys ∧ Scanned here xs ts (ys ++ rest) ∧
      Scanned (here.advance xs) ys us rest := by
  induction ts generalizing here cs with
  | nil => exact ⟨[], cs, rfl, .nil here _, h⟩
  | cons t ts ih =>
    cases h with
    | @cons _ gap text cs _ _ _ hgap hstart hrest =>
      obtain ⟨xs, ys, rfl, hxs, hys⟩ := ih hrest
      refine ⟨gap ++ (text ++ xs), ys, by simp [List.append_assoc], ?_, ?_⟩
      · exact .cons hgap (by simpa [List.append_assoc] using hstart) hxs
      · simpa using hys

lemma splitLayout_append (comment : Bool) (cs : List Char) :
    (splitLayout comment cs).1 ++ (splitLayout comment cs).2 = cs := by
  fun_induction splitLayout comment cs <;> simp_all

lemma splitLayout_fst {comment : Bool} {cs gap : List Char}
    (h : splitLayout comment cs = (gap, [])) : cs = gap := by
  have happend := splitLayout_append comment cs
  rw [h] at happend
  simpa using happend.symm

/-- Layout up to the end of a text; a comment may still be open there. -/
def Final (cs : List Char) : Prop := splitLayout false cs = (cs, [])

lemma scanned_of_scan {n : Nat} {here : Place} {cs last : List Char} {ts : Phrase}
    (h : scan n here cs = .ok (ts, last)) (hn : cs.length ≤ n) :
    ∃ xs, cs = xs ++ last ∧ Scanned here xs ts last ∧ Final last := by
  induction n generalizing here cs ts with
  | zero =>
    obtain rfl : cs = [] := List.length_eq_zero_iff.mp (Nat.le_zero.mp hn)
    simp only [scan, Except.ok.injEq, Prod.mk.injEq] at h
    obtain ⟨rfl, rfl⟩ := h
    exact ⟨[], rfl, .nil here _, rfl⟩
  | succ n ih =>
    rw [scan] at h
    split at h
    · rename_i gap hlayout
      simp only [Except.ok.injEq, Prod.mk.injEq] at h
      obtain ⟨rfl, rfl⟩ := h
      obtain rfl := splitLayout_fst hlayout
      exact ⟨[], rfl, .nil here _, hlayout⟩
    · rename_i gap c rest hlayout
      obtain ⟨rfl, hgap, hsolid⟩ := gap_of_splitLayout hlayout
      split at h
      · simp at h
      · rename_i kind text rest' hsplit
        obtain ⟨tail, rfl, rfl⟩ := splitToken_append hsplit
        dsimp only at h
        split at h
        · simp at h
        · rename_i tokens left hscan
          simp only [Except.ok.injEq, Prod.mk.injEq] at h
          obtain ⟨rfl, rfl⟩ := h
          obtain ⟨xs, rfl, hxs, hlast⟩ := ih hscan (by simp at hn; omega)
          refine ⟨gap ++ (c :: tail ++ xs), by simp [List.append_assoc], ?_, hlast⟩
          exact .cons hgap ⟨hsolid, c, tail, rfl, hsplit⟩ hxs

lemma scan_of_run {cs last : List Char} {ls : List (TokenKind × String)} (h : Run cs ls last)
    (hlast : Final last) (n : Nat) (hn : (cs ++ last).length ≤ n) (here : Place) :
    ∃ ts, scan n here (cs ++ last) = .ok (ts, last) ∧ Phrase.lexemes ts = ls := by
  induction h generalizing n here with
  | nil rest =>
    refine ⟨[], ?_, rfl⟩
    cases n with
    | zero => rfl
    | succ n => simp [scan, show splitLayout false rest = (rest, []) from hlast]
  | @cons gap text cs rest kind ls hgap hstart hrest ih =>
    obtain ⟨hsolid, c, tail, rfl, hsplit⟩ := hstart
    cases n with
    | zero => simp at hn
    | succ n =>
      have hlayout := splitLayout_gap hgap hsolid
      simp only [List.cons_append] at hlayout
      obtain ⟨ts, hscan, hls⟩ := ih hlast n (by simp at hn ⊢; omega)
        ((here.advance gap).advance (c :: tail))
      refine ⟨⟨kind, .ofList (c :: tail), .ofList gap, here.advance gap,
        (here.advance gap).advance (c :: tail)⟩ :: ts, ?_, ?_⟩
      · simp only [List.append_assoc, List.cons_append, scan, hlayout, hsplit, hscan]
      · simp [Phrase.lexemes, ← hls]

/-- A text that can be tokenized is a run of its tokens and layout after the last. -/
theorem scanned_of_tokenize {source : String} {ts : Phrase} (h : tokenize source = .ok ts) :
    ∃ cs last, source.toList = cs ++ last ∧ Scanned .origin cs ts last ∧ Final last := by
  unfold tokenize scanAll at h
  cases hscan : scan source.toList.length .origin source.toList with
  | error e => simp [hscan, Except.map] at h
  | ok result =>
    obtain ⟨tokens, last⟩ := result
    simp only [hscan, Except.map, Except.ok.injEq] at h
    subst h
    obtain ⟨xs, hxs, hscanned, hlast⟩ := scanned_of_scan hscan le_rfl
    exact ⟨xs, last, hxs, hscanned, hlast⟩

/-- A run with layout after it is tokenized to its lexemes. -/
theorem tokenize_of_run {source : String} {cs last : List Char} {ls : List (TokenKind × String)}
    (hsource : source.toList = cs ++ last) (h : Run cs ls last) (hlast : Final last) :
    ∃ ts, tokenize source = .ok ts ∧ Phrase.lexemes ts = ls := by
  obtain ⟨ts, hscan, hls⟩ := scan_of_run h hlast (cs ++ last).length le_rfl .origin
  refine ⟨ts, ?_, hls⟩
  unfold tokenize scanAll
  rw [hsource, hscan]
  rfl

end Lexer

namespace Phrase

lemma tail_cons (t : Token) (ts : Phrase) : tail (t :: ts) = t.gap ++ t.text ++ tail ts := by
  simp [tail, String.join_cons]

lemma tail_append (ts us : Phrase) : tail (ts ++ us) = tail ts ++ tail us := by
  induction ts with
  | nil => simp [tail]
  | cons t ts ih => simp [tail_cons, ih, String.append_assoc]

@[simp]
lemma lexemes_nil : lexemes [] = [] := rfl

@[simp]
lemma lexemes_cons (t : Token) (ts : Phrase) :
    lexemes (t :: ts) = (t.kind, t.text) :: lexemes ts := rfl

@[simp]
lemma lexemes_append (ts us : Phrase) : lexemes (ts ++ us) = lexemes ts ++ lexemes us := by
  simp [lexemes]

lemma text_cons (t : Token) (ts : Phrase) : text (t :: ts) = t.text ++ tail ts := rfl

lemma text_append {ts : Phrase} (hne : ts ≠ []) (us : Phrase) :
    text (ts ++ us) = text ts ++ tail us := by
  obtain ⟨t, ts, rfl⟩ := List.exists_cons_of_ne_nil hne
  rw [List.cons_append, text_cons, text_cons, tail_append, String.append_assoc]

/-- A text ends with its last token. -/
lemma text_append_getLast (ts : Phrase) (hne : ts ≠ []) :
    ∃ front, (text ts).toList = front ++ (ts.getLast hne).text.toList := by
  obtain ⟨t, us, rfl⟩ := List.exists_cons_of_ne_nil hne
  rcases List.eq_nil_or_concat us with rfl | ⟨vs, v, hus⟩
  · exact ⟨[], by simp [text_cons, tail]⟩
  · rw [List.concat_eq_append] at hus
    subst hus
    refine ⟨(t.text ++ tail vs ++ v.gap).toList, ?_⟩
    have hlast : (t :: (vs ++ [v])).getLast hne = v :=
      (List.getLast_cons (by simp)).trans List.getLast_concat
    rw [hlast]
    simp [text_cons, tail_append, tail_cons, show tail [] = "" from rfl, List.append_assoc]

lemma tail_eq_gap_append_text (t : Token) (ts : Phrase) :
    tail (t :: ts) = t.gap ++ text (t :: ts) := by
  rw [tail_cons, text_cons, String.append_assoc]

end Phrase

/-- A token that the scanner takes off some text. -/
def Token.Lexed (t : Token) : Prop := ∃ left, Lexer.Starts t.kind t.text.toList left

namespace Lexer

lemma Scanned.chars {here : Place} {cs rest : List Char} {ts : Phrase}
    (h : Scanned here cs ts rest) : cs = (Phrase.tail ts).toList := by
  induction h with
  | nil => simp [Phrase.tail]
  | cons _ _ _ ih => simp [Phrase.tail_cons, ← ih, List.append_assoc]

/-- The text of scanned tokens is read as these tokens again. -/
lemma Scanned.text_run {here : Place} {cs rest : List Char} {ts : Phrase}
    (h : Scanned here cs ts rest) : Run (Phrase.text ts).toList ts.lexemes rest := by
  cases h with
  | nil => exact .nil rest
  | @cons _ gap text cs _ kind ts _ hstart hrest =>
    have hrun := Run.cons Gap.nil hstart hrest.run
    simpa [Phrase.text_cons, ← hrest.chars] using hrun

/-- The token at the front, the layout before it and the text after it. -/
lemma Scanned.head {here : Place} {cs rest : List Char} {t : Token} {ts : Phrase}
    (h : Scanned here cs (t :: ts) rest) :
    Gap false t.gap.toList ∧ t.span.start = here.advance t.gap.toList ∧
      t.span.stop = t.span.start.advance t.text.toList ∧
      Starts t.kind t.text.toList ((Phrase.tail ts).toList ++ rest) := by
  cases h with
  | cons hgap hstart hrest => simpa [← hrest.chars] using And.intro hgap hstart

/-- The last token ends where the text does. -/
lemma Scanned.stop {here : Place} {cs rest : List Char} {ts : Phrase} {t : Token}
    (h : Scanned here cs (ts ++ [t]) rest) : t.span.stop = here.advance cs := by
  obtain ⟨xs, ys, rfl, -, hys⟩ := h.split
  cases hys with
  | cons _ _ hnil =>
    cases hnil with
    | nil => simp

lemma Scanned.mem {here : Place} {cs rest : List Char} {ts : Phrase} {t : Token}
    (h : Scanned here cs ts rest) (ht : t ∈ ts) : t.Lexed := by
  obtain ⟨us, vs, rfl⟩ := List.append_of_mem ht
  obtain ⟨xs, ys, -, -, hys⟩ := h.split
  exact ⟨_, hys.head.2.2.2⟩

lemma Scanned.trimmed {here : Place} {cs rest : List Char} {ts : Phrase}
    (h : Scanned here cs ts rest) (hne : ts ≠ []) : Trimmed (Phrase.text ts).toList := by
  constructor
  · obtain ⟨t, us, rfl⟩ := List.exists_cons_of_ne_nil hne
    obtain ⟨left, hstart⟩ := h.mem List.mem_cons_self
    obtain ⟨c, hc, hblank⟩ := hstart.trimmed.head
    refine ⟨c, ?_, hblank⟩
    rw [Phrase.text_cons, String.toList_append, List.head?_append, hc]
    rfl
  · have hlast := Phrase.text_append_getLast ts hne
    obtain ⟨left, hstart⟩ := h.mem (List.getLast_mem hne)
    obtain ⟨c, hc, hblank⟩ := hstart.trimmed.last
    obtain ⟨front, hfront⟩ := hlast
    refine ⟨c, ?_, hblank⟩
    rw [hfront, List.getLast?_append, hc]
    rfl

end Lexer

end FlowCanvas
