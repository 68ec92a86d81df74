import FlowCanvas.Proofs.Places
import FlowCanvas.Proofs.TokenGrammar

/-!
# Nothing is lost between tokens

`Lossless text ts` says that the tokens and the layout between them are the whole text, each in its
place. `Boundary front rest` says that layout and tokens lead up to a rest that starts with no more
layout. A text that is read is divided without loss, and one that is not read has a boundary at
which no token starts.
-/

namespace FlowCanvas

/-- A reading that passes a test has succeeded. -/
lemma exists_ok_of_any {α : Type} {read : Except SyntaxError α} {test : α → Bool}
    (h : read.toOption.any test) : ∃ a, read = .ok a ∧ test a := by
  cases read with
  | error e => simp [Except.toOption] at h
  | ok a => exact ⟨a, rfl, by simpa [Except.toOption] using h⟩

lemma Place.byte_origin_advance (cs : List Char) : (origin.advance cs).byte = byteLength cs := by
  rw [byte_advance]
  exact Nat.zero_add _

namespace Text

lemma positionFrom_advance (lineByte : Nat) (here : Place) (xs ys : List Char) :
    positionFrom lineByte here (here.byte + byteLength xs) (xs ++ ys) =
      (here.advance xs).position := by
  induction xs generalizing lineByte here with
  | nil =>
    cases ys with
    | nil => rfl
    | cons c ys => simp [positionFrom]
  | cons c xs ih =>
    have hc := c.utf8Size_pos
    have hnext : here.byte + (c.utf8Size + byteLength xs) = (here.step c).byte + byteLength xs := by
      rw [Place.step, Nat.add_assoc]
    rw [List.cons_append, positionFrom, byteLength_cons, if_neg (by omega), if_neg (by omega),
      hnext, ih]
    rfl

/-- The position of the byte after `xs` is where a walk over `xs` ends. -/
theorem positionAt_byteLength (xs ys : List Char) :
    positionAt (xs ++ ys) (byteLength xs) = (Place.origin.advance xs).position := by
  have h := positionFrom_advance 0 .origin xs ys
  rwa [show Place.origin.byte = 0 from rfl, Nat.zero_add] at h

/-- `cs` are the characters of `text` from byte `lo` to byte `hi`, and `rest` is what follows. -/
def Stretch (text : List Char) (lo hi : Nat) (cs rest : List Char) : Prop :=
  ∃ front, text = front ++ (cs ++ rest) ∧ lo = byteLength front ∧ hi = byteLength (front ++ cs)

end Text

namespace Lexer

/-! ### Texts that are read -/

/-- The bytes between the tokens, from `lo` up to the first and from the last to `hi` included. -/
def gapRanges (lo hi : Nat) : List Token → List (Nat × Nat)
  | [] => [(lo, hi)]
  | t :: ts => (lo, t.span.start.byte) :: gapRanges t.span.stop.byte hi ts

/-- The tokens and the layout between them are all of a text. -/
structure Lossless (text : List Char) (ts : List Token) : Prop where
  filled : ∀ t ∈ ts, t.span.start.byte < t.span.stop.byte
  ordered : ts.Pairwise fun t u => t.span.stop.byte ≤ u.span.start.byte
  placed : ∀ t ∈ ts, t.span.start.position = Text.positionAt text t.span.start.byte ∧
    t.span.stop.position = Text.positionAt text t.span.stop.byte
  tokens : ∀ t ∈ ts, ∃ rest,
    Text.Stretch text t.span.start.byte t.span.stop.byte t.text.toList rest ∧
      TokenAt t.kind t.text.toList rest ∧
      (t.kind = .punctuation → LongestMark t.text.toList (t.text.toList ++ rest))
  gaps : ∀ range ∈ gapRanges 0 (byteLength text) ts, ∃ gap rest,
    Text.Stretch text range.1 range.2 gap rest ∧ Layout gap rest

lemma Gap.layout {gap rest : List Char} (h : Gap false gap) (hrest : Solid rest) :
    Layout gap rest :=
  (splitLayout_eq_iff.mp (splitLayout_gap h hrest)).2.1

lemma Final.layout {cs : List Char} (h : Final cs) : Layout cs [] := (splitLayout_eq_iff.mp h).2.1

lemma Starts.tokenAt {kind : TokenKind} {text rest : List Char} (h : Starts kind text rest) :
    TokenAt kind text rest := by
  obtain ⟨-, c, cs, rfl, hsplit⟩ := h
  exact (splitToken_eq_ok_iff.mp hsplit).2

lemma Starts.ne_nil {kind : TokenKind} {text rest : List Char} (h : Starts kind text rest) :
    text ≠ [] := by
  obtain ⟨-, c, cs, rfl, -⟩ := h
  exact List.cons_ne_nil c cs

lemma TokenAt.longestMark {m rest : List Char} (h : TokenAt .punctuation m rest) :
    LongestMark m (m ++ rest) := by
  cases h with
  | mark hm => exact hm

lemma byteLength_pos {cs : List Char} (h : cs ≠ []) : 0 < byteLength cs := by
  obtain ⟨c, cs, rfl⟩ := List.exists_cons_of_ne_nil h
  have hc := c.utf8Size_pos
  rw [byteLength_cons]
  omega

/-- Where a scanned token stands in the text. -/
lemma Scanned.token_place {cs rest : List Char} {ts : Phrase} {t : Token}
    (h : Scanned .origin cs ts rest) (ht : t ∈ ts) :
    ∃ front left, cs ++ rest = front ++ (t.text.toList ++ left) ∧
      t.span.start = Place.origin.advance front ∧
      t.span.stop = Place.origin.advance (front ++ t.text.toList) ∧
      Starts t.kind t.text.toList left := by
  obtain ⟨us, vs, rfl⟩ := List.append_of_mem ht
  obtain ⟨xs, ys, rfl, -, hys⟩ := h.split
  obtain ⟨-, hstart, hstop, hstarts⟩ := hys.head
  refine ⟨xs ++ t.gap.toList, (Phrase.tail vs).toList ++ rest, ?_, ?_, ?_, hstarts⟩
  · rw [hys.chars, Phrase.tail_cons]
    simp [List.append_assoc]
  · rw [hstart, Place.advance_append]
  · rw [hstop, hstart, Place.advance_append, Place.advance_append]

lemma Scanned.le_start {here : Place} {cs rest : List Char} {ts : Phrase}
    (h : Scanned here cs ts rest) : ∀ t ∈ ts, here.byte ≤ t.span.start.byte := by
  induction h with
  | nil => simp
  | cons _ _ _ ih =>
    intro t ht
    rcases List.mem_cons.mp ht with rfl | ht
    · rw [Place.byte_advance]
      omega
    · have hle := ih t ht
      rw [Place.byte_advance, Place.byte_advance] at hle
      omega

lemma Scanned.ordered {here : Place} {cs rest : List Char} {ts : Phrase}
    (h : Scanned here cs ts rest) :
    ts.Pairwise fun t u => t.span.stop.byte ≤ u.span.start.byte := by
  induction h with
  | nil => exact List.Pairwise.nil
  | cons _ _ hrest ih => exact List.Pairwise.cons hrest.le_start ih

/-- Between scanned tokens stands layout. -/
lemma Scanned.gaps {here : Place} {cs rest : List Char} {ts : Phrase}
    (h : Scanned here cs ts rest) (hrest : Final rest) (front : List Char)
    (hhere : here = Place.origin.advance front) :
    ∀ range ∈ gapRanges here.byte (byteLength (front ++ (cs ++ rest))) ts, ∃ gap left,
      Text.Stretch (front ++ (cs ++ rest)) range.1 range.2 gap left ∧ Layout gap left := by
  induction h generalizing front with
  | nil here rest =>
    intro range hrange
    obtain rfl := List.mem_singleton.mp hrange
    refine ⟨rest, [], ⟨front, by simp, ?_, by simp⟩, hrest.layout⟩
    rw [hhere, Place.byte_origin_advance]
  | @cons here gap text cs rest kind ts hgap hstart hscanned ih =>
    have hnext : (here.advance gap).advance text =
        Place.origin.advance (front ++ (gap ++ text)) := by
      rw [hhere]
      simp
    have happend : front ++ (gap ++ (text ++ cs) ++ rest) =
        front ++ (gap ++ text) ++ (cs ++ rest) := by
      simp [List.append_assoc]
    intro range hrange
    rcases List.mem_cons.mp hrange with rfl | hrange
    · refine ⟨gap, text ++ (cs ++ rest), ⟨front, by simp [List.append_assoc], ?_, ?_⟩,
        hgap.layout hstart.1⟩
      · rw [hhere, Place.byte_origin_advance]
      · simp only [hhere, ← Place.advance_append, Place.byte_origin_advance]
    · rw [happend] at hrange ⊢
      exact ih hrest (front ++ (gap ++ text)) hnext range hrange

lemma lossless_of_tokenize {source : String} {ts : List Token} (h : tokenize source = .ok ts) :
    Lossless source.toList ts := by
  obtain ⟨cs, last, hsource, hscanned, hlast⟩ := scanned_of_tokenize h
  rw [hsource]
  refine ⟨fun t ht => ?_, hscanned.ordered, fun t ht => ?_, fun t ht => ?_,
    hscanned.gaps hlast [] rfl⟩
  all_goals obtain ⟨front, left, htext, hstart, hstop, hstarts⟩ := hscanned.token_place ht
  · have hpos := byteLength_pos hstarts.ne_nil
    rw [hstart, hstop, Place.byte_origin_advance, Place.byte_origin_advance, byteLength_append]
    omega
  · constructor
    · rw [hstart, Place.byte_origin_advance, htext, Text.positionAt_byteLength]
    · rw [hstop, Place.byte_origin_advance, htext, ← List.append_assoc,
        Text.positionAt_byteLength]
  · refine ⟨left, ⟨front, htext, ?_, ?_⟩, hstarts.tokenAt, fun hkind => ?_⟩
    · rw [hstart, Place.byte_origin_advance]
    · rw [hstop, Place.byte_origin_advance]
    · have htoken := hstarts.tokenAt
      rw [hkind] at htoken
      exact htoken.longestMark

/-! ### Texts that are not read -/

/-- Layout and tokens up to a rest that starts with no more layout. -/
inductive Boundary : List Char → List Char → Prop
  | layout {gap rest : List Char} (hgap : Layout gap rest) (hrest : Bare rest) : Boundary gap rest
  | token {gap text front rest : List Char} {kind : TokenKind}
    (hgap : Layout gap (text ++ (front ++ rest))) (hbare : Bare (text ++ (front ++ rest)))
    (htoken : TokenAt kind text (front ++ rest)) (h : Boundary front rest) :
    Boundary (gap ++ (text ++ front)) rest

lemma TokenAt.exists_cons {kind : TokenKind} {text rest : List Char} (h : TokenAt kind text rest) :
    ∃ c cs, text = c :: cs := by
  cases h with
  | string | number | identifier => exact ⟨_, _, rfl⟩
  | mark hm =>
    obtain ⟨m, hmem, rfl⟩ := List.mem_map.mp hm.mem
    obtain ⟨c, hc, -⟩ := marks_heads m hmem
    obtain ⟨cs, hcs⟩ := List.head?_eq_some_iff.mp hc
    exact ⟨c, cs, hcs⟩

lemma boundary_of_scan {n : Nat} {here : Place} {cs : List Char} {e : SyntaxError}
    (h : scan n here cs = .error e) :
    ∃ front c rest failure, cs = front ++ c :: rest ∧ Boundary front (c :: rest) ∧
      FailsAt c rest failure ∧ e = failure.toError (here.advance front).position := by
  induction n generalizing here cs with
  | zero => simp [scan] at h
  | succ n ih =>
    rw [scan] at h
    split at h
    · simp at h
    · rename_i gap c rest hlayout
      obtain ⟨rfl, hgap, hbare⟩ := splitLayout_eq_iff.mp hlayout
      split at h
      · rename_i failure hfailure
        obtain rfl := Except.error.inj h
        exact ⟨gap, c, rest, failure, rfl, .layout hgap hbare,
          splitToken_eq_error_iff.mp hfailure, rfl⟩
      · rename_i kind text left hsplit
        obtain ⟨heq, htoken⟩ := splitToken_eq_ok_iff.mp hsplit
        dsimp only at h
        split at h
        · rename_i e' hscan
          obtain rfl := Except.error.inj h
          obtain ⟨front, d, ds, failure, rfl, hboundary, hfails, rfl⟩ := ih hscan
          rw [heq] at hgap hbare ⊢
          exact ⟨gap ++ (text ++ front), d, ds, failure, by simp [List.append_assoc],
            .token hgap hbare htoken hboundary, hfails, by simp⟩
        · simp at h

lemma scan_of_boundary {front rest : List Char} (h : Boundary front rest) {c : Char}
    {cs : List Char} (hrest : rest = c :: cs) {failure : Failure} (hfails : FailsAt c cs failure)
    (n : Nat) (hn : (front ++ rest).length ≤ n) (here : Place) :
    scan n here (front ++ rest) = .error (failure.toError (here.advance front).position) := by
  induction h generalizing n here with
  | @layout gap rest hgap hbare =>
    subst hrest
    cases n with
    | zero => simp at hn
    | succ n =>
      have hlayout := splitLayout_eq_iff.mpr ⟨rfl, hgap, hbare⟩
      simp only [scan, hlayout, splitToken_eq_error_iff.mpr hfails]
  | @token gap text front rest kind hgap hbare htoken _ ih =>
    obtain ⟨d, ds, rfl⟩ := htoken.exists_cons
    cases n with
    | zero => simp at hn
    | succ n =>
      have hlayout := splitLayout_eq_iff.mpr ⟨rfl, hgap, hbare⟩
      have hsplit := splitToken_eq_ok_iff.mpr ⟨(List.cons_append).symm, htoken⟩
      have hscan := ih hrest n (by simp at hn ⊢; omega) ((here.advance gap).advance (d :: ds))
      simp only [List.cons_append] at hlayout
      simp only [List.append_assoc, List.cons_append, scan, hlayout, hsplit, hscan]
      simp

lemma tokenize_eq_error_iff {source : String} {e : SyntaxError} :
    tokenize source = .error e ↔ ∃ front c rest failure, source.toList = front ++ c :: rest ∧
      Boundary front (c :: rest) ∧ FailsAt c rest failure ∧
      e = failure.toError (Text.positionAt source.toList (byteLength front)) := by
  have hmap : tokenize source = .error e ↔
      scan source.toList.length .origin source.toList = .error e := by
    unfold tokenize scanAll
    cases scan source.toList.length .origin source.toList with
    | error e' => simp [Except.map]
    | ok result => simp [Except.map]
  rw [hmap]
  constructor
  · intro h
    obtain ⟨front, c, rest, failure, hsource, hboundary, hfails, he⟩ := boundary_of_scan h
    refine ⟨front, c, rest, failure, hsource, hboundary, hfails, ?_⟩
    rw [he, hsource, Text.positionAt_byteLength]
  · rintro ⟨front, c, rest, failure, hsource, hboundary, hfails, rfl⟩
    rw [hsource, Text.positionAt_byteLength]
    exact scan_of_boundary hboundary rfl hfails _ le_rfl .origin

/-- A text that is read is divided into tokens and layout without loss. A text is not read exactly
if layout and tokens lead up to a character at which no token starts, and the failure tells what is
wrong there and where it is. -/
theorem tokenize_divides (source : String) :
    (∀ ts, tokenize source = .ok ts → Lossless source.toList ts) ∧
      ∀ e, tokenize source = .error e ↔ ∃ front c rest failure,
        source.toList = front ++ c :: rest ∧ Boundary front (c :: rest) ∧
          FailsAt c rest failure ∧
          e = failure.toError (Text.positionAt source.toList (byteLength front)) :=
  ⟨fun _ => lossless_of_tokenize, fun _ => tokenize_eq_error_iff⟩

/-- A comment mark in a string is no comment, and a character that starts no token is found behind
a comment, at the start of the next line. -/
theorem tokenize_divides_comments :
    (∃ ts, tokenize "e = \"// é\"; // é" = .ok ts ∧ ts.length = 4 ∧
      Lossless "e = \"// é\"; // é".toList ts) ∧
      ∃ front c rest failure, "e // é\né".toList = front ++ c :: rest ∧
        Boundary front (c :: rest) ∧ FailsAt c rest failure ∧
        SyntaxError.unexpectedCharacter ⟨1, 0⟩ 'é' =
          failure.toError (Text.positionAt "e // é\né".toList (byteLength front)) := by
  have hread : (tokenize "e = \"// é\"; // é").toOption.any fun ts => ts.length = 4 := by
    decide +kernel
  obtain ⟨ts, hts, hlength⟩ := exists_ok_of_any hread
  exact ⟨⟨ts, hts, by simpa using hlength, (tokenize_divides _).1 ts hts⟩,
    ((tokenize_divides _).2 _).mp (by decide +kernel)⟩

end Lexer

end FlowCanvas
