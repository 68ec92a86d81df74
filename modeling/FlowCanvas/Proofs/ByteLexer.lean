import FlowCanvas.Proofs.ByteLoops

/-!
# Tokens by bytes

The lexer as a loop over the bytes of a text, with checked accesses. No text leads to a fault: the
loop gives the tokens and the errors of `tokenize`.
-/

namespace FlowCanvas.Indexed

/-- Finds the kind and the end of the token that starts at `pos` with the byte `b`. -/
def scanToken (text : List Char) (pos : Nat) (b : UInt8) : Checked (TokenKind × Nat) :=
  let bs := bytes text
  let c := letter b
  if c == '"' || c == '\x60' then do
    match ← scanString c bs (bs.length + 1) (pos + 1) with
    | some stop => return (.string, stop)
    | none => .error (.refused (.unterminatedString (← position text pos)))
  else if c.isDigit then return (.number, ← skipWhile inNumber bs (bs.length + 1) pos)
  else if Lexer.isWordStart c then
    return (.identifier, ← skipWhile inWord bs (bs.length + 1) (pos + 1))
  else do
    let rest ← slice text pos bs.length
    match Lexer.marks.find? fun m => m.toList.isPrefixOf rest with
    | some m => return (.punctuation, pos + byteLength m.toList)
    | none =>
      .error (.refused (.unexpectedCharacter (← position text pos) (rest.head?.getD '\x00')))

/-- Reads the token that starts at `pos` with the byte `b`. The layout in front of it starts at
`last`. -/
def readToken (text : List Char) (last pos : Nat) (b : UInt8) : Checked Token := do
  let (kind, stop) ← scanToken text pos b
  let spelled ← slice text pos stop
  let gap ← slice text last pos
  let first ← position text pos
  let behind ← position text stop
  return ⟨kind, .ofList spelled, .ofList gap, ⟨⟨first, pos⟩, ⟨behind, stop⟩⟩⟩

/-- Whether a comment starts. -/
def opensComment (c : Char) (next : Option Char) : Bool :=
  c == '#' || (c == '/' && next == some '/')

lemma bytewise_opensComment : Bytewise opensComment false where
  wide c _ h := by rw [opensComment, h.beq_false (by decide), h.beq_false (by decide)]; rfl
  next c d e hd he := by
    simp only [opensComment, Option.some_beq_some, hd.beq_false (show '/'.toNat < 128 by decide),
      he.beq_false (show '/'.toNat < 128 by decide)]

lemma bytewise_isLayoutBlank : Bytewise (fun c _ => Text.isLayoutBlank c) false where
  wide _ _ h := h.isLayoutBlank
  next _ _ _ _ _ := rfl

/-- The tokens from byte `pos` on, with layout from `last` on in front of them. -/
def tokensFrom (text : List Char) : Nat → Nat → Nat → Checked (List Token)
  | 0, _, _ => .error (.fault .stuck)
  | n + 1, last, pos =>
    let bs := bytes text
    if pos < bs.length then do
      let b ← item bs pos
      if Text.isLayoutBlank (letter b) then tokensFrom text n last (pos + 1)
      else if opensComment (letter b) (bs[pos + 1]?.map letter) then
        let stop ← skipWhile inComment bs (bs.length + 1) pos
        tokensFrom text n last stop
      else
        let token ← readToken text last pos b
        let tokens ← tokensFrom text n token.span.stop.byte token.span.stop.byte
        return token :: tokens
    else .ok []

/-- The tokens of a text. Each round of the loop takes a byte. -/
def tokenize (source : String) : Checked (List Token) :=
  tokensFrom source.toList ((bytes source.toList).length + 1) 0 0

/-- What the running lexer takes off, as the kind and the end of the token. -/
def tokenEnd (front : List Char) :
    Except Lexer.Failure (TokenKind × List Char × List Char) → Checked (TokenKind × Nat)
  | .ok (kind, spelled, _) => .ok (kind, byteLength front + byteLength spelled)
  | .error failure => .error (.refused (failure.toError (Place.origin.advance front).position))

lemma splitMark?_eq (cs : List Char) :
    Lexer.splitMark? cs = (Lexer.marks.find? fun m => m.toList.isPrefixOf cs).map
      fun m => (m.toList, cs.drop m.length) := rfl

/-- A mark starts at a character that starts no other token. -/
lemma scanMark_eq (front : List Char) (c : Char) (cs : List Char) :
    (do
      let rest ← slice (front ++ c :: cs) (byteLength front) (bytes (front ++ c :: cs)).length
      match Lexer.marks.find? fun m => m.toList.isPrefixOf rest with
      | some m => return (TokenKind.punctuation, byteLength front + byteLength m.toList)
      | none =>
        let place ← position (front ++ c :: cs) (byteLength front)
        .error (.refused (.unexpectedCharacter place (rest.head?.getD '\x00')))) =
      tokenEnd front (match Lexer.splitMark? (c :: cs) with
        | some (mark, rest) => .ok (.punctuation, mark, rest)
        | none => .error (.unexpectedCharacter c)) := by
  have hslice := slice_append front (c :: cs) []
    (show (bytes (front ++ c :: cs)).length = _ by rw [length_bytes, byteLength_append])
  rw [List.append_nil] at hslice
  rw [hslice, position_eq, splitMark?_eq]
  change (match Lexer.marks.find? fun m => m.toList.isPrefixOf (c :: cs) with
    | some m => _
    | none => _) = _
  cases Lexer.marks.find? fun m => m.toList.isPrefixOf (c :: cs) <;> rfl

lemma scanToken_eq (front : List Char) (c : Char) (cs : List Char) {b : UInt8} {mid : List UInt8}
    (hb : String.utf8EncodeChar c = b :: mid) :
    scanToken (front ++ c :: cs) (byteLength front) b =
      tokenEnd front (Lexer.splitToken c cs) := by
  rcases utf8EncodeChar_cases c with ⟨b', hb', hletter⟩ | ⟨hwide, b', mid', hb', hall⟩
  · obtain ⟨rfl, rfl⟩ := List.cons.inj (hb.symm.trans hb')
    have hbytes : bytes (front ++ c :: cs) = bytes front ++ [b] ++ bytes cs := by
      rw [bytes_append, bytes_cons, hb, List.append_assoc]
    have hlength : (bytes front ++ [b]).length = byteLength front + 1 := by
      rw [List.length_append, length_bytes]
      rfl
    have hsize : c.utf8Size = 1 := by
      rw [← String.length_utf8EncodeChar, hb]
      rfl
    have hbound : (bytes cs).length < (bytes (front ++ c :: cs)).length + 1 := by
      rw [hbytes, List.length_append]
      omega
    rw [scanToken, Lexer.splitToken]
    simp only [hletter]
    cases hquote : c == '"' || c == '\x60' with
    | true =>
      have hc : c.toNat < 128 := by
        rcases Bool.or_eq_true _ _ ▸ hquote with h | h <;> rw [beq_iff_eq.mp h] <;> decide
      have hstring := scanString_eq hc (c == '"') rfl (bytes front ++ [b]) cs _ hbound
      rw [← hbytes, hlength] at hstring
      simp only [if_true, hstring, position_eq]
      cases Lexer.splitString c (c == '"') cs with
      | none => rfl
      | some r => simp [tokenEnd, hsize, Nat.add_assoc]; rfl
    | false =>
      simp only [Bool.false_eq_true, if_false]
      cases hdigit : c.isDigit with
      | true =>
        have hskip := skipWhile_eq bytewise_inNumber (bytes front) (c :: cs)
          ((bytes (front ++ c :: cs)).length + 1) (by rw [bytes_append, List.length_append]; omega)
        have htaken : taken inNumber (c :: cs) = c :: (Lexer.splitNumber cs).1 := by
          rw [taken, taken_inNumber, inNumber, Lexer.isWordChar_of_isDigit hdigit, Bool.true_or,
            if_pos rfl]
        rw [← bytes_append, length_bytes front, htaken] at hskip
        simp only [if_true, hskip]
        rfl
      | false =>
        simp only [Bool.false_eq_true, if_false]
        cases hword : Lexer.isWordStart c with
        | true =>
          have hskip := skipWhile_eq bytewise_inWord (bytes front ++ [b]) cs _ hbound
          rw [← hbytes, hlength] at hskip
          rw [taken_inWord] at hskip
          simp only [if_true, hskip, tokenEnd, byteLength_cons, hsize, Nat.add_assoc]
          rfl
        | false =>
          simp only [Bool.false_eq_true, if_false]
          exact scanMark_eq front c cs
  · obtain ⟨rfl, rfl⟩ := List.cons.inj (hb.symm.trans hb')
    have hletter := hall b List.mem_cons_self
    have hmark := scanMark_eq front c cs
    rw [scanToken, Lexer.splitToken]
    simp only [hletter.beq_false (show '"'.toNat < 128 by decide),
      hletter.beq_false (show '\x60'.toNat < 128 by decide), hletter.isDigit, hletter.isWordStart,
      hwide.beq_false (show '"'.toNat < 128 by decide),
      hwide.beq_false (show '\x60'.toNat < 128 by decide), hwide.isDigit, hwide.isWordStart,
      Bool.or_self, Bool.false_eq_true, if_false]
    exact hmark

/-- The token that the running lexer takes off behind `front` and `gap`. -/
def tokenBehind (front gap : List Char) :
    Except Lexer.Failure (TokenKind × List Char × List Char) → Checked Token
  | .ok (kind, spelled, _) =>
    .ok ⟨kind, .ofList spelled, .ofList gap,
      ⟨Place.origin.advance (front ++ gap), Place.origin.advance (front ++ gap ++ spelled)⟩⟩
  | .error failure =>
    .error (.refused (failure.toError (Place.origin.advance (front ++ gap)).position))

lemma readToken_eq (front gap : List Char) (c : Char) (cs : List Char) {b : UInt8}
    {mid : List UInt8} (hb : String.utf8EncodeChar c = b :: mid) :
    readToken (front ++ (gap ++ c :: cs)) (byteLength front) (byteLength (front ++ gap)) b =
      tokenBehind front gap (Lexer.splitToken c cs) := by
  have htext : front ++ (gap ++ c :: cs) = front ++ gap ++ c :: cs := (List.append_assoc ..).symm
  have htoken := scanToken_eq (front ++ gap) c cs hb
  rw [← htext] at htoken
  rw [readToken, htoken]
  cases hsplit : Lexer.splitToken c cs with
  | error failure => rfl
  | ok r =>
    obtain ⟨kind, spelled, left⟩ := r
    obtain ⟨hchars, -⟩ := Lexer.splitToken_eq_ok_iff.mp hsplit
    have hstop : byteLength (front ++ gap) + byteLength spelled =
        byteLength (front ++ gap ++ spelled) := (byteLength_append _ _).symm
    have hspelled : slice (front ++ (gap ++ c :: cs)) (byteLength (front ++ gap))
        (byteLength (front ++ gap ++ spelled)) = .ok spelled := by
      rw [htext, hchars]
      exact slice_append _ _ _ hstop.symm
    have hgap : slice (front ++ (gap ++ c :: cs)) (byteLength front)
        (byteLength (front ++ gap)) = .ok gap :=
      slice_append _ _ _ (byteLength_append front gap)
    have hfirst : position (front ++ (gap ++ c :: cs)) (byteLength (front ++ gap)) =
        .ok (Place.origin.advance (front ++ gap)).position := by
      rw [htext]
      exact position_eq _ _
    have hbehind : position (front ++ (gap ++ c :: cs)) (byteLength (front ++ gap ++ spelled)) =
        .ok (Place.origin.advance (front ++ gap ++ spelled)).position := by
      rw [htext, hchars, ← List.append_assoc]
      exact position_eq _ _
    simp only [tokenEnd, hstop, bind, Except.bind, hspelled, hgap, hfirst, hbehind, tokenBehind]
    rw [← Place.byte_origin_advance, ← Place.byte_origin_advance]
    rfl

/-- Layout that the running lexer passes over in front of a rest. -/
def Passed (gap rest : List Char) : Prop :=
  Lexer.splitLayout false (gap ++ rest) =
    (gap ++ (Lexer.splitLayout false rest).1, (Lexer.splitLayout false rest).2)

lemma passed_nil (rest : List Char) : Passed [] rest := rfl

lemma Passed.append {gap more rest : List Char} (h : Passed gap (more ++ rest))
    (hmore : Passed more rest) : Passed (gap ++ more) rest := by
  unfold Passed at *
  rw [List.append_assoc, h, hmore, List.append_assoc]

lemma passed_blank {c : Char} (hc : Text.isLayoutBlank c) (cs : List Char) : Passed [c] cs := by
  simp [Passed, Lexer.splitLayout, hc]

lemma passed_comment {body rest : List Char} (hbody : Lexer.IsComment body)
    (hrest : Lexer.EndsLine rest) : Passed body rest := by
  rw [Passed, Lexer.splitLayout_of_isComment hbody, Lexer.splitLayout_endsLine hrest]

/-- A comment goes on to the end of its line. -/
lemma comment_of_opensComment {c : Char} {cs : List Char} (h : opensComment c cs.head?) :
    Lexer.IsComment ((c :: cs).takeWhile (· != '\n')) ∧
      Lexer.EndsLine ((c :: cs).dropWhile (· != '\n')) := by
  refine ⟨⟨?_, fun hmem => ?_⟩, fun d hd => ?_⟩
  · rcases Bool.or_eq_true _ _ ▸ h with hc | hc
    · obtain rfl := beq_iff_eq.mp hc
      exact .inl (by simp)
    · obtain ⟨rfl, hhead⟩ : c = '/' ∧ cs.head? = some '/' := by simpa using hc
      obtain ⟨tail, rfl⟩ := List.head?_eq_some_iff.mp hhead
      exact .inr (by simp)
  · simpa using List.mem_takeWhile_imp hmem
  · have hnot := List.head?_dropWhile_not (· != '\n') (c :: cs)
    rw [Option.mem_def.mp hd] at hnot
    simpa using hnot

lemma splitLayout_solid {c : Char} {cs : List Char} (hblank : Text.isLayoutBlank c = false)
    (hcomment : opensComment c cs.head? = false) :
    Lexer.splitLayout false (c :: cs) = ([], c :: cs) := by
  rw [opensComment] at hcomment
  simp [Lexer.splitLayout, hblank, hcomment]

/-- A round of the loop passes over a blank, passes over a comment or reads a token. -/
lemma tokensFrom_cons (front : List Char) (c : Char) (cs : List Char) (n last : Nat) {b : UInt8}
    {mid : List UInt8} (hb : String.utf8EncodeChar c = b :: mid) :
    tokensFrom (front ++ c :: cs) (n + 1) last (byteLength front) =
      if Text.isLayoutBlank c then
        tokensFrom (front ++ c :: cs) n last (byteLength (front ++ [c]))
      else if opensComment c cs.head? then
        tokensFrom (front ++ c :: cs) n last
          (byteLength (front ++ (c :: cs).takeWhile (· != '\n')))
      else do
        let token ← readToken (front ++ c :: cs) last (byteLength front) b
        let tokens ← tokensFrom (front ++ c :: cs) n token.span.stop.byte token.span.stop.byte
        return token :: tokens := by
  have hbytes : bytes (front ++ c :: cs) = bytes front ++ b :: (mid ++ bytes cs) := by
    rw [bytes_append, bytes_cons, hb, List.cons_append]
  have hpos : byteLength front = (bytes front).length := (length_bytes _).symm
  have hlt : byteLength front < (bytes (front ++ c :: cs)).length := by
    rw [hbytes, hpos]
    simp
  have hitem : item (bytes (front ++ c :: cs)) (byteLength front) = .ok b := by
    rw [hbytes, hpos]
    exact item_append _ _ _
  have hnext : (bytes (front ++ c :: cs))[byteLength front + 1]? = (mid ++ bytes cs).head? := by
    rw [hbytes, hpos, List.getElem?_append_right (by omega), Nat.add_sub_cancel_left,
      List.getElem?_cons_succ, List.head?_eq_getElem?]
  have hblank : Text.isLayoutBlank (letter b) = Text.isLayoutBlank c :=
    bytewise_isLayoutBlank.first hb cs
  have hcomment := bytewise_opensComment.first hb cs
  rw [← hnext] at hcomment
  have hskip := skipWhile_eq bytewise_inComment (bytes front) (c :: cs)
    ((bytes (front ++ c :: cs)).length + 1) (by rw [bytes_append, List.length_append]; omega)
  rw [← bytes_append, taken_inComment, ← hpos, ← byteLength_append] at hskip
  rw [tokensFrom, if_pos hlt, hitem]
  change (if Text.isLayoutBlank (letter b) then _ else if opensComment (letter b) _ then _
    else _) = _
  rw [hblank, hcomment, hskip]
  cases hc : Text.isLayoutBlank c with
  | false => rfl
  | true =>
    have hsize : byteLength front + 1 = byteLength (front ++ [c]) := by
      rcases utf8EncodeChar_cases c with ⟨b', hb', -⟩ | ⟨hwide, -⟩
      · rw [byteLength_append, byteLength_cons, ← String.length_utf8EncodeChar, hb']
        rfl
      · simp [hwide.isLayoutBlank] at hc
    rw [hsize]
    rfl

/-- Each round leaves fewer bytes than there were, as it takes a character off. -/
lemma length_bytes_lt {cs taken left : List Char} (h : cs = taken ++ left) (hne : taken ≠ []) :
    (bytes left).length < (bytes cs).length := by
  have hpos := Lexer.byteLength_pos hne
  rw [h, length_bytes, length_bytes, byteLength_append]
  omega

/-- The loop over bytes gives the tokens that the running lexer gives. What is left to read starts
behind `gap`, which has been passed over. -/
lemma tokensFrom_eq (n : Nat) (front gap rest : List Char) (m : Nat) (hgap : Passed gap rest)
    (hn : (bytes rest).length < n) (hm : (gap ++ rest).length ≤ m) :
    tokensFrom (front ++ (gap ++ rest)) n (byteLength front) (byteLength (front ++ gap)) =
      lift ((Lexer.scan m (Place.origin.advance front) (gap ++ rest)).map Prod.fst) := by
  induction n generalizing front gap rest m with
  | zero => omega
  | succ n ih =>
    have htext : front ++ (gap ++ rest) = (front ++ gap) ++ rest := (List.append_assoc ..).symm
    cases rest with
    | nil =>
      rw [tokensFrom, if_neg (by rw [length_bytes, htext, List.append_nil]; omega)]
      cases m with
      | zero => rfl
      | succ m =>
        rw [Lexer.scan, hgap]
        rfl
    | cons c cs =>
      obtain ⟨b, mid, hb⟩ := exists_utf8EncodeChar c
      -- what one round takes off leaves few enough bytes for the others
      have hleft : ∀ {taken left : List Char}, c :: cs = taken ++ left → taken ≠ [] →
          (bytes left).length < n := fun heq hne => by
        have hless := length_bytes_lt heq hne
        omega
      rw [htext, tokensFrom_cons _ _ _ _ _ hb, ← htext]
      cases hc : Text.isLayoutBlank c with
      | true =>
        have hrest := ih front (gap ++ [c]) cs m (hgap.append (passed_blank hc cs))
          (hleft rfl (List.cons_ne_nil c [])) (by simpa using hm)
        rw [← List.append_assoc front gap [c]] at hrest
        simpa using hrest
      | false =>
        rw [if_neg (by simp)]
        cases hopens : opensComment c cs.head? with
        | true =>
          obtain ⟨hbody, hline⟩ := comment_of_opensComment hopens
          have hsplit : (c :: cs).takeWhile (· != '\n') ++ (c :: cs).dropWhile (· != '\n') =
              c :: cs := List.takeWhile_append_dropWhile
          rw [if_pos rfl]
          generalize (c :: cs).takeWhile (· != '\n') = body at hbody hsplit ⊢
          generalize (c :: cs).dropWhile (· != '\n') = left at hline hsplit
          have hne : body ≠ [] := by
            rintro rfl
            simp [Lexer.IsComment] at hbody
          have hrest := ih front (gap ++ body) left m
            (Passed.append (hsplit ▸ hgap) (passed_comment hbody hline)) (hleft hsplit.symm hne)
            (by simpa [hsplit] using hm)
          rwa [List.append_assoc gap, hsplit, ← List.append_assoc front gap body] at hrest
        | false =>
          obtain ⟨m, rfl⟩ : ∃ m', m = m' + 1 := ⟨m - 1, by simp at hm; omega⟩
          have hlayout : Lexer.splitLayout false (gap ++ c :: cs) = (gap, c :: cs) := by
            rw [hgap, splitLayout_solid hc hopens, List.append_nil]
          rw [if_neg (by simp), readToken_eq front gap c cs hb, Lexer.scan, hlayout]
          cases hsplit : Lexer.splitToken c cs with
          | error failure =>
            simp only [hsplit, tokenBehind, Place.advance_append]
            rfl
          | ok r =>
            obtain ⟨kind, spelled, left⟩ := r
            obtain ⟨hchars, htoken⟩ := Lexer.splitToken_eq_ok_iff.mp hsplit
            have hne : spelled ≠ [] := by
              obtain ⟨d, ds, rfl⟩ := htoken.exists_cons
              exact List.cons_ne_nil d ds
            have hfewer : left.length ≤ m := by
              have hlength := congrArg List.length hchars
              have hpos := List.length_pos_iff.mpr hne
              simp only [List.length_cons, List.length_append] at hlength hm
              omega
            have hrest := ih (front ++ gap ++ spelled) [] left m (passed_nil left)
              (hleft hchars hne) hfewer
            rw [List.nil_append, List.append_nil, List.append_assoc, ← hchars, ← htext,
              ← Place.byte_origin_advance] at hrest
            simp only [hsplit, tokenBehind, bind, Except.bind, hrest, ← Place.advance_append]
            cases Lexer.scan m (Place.origin.advance (front ++ gap ++ spelled)) left <;> rfl

/-- The lexer by bytes never faults: it gives the tokens or the error that `tokenize` gives. -/
theorem tokenize_eq_lift (source : String) : tokenize source = lift (Lexer.tokenize source) :=
  tokensFrom_eq _ [] [] source.toList _ (passed_nil _) (Nat.lt_succ_self _) le_rfl

end FlowCanvas.Indexed
