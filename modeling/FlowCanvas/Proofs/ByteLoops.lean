import FlowCanvas.Proofs.Lossless

/-!
# Loops over the bytes of a text

A run by indices checks every access: an index out of range, a number below zero, a slice that cuts
through a character and a loop that outlasts its bound are faults. The loops here go byte by byte
and stop between characters, since the bytes of a character beyond ASCII pass for no ASCII
character.
-/

namespace FlowCanvas.Indexed

variable {α : Type}

/-! ### Checked accesses -/

/-- What goes wrong in a run by indices. `stuck` is a loop that outlasts its bound. -/
inductive Fault where
  | outOfRange
  | underflow
  | splitCharacter
  | stuck
deriving DecidableEq, Repr

/-- Why a run has no result: its text is refused, or an access goes wrong. -/
inductive Stop where
  | refused (error : SyntaxError)
  | fault (fault : Fault)
deriving DecidableEq, Repr

/-- The outcome of a run whose accesses are checked. -/
abbrev Checked (α : Type) := Except Stop α

/-- A result of a run that goes right. -/
def lift : Except SyntaxError α → Checked α
  | .ok x => .ok x
  | .error e => .error (.refused e)

/-- The item at an index, which must be in range. -/
def item (xs : List α) (i : Nat) : Checked α :=
  match xs[i]? with
  | some x => .ok x
  | none => .error (.fault .outOfRange)

/-- A difference, which must not be below zero. -/
def minus (a b : Nat) : Checked Nat :=
  if b ≤ a then .ok (a - b) else .error (.fault .underflow)

lemma item_of_getElem? {xs : List α} {i : Nat} {x : α} (h : xs[i]? = some x) :
    item xs i = .ok x := by
  rw [item, h]

lemma item_append (xs ys : List α) (x : α) : item (xs ++ x :: ys) xs.length = .ok x :=
  item_of_getElem? (by simp)

lemma minus_of_le {a b : Nat} (h : b ≤ a) : minus a b = .ok (a - b) := if_pos h

/-- What follows the first `n` bytes, which must be whole characters. -/
def dropBytes : Nat → List Char → Checked (List Char)
  | 0, cs => .ok cs
  | _ + 1, [] => .error (.fault .outOfRange)
  | n + 1, c :: cs =>
    if c.utf8Size ≤ n + 1 then dropBytes (n + 1 - c.utf8Size) cs
    else .error (.fault .splitCharacter)

/-- The first `n` bytes, which must be whole characters. -/
def takeBytes : Nat → List Char → Checked (List Char)
  | 0, _ => .ok []
  | _ + 1, [] => .error (.fault .outOfRange)
  | n + 1, c :: cs =>
    if c.utf8Size ≤ n + 1 then (takeBytes (n + 1 - c.utf8Size) cs).map (c :: ·)
    else .error (.fault .splitCharacter)

/-- The characters from byte `lo` to byte `hi`. -/
def slice (text : List Char) (lo hi : Nat) : Checked (List Char) :=
  if hi < lo then .error (.fault .outOfRange)
  else dropBytes lo text >>= takeBytes (hi - lo)

lemma dropBytes_append (xs ys : List Char) : dropBytes (byteLength xs) (xs ++ ys) = .ok ys := by
  induction xs with
  | nil => cases ys <;> rfl
  | cons c xs ih =>
    have hc := c.utf8Size_pos
    obtain ⟨n, hn⟩ : ∃ n, byteLength (c :: xs) = n + 1 :=
      ⟨c.utf8Size - 1 + byteLength xs, by rw [byteLength_cons]; omega⟩
    rw [byteLength_cons] at hn
    rw [List.cons_append, byteLength_cons, hn, dropBytes, if_pos (by omega), ← ih]
    congr 1
    omega

lemma takeBytes_append (xs ys : List Char) : takeBytes (byteLength xs) (xs ++ ys) = .ok xs := by
  induction xs with
  | nil => cases ys <;> rfl
  | cons c xs ih =>
    have hc := c.utf8Size_pos
    obtain ⟨n, hn⟩ : ∃ n, byteLength (c :: xs) = n + 1 :=
      ⟨c.utf8Size - 1 + byteLength xs, by rw [byteLength_cons]; omega⟩
    rw [byteLength_cons] at hn
    rw [List.cons_append, byteLength_cons, hn, takeBytes, if_pos (by omega),
      show n + 1 - c.utf8Size = byteLength xs by omega, ih]
    rfl

/-- A slice between characters is what stands there. -/
lemma slice_append (xs ys zs : List Char) {hi : Nat} (h : hi = byteLength xs + byteLength ys) :
    slice (xs ++ (ys ++ zs)) (byteLength xs) hi = .ok ys := by
  subst h
  rw [slice, if_neg (by omega), dropBytes_append]
  change takeBytes _ (ys ++ zs) = _
  rw [Nat.add_sub_cancel_left, takeBytes_append]

/-! ### Bytes -/

/-- The bytes of a text. -/
def bytes (cs : List Char) : List UInt8 := cs.flatMap String.utf8EncodeChar

/-- A byte as a character. Bytes of characters beyond ASCII give characters beyond ASCII. -/
def letter (b : UInt8) : Char := Char.ofUInt8 b

/-- Whether a character lies beyond ASCII. -/
def Wide (c : Char) : Prop := 128 ≤ c.toNat

lemma bytes_cons (c : Char) (cs : List Char) :
    bytes (c :: cs) = String.utf8EncodeChar c ++ bytes cs := rfl

lemma bytes_append (xs ys : List Char) : bytes (xs ++ ys) = bytes xs ++ bytes ys :=
  List.flatMap_append

lemma length_bytes (cs : List Char) : (bytes cs).length = byteLength cs := by
  induction cs with
  | nil => rfl
  | cons c cs ih => rw [bytes_cons, List.length_append, String.length_utf8EncodeChar, ih]; rfl

lemma letter_toNat (b : UInt8) : (letter b).toNat = b.toNat := rfl

lemma letter_ofNat {n : Nat} (h : n < 256) : (letter (UInt8.ofNat n)).toNat = n := by
  rw [letter_toNat, UInt8.toNat_ofNat', Nat.mod_eq_of_lt h]

/-- A character is one byte that stands for itself, or bytes that are all beyond ASCII. -/
lemma utf8EncodeChar_cases (c : Char) :
    (∃ b, String.utf8EncodeChar c = [b] ∧ letter b = c) ∨
      Wide c ∧ ∃ b mid, String.utf8EncodeChar c = b :: mid ∧ ∀ b' ∈ b :: mid, Wide (letter b') := by
  have hwide (n : Nat) (h : 128 ≤ n) (h' : n < 256) : Wide (letter (UInt8.ofNat n)) := by
    rw [Wide, letter_ofNat h']
    exact h
  by_cases hc : c.val.toNat ≤ 127
  · refine .inl ⟨UInt8.ofNat c.val.toNat, ?_, ?_⟩
    · simp only [String.utf8EncodeChar, hc, if_true]
    · exact Char.toNat_inj.mp (letter_ofNat (by omega))
  · refine .inr ⟨show 128 ≤ c.val.toNat by omega, ?_⟩
    simp only [String.utf8EncodeChar, hc, if_false]
    split_ifs
    · refine ⟨_, _, rfl, fun b' hb => ?_⟩
      rcases List.mem_cons.mp hb with rfl | hb
      · exact hwide _ (by omega) (by omega)
      · obtain rfl := List.mem_singleton.mp hb
        exact hwide _ (by omega) (by omega)
    · refine ⟨_, _, rfl, fun b' hb => ?_⟩
      simp only [List.mem_cons, List.not_mem_nil, or_false] at hb
      rcases hb with rfl | rfl | rfl <;> exact hwide _ (by omega) (by omega)
    · refine ⟨_, _, rfl, fun b' hb => ?_⟩
      simp only [List.mem_cons, List.not_mem_nil, or_false] at hb
      rcases hb with rfl | rfl | rfl | rfl <;> exact hwide _ (by omega) (by omega)

/-! ### Loops over bytes -/

/-- Passes over bytes as long as they pass a test, which may look at the byte after them. -/
def skipWhile (test : Char → Option Char → Bool) (bs : List UInt8) : Nat → Nat → Checked Nat
  | 0, _ => .error (.fault .stuck)
  | n + 1, pos =>
    if pos < bs.length then do
      let b ← item bs pos
      if test (letter b) (bs[pos + 1]?.map letter) then skipWhile test bs n (pos + 1) else .ok pos
    else .ok pos

/-- The characters that are passed over. -/
def taken (test : Char → Option Char → Bool) : List Char → List Char
  | [] => []
  | c :: cs => if test c cs.head? then c :: taken test cs else []

/-- A test that treats all characters beyond ASCII alike. -/
structure Bytewise (test : Char → Option Char → Bool) (keep : Bool) : Prop where
  wide : ∀ c next, Wide c → test c next = keep
  next : ∀ c d e, Wide d → Wide e → test c (some d) = test c (some e)

lemma skipWhile_step {test : Char → Option Char → Bool} (front rest : List UInt8) (b : UInt8)
    (n : Nat) :
    skipWhile test (front ++ b :: rest) (n + 1) front.length =
      if test (letter b) (rest.head?.map letter) then
        skipWhile test (front ++ b :: rest) n (front.length + 1)
      else .ok front.length := by
  have hnext : (front ++ b :: rest)[front.length + 1]? = rest.head? := by
    rw [List.getElem?_append_right (by omega), Nat.add_sub_cancel_left, List.getElem?_cons_succ,
      List.head?_eq_getElem?]
  rw [skipWhile, if_pos (by simp), item_append, hnext]
  rfl

lemma skipWhile_end (test : Char → Option Char → Bool) (bs : List UInt8) (n : Nat) :
    skipWhile test bs (n + 1) bs.length = .ok bs.length := by
  rw [skipWhile, if_neg (by omega)]

/-- Bytes beyond ASCII are all passed over when they are kept. -/
lemma skipWhile_wide {test : Char → Option Char → Bool} (h : Bytewise test true)
    (front mid rest : List UInt8) (hmid : ∀ b ∈ mid, Wide (letter b)) (n : Nat) :
    skipWhile test (front ++ (mid ++ rest)) (mid.length + n) front.length =
      skipWhile test (front ++ (mid ++ rest)) n (front.length + mid.length) := by
  induction mid generalizing front with
  | nil => simp
  | cons b mid ih =>
    obtain ⟨hb, hmid⟩ := List.forall_mem_cons.mp hmid
    rw [List.length_cons, Nat.add_right_comm, List.cons_append, skipWhile_step, h.wide _ _ hb,
      if_pos rfl]
    have hpass := ih (front ++ [b]) hmid
    simp only [List.append_assoc, List.singleton_append, List.length_append,
      List.length_singleton] at hpass
    rw [hpass]
    congr 1
    omega

lemma head?_bytes (cs : List Char) :
    (bytes cs).head?.map letter = cs.head? ∨
      ∃ b c, (bytes cs).head?.map letter = some b ∧ cs.head? = some c ∧ Wide b ∧ Wide c := by
  cases cs with
  | nil => exact .inl rfl
  | cons c cs =>
    rcases utf8EncodeChar_cases c with ⟨b, hb, rfl⟩ | ⟨hc, b, mid, hb, hwide⟩
    · exact .inl (by rw [bytes_cons, hb]; rfl)
    · exact .inr ⟨letter b, c, by rw [bytes_cons, hb]; rfl, rfl, hwide b List.mem_cons_self, hc⟩

lemma exists_utf8EncodeChar (c : Char) : ∃ b mid, String.utf8EncodeChar c = b :: mid := by
  rcases utf8EncodeChar_cases c with ⟨b, hb, -⟩ | ⟨-, b, mid, hb, -⟩
  · exact ⟨b, [], hb⟩
  · exact ⟨b, mid, hb⟩

lemma Bytewise.head? {test : Char → Option Char → Bool} {keep : Bool} (h : Bytewise test keep)
    (c : Char) (cs : List Char) : test c ((bytes cs).head?.map letter) = test c cs.head? := by
  rcases head?_bytes cs with hhead | ⟨d, e, hd, he, hwide, hwide'⟩
  · rw [hhead]
  · rw [hd, he, h.next c d e hwide hwide']

/-- A test of a character is a test of its first byte. -/
lemma Bytewise.first {test : Char → Option Char → Bool} {keep : Bool} (h : Bytewise test keep)
    {c : Char} {b : UInt8} {mid : List UInt8} (hb : String.utf8EncodeChar c = b :: mid)
    (cs : List Char) :
    test (letter b) ((mid ++ bytes cs).head?.map letter) = test c cs.head? := by
  rcases utf8EncodeChar_cases c with ⟨b', hb', rfl⟩ | ⟨hc, b', mid', hb', hwide⟩
  · obtain ⟨rfl, rfl⟩ := List.cons.inj (hb.symm.trans hb')
    exact h.head? (letter b) cs
  · obtain ⟨rfl, rfl⟩ := List.cons.inj (hb.symm.trans hb')
    rw [h.wide _ _ (hwide b List.mem_cons_self), h.wide _ _ hc]

/-- A loop over bytes stops behind the characters that pass its test. -/
lemma skipWhile_eq {test : Char → Option Char → Bool} {keep : Bool} (h : Bytewise test keep)
    (front : List UInt8) (cs : List Char) (n : Nat) (hn : (bytes cs).length < n) :
    skipWhile test (front ++ bytes cs) n front.length =
      .ok (front.length + byteLength (taken test cs)) := by
  induction cs generalizing front n with
  | nil =>
    obtain ⟨n, rfl⟩ : ∃ m, n = m + 1 := ⟨n - 1, by omega⟩
    have hend := skipWhile_end test front n
    simpa [bytes, taken] using hend
  | cons c cs ih =>
    rw [bytes_cons, List.length_append] at hn
    rcases utf8EncodeChar_cases c with ⟨b, hb, rfl⟩ | ⟨hc, b, mid, hb, hwide⟩
    · obtain ⟨n, rfl⟩ : ∃ m, n = m + 1 := ⟨n - 1, by omega⟩
      rw [bytes_cons, hb, List.singleton_append, skipWhile_step, h.head?]
      cases hpass : test (letter b) cs.head? with
      | false => simp [taken, hpass]
      | true =>
        have hsize : (letter b).utf8Size = 1 := by
          rw [← String.length_utf8EncodeChar, hb]
          rfl
        have hrest := ih (front ++ [b]) n (by rw [hb] at hn; simp at hn; omega)
        simp only [List.append_assoc, List.singleton_append, List.length_append,
          List.length_singleton] at hrest
        simp only [if_true, hrest, taken, hpass, byteLength_cons, hsize, Nat.add_assoc]
    · have hkeep : test c cs.head? = keep := h.wide c _ hc
      have hlength : mid.length + 1 = c.utf8Size := by
        rw [← String.length_utf8EncodeChar, hb]
        rfl
      cases keep with
      | false =>
        obtain ⟨n, rfl⟩ : ∃ m, n = m + 1 := ⟨n - 1, by omega⟩
        rw [bytes_cons, hb, List.cons_append, skipWhile_step,
          h.wide _ _ (hwide b List.mem_cons_self)]
        simp [taken, hkeep]
      | true =>
        rw [hb] at hn
        obtain ⟨m, rfl⟩ : ∃ m, n = (b :: mid).length + m := ⟨n - (b :: mid).length, by omega⟩
        have hrest := ih (front ++ (b :: mid)) m (by omega)
        rw [bytes_cons, hb, skipWhile_wide h front (b :: mid) (bytes cs) hwide]
        rw [List.append_assoc, List.length_append] at hrest
        rw [hrest]
        simp only [taken, hkeep, if_true, byteLength_cons, List.length_cons, hlength, Nat.add_assoc]

/-- Looks for the end of a string literal. -/
def scanString (quote : Char) (bs : List UInt8) : Nat → Nat → Checked (Option Nat)
  | 0, _ => .error (.fault .stuck)
  | n + 1, pos =>
    if pos < bs.length then do
      let b ← item bs pos
      if letter b == '\\' && quote == '"' then scanString quote bs n (pos + 2)
      else if letter b == quote then .ok (some (pos + 1))
      else scanString quote bs n (pos + 1)
    else .ok none

lemma scanString_step (quote : Char) (front rest : List UInt8) (b : UInt8) (n : Nat) :
    scanString quote (front ++ b :: rest) (n + 1) front.length =
      if letter b == '\\' && quote == '"' then
        scanString quote (front ++ b :: rest) n (front.length + 2)
      else if letter b == quote then .ok (some (front.length + 1))
      else scanString quote (front ++ b :: rest) n (front.length + 1) := by
  rw [scanString, if_pos (by simp), item_append]
  rfl

lemma scanString_past (quote : Char) (bs : List UInt8) (n pos : Nat) (h : bs.length ≤ pos) :
    scanString quote bs (n + 1) pos = .ok none := by
  rw [scanString, if_neg (by omega)]

lemma Wide.beq_false {c d : Char} (hc : Wide c) (hd : d.toNat < 128) : (c == d) = false := by
  rw [beq_eq_false_iff_ne]
  rintro rfl
  exact absurd hc (Nat.not_le.mpr hd)

lemma scanString_wide {quote : Char} (hquote : quote.toNat < 128) (front mid rest : List UInt8)
    (hmid : ∀ b ∈ mid, Wide (letter b)) (n : Nat) :
    scanString quote (front ++ (mid ++ rest)) (mid.length + n) front.length =
      scanString quote (front ++ (mid ++ rest)) n (front.length + mid.length) := by
  induction mid generalizing front with
  | nil => simp
  | cons b mid ih =>
    obtain ⟨hb, hmid⟩ := List.forall_mem_cons.mp hmid
    rw [List.length_cons, Nat.add_right_comm, List.cons_append, scanString_step,
      hb.beq_false (by decide), hb.beq_false hquote]
    have hpass := ih (front ++ [b]) hmid
    simp only [List.append_assoc, List.singleton_append, List.length_append,
      List.length_singleton] at hpass
    simp only [Bool.false_and, Bool.false_eq_true, if_false, hpass]
    congr 1
    omega

lemma utf8EncodeChar_ascii {c : Char} (hc : c.toNat < 128) :
    ∃ b, String.utf8EncodeChar c = [b] ∧ letter b = c := by
  rcases utf8EncodeChar_cases c with h | ⟨hwide, -⟩
  · exact h
  · exact absurd hwide (Nat.not_le.mpr hc)

/-- An escape may lead into the bytes of a character. They are no quotes, so the loop goes on to the
next character. -/
lemma scanString_eq {quote : Char} (hquote : quote.toNat < 128) (escapes : Bool)
    (hescapes : escapes = (quote == '"')) (front : List UInt8) (cs : List Char) (n : Nat)
    (hn : (bytes cs).length < n) :
    scanString quote (front ++ bytes cs) n front.length =
      .ok ((Lexer.splitString quote escapes cs).map fun r => front.length + byteLength r.1) := by
  fun_induction Lexer.splitString quote escapes cs generalizing front n with
  | case1 =>
    obtain ⟨n, rfl⟩ : ∃ m, n = m + 1 := ⟨n - 1, by omega⟩
    exact scanString_past quote _ n _ (by simp [bytes])
  | case2 c hc =>
    obtain ⟨hescape, rfl⟩ : escapes = true ∧ c = '\\' := by simpa using hc
    obtain ⟨b, hb, hletter⟩ := utf8EncodeChar_ascii (c := '\\') (by decide)
    rw [bytes_cons, hb] at hn ⊢
    obtain ⟨n, rfl⟩ : ∃ m, n = m + 2 := ⟨n - 2, by simp at hn; omega⟩
    rw [List.singleton_append, scanString_step, hletter, ← hescapes, hescape,
      if_pos (by rfl), scanString_past _ _ _ _ (by simp [bytes])]
    rfl
  | case3 c hc d ds ih =>
    obtain ⟨hescape, rfl⟩ : escapes = true ∧ c = '\\' := by simpa using hc
    obtain ⟨b, hb, hletter⟩ := utf8EncodeChar_ascii (c := '\\') (by decide)
    obtain ⟨e, mid, hd, hmid⟩ : ∃ e mid, String.utf8EncodeChar d = e :: mid ∧
        ∀ b ∈ mid, Wide (letter b) := by
      rcases utf8EncodeChar_cases d with ⟨e, he, -⟩ | ⟨-, e, mid, he, hwide⟩
      · exact ⟨e, [], he, by simp⟩
      · exact ⟨e, mid, he, fun b hb => hwide b (List.mem_cons_of_mem e hb)⟩
    have hsize : d.utf8Size = mid.length + 1 := by
      rw [← String.length_utf8EncodeChar, hd]
      rfl
    rw [bytes_cons, bytes_cons, hb, hd] at hn ⊢
    simp only [List.cons_append, List.length_cons, List.length_append] at hn
    obtain ⟨n, rfl⟩ : ∃ m, n = mid.length + m + 1 := ⟨n - mid.length - 1, by omega⟩
    have hpass := scanString_wide hquote (front ++ [b, e]) mid (bytes ds) hmid n
    have hrest := ih (front ++ [b, e] ++ mid) n (by omega)
    simp only [List.append_assoc, List.cons_append, List.nil_append, List.length_append,
      List.length_cons, List.length_nil, Nat.zero_add] at hpass hrest
    rw [List.singleton_append, List.cons_append, scanString_step, hletter, ← hescapes, hescape,
      if_pos (by rfl), hpass,
      show front.length + (1 + 1) + mid.length = front.length + (mid.length + 1 + 1) by omega,
      hrest, hescape]
    cases Lexer.splitString quote true ds with
    | none => rfl
    | some r =>
      simp only [Option.map_some, byteLength_cons, hsize, show '\\'.utf8Size = 1 from rfl]
      congr 2
      omega
  | case4 c cs hc hend =>
    obtain rfl : c = quote := by simpa using hend
    obtain ⟨b, hb, hletter⟩ := utf8EncodeChar_ascii hquote
    rw [bytes_cons, hb] at hn ⊢
    obtain ⟨n, rfl⟩ : ∃ m, n = m + 1 := ⟨n - 1, by omega⟩
    rw [hescapes] at hc
    have hsize : c.utf8Size = 1 := by rw [← String.length_utf8EncodeChar, hb]; rfl
    rw [List.singleton_append, scanString_step, hletter, Bool.and_comm, if_neg hc, if_pos hend]
    simp [hsize]
  | case5 c cs hc hend ih =>
    rw [hescapes] at hc
    rcases utf8EncodeChar_cases c with ⟨b, hb, rfl⟩ | ⟨-, b, mid, hb, hwide⟩
    · have hsize : (letter b).utf8Size = 1 := by rw [← String.length_utf8EncodeChar, hb]; rfl
      rw [bytes_cons, hb] at hn ⊢
      rw [List.length_append, List.length_singleton] at hn
      obtain ⟨n, rfl⟩ : ∃ m, n = m + 1 := ⟨n - 1, by omega⟩
      have hrest := ih (front ++ [b]) n (by omega)
      simp only [List.append_assoc, List.singleton_append, List.length_append,
        List.length_singleton] at hrest
      rw [List.singleton_append, scanString_step, Bool.and_comm, if_neg hc, if_neg hend, hrest]
      cases Lexer.splitString quote escapes cs with
      | none => rfl
      | some r => simp [hsize, Nat.add_assoc]
    · have hsize : c.utf8Size = (b :: mid).length := by rw [← String.length_utf8EncodeChar, hb]
      rw [bytes_cons, hb] at hn ⊢
      rw [List.length_append] at hn
      obtain ⟨n, rfl⟩ : ∃ m, n = (b :: mid).length + m := ⟨n - (b :: mid).length, by omega⟩
      have hrest := ih (front ++ (b :: mid)) n (by omega)
      rw [List.append_assoc, List.length_append] at hrest
      rw [scanString_wide hquote front (b :: mid) (bytes cs) hwide, hrest]
      cases Lexer.splitString quote escapes cs with
      | none => rfl
      | some r => simp [hsize, Nat.add_assoc]

/-! ### The tests of the lexer -/

/-- The characters of a comment. -/
def inComment (c : Char) (_ : Option Char) : Bool := c != '\n'

/-- The characters of a word behind its first one. -/
def inWord (c : Char) (_ : Option Char) : Bool := Lexer.isWordChar c

/-- The characters of a number. A point needs a digit after it. -/
def inNumber (c : Char) (next : Option Char) : Bool :=
  Lexer.isWordChar c || (c == '.' && next.any Char.isDigit)

lemma Wide.isDigit {c : Char} (h : Wide c) : c.isDigit = false := by
  by_contra hdigit
  simp only [Bool.not_eq_false, Char.isDigit, Bool.and_eq_true, decide_eq_true_eq,
    UInt32.le_iff_toNat_le, ge_iff_le] at hdigit
  have h9 : '9'.val.toNat = 57 := rfl
  have hc : 128 ≤ c.val.toNat := h
  omega

lemma Wide.isAlpha {c : Char} (h : Wide c) : c.isAlpha = false := by
  by_contra halpha
  simp only [Bool.not_eq_false, Char.isAlpha, Char.isUpper, Char.isLower, Bool.or_eq_true,
    Bool.and_eq_true, decide_eq_true_eq, UInt32.le_iff_toNat_le, ge_iff_le] at halpha
  have hZ : 'Z'.val.toNat = 90 := rfl
  have hz : 'z'.val.toNat = 122 := rfl
  have hc : 128 ≤ c.val.toNat := h
  omega

lemma Wide.isWordChar {c : Char} (h : Wide c) : Lexer.isWordChar c = false := by
  rw [Lexer.isWordChar, Char.isAlphanum, h.isAlpha, h.isDigit, h.beq_false (by decide)]
  rfl

lemma Wide.isWordStart {c : Char} (h : Wide c) : Lexer.isWordStart c = false := by
  rw [Lexer.isWordStart, h.isAlpha, h.beq_false (by decide), h.beq_false (by decide)]
  rfl

lemma Wide.isLayoutBlank {c : Char} (h : Wide c) : Text.isLayoutBlank c = false := by
  simp only [Text.isLayoutBlank, h.beq_false (show ' '.toNat < 128 by decide),
    h.beq_false (show '\t'.toNat < 128 by decide), h.beq_false (show '\n'.toNat < 128 by decide),
    h.beq_false (show '\x0c'.toNat < 128 by decide), h.beq_false (show '\r'.toNat < 128 by decide)]
  rfl

lemma bytewise_inComment : Bytewise inComment true where
  wide c _ h := by rw [inComment, bne, h.beq_false (by decide)]; rfl
  next _ _ _ _ _ := rfl

lemma bytewise_inWord : Bytewise inWord false where
  wide _ _ h := h.isWordChar
  next _ _ _ _ _ := rfl

lemma bytewise_inNumber : Bytewise inNumber false where
  wide c _ h := by rw [inNumber, h.isWordChar, h.beq_false (by decide)]; rfl
  next c d e hd he := by simp [inNumber, hd.isDigit, he.isDigit]

lemma taken_inComment (cs : List Char) : taken inComment cs = cs.takeWhile (· != '\n') := by
  induction cs with
  | nil => rfl
  | cons c cs ih =>
    rw [taken, List.takeWhile_cons, ih]
    rfl

lemma taken_inWord (cs : List Char) : taken inWord cs = cs.takeWhile Lexer.isWordChar := by
  induction cs with
  | nil => rfl
  | cons c cs ih =>
    rw [taken, List.takeWhile_cons, ih]
    rfl

lemma taken_inNumber (cs : List Char) : taken inNumber cs = (Lexer.splitNumber cs).1 := by
  induction cs with
  | nil => rfl
  | cons c cs ih =>
    rw [taken, Lexer.splitNumber, ih, inNumber]
    split_ifs <;> rfl

/-! ### Positions -/

/-- Where lines start behind the line feeds of bytes, the first of which has index `i`. -/
def lineStartsFrom : Nat → List UInt8 → List Nat
  | _, [] => []
  | i, b :: bs =>
    if letter b == '\n' then (i + 1) :: lineStartsFrom (i + 1) bs else lineStartsFrom (i + 1) bs

/-- The offsets at which lines start. -/
def lineStarts (bs : List UInt8) : List Nat := 0 :: lineStartsFrom 0 bs

/-- The position of a byte offset. The starts are in order, so that those up to the offset come
first, and the last of them is the start of the line. -/
def position (text : List Char) (offset : Nat) : Checked Position := do
  let starts := lineStarts (bytes text)
  let offset := min offset (bytes text).length
  let line ← minus (starts.takeWhile (· ≤ offset)).length 1
  let start ← item starts line
  match slice text start offset with
  | .ok front => return ⟨line, front.length⟩
  | .error _ => return ⟨line, ← minus offset start⟩

lemma lineStartsFrom_append (i : Nat) (xs ys : List UInt8) :
    lineStartsFrom i (xs ++ ys) = lineStartsFrom i xs ++ lineStartsFrom (i + xs.length) ys := by
  induction xs generalizing i with
  | nil => rfl
  | cons b xs ih =>
    rw [List.cons_append, lineStartsFrom, lineStartsFrom, ih, List.length_cons,
      show i + 1 + xs.length = i + (xs.length + 1) by omega]
    split_ifs <;> rfl

lemma lineStartsFrom_bounds (i : Nat) (bs : List UInt8) :
    ∀ start ∈ lineStartsFrom i bs, i < start ∧ start ≤ i + bs.length := by
  induction bs generalizing i with
  | nil => simp [lineStartsFrom]
  | cons b bs ih =>
    intro start hstart
    rw [lineStartsFrom] at hstart
    rw [List.length_cons]
    split_ifs at hstart
    · rcases List.mem_cons.mp hstart with rfl | hstart
      · omega
      · have hbounds := ih (i + 1) start hstart
        omega
    · have hbounds := ih (i + 1) start hstart
      omega

lemma lineStartsFrom_utf8EncodeChar (i : Nat) (c : Char) :
    lineStartsFrom i (String.utf8EncodeChar c) = if c = '\n' then [i + 1] else [] := by
  rcases utf8EncodeChar_cases c with ⟨b, hb, rfl⟩ | ⟨hc, b, mid, hb, hwide⟩
  · rw [hb]
    simp [lineStartsFrom]
  · have hnone (bs : List UInt8) (i : Nat) (h : ∀ b ∈ bs, Wide (letter b)) :
        lineStartsFrom i bs = [] := by
      induction bs generalizing i with
      | nil => rfl
      | cons b bs ih =>
        obtain ⟨hb, hbs⟩ := List.forall_mem_cons.mp h
        rw [lineStartsFrom, hb.beq_false (by decide), if_neg (by simp), ih _ hbs]
    rw [hb, hnone _ _ hwide, if_neg]
    rintro rfl
    exact absurd hc (show ¬128 ≤ '\n'.toNat by decide)

/-- The last line start of a text is the start of its last line. -/
lemma lineStarts_bytes (front : List Char) :
    ∃ starts heads tail, lineStarts (bytes front) = starts ++ [byteLength heads] ∧
      front = heads ++ tail ∧
      (Place.origin.advance front).position = ⟨starts.length, tail.length⟩ := by
  induction front using List.reverseRecOn with
  | nil => exact ⟨[], [], [], rfl, rfl, rfl⟩
  | append_singleton front c ih =>
    obtain ⟨starts, heads, tail, hstarts, rfl, hposition⟩ := ih
    have hbytes : bytes [c] = String.utf8EncodeChar c := List.append_nil _
    have hnext : lineStarts (bytes (heads ++ tail ++ [c])) =
        starts ++ [byteLength heads] ++
          if c = '\n' then [byteLength (heads ++ tail) + 1] else [] := by
      rw [← hstarts, bytes_append, hbytes, lineStarts, lineStartsFrom_append, length_bytes,
        lineStartsFrom_utf8EncodeChar, Nat.zero_add]
      rfl
    rw [Place.advance_append, Place.advance_cons, Place.advance_nil, Place.step, hposition, hnext]
    by_cases hc : c = '\n'
    · subst hc
      refine ⟨starts ++ [byteLength heads], heads ++ tail ++ ['\n'], [], ?_, by simp, by simp⟩
      rw [if_pos rfl]
      congr 2
      rw [byteLength_append (heads ++ tail)]
      rfl
    · refine ⟨starts, heads, tail ++ [c], ?_, by simp, by simp [hc]⟩
      rw [if_neg hc, List.append_nil]

/-- The position of a place between characters. -/
lemma position_eq (front rest : List Char) :
    position (front ++ rest) (byteLength front) = .ok (Place.origin.advance front).position := by
  obtain ⟨starts, heads, tail, hstarts, hfront, hposition⟩ := lineStarts_bytes front
  have hmin : min (byteLength front) (bytes (front ++ rest)).length = byteLength front := by
    rw [length_bytes, byteLength_append]
    omega
  have hall : lineStarts (bytes (front ++ rest)) =
      lineStarts (bytes front) ++ lineStartsFrom (byteLength front) (bytes rest) := by
    rw [bytes_append, lineStarts, lineStartsFrom_append, length_bytes, Nat.zero_add]
    rfl
  have hbefore : ∀ start ∈ lineStarts (bytes front), start ≤ byteLength front := by
    intro start hstart
    rcases List.mem_cons.mp hstart with rfl | hstart
    · omega
    · have hbounds := lineStartsFrom_bounds 0 (bytes front) start hstart
      rw [length_bytes] at hbounds
      omega
  have hafter : (lineStartsFrom (byteLength front) (bytes rest)).takeWhile
      (· ≤ byteLength front) = [] := by
    rw [List.takeWhile_eq_nil_iff]
    intro hpos
    have hbounds := lineStartsFrom_bounds (byteLength front) (bytes rest) _
      (List.getElem_mem hpos)
    simpa using hbounds.1
  have htake : (lineStarts (bytes (front ++ rest))).takeWhile (· ≤ byteLength front) =
      lineStarts (bytes front) := by
    rw [hall, List.takeWhile_append_of_pos (by simpa using hbefore), hafter, List.append_nil]
  have hstart : item (lineStarts (bytes (front ++ rest))) starts.length =
      .ok (byteLength heads) := by
    rw [hall, hstarts, List.append_assoc]
    exact item_append _ _ _
  have hslice : slice (front ++ rest) (byteLength heads) (byteLength front) = .ok tail := by
    rw [hfront, List.append_assoc]
    exact slice_append heads tail rest (byteLength_append heads tail)
  rw [position]
  simp only [hmin, htake]
  rw [hstarts, List.length_append, List.length_singleton, minus_of_le (by omega),
    Nat.add_sub_cancel]
  change (item (lineStarts (bytes (front ++ rest))) starts.length >>= _) = _
  rw [hstart]
  change (match slice (front ++ rest) (byteLength heads) (byteLength front) with
    | .ok front => _
    | .error _ => _) = _
  rw [hslice, hposition]
  rfl

end FlowCanvas.Indexed
