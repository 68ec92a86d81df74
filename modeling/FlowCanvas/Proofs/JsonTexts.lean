import FlowCanvas.Json.Reader
import FlowCanvas.Json.Writer
import Mathlib

/-!
# JSON texts

A value without doubles that a reader can have made is read again from its compact text: the text
of a string is read as the string, the digits of a whole number as the number, and brackets,
commas and colons as the array or object they were written for. The reader makes no whole number
of more than 64 bits.
-/

namespace FlowCanvas.Json

/-! ### Parts of values -/

/-- The values directly inside of a value. -/
def parts : Json → List Json
  | .array items => items
  | .object members => members.map Prod.snd
  | _ => []

/-- A value and all values inside of it, at any depth, have a property. -/
inductive Every (p : Json → Prop) : Json → Prop
  | mk {j : Json} (h : p j) (hparts : ∀ k ∈ j.parts, Every p k) : Every p j

variable {p q : Json → Prop}

lemma Every.leaf {j : Json} (h : p j) (hleaf : j.parts = []) : Every p j :=
  .mk h (by simp [hleaf])

lemma Every.imp {j : Json} (h : Every p j) (hpq : ∀ j, p j → q j) : Every q j := by
  induction h with
  | mk h _ ih => exact .mk (hpq _ h) ih

lemma Every.and {j : Json} (hp : Every p j) (hq : Every q j) : Every (fun j => p j ∧ q j) j := by
  induction hp with
  | mk h _ ih =>
    cases hq with
    | mk h' hparts' => exact .mk ⟨h, h'⟩ fun k hk => ih k hk (hparts' k hk)

lemma Every.part {j k : Json} (h : Every p j) (hk : k ∈ j.parts) : Every p k := by
  cases h with
  | mk _ hparts => exact hparts k hk

/-- A value holds itself and all values inside of it, at any depth. -/
def Holds : Json → Json → Prop := Relation.ReflTransGen fun j k => k ∈ j.parts

lemma Every.held {j k : Json} (h : Every p j) (hk : Holds j k) : Every p k := by
  induction hk with
  | refl => exact h
  | tail _ hpart ih => exact ih.part hpart

lemma height_le_of_mem_items {items : List Json} {j : Json} (h : j ∈ items) :
    j.height ≤ heightItems items := by
  induction items with
  | nil => simp at h
  | cons k items ih =>
    rw [heightItems]
    rcases List.mem_cons.mp h with rfl | h
    · exact le_max_left _ _
    · exact (ih h).trans (le_max_right _ _)

lemma height_le_of_mem_members {members : List (String × Json)} {m : String × Json}
    (h : m ∈ members) : m.2.height ≤ heightMembers members := by
  induction members with
  | nil => simp at h
  | cons m' members ih =>
    rw [heightMembers]
    rcases List.mem_cons.mp h with rfl | h
    · exact le_max_left _ _
    · exact (ih h).trans (le_max_right _ _)

lemma height_lt_of_mem_parts {j k : Json} (h : k ∈ j.parts) : k.height < j.height := by
  cases j with
  | array items => exact Nat.lt_succ_of_le (height_le_of_mem_items h)
  | object members =>
    obtain ⟨m, hm, rfl⟩ := List.mem_map.mp h
    exact Nat.lt_succ_of_le (height_le_of_mem_members hm)
  | _ => simp [parts] at h

/-- A whole number that fits 64 bits, signed or unsigned. -/
def InRange (n : ℤ) : Prop := -(UInt64.size / 2 : ℕ) ≤ n ∧ n < UInt64.size

/-- No whole number of more than 64 bits. -/
def Fits : Json → Prop
  | .integer n => InRange n
  | _ => True

/-- No double. -/
def NotDouble : Json → Prop
  | .double _ => False
  | _ => True

/-- Something with a value. -/
def Readable : Json → Prop
  | .unreadable => False
  | _ => True

/-- A value that is written as it is read: one without doubles whose whole numbers fit 64 bits. -/
def Exact (j : Json) : Prop := Every (fun j => (Fits j ∧ NotDouble j) ∧ Readable j) j

/-! ### Strings -/

/-- How an escaped character is read. -/
def partOf (c : Char) : StringPart :=
  if c.toNat < 0x20 ∧ c ∉ ['\x08', '\t', '\n', '\x0c', '\r'] then .unit c.toNat else .character c

lemma hexValue?_hexDigits : ∀ n < 0x20,
    ['0', '0', hexDigit (n / 16), hexDigit (n % 16)].mapM Text.hexValue? =
      some [0, 0, n / 16, n % 16] ∧ Text.ofDigits 16 [0, 0, n / 16, n % 16] = n := by
  decide

lemma stringParts_character {c : Char} (hquote : c ≠ '"') (hslash : c ≠ '\\')
    (hcontrol : 0x20 ≤ c.toNat) (cs : List Char) :
    stringParts (c :: cs) = (stringParts cs).map fun r => (.character c :: r.1, r.2) := by
  rw [stringParts.eq_def]
  split
  · rename_i heq
    simp at heq
  · rename_i heq
    exact absurd (List.cons.inj heq).1 hquote
  · rename_i heq
    exact absurd (List.cons.inj heq).1 hslash
  · rename_i heq
    exact absurd (List.cons.inj heq).1 hslash
  · rename_i heq
    obtain ⟨rfl, rfl⟩ := List.cons.inj heq
    rw [if_neg (by simpa [hslash] using hcontrol)]
    cases stringParts cs <;> rfl

lemma stringParts_simple {c e : Char} (h : simpleEscape? e = some c) (he : e ≠ 'u')
    (cs : List Char) :
    stringParts ('\\' :: e :: cs) = (stringParts cs).map fun r => (.character c :: r.1, r.2) := by
  rw [stringParts.eq_def]
  split
  · rename_i heq
    simp at heq
  · rename_i heq
    simp at heq
  · rename_i heq
    simp only [List.cons.injEq] at heq
    exact absurd heq.2.1 he
  · rename_i heq
    simp only [List.cons.injEq, true_and] at heq
    obtain ⟨rfl, rfl⟩ := heq
    rw [h]
    cases stringParts cs <;> rfl
  · rename_i hnot heq
    simp only [List.cons.injEq] at heq
    obtain ⟨rfl, rfl⟩ := heq
    exact absurd rfl (hnot e cs rfl)

lemma stringParts_unit {n : ℕ} (h : n < 0x20) (cs : List Char) :
    stringParts ('\\' :: 'u' :: '0' :: '0' :: hexDigit (n / 16) :: hexDigit (n % 16) :: cs) =
      (stringParts cs).map fun r => (.unit n :: r.1, r.2) := by
  obtain ⟨hdigits, hvalue⟩ := hexValue?_hexDigits n h
  rw [stringParts, hdigits]
  simp only [Option.bind_eq_bind, Option.bind_some, hvalue]
  cases stringParts cs <;> rfl

/-- An escaped character is read as itself or as the unit of its code point. -/
lemma stringParts_escape (c : Char) (cs : List Char) :
    stringParts (escape c ++ cs) = (stringParts cs).map fun r => (partOf c :: r.1, r.2) := by
  by_cases hshort : c ∈ ['"', '\\', '\x08', '\t', '\n', '\x0c', '\r']
  · simp only [List.mem_cons, List.not_mem_nil, or_false] at hshort
    rcases hshort with rfl | rfl | rfl | rfl | rfl | rfl | rfl <;>
      exact stringParts_simple rfl (by decide) cs
  · simp only [List.mem_cons, List.not_mem_nil, or_false, not_or] at hshort
    obtain ⟨hquote, hslash, hback, htab, hline, hform, hreturn⟩ := hshort
    by_cases hcontrol : c.toNat < 0x20
    · have hescape : escape c = ['\\', 'u', '0', '0', hexDigit (c.toNat / 16),
          hexDigit (c.toNat % 16)] := by
        simp [escape, hquote, hslash, hback, htab, hline, hform, hreturn, hcontrol]
      have hpart : partOf c = .unit c.toNat := by
        simp [partOf, hback, htab, hline, hform, hreturn, hcontrol]
      rw [hescape, hpart]
      exact stringParts_unit hcontrol cs
    · have hescape : escape c = [c] := by
        simp [escape, hquote, hslash, hback, htab, hline, hform, hreturn, hcontrol]
      have hpart : partOf c = .character c := by simp [partOf, hcontrol]
      rw [hescape, hpart]
      exact stringParts_character hquote hslash (by omega) cs

lemma stringParts_escaped (cs rest : List Char) :
    stringParts (cs.flatMap escape ++ '"' :: rest) = some (cs.map partOf, rest) := by
  induction cs with
  | nil => rw [List.flatMap_nil, List.nil_append, stringParts]; rfl
  | cons c cs ih =>
    rw [List.flatMap_cons, List.append_assoc, stringParts_escape, ih]
    rfl

/-- A unit that is no half of a surrogate pair stands for itself. -/
lemma joinUnits_unit {n : ℕ} (h : n < 0xD800) (parts : List StringPart) :
    joinUnits (.unit n :: parts) = (joinUnits parts).map (Char.ofNat n :: ·) := by
  have hhigh : ¬(0xD800 ≤ n ∧ n < 0xDC00) := by omega
  have hlow : ¬(0xDC00 ≤ n ∧ n < 0xE000) := by omega
  have hneither : ¬(0xD800 ≤ n ∧ n < 0xE000) := by omega
  cases parts with
  | nil => rw [joinUnits.eq_def]; simp [hneither]
  | cons part parts =>
    cases part with
    | character c => rw [joinUnits.eq_def]; simp [hneither]
    | unit low => rw [joinUnits.eq_def]; simp [hhigh, hlow]

lemma joinUnits_partOf (cs : List Char) : joinUnits (cs.map partOf) = some cs := by
  induction cs with
  | nil => rfl
  | cons c cs ih =>
    rw [List.map_cons, partOf]
    split_ifs with hunit
    · rw [joinUnits_unit (by omega), ih, Char.ofNat_toNat]
      rfl
    · rw [joinUnits, ih]
      rfl

/-- A string is read from its text between quotes. -/
lemma stringRest_quote (s : String) (rest : List Char) :
    stringRest (s.toList.flatMap escape ++ '"' :: rest) = some (some s, rest) := by
  rw [stringRest, stringParts_escaped]
  simp only [Option.map_some, joinUnits_partOf, String.ofList_toList]

lemma toList_quote (s : String) :
    (quote s).toList = '"' :: (s.toList.flatMap escape ++ ['"']) := by
  simp [quote]

/-! ### Whole numbers -/

/-- A text that a number does not go on with. -/
def EndsNumber (rest : List Char) : Prop :=
  ∀ c ∈ rest.head?, c.isDigit = false ∧ c ≠ '.' ∧ c ≠ 'e' ∧ c ≠ 'E'

/-- Digits spell their number again. -/
lemma ofDigits_toDigits (n : ℕ) :
    Text.ofDigits 10 ((Nat.toDigits 10 n).map Text.digitValue) = n := by
  rw [Text.ofDigits, List.foldl_map]
  simp only [Nat.mul_comm _ 10]
  exact Nat.ofDigitChars_ten_toDigits

/-- Only zero starts with a zero. -/
lemma head_toDigits {n : ℕ} (h : 0 < n) :
    ∃ c cs, Nat.toDigits 10 n = c :: cs ∧ c ≠ '0' := by
  induction n using Nat.strongRecOn with
  | ind n ih =>
    rw [Nat.toDigits_eq_if (by decide)]
    split_ifs with hsmall
    · exact ⟨n.digitChar, [], rfl, by simpa using h.ne'⟩
    · obtain ⟨c, cs, hdigits, hc⟩ := ih (n / 10) (by omega) (by omega)
      exact ⟨c, cs ++ [(n % 10).digitChar], by rw [hdigits]; rfl, hc⟩

lemma splitDigits_append {ds rest : List Char} (hds : ∀ d ∈ ds, d.isDigit)
    (hrest : EndsNumber rest) : splitDigits (ds ++ rest) = (ds.map Text.digitValue, rest) := by
  have hstop : rest.takeWhile Char.isDigit = [] ∧ rest.dropWhile Char.isDigit = rest := by
    cases rest with
    | nil => exact ⟨rfl, rfl⟩
    | cons c rest => simp [(hrest c rfl).1]
  rw [splitDigits, List.takeWhile_append_of_pos hds, List.dropWhile_append_of_pos hds, hstop.1,
    hstop.2, List.append_nil]

lemma wholeDigits_toDigits (n : ℕ) {rest : List Char} (hrest : EndsNumber rest) :
    wholeDigits (Nat.toDigits 10 n ++ rest) =
      some ((Nat.toDigits 10 n).map Text.digitValue, rest) := by
  rcases Nat.eq_zero_or_pos n with rfl | hpos
  · rfl
  · have hall : ∀ d ∈ Nat.toDigits 10 n, d.isDigit := fun d hd =>
      Nat.isDigit_of_mem_toDigits (by decide) (by decide) hd
    have hsplit := splitDigits_append hall hrest
    obtain ⟨c, cs, hdigits, hc⟩ := head_toDigits hpos
    rw [hdigits] at hall hsplit ⊢
    rw [List.cons_append, wholeDigits, if_neg (by simpa using hc),
      if_pos (hall c List.mem_cons_self)]
    exact congrArg some hsplit

lemma fractionDigits_of_ends {rest : List Char} (h : EndsNumber rest) :
    fractionDigits rest = some ([], rest) := by
  rw [fractionDigits.eq_def]
  split
  · rename_i cs
    exact absurd rfl (h '.' rfl).2.1
  · rfl

lemma exponentDigits_of_ends {rest : List Char} (h : EndsNumber rest) :
    exponentDigits rest = some (none, rest) := by
  cases rest with
  | nil => rfl
  | cons c rest =>
    obtain ⟨-, -, he, hE⟩ := h c rfl
    simp [exponentDigits, he, hE]

/-- The digits of a number are read as a literal without fraction and exponent. -/
lemma number_toDigits (negative : Bool) (n : ℕ) {rest : List Char} (hrest : EndsNumber rest) :
    number negative (Nat.toDigits 10 n ++ rest) =
      some (Literal.toJson ⟨negative, (Nat.toDigits 10 n).map Text.digitValue, [], none, true⟩,
        rest) := by
  rw [number, wholeDigits_toDigits n hrest]
  simp only [Option.bind_eq_bind, Option.bind_some, fractionDigits_of_ends hrest,
    exponentDigits_of_ends hrest]
  rfl

lemma digits_integer (n : ℤ) :
    (compact (.integer n)).toList =
      (if 0 ≤ n then [] else ['-']) ++ Nat.toDigits 10 n.natAbs := by
  rw [compact, Int.toString_eq_repr, Int.repr_eq_if]
  split_ifs with h
  · rw [Nat.toList_repr, List.nil_append, show n.natAbs = n.toNat by omega]
  · rw [String.toList_append, Nat.toList_repr, show n.natAbs = (-n).toNat by omega]
    rfl

lemma exists_digit (n : ℕ) : ∃ c cs, Nat.toDigits 10 n = c :: cs ∧ c.isDigit := by
  have hall : ∀ d ∈ Nat.toDigits 10 n, d.isDigit := fun d hd =>
    Nat.isDigit_of_mem_toDigits (by decide) (by decide) hd
  cases hdigits : Nat.toDigits 10 n with
  | nil => exact absurd hdigits Nat.toDigits_ne_nil
  | cons c cs => exact ⟨c, cs, rfl, hall c (by simp [hdigits])⟩

/-- A literal in range is the whole number its digits spell. -/
lemma toJson_digits {n : ℤ} (h : InRange n) :
    Literal.toJson ⟨decide (n < 0), (Nat.toDigits 10 n.natAbs).map Text.digitValue, [], none,
      true⟩ = .integer n := by
  obtain ⟨hlow, hhigh⟩ := h
  rw [Literal.toJson, ofDigits_toDigits]
  by_cases hneg : n < 0
  · have hpos : 0 < n.natAbs ∧ n.natAbs ≤ UInt64.size / 2 := by omega
    simp only [hneg, decide_true, Bool.not_true, Bool.and_false, Bool.false_and, Bool.true_and,
      hpos, Bool.false_eq_true, if_false, if_true]
    congr 1
    omega
  · have hsmall : n.natAbs < UInt64.size := by omega
    simp only [hneg, decide_false, Bool.not_false, Bool.and_true, Bool.true_and, hsmall,
      decide_true, if_true]
    congr 1
    omega

/-! ### Values -/

lemma endsNumber_mark {c : Char} (h : c ∈ [',', ']', '\x7d']) (rest : List Char) :
    EndsNumber (c :: rest) := by
  rintro d ⟨⟩
  simp only [List.mem_cons, List.not_mem_nil, or_false] at h
  rcases h with rfl | rfl | rfl <;> decide

lemma skipSpace_cons {c : Char} (h : isSpace c = false) (cs : List Char) :
    skipSpace (c :: cs) = c :: cs := by
  rw [skipSpace, List.dropWhile_cons_of_neg (by simp [h])]

lemma skipSpace_comma (cs : List Char) : skipSpace (',' :: cs) = ',' :: cs :=
  skipSpace_cons (by decide) cs

lemma skipSpace_colon (cs : List Char) : skipSpace (':' :: cs) = ':' :: cs :=
  skipSpace_cons (by decide) cs

lemma skipSpace_quote (cs : List Char) : skipSpace ('"' :: cs) = '"' :: cs :=
  skipSpace_cons (by decide) cs

/-- What stands in the way of a digit to be something else at the start of a value. -/
lemma of_isDigit {c : Char} (h : c.isDigit) :
    isSpace c = false ∧ c ≠ '"' ∧ c ≠ '-' ∧ c ≠ ']' := by
  refine ⟨?_, ?_, ?_, ?_⟩
  · by_contra hspace
    simp only [isSpace, Bool.not_eq_false, Bool.or_eq_true, beq_iff_eq] at hspace
    rcases hspace with ((rfl | rfl) | rfl) | rfl <;> exact absurd h (by decide)
  all_goals
    rintro rfl
    exact absurd h (by decide)

lemma toList_array (items : List Json) :
    (compact (.array items)).toList = '[' :: ((compactItems true items).toList ++ [']']) := by
  simp [compact]

lemma toList_object (members : List (String × Json)) :
    (compact (.object members)).toList =
      '\x7b' :: ((compactMembers true members).toList ++ ['\x7d']) := by
  simp [compact]

/-- The text of a value starts with no blank and with no closing bracket. -/
lemma compact_head {j : Json} (h : NotDouble j) :
    ∃ c cs, (compact j).toList = c :: cs ∧ isSpace c = false ∧ c ≠ ']' := by
  cases j with
  | null => exact ⟨'n', _, rfl, by decide⟩
  | bool b => cases b <;> exact ⟨_, _, rfl, by decide⟩
  | integer n =>
    obtain ⟨c, cs, hdigits, hc⟩ := exists_digit n.natAbs
    obtain ⟨hspace, -, -, hbracket⟩ := of_isDigit hc
    rw [digits_integer, hdigits]
    split_ifs
    · exact ⟨c, cs, rfl, hspace, hbracket⟩
    · exact ⟨'-', c :: cs, rfl, by decide⟩
  | double d => exact absurd h not_false
  | string s => exact ⟨'"', _, by rw [compact, toList_quote], by decide⟩
  | array items => exact ⟨'[', _, toList_array items, by decide⟩
  | object members => exact ⟨'\x7b', _, toList_object members, by decide⟩
  | unreadable => exact ⟨'n', _, rfl, by decide⟩

/-- A value that is read from its text, wherever that stands. -/
def Reads (j : Json) : Prop :=
  ∀ n room rest, j.height ≤ room → 2 * (compact j).toList.length ≤ n → EndsNumber rest →
    value n room ((compact j).toList ++ rest) = some (j, rest)

lemma reads_integer {i : ℤ} (h : InRange i) : Reads (.integer i) := by
  intro n room rest _ hn hrest
  obtain ⟨c, cs, hdigits, hc⟩ := exists_digit i.natAbs
  obtain ⟨hspace, hquote, hminus, -⟩ := of_isDigit hc
  have hnumber := number_toDigits (decide (i < 0)) i.natAbs hrest
  rw [toJson_digits h] at hnumber
  rw [digits_integer, hdigits] at hn ⊢
  rw [hdigits] at hnumber
  obtain ⟨n, rfl⟩ : ∃ m, n = m + 1 := ⟨n - 1, by simp at hn; omega⟩
  by_cases hi : 0 ≤ i
  · rw [decide_eq_false (by omega)] at hnumber
    rw [if_pos hi, List.nil_append, List.cons_append, value, skipSpace_cons hspace]
    simp only [beq_iff_eq, hquote, hminus, hc, if_false, if_true]
    exact hnumber
  · rw [decide_eq_true (by omega)] at hnumber
    rw [if_neg hi, List.append_assoc, List.cons_append, List.nil_append, value,
      skipSpace_cons (by decide)]
    exact hnumber

lemma reads_string (s : String) : Reads (.string s) := by
  intro n room rest _ hn _
  rw [compact, toList_quote] at hn ⊢
  obtain ⟨n, rfl⟩ : ∃ m, n = m + 1 := ⟨n - 1, by simp at hn; omega⟩
  have hread := stringRest_quote s rest
  rw [List.cons_append, List.append_assoc, List.singleton_append, value,
    skipSpace_cons (by decide)]
  simp only [beq_self_eq_true, if_true, hread]
  rfl

/-- A word is passed over. -/
lemma word_append (text : String) (j : Json) (rest : List Char) :
    word text j (text.toList ++ rest) = some (j, rest) := by
  rw [word, if_pos (by simp), ← String.length_toList, List.drop_left]

lemma reads_null : Reads .null := by
  intro n room rest _ hn _
  obtain ⟨n, rfl⟩ : ∃ m, n = m + 1 := ⟨n - 1, by simp [compact] at hn; omega⟩
  exact word_append "null" .null rest

lemma reads_bool (b : Bool) : Reads (.bool b) := by
  intro n room rest _ hn _
  cases b <;> obtain ⟨n, rfl⟩ : ∃ m, n = m + 1 := ⟨n - 1, by simp [compact] at hn; omega⟩
  · exact word_append "false" (.bool false) rest
  · exact word_append "true" (.bool true) rest

/-! ### Arrays and objects -/

lemma toList_items_cons (first : Bool) (j : Json) (js : List Json) :
    (compactItems first (j :: js)).toList =
      (if first then [] else [',']) ++ ((compact j).toList ++ (compactItems false js).toList) := by
  cases first <;> simp [compactItems]

lemma toList_members_cons (first : Bool) (m : String × Json) (ms : List (String × Json)) :
    (compactMembers first (m :: ms)).toList =
      (if first then [] else [',']) ++ ('"' :: (m.1.toList.flatMap escape ++ '"' :: ':' ::
        ((compact m.2).toList ++ (compactMembers false ms).toList))) := by
  cases first <;> simp [compactMembers, toList_quote]

/-- The items of an array are read up to its closing bracket. -/
lemma items_compact {js : List Json} (hne : js ≠ []) (hreads : ∀ j ∈ js, Reads j) {n room : ℕ}
    (hroom : heightItems js ≤ room) (hn : 2 * (compactItems true js).toList.length + 1 ≤ n)
    (rest : List Char) :
    items n room ((compactItems true js).toList ++ ']' :: rest) = some (js, rest) := by
  induction js generalizing n with
  | nil => exact absurd rfl hne
  | cons j js ih =>
    obtain ⟨n, rfl⟩ : ∃ m, n = m + 1 := ⟨n - 1, by omega⟩
    rw [heightItems, Nat.max_le] at hroom
    rw [toList_items_cons] at hn ⊢
    rw [if_pos rfl, List.nil_append, List.append_assoc, items]
    rw [if_pos rfl, List.nil_append, List.length_append] at hn
    have hfirst := hreads j List.mem_cons_self n room
    cases js with
    | nil =>
      have hvalue := hfirst (']' :: rest) hroom.1 (by omega) (endsNumber_mark (by decide) _)
      rw [compactItems, String.toList_empty, List.nil_append, hvalue]
      rfl
    | cons k js =>
      have hcomma : (compactItems false (k :: js)).toList =
          ',' :: (compactItems true (k :: js)).toList := by
        rw [toList_items_cons, toList_items_cons]
        rfl
      rw [hcomma, List.length_cons] at hn
      have hvalue := hfirst (',' :: ((compactItems true (k :: js)).toList ++ ']' :: rest)) hroom.1
        (by omega) (endsNumber_mark (by decide) _)
      have hothers := ih (List.cons_ne_nil k js)
        (fun i hi => hreads i (List.mem_cons_of_mem j hi)) hroom.2 (n := n) (by omega)
      rw [hcomma, List.cons_append, hvalue]
      simp only [Option.bind_eq_bind, Option.bind_some, skipSpace_comma, hothers]
      rfl

/-- The members of an object are read up to its closing brace. -/
lemma members_compact {ms : List (String × Json)} (hne : ms ≠ []) (hreads : ∀ m ∈ ms, Reads m.2)
    {n room : ℕ} (hroom : heightMembers ms ≤ room)
    (hn : 2 * (compactMembers true ms).toList.length + 1 ≤ n) (rest : List Char) :
    members n room ((compactMembers true ms).toList ++ '\x7d' :: rest) =
      some (ms.map fun m => (some m.1, m.2), rest) := by
  induction ms generalizing n with
  | nil => exact absurd rfl hne
  | cons m ms ih =>
    obtain ⟨n, rfl⟩ : ∃ m, n = m + 1 := ⟨n - 1, by omega⟩
    rw [heightMembers, Nat.max_le] at hroom
    rw [toList_members_cons] at hn ⊢
    rw [if_pos rfl, List.nil_append] at hn ⊢
    simp only [List.length_cons, List.length_append] at hn
    simp only [List.cons_append, List.append_assoc, members, skipSpace_quote, stringRest_quote,
      Option.bind_eq_bind, Option.bind_some, skipSpace_colon]
    have hfirst := hreads m List.mem_cons_self n room
    cases ms with
    | nil =>
      have hvalue := hfirst ('\x7d' :: rest) hroom.1 (by omega) (endsNumber_mark (by decide) _)
      rw [compactMembers, String.toList_empty, List.nil_append, hvalue]
      rfl
    | cons k ms =>
      have hcomma : (compactMembers false (k :: ms)).toList =
          ',' :: (compactMembers true (k :: ms)).toList := by
        rw [toList_members_cons, toList_members_cons]
        rfl
      rw [hcomma, List.length_cons] at hn
      have hvalue := hfirst (',' :: ((compactMembers true (k :: ms)).toList ++ '\x7d' :: rest))
        hroom.1 (by omega) (endsNumber_mark (by decide) _)
      have hothers := ih (List.cons_ne_nil k ms)
        (fun i hi => hreads i (List.mem_cons_of_mem m hi)) hroom.2 (n := n) (by omega)
      rw [hcomma, List.cons_append, hvalue]
      simp only [Option.bind_some, skipSpace_comma, hothers]
      rfl

/-- Everything in a list is read, in its order. -/
lemma mapM_eq_some_iff {α β : Type} {f : α → Option β} {as : List α} {bs : List β} :
    as.mapM f = some bs ↔ List.Forall₂ (fun a b => f a = some b) as bs := by
  induction as generalizing bs with
  | nil => simp [eq_comm]
  | cons a as ih =>
    simp only [List.mapM_cons, Option.bind_eq_bind, Option.bind_eq_some_iff, Option.pure_def,
      Option.some.injEq, List.forall₂_cons_left_iff, ih]
    constructor
    · rintro ⟨b, hb, bs', hbs, rfl⟩
      exact ⟨b, bs', hb, hbs, rfl⟩
    · rintro ⟨b, bs', hb, hbs, rfl⟩
      exact ⟨b, hb, bs', hbs, rfl⟩

lemma ofMembers_map (ms : List (String × Json)) :
    ofMembers (ms.map fun m => (some m.1, m.2)) = .object ms := by
  have hall : (ms.map fun m => ((some m.1, m.2) : Option String × Json)).mapM
      (fun m => m.1.map fun name => (name, m.2)) = some ms :=
    mapM_eq_some_iff.mpr (List.forall₂_map_left_iff.mpr (List.forall₂_same.mpr fun _ _ => rfl))
  rw [ofMembers, hall]

lemma reads_array {js : List Json} (hreads : ∀ j ∈ js, Reads j) (hwhole : ∀ j ∈ js, NotDouble j) :
    Reads (.array js) := by
  intro n room rest hroom hn _
  rw [height] at hroom
  rw [toList_array] at hn ⊢
  simp only [List.length_cons, List.length_append, List.length_nil] at hn
  obtain ⟨n, rfl⟩ : ∃ m, n = m + 1 := ⟨n - 1, by omega⟩
  have hroom' : room ≠ 0 := by omega
  rw [List.cons_append, List.append_assoc, List.singleton_append, value,
    skipSpace_cons (by decide)]
  simp +decide only [hroom', if_false, if_true]
  cases js with
  | nil => rfl
  | cons j js =>
    have hitems : items n (room - 1) ((compactItems true (j :: js)).toList ++ ']' :: rest) =
        some (j :: js, rest) :=
      items_compact (List.cons_ne_nil j js) hreads (by omega) (by omega) rest
    obtain ⟨c, cs, hhead, hspace, hbracket⟩ := compact_head (hwhole j List.mem_cons_self)
    obtain ⟨cs', hcs⟩ : ∃ cs', (compactItems true (j :: js)).toList ++ ']' :: rest = c :: cs' := by
      rw [toList_items_cons, hhead]
      exact ⟨_, rfl⟩
    rw [hcs] at hitems ⊢
    rw [skipSpace_cons hspace]
    split
    · rename_i heq
      exact absurd (List.cons.inj heq).1 hbracket
    · rw [hitems]
      rfl

lemma reads_object {ms : List (String × Json)} (hreads : ∀ m ∈ ms, Reads m.2) :
    Reads (.object ms) := by
  intro n room rest hroom hn _
  rw [height] at hroom
  rw [toList_object] at hn ⊢
  simp only [List.length_cons, List.length_append, List.length_nil] at hn
  obtain ⟨n, rfl⟩ : ∃ m, n = m + 1 := ⟨n - 1, by omega⟩
  have hroom' : room ≠ 0 := by omega
  rw [List.cons_append, List.append_assoc, List.singleton_append, value,
    skipSpace_cons (by decide)]
  simp +decide only [hroom', if_false, if_true]
  cases ms with
  | nil => rfl
  | cons m ms =>
    have hmembers : members n (room - 1)
        ((compactMembers true (m :: ms)).toList ++ '\x7d' :: rest) =
          some ((m :: ms).map fun m => (some m.1, m.2), rest) :=
      members_compact (List.cons_ne_nil m ms) hreads (by omega) (by omega) rest
    obtain ⟨cs, hcs⟩ : ∃ cs, (compactMembers true (m :: ms)).toList ++ '\x7d' :: rest =
        '"' :: cs := by
      rw [toList_members_cons]
      exact ⟨_, rfl⟩
    rw [hcs] at hmembers ⊢
    rw [skipSpace_cons (by decide)]
    split
    · rename_i heq
      simp at heq
    · simp only [hmembers, Option.map_some, ofMembers_map]

/-- A value that is written as it is read is read from its text. -/
lemma reads_of_exact {j : Json} (h : Exact j) : Reads j := by
  induction h with
  | @mk j h hparts ih =>
    obtain ⟨⟨hfits, hwhole⟩, hreadable⟩ := h
    cases j with
    | null => exact reads_null
    | bool b => exact reads_bool b
    | integer n => exact reads_integer hfits
    | double d => exact absurd hwhole not_false
    | string s => exact reads_string s
    | array items =>
      refine reads_array ih fun j hj => ?_
      obtain ⟨⟨⟨-, hwhole'⟩, -⟩, -⟩ := hparts j hj
      exact hwhole'
    | object members => exact reads_object fun m hm => ih m.2 (List.mem_map_of_mem hm)
    | unreadable => exact absurd hreadable not_false

/-- A reader that undoes a writer on the values without doubles that do not nest too deep. -/
def Inverse (write : Json → String) (read : String → Option Json) : Prop :=
  ∀ j, Exact j → j.height ≤ maxHeight → read (write j) = some j

/-- The compact text of a value is read as that value. -/
theorem inverse_compact : Inverse compact read? := by
  intro j h hheight
  have hread := reads_of_exact h (2 * (compact j).toList.length + 1) maxHeight [] hheight (by omega)
    (by simp [EndsNumber])
  rw [List.append_nil] at hread
  simp only [read?, hread]
  rfl

/-! ### What the reader makes -/

lemma fits_toJson (l : Literal) : Every Fits l.toJson := by
  rw [Literal.toJson]
  split_ifs with hplain hnegative
  · simp only [Bool.and_eq_true, decide_eq_true_eq] at hplain
    refine Every.leaf ?_ rfl
    have := hplain.2
    constructor <;> omega
  · simp only [Bool.and_eq_true, decide_eq_true_eq] at hnegative
    refine Every.leaf ?_ rfl
    have := hnegative.2
    have := hnegative.1.2
    constructor <;> omega
  · split <;> exact Every.leaf trivial rfl

lemma fits_number {negative : Bool} {cs rest : List Char} {j : Json}
    (h : number negative cs = some (j, rest)) : Every Fits j := by
  simp only [number, Option.bind_eq_bind, Option.bind_eq_some_iff, Option.pure_def,
    Option.some.injEq, Prod.mk.injEq] at h
  obtain ⟨-, -, -, -, -, -, rfl, -⟩ := h
  exact fits_toJson _

lemma fits_word {text : String} {j j' : Json} {cs rest : List Char} (hj : Every Fits j)
    (h : word text j cs = some (j', rest)) : Every Fits j' := by
  rw [word] at h
  split_ifs at h
  simp only [Option.some.injEq, Prod.mk.injEq] at h
  exact h.1 ▸ hj

lemma fits_array {js : List Json} (h : ∀ j ∈ js, Every Fits j) : Every Fits (.array js) :=
  .mk trivial h

/-- What stands on the right of a list comes from something on the left. -/
lemma exists_of_forall₂ {α β : Type} {R : α → β → Prop} {as : List α} {bs : List β}
    (h : List.Forall₂ R as bs) {b : β} (hb : b ∈ bs) : ∃ a ∈ as, R a b := by
  induction h with
  | nil => simp at hb
  | @cons a b' as bs hfirst _ ih =>
    rcases List.mem_cons.mp hb with rfl | hb
    · exact ⟨a, List.mem_cons_self, hfirst⟩
    · obtain ⟨a', ha', h'⟩ := ih hb
      exact ⟨a', List.mem_cons_of_mem a ha', h'⟩

lemma fits_ofMembers {ms : List (Option String × Json)} (h : ∀ m ∈ ms, Every Fits m.2) :
    Every Fits (ofMembers ms) := by
  rw [ofMembers]
  split
  · rename_i ms' hms
    refine .mk trivial fun k hk => ?_
    obtain ⟨m', hm', rfl⟩ := List.mem_map.mp hk
    obtain ⟨m, hm, hread⟩ := exists_of_forall₂ (mapM_eq_some_iff.mp hms) hm'
    obtain ⟨name, -, rfl⟩ := Option.map_eq_some_iff.mp hread
    exact h m hm
  · exact Every.leaf trivial rfl

lemma fits_value {n : ℕ}
    (hitems : ∀ room cs js rest, items n room cs = some (js, rest) → ∀ j ∈ js, Every Fits j)
    (hmembers : ∀ room cs ms rest, members n room cs = some (ms, rest) →
      ∀ m ∈ ms, Every Fits m.2) {room : ℕ} {cs rest : List Char} {j : Json}
    (h : value (n + 1) room cs = some (j, rest)) : Every Fits j := by
  have hunreadable : Every Fits .unreadable := .leaf trivial rfl
  have hstring (s : String) : Every Fits (.string s) := .leaf trivial rfl
  have hbool (b : Bool) : Every Fits (.bool b) := .leaf trivial rfl
  have hunvalued : Every Fits .null := .leaf trivial rfl
  have hitemless : Every Fits (.array []) := .leaf trivial rfl
  have hmemberless : Every Fits (.object []) := .leaf trivial rfl
  -- what is read at the front of a match stands for the value in each of its cases
  have hclosed {j' : Json} {rest' : List Char} (hj' : Every Fits j')
      (h : some (j', rest') = some (j, rest)) : Every Fits j := by
    obtain ⟨rfl, -⟩ := Prod.mk.inj (Option.some.inj h)
    exact hj'
  rw [value] at h
  split at h
  · simp at h
  rename_i c cs' _
  by_cases hquote : c == '"'
  · rw [if_pos hquote] at h
    obtain ⟨⟨text, rest'⟩, -, heq⟩ := Option.map_eq_some_iff.mp h
    cases text with
    | none => exact hclosed hunreadable (congrArg some heq)
    | some s => exact hclosed (hstring s) (congrArg some heq)
  rw [if_neg hquote] at h
  by_cases hminus : c == '-'
  · rw [if_pos hminus] at h
    exact fits_number h
  rw [if_neg hminus] at h
  by_cases hdigit : c.isDigit
  · rw [if_pos hdigit] at h
    exact fits_number h
  rw [if_neg hdigit] at h
  by_cases hnull : c == 'n'
  · rw [if_pos hnull] at h
    exact fits_word hunvalued h
  rw [if_neg hnull] at h
  by_cases htrue : c == 't'
  · rw [if_pos htrue] at h
    exact fits_word (hbool true) h
  rw [if_neg htrue] at h
  by_cases hfalse : c == 'f'
  · rw [if_pos hfalse] at h
    exact fits_word (hbool false) h
  rw [if_neg hfalse] at h
  by_cases hbracket : c == '['
  · rw [if_pos hbracket] at h
    split at h
    · exact hclosed (by split_ifs <;> assumption) h
    · obtain ⟨⟨js, rest'⟩, hjs, heq⟩ := Option.map_eq_some_iff.mp h
      refine hclosed ?_ (congrArg some heq)
      split_ifs
      · exact hunreadable
      · exact fits_array (hitems _ _ js rest' hjs)
  rw [if_neg hbracket] at h
  by_cases hbrace : c == '\x7b'
  · rw [if_pos hbrace] at h
    split at h
    · exact hclosed (by split_ifs <;> assumption) h
    · obtain ⟨⟨ms, rest'⟩, hms, heq⟩ := Option.map_eq_some_iff.mp h
      refine hclosed ?_ (congrArg some heq)
      split_ifs
      · exact hunreadable
      · exact fits_ofMembers (hmembers _ _ ms rest' hms)
  · rw [if_neg hbrace] at h
    simp at h

lemma fits_items {n : ℕ}
    (hvalue : ∀ room cs j rest, value n room cs = some (j, rest) → Every Fits j)
    (hitems : ∀ room cs js rest, items n room cs = some (js, rest) → ∀ j ∈ js, Every Fits j)
    {room : ℕ} {cs rest : List Char} {js : List Json}
    (h : items (n + 1) room cs = some (js, rest)) : ∀ j ∈ js, Every Fits j := by
  simp only [items, Option.bind_eq_bind, Option.bind_eq_some_iff] at h
  obtain ⟨⟨first, cs'⟩, hfirst, h⟩ := h
  have hfits := hvalue _ _ _ _ hfirst
  split at h
  · simp only [Option.bind_eq_some_iff] at h
    obtain ⟨⟨others, cs''⟩, hothers, h⟩ := h
    obtain ⟨rfl, -⟩ := Prod.mk.inj (Option.some.inj h)
    simpa [hfits] using hitems _ _ _ _ hothers
  · obtain ⟨rfl, -⟩ := Prod.mk.inj (Option.some.inj h)
    simpa using hfits
  · simp at h

lemma fits_members {n : ℕ}
    (hvalue : ∀ room cs j rest, value n room cs = some (j, rest) → Every Fits j)
    (hmembers : ∀ room cs ms rest, members n room cs = some (ms, rest) →
      ∀ m ∈ ms, Every Fits m.2) {room : ℕ} {cs rest : List Char}
    {ms : List (Option String × Json)} (h : members (n + 1) room cs = some (ms, rest)) :
    ∀ m ∈ ms, Every Fits m.2 := by
  rw [members] at h
  split at h
  · simp only [Option.bind_eq_bind, Option.bind_eq_some_iff] at h
    obtain ⟨⟨name, cs'⟩, -, h⟩ := h
    split at h
    · simp only [Option.bind_eq_some_iff] at h
      obtain ⟨⟨first, cs''⟩, hfirst, h⟩ := h
      have hfits := hvalue _ _ _ _ hfirst
      split at h
      · simp only [Option.bind_eq_some_iff] at h
        obtain ⟨⟨others, cs''⟩, hothers, h⟩ := h
        obtain ⟨rfl, -⟩ := Prod.mk.inj (Option.some.inj h)
        simpa [hfits] using hmembers _ _ _ _ hothers
      · obtain ⟨rfl, -⟩ := Prod.mk.inj (Option.some.inj h)
        simpa using hfits
      · simp at h
    · simp at h
  · simp at h

/-- The three parts of the reader make no whole number of more than 64 bits. -/
lemma fits_parts (n : ℕ) :
    (∀ room cs j rest, value n room cs = some (j, rest) → Every Fits j) ∧
    (∀ room cs js rest, items n room cs = some (js, rest) → ∀ j ∈ js, Every Fits j) ∧
    (∀ room cs ms rest, members n room cs = some (ms, rest) → ∀ m ∈ ms, Every Fits m.2) := by
  induction n with
  | zero => simp [value, items, members]
  | succ n ih =>
    obtain ⟨hvalue, hitems, hmembers⟩ := ih
    exact ⟨fun _ _ _ _ h => fits_value hitems hmembers h,
      fun _ _ _ _ h => fits_items hvalue hitems h,
      fun _ _ _ _ h => fits_members hvalue hmembers h⟩

/-- A text is read as a value without whole numbers of more than 64 bits. -/
lemma fits_of_read? {text : String} {j : Json} (h : read? text = some j) : Every Fits j := by
  simp only [read?] at h
  split at h
  · rename_i j' rest hvalue
    split_ifs at h
    exact Option.some.inj h ▸ (fits_parts _).1 _ _ _ _ hvalue
  · simp at h

end FlowCanvas.Json
