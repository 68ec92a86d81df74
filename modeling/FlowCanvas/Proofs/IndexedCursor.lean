import FlowCanvas.Proofs.ByteLexer
import FlowCanvas.Proofs.Framing

/-!
# Steps by token index

Readers that stand at an index of the token list instead of holding the tokens that are left. Every
access is checked. `Follows` ties such a reader to one over the tokens that are left: both refuse
with the same error, or both read the same and go on at the same place.
-/

namespace FlowCanvas.Indexed

open Brackets

variable {α β : Type}

/-- A text and its tokens. -/
structure Input where
  chars : List Char
  tokens : Phrase

/-- What the lexer guarantees: text from one token to a later one can be cut out, tokens that are
spelled like marks are marks, and string literals start with a quote. -/
structure Input.Sound (s : Input) : Prop where
  sliced : ∀ {i j : Nat} {a b : Token}, i ≤ j → s.tokens[i]? = some a → s.tokens[j]? = some b →
    ∃ cs, slice s.chars a.span.start.byte b.span.stop.byte = .ok cs
  marked : ∀ t ∈ s.tokens, ∀ m ∈ Lexer.marks, t.is m → t.kind = .punctuation
  quoted : ∀ t ∈ s.tokens, t.kind = .string → ∃ c cs, t.text.toList = c :: cs ∧
    (c = '"' ∨ c = '\x60')

/-! ### Windows -/

/-- The tokens from index `lo` up to index `hi`. -/
def Input.window (s : Input) (lo hi : Nat) : Phrase := (s.tokens.take hi).drop lo

namespace Input

variable (s : Input)

lemma drop_cases (pos : Nat) :
    (s.tokens[pos]? = none ∧ s.tokens.drop pos = [] ∧ s.tokens.length ≤ pos) ∨
      ∃ t, s.tokens[pos]? = some t ∧ s.tokens.drop pos = t :: s.tokens.drop (pos + 1) ∧
        pos < s.tokens.length := by
  by_cases h : pos < s.tokens.length
  · exact .inr ⟨s.tokens[pos], List.getElem?_eq_getElem h, List.drop_eq_getElem_cons h, h⟩
  · exact .inl ⟨List.getElem?_eq_none (by omega), List.drop_eq_nil_of_le (by omega), by omega⟩

lemma drop_of_getElem? {pos : Nat} {t : Token} (h : s.tokens[pos]? = some t) :
    s.tokens.drop pos = t :: s.tokens.drop (pos + 1) ∧ pos < s.tokens.length := by
  rcases s.drop_cases pos with ⟨hnone, -⟩ | ⟨u, hu, hdrop, hlt⟩
  · rw [h] at hnone
    cases hnone
  · obtain rfl : t = u := Option.some.inj (h.symm.trans hu)
    exact ⟨hdrop, hlt⟩

lemma window_length (lo : Nat) : s.window lo s.tokens.length = s.tokens.drop lo := by
  rw [window, List.take_length]

lemma window_of_le {lo hi : Nat} (h : hi ≤ lo) : s.window lo hi = [] :=
  List.drop_eq_nil_of_le (by rw [List.length_take]; omega)

lemma length_window {lo hi : Nat} (h : hi ≤ s.tokens.length) :
    (s.window lo hi).length = hi - lo := by
  rw [window, List.length_drop, List.length_take, Nat.min_eq_left h]

lemma window_cons {lo hi : Nat} {t : Token} (ht : s.tokens[lo]? = some t) (h : lo < hi) :
    s.window lo hi = t :: s.window (lo + 1) hi := by
  have hget : (s.tokens.take hi)[lo]? = some t := by
    rw [List.getElem?_take_of_lt h, ht]
  obtain ⟨hlt, heq⟩ := List.getElem?_eq_some_iff.mp hget
  rw [window, List.drop_eq_getElem_cons hlt, heq]
  rfl

lemma window_append {lo mid hi : Nat} (hlo : lo ≤ mid) (hmid : mid ≤ s.tokens.length)
    (hhi : mid ≤ hi) : s.window lo hi = s.window lo mid ++ s.window mid hi := by
  have htake : s.tokens.take hi = s.tokens.take mid ++ (s.tokens.take hi).drop mid := by
    conv_lhs => rw [← List.take_append_drop mid (s.tokens.take hi)]
    rw [List.take_take, Nat.min_eq_left hhi]
  rw [window, htake, List.drop_append_of_le_length (by rw [List.length_take]; omega)]
  rfl

lemma window_eq_nil_iff {lo hi : Nat} (h : hi ≤ s.tokens.length) :
    s.window lo hi = [] ↔ hi ≤ lo := by
  rw [← List.length_eq_zero_iff, s.length_window h]
  omega

lemma exists_getElem? {i : Nat} (h : i < s.tokens.length) : ∃ t, s.tokens[i]? = some t :=
  ⟨s.tokens[i], List.getElem?_eq_getElem h⟩

/-- A window ends in its last token. -/
lemma window_concat {lo hi : Nat} {t : Token} (ht : s.tokens[hi]? = some t) (h : lo ≤ hi) :
    s.window lo (hi + 1) = s.window lo hi ++ [t] := by
  obtain ⟨-, hlt⟩ := s.drop_of_getElem? ht
  rw [s.window_append h (by omega) (Nat.le_succ hi), s.window_cons ht (Nat.lt_succ_self hi),
    s.window_of_le (Nat.le_refl _)]

lemma mem_of_getElem? {i : Nat} {t : Token} (h : s.tokens[i]? = some t) : t ∈ s.tokens :=
  List.mem_of_getElem? h

end Input

/-! ### Steps -/

/-- The error of a step that wants something else than the next token. -/
def errorAt (s : Input) (expected : String) (pos : Nat) : Stop :=
  match s.tokens[pos]? with
  | some t => .refused (.unexpectedToken t.position t.text expected)
  | none => .refused (.unexpectedEnd expected)

/-- Whether the next token is spelled `mark`. -/
def sees (s : Input) (mark : String) (pos : Nat) : Bool := s.tokens[pos]?.any (·.is mark)

/-- Passes over the next token when it is spelled `mark`. -/
def eat (s : Input) (mark : String) (pos : Nat) : Option Nat :=
  if sees s mark pos then some (pos + 1) else none

/-- Reads a token that passes a test. -/
def readIf (s : Input) (test : Token → Bool) (expected : String) (pos : Nat) :
    Checked (Token × Nat) :=
  match s.tokens[pos]? with
  | some t => if test t then .ok (t, pos + 1) else .error (errorAt s expected pos)
  | none => .error (errorAt s expected pos)

/-- Reads a token spelled `mark`. -/
def expect (s : Input) (mark : String) (pos : Nat) : Checked (Token × Nat) :=
  readIf s (·.is mark) (Parser.quoted mark) pos

/-- Reads an identifier. -/
def identifier (s : Input) (pos : Nat) : Checked (Token × Nat) :=
  readIf s (·.isIdentifier) "an identifier" pos

/-- The span from the token at `start` to the last token in front of `pos`. -/
def spanFrom (s : Input) (start pos : Nat) : Checked Span := do
  let last ← minus s.tokens.length 1
  let first ← item s.tokens (min start last)
  let final ← item s.tokens (max (pos - 1) start)
  return first.span.through final.span

/-- The tokens from `lo` up to `hi`, whose text must be a slice of the source. -/
def phrase (s : Input) (lo hi : Nat) : Checked Phrase :=
  if hi ≤ lo then .ok []
  else do
    let first ← item s.tokens lo
    let last ← item s.tokens (← minus hi 1)
    let _ ← slice s.chars first.span.start.byte last.span.stop.byte
    return s.window lo hi

/-- Looks at `count` tokens from index `i` on for the first one spelled `mark` outside brackets. -/
def findFrom (s : Input) (mark : String) : Nat → Nat → Nat → Checked (Option Nat)
  | _, _, 0 => .ok none
  | depth, i, count + 1 => do
    let t ← item s.tokens i
    if depth == 0 && t.is mark then return some i
    else if t.isOpener then findFrom s mark (depth + 1) (i + 1) count
    else if t.isCloser then
      if depth == 0 then return none
      else
        let depth ← minus depth 1
        findFrom s mark depth (i + 1) count
    else findFrom s mark depth (i + 1) count

/-- The first token from `lo` up to `hi` that is spelled `mark` outside brackets. -/
def find (s : Input) (mark : String) (lo hi : Nat) : Checked (Option Nat) :=
  findFrom s mark 0 lo (min hi s.tokens.length - lo)

/-- The first token from `pos` on that is spelled `mark` outside brackets. -/
def findMark (s : Input) (mark : String) (pos : Nat) : Checked Nat := do
  match ← find s mark pos s.tokens.length with
  | some i => return i
  | none => .error (errorAt s (Parser.quoted mark) pos)

/-- Passes over a bracket group, `depth` brackets of which are open. -/
def skipGroup (s : Input) : Nat → Nat → Nat → Checked Nat
  | 0, _, _ => .error (.fault .stuck)
  | n + 1, depth, pos =>
    match s.tokens[pos]? with
    | none => .error (errorAt s "a closing bracket" pos)
    | some t =>
      let depth := if t.isOpener then depth + 1 else if t.isCloser then depth - 1 else depth
      if depth == 0 then .ok (pos + 1) else skipGroup s n depth (pos + 1)

/-- Reads the name of an annotation, `name` or `qualifier:name`. -/
def annotationName (s : Input) (pos : Nat) : Checked (String × Nat) := do
  let (first, pos) ← identifier s pos
  match eat s ":" pos with
  | none => return (first.text, pos)
  | some pos =>
    let (second, pos) ← identifier s pos
    return (first.text ++ ":" ++ second.text, pos)

/-- Passes over the value of an annotation, if it has one. -/
def annotationValue (s : Input) (pos : Nat) : Checked Nat :=
  if sees s "\x7b" pos then skipGroup s (s.tokens.length + 1) 0 pos else .ok pos

/-- Reads annotations and gives their names. -/
def annotationsFrom (s : Input) : Nat → Nat → Checked (List String × Nat)
  | 0, _ => .error (.fault .stuck)
  | n + 1, pos =>
    match eat s "@" pos with
    | none => .ok ([], pos)
    | some pos => do
      let (name, pos) ← annotationName s pos
      let pos ← annotationValue s pos
      let (names, pos) ← annotationsFrom s n pos
      return (name :: names, pos)

/-- Reads the annotations at an index. -/
def annotations (s : Input) (pos : Nat) : Checked (List String × Nat) :=
  annotationsFrom s (s.tokens.length + 1) pos

/-- Reads the qualifiers at an index. -/
def qualifiersFrom (s : Input) : Nat → Nat → Checked (List String × Nat)
  | 0, _ => .error (.fault .stuck)
  | n + 1, pos =>
    match s.tokens[pos]? with
    | none => .ok ([], pos)
    | some t =>
      if t.isWord Parser.qualifierWords then do
        let (words, pos) ← qualifiersFrom s n (pos + 1)
        return (t.text :: words, pos)
      else .ok ([], pos)

def qualifiers (s : Input) (pos : Nat) : Checked (List String × Nat) :=
  qualifiersFrom s (s.tokens.length + 1) pos

/-- Visits the stretches between commas outside brackets, from `lo` up to `hi`, and keeps what the
visits give. -/
def eachGroup (s : Input) (visit : Nat → Nat → Checked (Option α)) :
    Nat → Nat → Nat → Checked (List α)
  | 0, _, _ => .error (.fault .stuck)
  | n + 1, lo, hi =>
    if lo < hi then do
      let stop := (← find s "," lo hi).getD hi
      let visited ← visit lo stop
      let others ← eachGroup s visit n (stop + 1) hi
      return visited.toList ++ others
    else .ok []

/-! ### Readers over what is left -/

/-- A reader by index does what a reader over the tokens that are left does. `post` holds of what it
reads and of the index it goes on at. -/
inductive Follows (s : Input) (post : α → Nat → Prop) :
    Checked (α × Nat) → Except SyntaxError (α × Phrase) → Prop
  | refused (e : SyntaxError) : Follows s post (.error (.refused e)) (.error e)
  | reads (x : α) (pos : Nat) (hpos : pos ≤ s.tokens.length) (hpost : post x pos) :
    Follows s post (.ok (x, pos)) (.ok (x, s.tokens.drop pos))

/-- The reader has come as far as `low`. -/
def Past (low : Nat) (_ : α) (pos : Nat) : Prop := low ≤ pos

/-- The reader has come as far as `low`, and the last token it took ends at the place that `stop`
gives. -/
structure Ends (s : Input) (low : Nat) (stop : α → Place) (x : α) (pos : Nat) : Prop where
  past : low < pos
  last : ∃ t, s.tokens[pos - 1]? = some t ∧ t.span.stop = stop x

variable {s : Input} {post : α → Nat → Prop} {post' : β → Nat → Prop}

lemma Follows.bind {m : Checked (α × Nat)} {r : Except SyntaxError (α × Phrase)}
    {k : α × Nat → Checked (β × Nat)} {k' : α × Phrase → Except SyntaxError (β × Phrase)}
    (h : Follows s post m r)
    (hk : ∀ x pos, pos ≤ s.tokens.length → post x pos →
      Follows s post' (k (x, pos)) (k' (x, s.tokens.drop pos))) :
    Follows s post' (m >>= k) (r >>= k') := by
  cases h with
  | refused e => exact .refused e
  | reads x pos hpos hpost => exact hk x pos hpos hpost

lemma Follows.mono {post' : α → Nat → Prop} {m : Checked (α × Nat)}
    {r : Except SyntaxError (α × Phrase)} (h : Follows s post m r)
    (himp : ∀ x pos, post x pos → post' x pos) : Follows s post' m r := by
  cases h with
  | refused e => exact .refused e
  | reads x pos hpos hpost => exact .reads x pos hpos (himp x pos hpost)

lemma Follows.ite {m m' : Checked (α × Nat)} {r r' : Except SyntaxError (α × Phrase)} (c : Bool)
    (h : c = true → Follows s post m r) (h' : c = false → Follows s post m' r') :
    Follows s post (if c then m else m') (if c then r else r') := by
  cases c with
  | true => exact h rfl
  | false => exact h' rfl

lemma Follows.outcomes {m : Checked (α × Nat)} {r : Except SyntaxError (α × Phrase)}
    (h : Follows s post m r) :
    (∃ e, m = .error (.refused e) ∧ r = .error e) ∨
      ∃ x pos, m = .ok (x, pos) ∧ r = .ok (x, s.tokens.drop pos) ∧ pos ≤ s.tokens.length ∧
        post x pos := by
  cases h with
  | refused e => exact .inl ⟨e, rfl, rfl⟩
  | reads x pos hpos hpost => exact .inr ⟨x, pos, rfl, rfl, hpos, hpost⟩

lemma errorAt_eq (s : Input) (expected : String) (pos : Nat) :
    errorAt s expected pos = .refused (Parser.errorAt expected (s.tokens.drop pos)) := by
  rcases s.drop_cases pos with ⟨hnone, hdrop, -⟩ | ⟨t, hsome, hdrop, -⟩
  · rw [errorAt, hnone, hdrop]
    rfl
  · rw [errorAt, hsome, hdrop]
    rfl

lemma follows_errorAt (s : Input) (post : α → Nat → Prop) (expected : String) (pos : Nat) :
    Follows s post (.error (errorAt s expected pos))
      (.error (Parser.errorAt expected (s.tokens.drop pos))) := by
  rw [errorAt_eq]
  exact .refused _

lemma sees_eq (s : Input) (mark : String) (pos : Nat) :
    sees s mark pos = Parser.sees mark (s.tokens.drop pos) := by
  rcases s.drop_cases pos with ⟨hnone, hdrop, -⟩ | ⟨t, hsome, hdrop, -⟩
  · rw [sees, hnone, hdrop]
    rfl
  · rw [sees, hsome, hdrop]
    rfl

/-- What `eat` does by index and over what is left. -/
lemma eat_cases (s : Input) (mark : String) (pos : Nat) :
    (eat s mark pos = none ∧ Parser.eat mark (s.tokens.drop pos) = none) ∨
      ∃ t, s.tokens[pos]? = some t ∧ t.is mark ∧ eat s mark pos = some (pos + 1) ∧
        Parser.eat mark (s.tokens.drop pos) = some (s.tokens.drop (pos + 1)) ∧
        pos < s.tokens.length := by
  rcases s.drop_cases pos with ⟨hnone, hdrop, -⟩ | ⟨t, hsome, hdrop, hlt⟩
  · refine .inl ⟨?_, by rw [hdrop]; rfl⟩
    rw [eat, sees, hnone]
    rfl
  · rw [hdrop]
    cases h : t.is mark with
    | false => exact .inl ⟨by simp [eat, sees, hsome, h], by simp [Parser.eat, h]⟩
    | true =>
      exact .inr ⟨t, hsome, h, by simp [eat, sees, hsome, h], by simp [Parser.eat, h], hlt⟩

/-- A step that reads one token if it passes a test. -/
lemma follows_readIf (s : Input) (test : Token → Bool) (expected : String) (pos : Nat) :
    Follows s (Ends s pos fun t => t.span.stop) (readIf s test expected pos)
      (Parser.readIf test expected (s.tokens.drop pos)) := by
  have herror := follows_errorAt s (Ends s pos fun t : Token => t.span.stop) expected pos
  rcases s.drop_cases pos with ⟨hnone, hdrop, -⟩ | ⟨t, hsome, hdrop, hlt⟩
  · rw [hdrop] at herror
    rw [readIf, hnone, hdrop]
    exact herror
  · rw [hdrop] at herror
    rw [readIf, hsome, hdrop, Parser.readIf]
    dsimp only
    cases h : test t with
    | false => exact herror
    | true => exact .reads t (pos + 1) hlt ⟨Nat.lt_succ_self pos, t, hsome, rfl⟩

lemma follows_expect (s : Input) (mark : String) (pos : Nat) :
    Follows s (Ends s pos fun t => t.span.stop) (expect s mark pos)
      (Parser.expect mark (s.tokens.drop pos)) :=
  follows_readIf s _ _ pos

lemma follows_identifier (s : Input) (pos : Nat) :
    Follows s (Past (pos + 1)) (identifier s pos) (Parser.identifier (s.tokens.drop pos)) :=
  (follows_readIf s _ _ pos).mono fun _ _ h => h.past

/-- A mark is read by index and over what is left, or refused. -/
lemma expect_cases (s : Input) (mark : String) (pos : Nat) :
    (∃ e, expect s mark pos = .error (.refused e) ∧
      Parser.expect mark (s.tokens.drop pos) = .error e) ∨
      ∃ t, s.tokens[pos]? = some t ∧ pos < s.tokens.length ∧ expect s mark pos = .ok (t, pos + 1) ∧
        Parser.expect mark (s.tokens.drop pos) = .ok (t, s.tokens.drop (pos + 1)) := by
  rcases s.drop_cases pos with ⟨hnone, hdrop, -⟩ | ⟨t, hsome, hdrop, hlt⟩
  · refine .inl ⟨.unexpectedEnd (Parser.quoted mark), ?_, by rw [hdrop]; rfl⟩
    rw [expect, readIf, errorAt, hnone]
  · cases h : t.is mark with
    | false =>
      refine .inl ⟨Parser.errorAt (Parser.quoted mark) (s.tokens.drop pos), ?_, ?_⟩
      · simp [expect, readIf, hsome, h, errorAt_eq]
      · rw [hdrop]
        simp [Parser.expect, Parser.readIf, h]
    | true =>
      refine .inr ⟨t, hsome, hlt, ?_, ?_⟩
      · simp [expect, readIf, hsome, h]
      · rw [hdrop]
        simp [Parser.expect, Parser.readIf, h]

lemma expect_of_getElem? {mark : String} {pos : Nat} {t : Token} (ht : s.tokens[pos]? = some t)
    (hmark : t.is mark) : expect s mark pos = .ok (t, pos + 1) := by
  simp [expect, readIf, ht, hmark]

/-! ### Searches -/

lemma findFrom_eq (s : Input) (mark : String) (depth i count : Nat)
    (h : i + count ≤ s.tokens.length) :
    findFrom s mark depth i count =
      .ok ((cutFrom mark depth (s.window i (i + count))).map fun r => i + r.1.length) := by
  induction count generalizing depth i with
  | zero =>
    rw [findFrom, Nat.add_zero, s.window_of_le (Nat.le_refl i)]
    rfl
  | succ count ih =>
    obtain ⟨t, ht⟩ := s.exists_getElem? (show i < s.tokens.length by omega)
    have hnext (depth : Nat) : findFrom s mark depth (i + 1) count =
        .ok (((cutFrom mark depth (s.window (i + 1) (i + (count + 1)))).map
          fun r => (t :: r.1, r.2)).map fun r => i + r.1.length) := by
      rw [ih depth (i + 1) (by omega), show i + 1 + count = i + (count + 1) by omega,
        Option.map_map]
      congr 2
      funext r
      simp only [Function.comp_apply, List.length_cons]
      omega
    rw [findFrom, item_of_getElem? ht, s.window_cons ht (by omega), cutFrom_cons]
    simp only [hnext, bind, Except.bind]
    cases hmark : depth == 0 && t.is mark with
    | true => rfl
    | false =>
      cases hopen : t.isOpener with
      | true => rfl
      | false =>
        cases hclose : t.isCloser with
        | false => rfl
        | true =>
          cases depth with
          | zero => rfl
          | succ depth =>
            simp only [minus_of_le (Nat.le_add_left 1 depth), Nat.add_sub_cancel]
            rfl

/-- A search from one index up to another divides the tokens between them. -/
lemma find_cases (s : Input) (mark : String) (lo : Nat) {hi : Nat} (hhi : hi ≤ s.tokens.length) :
    (find s mark lo hi = .ok none ∧ cut mark (s.window lo hi) = none) ∨
      ∃ i t, find s mark lo hi = .ok (some i) ∧ lo ≤ i ∧ i < hi ∧ s.tokens[i]? = some t ∧
        t.is mark ∧ cut mark (s.window lo hi) = some (s.window lo i, t, s.window (i + 1) hi) := by
  by_cases hlo : hi ≤ lo
  · refine .inl ⟨?_, by rw [s.window_of_le hlo]; rfl⟩
    rw [find, show min hi s.tokens.length - lo = 0 by omega, findFrom]
  · have hfind := findFrom_eq s mark 0 lo (hi - lo) (by omega)
    rw [show lo + (hi - lo) = hi by omega] at hfind
    rw [find, Nat.min_eq_left hhi, hfind]
    cases hcut : cutFrom mark 0 (s.window lo hi) with
    | none => exact .inl ⟨rfl, hcut⟩
    | some r =>
      obtain ⟨before, t, after⟩ := r
      obtain ⟨hwindow, -, ht⟩ := cutFrom_spec hcut
      have hlength := congrArg List.length hwindow
      rw [s.length_window hhi, List.length_append, List.length_cons] at hlength
      have hsplit := s.window_append (Nat.le_add_right lo before.length) (by omega)
        (show lo + before.length ≤ hi by omega)
      obtain ⟨u, hu⟩ := s.exists_getElem? (show lo + before.length < s.tokens.length by omega)
      rw [s.window_cons hu (by omega), hwindow] at hsplit
      obtain ⟨hbefore, hafter⟩ := List.append_inj hsplit
        (by rw [s.length_window (by omega)]; omega)
      obtain ⟨rfl, rfl⟩ := List.cons.inj hafter
      refine .inr ⟨lo + before.length, t, rfl, by omega, by omega, hu, ht, ?_⟩
      rw [cut, hcut, ← hbefore]

/-- A search to the end reads up to a mark or refuses what is left. -/
lemma findMark_cases (s : Input) (mark : String) (pos : Nat) :
    (∃ e, findMark s mark pos = .error (.refused e) ∧
      Parser.through mark (s.tokens.drop pos) = .error e ∧
      Parser.upTo mark (s.tokens.drop pos) = .error e ∧ cut mark (s.tokens.drop pos) = none ∧
      e = Parser.errorAt (Parser.quoted mark) (s.tokens.drop pos)) ∨
      ∃ i t, findMark s mark pos = .ok i ∧ pos ≤ i ∧ i < s.tokens.length ∧
        s.tokens[i]? = some t ∧ t.is mark ∧
        cut mark (s.tokens.drop pos) = some (s.window pos i, t, s.tokens.drop (i + 1)) := by
  rcases find_cases s mark pos (Nat.le_refl _) with ⟨hfind, hcut⟩ |
    ⟨i, t, hfind, hlo, hhi, ht, hmark, hcut⟩
  · rw [s.window_length] at hcut
    refine .inl ⟨_, ?_, ?_, ?_, hcut, rfl⟩
    · rw [findMark, hfind]
      exact congrArg Except.error (errorAt_eq s _ pos)
    · rw [Parser.through, hcut]
    · rw [Parser.upTo, hcut]
  · rw [s.window_length, s.window_length] at hcut
    refine .inr ⟨i, t, ?_, hlo, hhi, ht, hmark, hcut⟩
    rw [findMark, hfind]
    rfl

lemma through_of_cut {mark : String} {ts before after : Phrase} {t : Token}
    (h : cut mark ts = some (before, t, after)) :
    Parser.through mark ts = .ok ((before, t), after) := by
  rw [Parser.through, h]

lemma upTo_of_cut {mark : String} {ts before after : Phrase} {t : Token}
    (h : cut mark ts = some (before, t, after)) :
    Parser.upTo mark ts = .ok (before, t :: after) := by
  rw [Parser.upTo, h]

/-- The text between two indices is a slice of the source. -/
lemma phrase_eq (hs : s.Sound) (lo : Nat) {hi : Nat} (hhi : hi ≤ s.tokens.length) :
    phrase s lo hi = .ok (s.window lo hi) := by
  rw [phrase]
  split_ifs with h
  · rw [s.window_of_le h]
  · obtain ⟨a, ha⟩ := s.exists_getElem? (show lo < s.tokens.length by omega)
    obtain ⟨b, hb⟩ := s.exists_getElem? (show hi - 1 < s.tokens.length by omega)
    obtain ⟨cs, hcs⟩ := hs.sliced (show lo ≤ hi - 1 by omega) ha hb
    rw [item_of_getElem? ha, minus_of_le (by omega)]
    simp only [bind, Except.bind, item_of_getElem? hb, hcs]
    rfl

lemma spanFrom_eq {start pos low : Nat} {a : Token} {stop : α → Place} {x : α}
    (ha : s.tokens[start]? = some a) (h : Ends s low stop x pos) (hlow : start ≤ low) :
    spanFrom s start pos = .ok ⟨a.span.start, stop x⟩ := by
  obtain ⟨-, hlt⟩ := s.drop_of_getElem? ha
  obtain ⟨hpast, b, hb, hstop⟩ := h
  rw [spanFrom, minus_of_le (by omega)]
  simp only [bind, Except.bind, Nat.min_eq_left (show start ≤ s.tokens.length - 1 by omega),
    item_of_getElem? ha, Nat.max_eq_left (show start ≤ pos - 1 by omega), item_of_getElem? hb,
    ← hstop]
  rfl

lemma spanFrom_token {start stop : Nat} {a t : Token} (ha : s.tokens[start]? = some a)
    (ht : s.tokens[stop]? = some t) (h : start ≤ stop) :
    spanFrom s start (stop + 1) = .ok (a.span.through t.span) :=
  spanFrom_eq ha (⟨Nat.lt_succ_of_le h, t, ht, rfl⟩ : Ends s start Span.stop t.span (stop + 1))
    le_rfl

/-! ### Annotations and qualifiers -/

lemma skipGroup_cases (s : Input) (n depth pos : Nat) (hn : s.tokens.length - pos < n) :
    (∃ next, skipGroup s n (depth + 1) pos = .ok next ∧
      dropGroupFrom (depth + 1) (s.tokens.drop pos) = some (s.tokens.drop next) ∧
      pos < next ∧ next ≤ s.tokens.length) ∨
      skipGroup s n (depth + 1) pos = .error (.refused (.unexpectedEnd "a closing bracket")) ∧
        dropGroupFrom (depth + 1) (s.tokens.drop pos) = none := by
  induction n generalizing depth pos with
  | zero => omega
  | succ n ih =>
    rcases s.drop_cases pos with ⟨hnone, hdrop, -⟩ | ⟨t, hsome, hdrop, hlt⟩
    · refine .inr ⟨?_, by rw [hdrop]; rfl⟩
      rw [skipGroup, errorAt, hnone]
    · have hnext (depth : Nat) := ih depth (pos + 1) (by omega)
      rw [hdrop, skipGroup, hsome, dropGroupFrom]
      dsimp only
      cases hopen : t.isOpener with
      | true =>
        rcases hnext (depth + 1) with ⟨next, hskip, hgroup, hpast, hend⟩ | h
        · exact .inl ⟨next, hskip, hgroup, by omega, hend⟩
        · exact .inr h
      | false =>
        cases hclose : t.isCloser with
        | true =>
          cases depth with
          | zero => exact .inl ⟨pos + 1, rfl, rfl, Nat.lt_succ_self pos, hlt⟩
          | succ depth =>
            rcases hnext depth with ⟨next, hskip, hgroup, hpast, hend⟩ | h
            · exact .inl ⟨next, hskip, hgroup, by omega, hend⟩
            · exact .inr h
        | false =>
          rcases hnext depth with ⟨next, hskip, hgroup, hpast, hend⟩ | h
          · exact .inl ⟨next, hskip, hgroup, by omega, hend⟩
          · exact .inr h

lemma annotationValue_cases (s : Input) {pos : Nat} (hpos : pos ≤ s.tokens.length) :
    (∃ next, annotationValue s pos = .ok next ∧
      Parser.annotationValue (s.tokens.drop pos) = .ok (s.tokens.drop next) ∧ pos ≤ next ∧
      next ≤ s.tokens.length) ∨
      ∃ e, annotationValue s pos = .error (.refused e) ∧
        Parser.annotationValue (s.tokens.drop pos) = .error e := by
  rw [annotationValue, Parser.annotationValue, sees_eq]
  cases hsees : Parser.sees "\x7b" (s.tokens.drop pos) with
  | false => exact .inl ⟨pos, rfl, rfl, le_rfl, hpos⟩
  | true =>
    rcases s.drop_cases pos with ⟨-, hdrop, -⟩ | ⟨t, hsome, hdrop, hlt⟩
    · rw [hdrop] at hsees
      cases hsees
    · rw [hdrop, skipGroup, hsome, dropGroup]
      dsimp only
      cases hopen : t.isOpener with
      | true =>
        rcases skipGroup_cases s s.tokens.length 0 (pos + 1) (by omega) with
          ⟨next, hskip, hgroup, hpast, hend⟩ | ⟨hskip, hgroup⟩
        · refine .inl ⟨next, hskip, ?_, by omega, hend⟩
          simp only [if_true, hgroup]
        · refine .inr ⟨_, hskip, ?_⟩
          simp only [if_true, hgroup]
      | false =>
        refine .inl ⟨pos + 1, ?_, rfl, Nat.le_succ pos, hlt⟩
        cases t.isCloser <;> rfl

lemma follows_annotationName (s : Input) (pos : Nat) :
    Follows s (Past (pos + 1)) (annotationName s pos)
      (Parser.annotationName (s.tokens.drop pos)) := by
  refine (follows_identifier s pos).bind fun first pos' hpos hpast => ?_
  dsimp only
  rcases eat_cases s ":" pos' with ⟨heat, hread⟩ | ⟨t, -, -, heat, hread, hlt⟩
  · rw [heat, hread]
    exact .reads _ pos' hpos hpast
  · rw [heat, hread]
    refine (follows_identifier s (pos' + 1)).bind fun second pos'' hpos hpast' => ?_
    exact .reads _ pos'' hpos (by unfold Past at *; omega)

lemma follows_annotationsFrom (s : Input) (n m pos : Nat) (hpos : pos ≤ s.tokens.length)
    (hn : s.tokens.length - pos < n) (hm : s.tokens.length - pos ≤ m) :
    Follows s (Past pos) (annotationsFrom s n pos)
      (Parser.annotationsFrom m (s.tokens.drop pos)) := by
  induction n generalizing m pos with
  | zero => omega
  | succ n ih =>
    rw [annotationsFrom]
    rcases eat_cases s "@" pos with ⟨heat, hread⟩ | ⟨t, -, -, heat, hread, hlt⟩
    · have hnone : Parser.annotationsFrom m (s.tokens.drop pos) = .ok ([], s.tokens.drop pos) := by
        cases m with
        | zero => rfl
        | succ m => rw [Parser.annotationsFrom, hread]
      rw [heat, hnone]
      exact .reads [] pos hpos le_rfl
    · obtain ⟨m, rfl⟩ : ∃ k, m = k + 1 := ⟨m - 1, by omega⟩
      rw [Parser.annotationsFrom, heat, hread]
      refine (follows_annotationName s (pos + 1)).bind fun name pos' hpos' hpast => ?_
      unfold Past at hpast
      dsimp only
      rcases annotationValue_cases s hpos' with
        ⟨next, hvalue, hread', hle, hend⟩ | ⟨e, hvalue, hread'⟩
      · rw [hvalue, hread']
        refine (ih m next hend (by omega) (by omega)).bind fun names pos'' hpos'' hpast' => ?_
        exact .reads _ pos'' hpos'' (by unfold Past at *; omega)
      · rw [hvalue, hread']
        exact .refused e

lemma follows_annotations (s : Input) {pos : Nat} (hpos : pos ≤ s.tokens.length) :
    Follows s (Past pos) (annotations s pos) (Parser.annotations (s.tokens.drop pos)) :=
  follows_annotationsFrom s _ _ pos hpos (by omega) (by rw [List.length_drop])

lemma qualifiersFrom_eq (s : Input) (n pos : Nat) (hpos : pos ≤ s.tokens.length)
    (hn : s.tokens.length - pos < n) :
    ∃ next, qualifiersFrom s n pos = .ok ((Parser.qualifiers (s.tokens.drop pos)).1, next) ∧
      (Parser.qualifiers (s.tokens.drop pos)).2 = s.tokens.drop next ∧ pos ≤ next ∧
      next ≤ s.tokens.length := by
  induction n generalizing pos with
  | zero => omega
  | succ n ih =>
    rcases s.drop_cases pos with ⟨hnone, hdrop, -⟩ | ⟨t, hsome, hdrop, hlt⟩
    · exact ⟨pos, by rw [qualifiersFrom, hnone, hdrop]; rfl, by rw [hdrop]; rfl, le_rfl, hpos⟩
    · rw [qualifiersFrom, hsome, hdrop, Parser.qualifiers]
      dsimp only
      cases hword : t.isWord Parser.qualifierWords with
      | false => exact ⟨pos, rfl, hdrop.symm, le_rfl, hpos⟩
      | true =>
        obtain ⟨next, hread, hrest, hle, hend⟩ := ih (pos + 1) hlt (by omega)
        exact ⟨next, by simp only [if_true, hread]; rfl, hrest, by omega, hend⟩

lemma qualifiers_eq (s : Input) {pos : Nat} (hpos : pos ≤ s.tokens.length) :
    ∃ next, qualifiers s pos = .ok ((Parser.qualifiers (s.tokens.drop pos)).1, next) ∧
      (Parser.qualifiers (s.tokens.drop pos)).2 = s.tokens.drop next ∧ pos ≤ next ∧
      next ≤ s.tokens.length :=
  qualifiersFrom_eq s _ pos hpos (by omega)

/-! ### Lists between commas -/

lemma segmentsFrom_eq_cut (depth : Nat) (ts : Phrase) :
    segmentsFrom depth ts =
      match cutFrom "," depth ts with
      | none => [ts]
      | some (before, _, after) => before :: segments after := by
  induction ts generalizing depth with
  | nil => rfl
  | cons t ts ih =>
    have hcons (depth : Nat) : consFirst t (segmentsFrom depth ts) =
        match (cutFrom "," depth ts).map fun r => (t :: r.1, r.2) with
        | none => [t :: ts]
        | some (before, _, after) => before :: segments after := by
      rw [ih]
      cases cutFrom "," depth ts <;> rfl
    rw [cutFrom_cons, segmentsFrom.eq_def]
    dsimp only
    cases hmark : depth == 0 && t.is "," with
    | true => rfl
    | false =>
      cases hopen : t.isOpener with
      | true => exact hcons (depth + 1)
      | false =>
        cases hclose : t.isCloser with
        | false => exact hcons depth
        | true =>
          cases depth with
          | zero => rfl
          | succ depth => exact hcons depth

/-- Visiting the groups by index visits the segments between commas. -/
lemma eachGroup_eq {visit : Nat → Nat → Checked (Option α)} {f : Phrase → Option α} {low hi : Nat}
    (hhi : hi ≤ s.tokens.length)
    (hvisit : ∀ lo stop, low ≤ lo → lo ≤ stop → stop ≤ hi →
      visit lo stop = .ok (f (s.window lo stop)))
    (n lo : Nat) (hlo : low ≤ lo) (hn : hi - lo < n) :
    eachGroup s visit n lo hi = .ok ((segments (s.window lo hi)).filterMap f) := by
  induction n generalizing lo with
  | zero => omega
  | succ n ih =>
    rw [eachGroup]
    by_cases hlt : lo < hi
    · have hne : (s.window lo hi).isEmpty = false := by
        rw [List.isEmpty_eq_false_iff, Ne, s.window_eq_nil_iff hhi]
        omega
      have hfilter (o : Option α) (list : List α) (p : Phrase) (ps : List Phrase) (ho : o = f p)
          (hlist : list = ps.filterMap f) : o.toList ++ list = (p :: ps).filterMap f := by
        rw [ho, hlist, List.filterMap_cons]
        cases f p <;> rfl
      rw [if_pos hlt, segments, hne, if_neg (by simp), segmentsFrom_eq_cut]
      rcases find_cases s "," lo hhi with ⟨hfind, hcut⟩ |
        ⟨i, t, hfind, hle, hlt', ht, hmark, hcut⟩
      · rw [cut] at hcut
        have hrest := ih (hi + 1) (by omega) (by omega)
        rw [s.window_of_le (Nat.le_succ hi)] at hrest
        rw [hfind, hcut]
        simp only [bind, Except.bind, Option.getD_none, hvisit lo hi hlo (by omega) le_rfl, hrest]
        exact congrArg Except.ok (hfilter _ _ _ _ rfl rfl)
      · rw [cut] at hcut
        rw [hfind, hcut]
        simp only [bind, Except.bind, Option.getD_some, hvisit lo i hlo hle (by omega),
          ih (i + 1) (by omega) (by omega)]
        exact congrArg Except.ok (hfilter _ _ _ _ rfl rfl)
    · rw [if_neg hlt, s.window_of_le (by omega)]
      rfl

end FlowCanvas.Indexed
