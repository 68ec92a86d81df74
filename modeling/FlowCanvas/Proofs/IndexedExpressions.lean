import FlowCanvas.Proofs.IndexedCursor

/-!
# Expressions by token index

What an expression is read as, with the tokens of an expression given by two indices and every
access checked. Each operand is read inside a smaller range, and what is read is the `shape` of the
expression.
-/

namespace FlowCanvas.Indexed

open Brackets

/-! ### Brackets -/

/-- Looks at the `count` tokens from `lo` on backwards for the bracket that opens the outermost of
`depth` groups. It has to be a parenthesis. -/
def openFrom (s : Input) (lo : Nat) : Nat → Nat → Checked (Option Nat)
  | 0, _ => .ok none
  | count + 1, depth => do
    let t ← item s.tokens (lo + count)
    if t.isCloser then openFrom s lo count (depth + 1)
    else if t.isOpener then
      let depth ← minus depth 1
      if depth == 0 then return if t.is "(" then some (lo + count) else none
      else openFrom s lo count depth
    else openFrom s lo count depth

/-- The parenthesis that the last token from `lo` up to `hi` closes. -/
def matchingOpen (s : Input) (lo hi : Nat) : Checked (Option Nat) :=
  if hi ≤ lo then .ok none
  else do
    let last ← item s.tokens (← minus hi 1)
    if last.is ")" then openFrom s lo (hi - lo) 0 else return none

/-- What a search backwards finds between indices. -/
structure Opens (s : Input) (lo hi : Nat) (found : Option Nat) (split : Option (Phrase × Phrase)) :
    Prop where
  split_eq : split = found.map fun i => (s.window lo i, s.window (i + 1) hi)
  bounds : ∀ i ∈ found, lo ≤ i ∧ i < hi

lemma openFrom_eq (s : Input) (lo count depth : Nat) {hi : Nat} (hcount : lo + count ≤ hi)
    (hhi : hi ≤ s.tokens.length) :
    ∃ found, openFrom s lo count (depth + 1) = .ok found ∧
      Opens s lo hi found (openBefore (depth + 1) (s.window (lo + count) hi)
        (s.window lo (lo + count)).reverse) := by
  induction count generalizing depth with
  | zero =>
    refine ⟨none, rfl, ?_, by simp⟩
    rw [s.window_of_le (show lo + 0 ≤ lo from Nat.le_refl lo)]
    rfl
  | succ count ih =>
    obtain ⟨t, ht⟩ := s.exists_getElem? (show lo + count < s.tokens.length by omega)
    have hinner : s.window (lo + count) hi = t :: s.window (lo + count + 1) hi :=
      s.window_cons ht (by omega)
    have hnext (depth : Nat) := ih depth (by omega)
    rw [openFrom, item_of_getElem? ht, ← Nat.add_assoc, s.window_concat ht (by omega),
      List.reverse_concat, openBefore, ← hinner]
    simp only [bind, Except.bind]
    cases hclose : t.isCloser with
    | true => exact hnext (depth + 1)
    | false =>
      cases hopen : t.isOpener with
      | false => exact hnext depth
      | true =>
        simp only [minus_of_le (Nat.le_add_left 1 depth), Nat.add_sub_cancel]
        cases depth with
        | succ depth => exact hnext depth
        | zero =>
          cases t.is "(" with
          | false => exact ⟨none, rfl, rfl, by simp⟩
          | true =>
            refine ⟨some (lo + count), rfl, ?_, ?_⟩
            · simp
            · rintro i ⟨⟩
              omega

lemma marked_bracket {s : Input} (hs : s.Sound) {t : Token} (ht : t ∈ s.tokens) {mark : String}
    (hmark : t.is mark) :
    (mark ∈ [")", "]", "\x7d", "|\x7d"] → t.isCloser) ∧
      (mark ∈ ["(", "[", "\x7b", "\x7b|"] → t.isOpener) := by
  have htext : t.text = mark := by
    simp only [Token.is, Bool.and_eq_true, beq_iff_eq] at hmark
    exact hmark.2
  constructor
  · intro hmem
    have hkind := hs.marked t ht mark
      ((by decide : ∀ m ∈ [")", "]", "\x7d", "|\x7d"], m ∈ Lexer.marks) mark hmem) hmark
    simpa [Token.isCloser, hkind, htext] using hmem
  · intro hmem
    have hkind := hs.marked t ht mark
      ((by decide : ∀ m ∈ ["(", "[", "\x7b", "\x7b|"], m ∈ Lexer.marks) mark hmem) hmark
    simpa [Token.isOpener, hkind, htext] using hmem

lemma matchingOpen_eq {s : Input} (hs : s.Sound) (lo : Nat) {hi : Nat}
    (hhi : hi ≤ s.tokens.length) :
    ∃ found, matchingOpen s lo hi = .ok found ∧
      Opens s lo (hi - 1) found (splitLastGroup? (s.window lo hi)) := by
  rw [matchingOpen]
  by_cases hlo : hi ≤ lo
  · refine ⟨none, if_pos hlo, ?_, by simp⟩
    rw [s.window_of_le hlo]
    rfl
  · obtain ⟨k, rfl⟩ : ∃ k, hi = k + 1 := ⟨hi - 1, by omega⟩
    obtain ⟨t, ht⟩ := s.exists_getElem? (show k < s.tokens.length by omega)
    rw [if_neg hlo, minus_of_le (by omega), s.window_concat ht (by omega), splitLastGroup?,
      List.reverse_concat]
    simp only [bind, Except.bind, Nat.add_sub_cancel, item_of_getElem? ht]
    cases hlast : t.is ")" with
    | false => exact ⟨none, rfl, rfl, by simp⟩
    | true =>
      have hclose := (marked_bracket hs (s.mem_of_getElem? ht) hlast).1 (by simp)
      have hopen := openFrom_eq s lo (k - lo) 0 (show lo + (k - lo) ≤ k by omega) (by omega)
      rw [show lo + (k - lo) = k by omega, s.window_of_le (Nat.le_refl k)] at hopen
      rw [show k + 1 - lo = k - lo + 1 by omega, openFrom, show lo + (k - lo) = k by omega,
        item_of_getElem? ht]
      simp only [bind, Except.bind, hclose, if_true]
      exact hopen

/-! ### Shapes -/

/-- Reads the expression between two indices, and what it is read as. -/
abbrev Classifier := Nat → Nat → Checked (Expression × Shape)

/-- The name in front of the mark of a named argument of `count` tokens. -/
def nameAt (s : Input) (lo count : Nat) : Checked (Option String) :=
  if 2 < count then do
    let first ← item s.tokens lo
    if first.isIdentifier then
      let second ← item s.tokens (lo + 1)
      return if second.is "=" then some first.text else none
    else return none
  else return none

/-- Reads the argument between two commas. -/
def argument (s : Input) (classify : Classifier) (lo hi : Nat) : Checked (Option Argument) :=
  if lo < hi then do
    let count ← minus hi lo
    match ← nameAt s lo count with
    | some name =>
      let (value, _) ← classify (lo + 2) hi
      return some ⟨some name, value⟩
    | none =>
      let (value, _) ← classify lo hi
      return some ⟨none, value⟩
  else return none

/-- Reads the arguments between two indices. -/
def arguments (s : Input) (classify : Classifier) (lo hi : Nat) : Checked (List Argument) :=
  eachGroup s (argument s classify) (s.tokens.length + 1) lo hi

/-- Reads what follows the word `new`. -/
def newExpression (s : Input) (classify : Classifier) (lo hi : Nat) : Checked Shape :=
  if hi ≤ lo then .ok (.new none [])
  else do
    match ← matchingOpen s lo hi with
    | some i =>
      let type ← if lo < i then (phrase s lo i).map some else pure none
      let last ← minus hi 1
      let list ← arguments s classify (i + 1) last
      return .new type list
    | none =>
      let type ← phrase s lo hi
      return .new (some type) []

/-- Whether the `count` tokens from `i` on go on with identifiers joined by points from `lo` on. -/
def pathFrom (s : Input) (lo : Nat) : Nat → Nat → Checked Bool
  | 0, _ => .ok true
  | count + 1, i => do
    let t ← item s.tokens i
    let offset ← minus i lo
    if if offset % 2 == 0 then t.isIdentifier else t.is "." then pathFrom s lo count (i + 1)
    else return false

/-- The name in front of the colon of a qualified name of two tokens. -/
def qualifierAt (s : Input) (lo count : Nat) : Checked (Option String) :=
  if count == 2 then do
    let colon ← item s.tokens (lo + 1)
    if colon.is ":" then
      let q ← item s.tokens lo
      return if q.isIdentifier then some q.text else none
    else return none
  else return none

/-- Reads the client of a remote call, whose arrow stands two tokens in front of the bracket. -/
def clientAt (s : Input) (lo i : Nat) : Checked (Option Phrase) := do
  let stop ← minus i 2
  let arrow ← item s.tokens stop
  if arrow.is "->" then
    let path ← pathFrom s lo (stop - lo) lo
    if path then
      let count ← minus stop lo
      if count % 2 == 1 then return some (← phrase s lo stop) else return none
    else return none
  else return none

/-- Reads a call between two indices, if there is one. -/
def callExpression (s : Input) (classify : Classifier) (lo hi : Nat) : Checked (Option Shape) := do
  match ← matchingOpen s lo hi with
  | none => return none
  | some i =>
    if i == lo then return none
    else
      let before ← minus i 1
      let name ← item s.tokens before
      if name.isIdentifier then
        let last ← minus hi 1
        let list ← arguments s classify (i + 1) last
        let count ← minus before lo
        if count == 0 then return some (.call none name.text list)
        else
          match ← qualifierAt s lo count with
          | some q => return some (.call (some q) name.text list)
          | none =>
            let client ← clientAt s lo i
            return client.map fun client => .remote client name.text list
      else return none

/-- Reads the expression between two indices. Its operands are read on the way. -/
def classify (s : Input) : Nat → Classifier
  | 0, _, _ => .error (.fault .stuck)
  | n + 1, lo, hi => do
    let first ← item s.tokens lo
    let _ ← item s.tokens (← minus hi 1)
    let _ ← phrase s lo hi
    let count ← minus hi lo
    let shape ←
      if 1 < count && first.isWord ["check", "checkpanic"] then do
        let (inner, _) ← classify s n (lo + 1) hi
        pure (Shape.check (first.text == "checkpanic") inner)
      else if first.isWord ["new"] then newExpression s (classify s n) (lo + 1) hi
      else do
        match ← callExpression s (classify s n) lo hi with
        | some call => pure call
        | none =>
          if count == 1 then pure (Shape.ofToken first)
          else if count == 2 && first.is "(" then
            let second ← item s.tokens (lo + 1)
            pure (if second.is ")" then .literal else .other)
          else pure .other
    return (⟨first, s.window (lo + 1) hi⟩, shape)

/-- Reads all the tokens between two indices as an expression. -/
def expression (s : Input) (lo hi : Nat) : Checked Expression :=
  if hi ≤ lo then .error (errorAt s "an expression" lo)
  else (classify s s.tokens.length lo hi).map Prod.fst

/-! ### The shapes of expressions -/

/-- An expression between two indices is read as what its shape says. -/
def Reads (s : Input) (run : Classifier) (lo hi : Nat) : Prop :=
  ∃ t, s.tokens[lo]? = some t ∧
    run lo hi = .ok (⟨t, s.window (lo + 1) hi⟩, Expression.shape ⟨t, s.window (lo + 1) hi⟩)

variable {s : Input} {run : Classifier}

lemma argument_eq {low lo hi top : Nat} (htop : top ≤ s.tokens.length)
    (hrun : ∀ lo hi, low ≤ lo → lo < hi → hi ≤ top → Reads s run lo hi) (hlo : low ≤ lo)
    (hhi : hi ≤ top) : argument s run lo hi = .ok (Argument.ofPhrase? (s.window lo hi)) := by
  rw [argument]
  by_cases hlt : lo < hi
  · obtain ⟨t, ht, hread⟩ := hrun lo hi hlo hlt hhi
    rw [if_pos hlt, minus_of_le (by omega)]
    simp only [bind, Except.bind, nameAt, hread, item_of_getElem? ht]
    rw [s.window_cons ht hlt]
    by_cases hlong : 2 < hi - lo
    · obtain ⟨u, hu⟩ := s.exists_getElem? (show lo + 1 < s.tokens.length by omega)
      obtain ⟨v, hv, hread'⟩ := hrun (lo + 2) hi (by omega) (by omega) hhi
      rw [s.window_cons hu (by omega), s.window_cons hv (by omega)]
      simp only [if_pos hlong, Argument.ofPhrase?, item_of_getElem? hu]
      cases hidentifier : t.isIdentifier with
      | false => rfl
      | true =>
        cases hequals : u.is "=" with
        | false => rfl
        | true =>
          simp only [if_true, Bool.and_self, pure, Except.pure, hread']
    · rw [if_neg hlong]
      by_cases hone : lo + 1 < hi
      · obtain ⟨u, hu⟩ := s.exists_getElem? (show lo + 1 < s.tokens.length by omega)
        rw [s.window_cons hu hone, s.window_of_le (show hi ≤ lo + 1 + 1 by omega)]
        rfl
      · rw [s.window_of_le (show hi ≤ lo + 1 by omega)]
        rfl
  · rw [if_neg hlt, s.window_of_le (by omega)]
    rfl

lemma arguments_eq {lo hi : Nat} (hhi : hi ≤ s.tokens.length)
    (hrun : ∀ lo' hi', lo ≤ lo' → lo' < hi' → hi' ≤ hi → Reads s run lo' hi') :
    arguments s run lo hi = .ok (Argument.listOf (s.window lo hi)) :=
  eachGroup_eq hhi (fun _ _ hlo _ hstop => argument_eq hhi hrun hlo hstop) _ lo le_rfl (by omega)

lemma newExpression_eq (hs : s.Sound) {lo hi : Nat} (hhi : hi ≤ s.tokens.length)
    (hrun : ∀ lo' hi', lo ≤ lo' → lo' < hi' → hi' ≤ hi → Reads s run lo' hi') :
    newExpression s run lo hi = .ok (Shape.ofNew (s.window lo hi)) := by
  rw [newExpression]
  by_cases hle : hi ≤ lo
  · rw [if_pos hle, s.window_of_le hle]
    rfl
  · obtain ⟨t, ht⟩ := s.exists_getElem? (show lo < s.tokens.length by omega)
    obtain ⟨found, hfound, hopens⟩ := matchingOpen_eq hs lo hhi
    have hcons := s.window_cons ht (show lo < hi by omega)
    rw [if_neg hle, hfound, Shape.ofNew.eq_def]
    simp only [bind, Except.bind, hopens.split_eq]
    rw [hcons]
    cases found with
    | none =>
      simp only [phrase_eq hs lo hhi, hcons, Option.map_none]
      rfl
    | some i =>
      obtain ⟨hlo, hi'⟩ := hopens.bounds i rfl
      have hlist : arguments s run (i + 1) (hi - 1) =
          .ok (Argument.listOf (s.window (i + 1) (hi - 1))) :=
        arguments_eq (by omega) fun lo' hi' hlo' hlt hhi' => hrun lo' hi' (by omega) hlt (by omega)
      simp only [Option.map_some, minus_of_le (show 1 ≤ hi by omega), hlist]
      by_cases hempty : lo < i
      · rw [if_pos hempty, phrase_eq hs lo (by omega), s.window_cons ht hempty]
        rfl
      · rw [if_neg hempty, s.window_of_le (show i ≤ lo by omega)]
        rfl

/-- Whether tokens are in turn identifiers and points. -/
def alternates : Bool → Phrase → Bool
  | _, [] => true
  | named, t :: ts => (if named then t.isIdentifier else t.is ".") && alternates (!named) ts

lemma isPath_eq (ts : Phrase) : Shape.isPath ts = (alternates true ts && ts.length % 2 == 1) := by
  fun_induction Shape.isPath ts with
  | case1 => rfl
  | case2 t => simp [alternates]
  | case3 t u ts ih =>
    have hlength : (t :: u :: ts).length % 2 = ts.length % 2 := by
      simp only [List.length_cons]
      omega
    rw [hlength, ih]
    simp [alternates, Bool.and_assoc]

lemma pathFrom_eq (s : Input) (lo count k : Nat) (h : lo + k + count ≤ s.tokens.length) :
    pathFrom s lo count (lo + k) =
      .ok (alternates (k % 2 == 0) (s.window (lo + k) (lo + k + count))) := by
  induction count generalizing k with
  | zero =>
    rw [s.window_of_le (show lo + k + 0 ≤ lo + k from Nat.le_refl _)]
    rfl
  | succ count ih =>
    obtain ⟨t, ht⟩ := s.exists_getElem? (show lo + k < s.tokens.length by omega)
    have hparity : ((k + 1) % 2 == 0) = !(k % 2 == 0) := by
      rcases Nat.mod_two_eq_zero_or_one k with hk | hk
      · simp [hk, show (k + 1) % 2 = 1 by omega]
      · simp [hk, show (k + 1) % 2 = 0 by omega]
    have hnext := ih (k + 1) (by omega)
    rw [hparity, ← Nat.add_assoc, show lo + k + 1 + count = lo + k + (count + 1) by omega] at hnext
    rw [pathFrom, item_of_getElem? ht, minus_of_le (Nat.le_add_right lo k), Nat.add_sub_cancel_left,
      s.window_cons ht (by omega), alternates]
    simp only [bind, Except.bind, hnext]
    cases (if (k % 2 == 0) = true then t.isIdentifier else t.is ".") <;> rfl

lemma qualifier?_of_length {ts : Phrase} (h : ts.length ≠ 2) : Shape.qualifier? ts = none := by
  rcases ts with _ | ⟨t, _ | ⟨u, _ | ⟨v, ts⟩⟩⟩
  · rfl
  · rfl
  · simp at h
  · rfl

lemma qualifierAt_eq (s : Input) {lo hi : Nat} (hhi : hi ≤ s.tokens.length) :
    qualifierAt s lo (hi - lo) = .ok (Shape.qualifier? (s.window lo hi)) := by
  rw [qualifierAt]
  by_cases htwo : hi - lo = 2
  · obtain rfl : hi = lo + 2 := by omega
    obtain ⟨q, hq⟩ := s.exists_getElem? (show lo < s.tokens.length by omega)
    obtain ⟨colon, hcolon⟩ := s.exists_getElem? (show lo + 1 < s.tokens.length by omega)
    rw [if_pos (by simp), s.window_cons hq (by omega), s.window_cons hcolon (by omega),
      s.window_of_le (show lo + 2 ≤ lo + 1 + 1 from Nat.le_refl _)]
    simp only [bind, Except.bind, item_of_getElem? hq, item_of_getElem? hcolon, Shape.qualifier?]
    cases colon.is ":" with
    | false => simp [pure, Except.pure]
    | true => simp [pure, Except.pure]
  · rw [if_neg (by simpa using htwo), qualifier?_of_length]
    · rfl
    · rw [s.length_window hhi]
      exact htwo

lemma clientAt_eq (hs : s.Sound) {lo k : Nat} (hlo : lo ≤ k) (hk : k + 2 ≤ s.tokens.length) :
    clientAt s lo (k + 2) = .ok
      (if (s.window lo (k + 1)).getLast?.any (·.is "->") &&
          Shape.isPath (s.window lo (k + 1)).dropLast then
        some (s.window lo (k + 1)).dropLast
      else none) := by
  obtain ⟨arrow, harrow⟩ := s.exists_getElem? (show k < s.tokens.length by omega)
  have hpath : pathFrom s lo (k - lo) lo = .ok (alternates true (s.window lo k)) := by
    have h := pathFrom_eq s lo (k - lo) 0 (by omega)
    rw [Nat.add_zero, show lo + (k - lo) = k by omega] at h
    exact h
  rw [clientAt, minus_of_le (Nat.le_add_left 2 k), s.window_concat harrow hlo, isPath_eq]
  simp only [bind, Except.bind, Nat.add_sub_cancel, item_of_getElem? harrow, hpath,
    minus_of_le hlo, phrase_eq hs lo (show k ≤ s.tokens.length by omega), List.getLast?_concat,
    List.dropLast_concat, Option.any_some, s.length_window (show k ≤ s.tokens.length by omega)]
  cases arrow.is "->" with
  | false => rfl
  | true =>
    cases alternates true (s.window lo k) with
    | false => rfl
    | true =>
      cases (k - lo) % 2 == 1 <;> rfl

lemma callExpression_eq (hs : s.Sound) {lo hi : Nat} (hhi : hi ≤ s.tokens.length)
    (hrun : ∀ lo' hi', lo < lo' → lo' < hi' → hi' < hi → Reads s run lo' hi') :
    callExpression s run lo hi = .ok (Shape.ofCall? (s.window lo hi)) := by
  obtain ⟨found, hfound, hopens⟩ := matchingOpen_eq hs lo hhi
  rw [callExpression, hfound, Shape.ofCall?, hopens.split_eq]
  simp only [bind, Except.bind]
  cases found with
  | none => rfl
  | some i =>
    obtain ⟨hlo, hi'⟩ := hopens.bounds i rfl
    simp only [Option.map_some]
    by_cases hfirst : i = lo
    · subst hfirst
      rw [s.window_of_le (Nat.le_refl i), if_pos (by simp)]
      rfl
    · obtain ⟨k, rfl⟩ : ∃ k, i = k + 1 := ⟨i - 1, by omega⟩
      obtain ⟨name, hname⟩ := s.exists_getElem? (show k < s.tokens.length by omega)
      have hlist : arguments s run (k + 1 + 1) (hi - 1) =
          .ok (Argument.listOf (s.window (k + 1 + 1) (hi - 1))) :=
        arguments_eq (by omega) fun lo' hi' hlo' hlt hhi' => hrun lo' hi' (by omega) hlt (by omega)
      rw [if_neg (by simpa using hfirst), s.window_concat hname (by omega), List.getLast?_concat,
        List.dropLast_concat]
      simp only [minus_of_le (Nat.le_add_left 1 k), Nat.add_sub_cancel, item_of_getElem? hname,
        minus_of_le (show 1 ≤ hi by omega), hlist, minus_of_le (show lo ≤ k by omega),
        qualifierAt_eq s (show k ≤ s.tokens.length by omega), Shape.ofCallee?]
      cases hidentifier : name.isIdentifier with
      | false => rfl
      | true =>
        by_cases hzero : k - lo = 0
        · rw [s.window_of_le (show k ≤ lo by omega)]
          simp [hzero, pure, Except.pure]
        · obtain ⟨j, rfl⟩ : ∃ j, k = j + 1 := ⟨k - 1, by omega⟩
          have hhead : (s.window lo (j + 1)).isEmpty = false := by
            rw [List.isEmpty_eq_false_iff, Ne, s.window_eq_nil_iff (by omega)]
            omega
          have hcount : (j + 1 - lo == 0) = false := by simpa using hzero
          simp only [hhead, hcount, clientAt_eq hs (show lo ≤ j by omega) (by omega), if_true,
            Bool.not_true, Bool.false_eq_true, if_false]
          cases Shape.qualifier? (s.window lo (j + 1)) with
          | some q => rfl
          | none =>
            dsimp only
            cases (s.window lo (j + 1)).getLast?.any (·.is "->") &&
              Shape.isPath (s.window lo (j + 1)).dropLast <;> rfl

/-- An expression is read inside of its range, and each operand inside of a smaller one. -/
lemma reads_classify (hs : s.Sound) (n lo hi : Nat) (hlo : lo < hi) (hhi : hi ≤ s.tokens.length)
    (hn : hi - lo ≤ n) : Reads s (classify s n) lo hi := by
  induction n generalizing lo hi with
  | zero => omega
  | succ n ih =>
    obtain ⟨first, hfirst⟩ := s.exists_getElem? (show lo < s.tokens.length by omega)
    obtain ⟨last, hlast⟩ := s.exists_getElem? (show hi - 1 < s.tokens.length by omega)
    have hinner (lo' hi' : Nat) (hlo' : lo < lo') (hlt : lo' < hi') (hhi' : hi' ≤ hi) :
        Reads s (classify s n) lo' hi' := ih lo' hi' hlt (by omega) (by omega)
    have hnew := newExpression_eq hs hhi hinner
    have hcall := callExpression_eq hs hhi fun lo' hi' hlo' hlt hhi' =>
      hinner lo' hi' hlo' hlt (by omega)
    refine ⟨first, hfirst, ?_⟩
    rw [classify]
    simp only [bind, Except.bind, item_of_getElem? hfirst, minus_of_le (show 1 ≤ hi by omega),
      item_of_getElem? hlast, phrase_eq hs lo hhi, minus_of_le (show lo ≤ hi by omega), hnew, hcall]
    by_cases hone : hi = lo + 1
    · subst hone
      have hnone : Shape.ofCall? [first] = none := by
        rw [Shape.ofCall?]
        cases h : first.is ")" <;> simp [splitLastGroup?, h, openBefore]
      rw [s.window_cons hfirst hlo, s.window_of_le (Nat.le_refl _), hnone, Expression.shape,
        Nat.add_sub_cancel_left]
      cases hword : first.isWord ["new"] <;> rfl
    · obtain ⟨second, hsecond, hread⟩ := hinner (lo + 1) hi (by omega) (by omega) le_rfl
      have hcount : (hi - lo == 2) = (s.window (lo + 1 + 1) hi).isEmpty := by
        rw [Bool.eq_iff_iff, beq_iff_eq, List.isEmpty_iff, s.window_eq_nil_iff hhi]
        omega
      rw [s.window_cons hfirst hlo, s.window_cons hsecond (by omega), Expression.shape]
      simp only [hread, item_of_getElem? hsecond, Expression.tokens, hcount,
        show (hi - lo == 1) = false by simp; omega, show decide (1 < hi - lo) = true by simp; omega,
        Bool.true_and]
      cases first.isWord ["check", "checkpanic"] with
      | true => rfl
      | false =>
        cases first.isWord ["new"] with
        | true => rfl
        | false =>
          cases Shape.ofCall? (first :: second :: s.window (lo + 1 + 1) hi) with
          | some call => rfl
          | none =>
            cases (s.window (lo + 1 + 1) hi).isEmpty with
            | false => rfl
            | true =>
              cases first.is "(" with
              | false => rfl
              | true => cases second.is ")" <;> rfl

/-- Reading the tokens in front of a token as an expression. -/
lemma expression_eq (hs : s.Sound) {lo hi : Nat} {next : Token} (hlo : lo ≤ hi)
    (hnext : s.tokens[hi]? = some next) :
    expression s lo hi = lift (Parser.expression next (s.window lo hi)) := by
  obtain ⟨-, hhi⟩ := s.drop_of_getElem? hnext
  rw [expression]
  by_cases hle : hi ≤ lo
  · obtain rfl : lo = hi := by omega
    rw [if_pos hle, s.window_of_le hle, errorAt, hnext]
    rfl
  · obtain ⟨first, hfirst, hread⟩ := reads_classify hs s.tokens.length lo hi (by omega) (by omega)
      (by omega)
    rw [if_neg hle, hread, s.window_cons hfirst (by omega)]
    rfl

end FlowCanvas.Indexed
