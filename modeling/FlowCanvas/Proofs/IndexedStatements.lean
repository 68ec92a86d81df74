import FlowCanvas.Proofs.IndexedExpressions

/-!
# Statements by token index

The readers of statements and blocks, standing at an index. Each round of a loop and each nested
block takes a token, so no loop outlasts the number of tokens, and every reader follows the one over
the tokens that are left.
-/

namespace FlowCanvas.Indexed

open Brackets

/-! ### Readers -/

/-- Reads the initializer behind the mark at an index, if there is one. -/
def initializer (s : Input) (mark : Option Nat) (stop : Nat) : Checked (Option Expression) :=
  match mark with
  | none => .ok none
  | some i => (expression s (i + 1) stop).map some

/-- Reads `[type] name [= value];`, whose first token, annotations and qualifiers included, stands
at `start`. -/
def declaration (s : Input) (start : Nat) (names words : List String) (pos : Nat) :
    Checked (Declaration × Nat) := do
  let stop ← findMark s ";" pos
  let mark ← find s "=" pos stop
  if mark.getD stop ≤ pos then .error (errorAt s "a variable declaration" pos)
  else
    let last ← minus (mark.getD stop) 1
    let name ← item s.tokens last
    if name.isIdentifier then
      let type ← phrase s pos last
      let value ← initializer s mark stop
      let span ← spanFrom s start (stop + 1)
      return (⟨names, words, type, name.text, value, span⟩, stop + 1)
    else .error (errorAt s "a variable declaration" pos)

/-- Whether the tokens between two indices read as a type and a name. -/
def looksDeclared (s : Input) (lo hi : Nat) : Checked Bool :=
  if hi < lo + 2 then .ok false
  else do
    let first ← item s.tokens lo
    let name ← item s.tokens (← minus hi 1)
    let before ← item s.tokens (← minus hi 2)
    return !first.isWord Parser.expressionWords && name.isIdentifier && Parser.endsType before

/-- Reads a declaration, an assignment or an expression with its semicolon. -/
def simpleStatement (s : Input) (start pos : Nat) : Checked (Statement × Nat) := do
  let stop ← findMark s ";" pos
  let mark ← find s "=" pos stop
  if ← looksDeclared s pos (mark.getD stop) then
    let (declared, pos) ← declaration s start [] [] pos
    return (.declaration declared, pos)
  else
    match mark with
    | some i =>
      if i == pos then .error (errorAt s "an assignment target" pos)
      else
        let target ← phrase s pos i
        let value ← expression s (i + 1) stop
        let span ← spanFrom s start (stop + 1)
        return (.assignment target value span, stop + 1)
    | none =>
      let value ← expression s pos stop
      let span ← spanFrom s start (stop + 1)
      return (.expression value span, stop + 1)

/-- Passes over a statement with no shape of its own and gives its last token. -/
def skipStatement (s : Input) : Nat → Nat → Nat → Checked (Token × Nat)
  | 0, _, _ => .error (.fault .stuck)
  | n + 1, depth, pos =>
    match s.tokens[pos]? with
    | none => .error (errorAt s "the end of the statement" pos)
    | some t =>
      if t.isOpener then skipStatement s n (depth + 1) (pos + 1)
      else if t.isCloser then
        if depth == 0 then .error (.refused (.unexpectedToken t.position t.text "a statement"))
        else do
          let depth ← minus depth 1
          if depth == 0 && t.is "\x7d" && !sees s "on" (pos + 1) then return (t, pos + 1)
          else skipStatement s n depth (pos + 1)
      else if depth == 0 && t.is ";" then .ok (t, pos + 1)
      else skipStatement s n depth (pos + 1)

/-- Reads a statement with no shape of its own. -/
def unsupportedStatement (s : Input) (construct : String) (start : Nat) :
    Checked (Statement × Nat) := do
  let (_, pos) ← skipStatement s (s.tokens.length + 1) 0 start
  let span ← spanFrom s start pos
  return (.unsupported construct span, pos)

/-- Reads a condition, which ends in front of a brace. -/
def condition (s : Input) (pos : Nat) : Checked (Expression × Nat) := do
  let brace ← findMark s "\x7b" pos
  let value ← expression s pos brace
  return (value, brace)

/-- Reads an `if` with its blocks. -/
def conditional (s : Input) (block : Nat → Checked (Block × Nat)) :
    Nat → Nat → Checked (Conditional × Nat)
  | 0, _ => .error (.fault .stuck)
  | n + 1, start => do
    let (_, pos) ← expect s "if" start
    let (value, pos) ← condition s pos
    let (body, pos) ← block pos
    match eat s "else" pos with
    | none =>
      let span ← spanFrom s start pos
      return (.mk value body .absent span, pos)
    | some pos =>
      if sees s "if" pos then
        let (next, pos) ← conditional s block n pos
        let span ← spanFrom s start pos
        return (.mk value body (.chained next) span, pos)
      else
        let (last, pos) ← block pos
        let span ← spanFrom s start pos
        return (.mk value body (.block last) span, pos)

/-- Reads a `while`, whose word stands at `start`. -/
def loop (s : Input) (block : Nat → Checked (Block × Nat)) (start : Nat) :
    Checked (Statement × Nat) := do
  let (value, pos) ← condition s (start + 1)
  let (body, pos) ← block pos
  let span ← spanFrom s start pos
  return (.loop value body span, pos)

/-- Reads a `return`, `fail` or `panic`, whose word is the token `t` at `start`. -/
def exit (s : Input) (kind : ExitKind) (t : Token) (start : Nat) : Checked (Statement × Nat) := do
  let stop ← findMark s ";" (start + 1)
  let value ←
    if start + 1 < stop then (expression s (start + 1) stop).map some else pure none
  let span ← spanFrom s start (stop + 1)
  if kind == .panic && value.isNone then
    .error (.refused (.unexpectedToken t.position ";" "a panic expression"))
  else return (.exit kind value span, stop + 1)

/-- Reads a `break` or `continue`, whose word stands at `start`. -/
def jump (s : Input) (kind : JumpKind) (start : Nat) : Checked (Statement × Nat) := do
  let (_, pos) ← expect s ";" (start + 1)
  let span ← spanFrom s start pos
  return (.jump kind span, pos)

/-- Reads a declaration that starts with an annotation or with `final`. -/
def markedDeclaration (s : Input) (start : Nat) : Checked (Statement × Nat) := do
  let (names, pos) ← annotations s start
  let (words, pos) :=
    match eat s "final" pos with
    | some pos => (["final"], pos)
    | none => ([], pos)
  let (declared, pos) ← declaration s start names words pos
  return (.declaration declared, pos)

/-- Reads a statement. -/
def statement (s : Input) (block : Nat → Checked (Block × Nat)) (start : Nat) :
    Checked (Statement × Nat) :=
  match s.tokens[start]? with
  | none => .error (errorAt s "a statement" start)
  | some t =>
    if t.isWord Parser.unsupportedWords then unsupportedStatement s t.text start
    else if t.isWord ["if"] then do
      let (read, pos) ← conditional s block (s.tokens.length + 1) start
      return (.conditional read, pos)
    else if t.isWord ["while"] then loop s block start
    else if t.isWord ["return"] then exit s .return t start
    else if t.isWord ["fail"] then exit s .fail t start
    else if t.isWord ["panic"] then exit s .panic t start
    else if t.isWord ["break"] then jump s .break start
    else if t.isWord ["continue"] then jump s .continue start
    else if t.is "\x7b" then unsupportedStatement s "block" start
    else if t.is "@" || t.is "final" then markedDeclaration s start
    else simpleStatement s start start

/-- Reads a block, given how the statements after its opening brace are read. -/
def blockWith (s : Input) (statements : Nat → Checked ((List Statement × Token) × Nat))
    (start : Nat) : Checked (Block × Nat) := do
  let (_, pos) ← expect s "\x7b" start
  let ((body, _), pos) ← statements pos
  let span ← spanFrom s start pos
  return (.mk body span, pos)

/-- Reads statements up to a closing brace, and that brace. -/
def statements (s : Input) : Nat → Nat → Checked ((List Statement × Token) × Nat)
  | 0, _ => .error (.fault .stuck)
  | n + 1, pos =>
    if sees s "\x7d" pos then do
      let (close, pos) ← expect s "\x7d" pos
      return (([], close), pos)
    else
      match s.tokens[pos]? with
      | none => .error (errorAt s (Parser.quoted "\x7d") pos)
      | some _ => do
        let (first, pos) ← statement s (blockWith s (statements s n)) pos
        let ((others, close), pos) ← statements s n pos
        return ((first :: others, close), pos)

/-- Reads a block. -/
def block (s : Input) (pos : Nat) : Checked (Block × Nat) :=
  blockWith s (statements s (s.tokens.length + 1)) pos

/-! ### Declarations -/

variable {s : Input}

/-- A search for a mark divides the tokens between two indices, or takes all of them. -/
lemma find_cutOrAll (s : Input) (mark : String) {lo hi : Nat} (hlo : lo ≤ hi)
    (hhi : hi ≤ s.tokens.length) :
    ∃ found, find s mark lo hi = .ok found ∧
      cutOrAll mark (s.window lo hi) =
        (s.window lo (found.getD hi), found.map fun i => s.window (i + 1) hi) ∧
      lo ≤ found.getD hi ∧ found.getD hi ≤ hi ∧ ∀ i ∈ found, lo ≤ i ∧ i < hi := by
  rcases find_cases s mark lo hhi with ⟨hfind, hcut⟩ | ⟨i, t, hfind, hle, hlt, -, -, hcut⟩
  · exact ⟨none, hfind, by rw [cutOrAll, hcut]; rfl, hlo, le_rfl, by simp⟩
  · refine ⟨some i, hfind, by rw [cutOrAll, hcut]; rfl, hle, by simpa using hlt.le, ?_⟩
    rintro j ⟨⟩
    exact ⟨hle, hlt⟩

lemma initializer_eq (hs : s.Sound) {mark : Option Nat} {stop : Nat} {next : Token}
    (hnext : s.tokens[stop]? = some next) (hmark : ∀ i ∈ mark, i < stop) :
    initializer s mark stop =
      lift (Parser.initializer next (mark.map fun i => s.window (i + 1) stop)) := by
  cases mark with
  | none => rfl
  | some i =>
    rw [initializer, expression_eq hs (hmark i rfl) hnext]
    simp only [Option.map_some, Parser.initializer]
    cases Parser.expression next (s.window (i + 1) stop) <;> rfl

lemma follows_declaration (hs : s.Sound) {start pos : Nat} {a : Token}
    (ha : s.tokens[start]? = some a) (hstart : start ≤ pos) (names words : List String) :
    Follows s (Past (pos + 1)) (declaration s start names words pos)
      (Parser.declaration a names words (s.tokens.drop pos)) := by
  rw [declaration, Parser.declaration]
  rcases findMark_cases s ";" pos with ⟨e, hfind, hthrough, -⟩ |
    ⟨stop, t, hfind, hpos, hstop, ht, -, hcut⟩
  · rw [hfind, hthrough]
    exact .refused e
  · obtain ⟨mark, hmark, hleft, hlo, hhi, hbounds⟩ := find_cutOrAll s "=" hpos hstop.le
    rw [hfind, through_of_cut hcut]
    simp only [bind, Except.bind, hmark, hleft]
    by_cases hempty : mark.getD stop ≤ pos
    · rw [if_pos hempty, s.window_of_le hempty]
      exact follows_errorAt s _ _ pos
    · obtain ⟨k, hk⟩ : ∃ k, mark.getD stop = k + 1 := ⟨mark.getD stop - 1, by omega⟩
      obtain ⟨name, hname⟩ := s.exists_getElem? (show k < s.tokens.length by omega)
      rw [if_neg hempty, hk, minus_of_le (Nat.le_add_left 1 k), s.window_concat hname (by omega),
        List.getLast?_concat, List.dropLast_concat]
      simp only [Nat.add_sub_cancel, item_of_getElem? hname]
      cases name.isIdentifier with
      | false => exact follows_errorAt s _ _ pos
      | true =>
        have hvalue := initializer_eq hs ht fun i hi => (hbounds i hi).2
        simp only [if_true, phrase_eq hs pos (show k ≤ s.tokens.length by omega), hvalue,
          spanFrom_token ha ht (hstart.trans hpos)]
        cases Parser.initializer t (mark.map fun i => s.window (i + 1) stop) with
        | error e => exact .refused e
        | ok value => exact .reads _ (stop + 1) hstop (Nat.succ_le_succ hpos)

/-! ### Statements without blocks -/

lemma looksDeclared_eq (s : Input) (lo : Nat) {hi : Nat} (hhi : hi ≤ s.tokens.length) :
    looksDeclared s lo hi = .ok (Parser.looksDeclared (s.window lo hi)) := by
  have hlength : (s.window lo hi).length = hi - lo := s.length_window hhi
  rw [looksDeclared]
  by_cases hshort : hi < lo + 2
  · rw [if_pos hshort]
    rcases h : s.window lo hi with _ | ⟨t, _ | ⟨u, ts⟩⟩
    · rfl
    · rfl
    · rw [h] at hlength
      simp at hlength
      omega
  · obtain ⟨k, rfl⟩ : ∃ k, hi = k + 1 + 1 := ⟨hi - 2, by omega⟩
    obtain ⟨first, hfirst⟩ := s.exists_getElem? (show lo < s.tokens.length by omega)
    obtain ⟨before, hbefore⟩ := s.exists_getElem? (show k < s.tokens.length by omega)
    obtain ⟨name, hname⟩ := s.exists_getElem? (show k + 1 < s.tokens.length by omega)
    have hhead : (s.window lo (k + 1 + 1)).head? = some first := by
      rw [s.window_cons hfirst (by omega)]
      rfl
    have hreverse : (s.window lo (k + 1 + 1)).reverse =
        name :: before :: (s.window lo k).reverse := by
      rw [s.window_concat hname (by omega), s.window_concat hbefore (by omega)]
      simp
    rw [if_neg hshort, minus_of_le (by omega), minus_of_le (by omega), Parser.looksDeclared,
      hreverse,
      hhead]
    simp only [bind, Except.bind, Nat.add_sub_cancel, item_of_getElem? hfirst,
      item_of_getElem? hname, show k + 1 + 1 - 2 = k from rfl, item_of_getElem? hbefore,
      Option.any_some]
    rw [Bool.and_assoc, Bool.and_comm]
    rfl

lemma follows_simpleStatement (hs : s.Sound) {start : Nat} {a : Token}
    (ha : s.tokens[start]? = some a) :
    Follows s (Past (start + 1)) (simpleStatement s start start)
      (Parser.simpleStatement a (s.tokens.drop start)) := by
  rw [simpleStatement, Parser.simpleStatement]
  rcases findMark_cases s ";" start with ⟨e, hfind, hthrough, -⟩ |
    ⟨stop, t, hfind, hpos, hstop, ht, -, hcut⟩
  · rw [hfind, hthrough]
    exact .refused e
  · obtain ⟨mark, hmark, hleft, hlo, hhi, hbounds⟩ := find_cutOrAll s "=" hpos hstop.le
    have hdeclared := looksDeclared_eq s start (show mark.getD stop ≤ s.tokens.length by omega)
    rw [hfind, through_of_cut hcut]
    simp only [bind, Except.bind, hmark, hleft, hdeclared, spanFrom_token ha ht hpos]
    cases Parser.looksDeclared (s.window start (mark.getD stop)) with
    | true =>
      rcases (follows_declaration hs ha le_rfl [] []).outcomes with ⟨e, hm, hr⟩ |
        ⟨declared, pos, hm, hr, hend, hpast⟩
      · simp only [if_true, hm, hr]
        exact .refused e
      · simp only [if_true, hm, hr]
        exact .reads _ pos hend hpast
    | false =>
      simp only [Bool.false_eq_true, if_false]
      cases mark with
      | none =>
        simp only [expression_eq hs hpos ht, Option.map_none]
        cases Parser.expression t (s.window start stop) with
        | error e => exact .refused e
        | ok value => exact .reads _ (stop + 1) hstop (Nat.succ_le_succ hpos)
      | some i =>
        obtain ⟨hle, hlt⟩ := hbounds i rfl
        simp only [Option.map_some, Option.getD_some,
          phrase_eq hs start (show i ≤ s.tokens.length by omega),
          expression_eq hs (show i + 1 ≤ stop by omega) ht]
        by_cases hempty : i = start
        · subst hempty
          rw [if_pos (by simp), s.window_of_le (Nat.le_refl i)]
          exact follows_errorAt s _ _ i
        · have hne : (s.window start i).isEmpty = false := by
            rw [List.isEmpty_eq_false_iff, Ne, s.window_eq_nil_iff (by omega)]
            omega
          rw [if_neg (by simpa using hempty), hne]
          cases Parser.expression t (s.window (i + 1) stop) with
          | error e => exact .refused e
          | ok value => exact .reads _ (stop + 1) hstop (Nat.succ_le_succ hpos)

lemma follows_skipStatement (s : Input) (n depth pos : Nat) (hn : s.tokens.length - pos < n) :
    Follows s (Ends s pos fun t => t.span.stop) (skipStatement s n depth pos)
      (Parser.skipStatement depth (s.tokens.drop pos)) := by
  induction n generalizing depth pos with
  | zero => omega
  | succ n ih =>
    rw [skipStatement]
    rcases s.drop_cases pos with ⟨hnone, hdrop, -⟩ | ⟨t, hsome, hdrop, hlt⟩
    · rw [errorAt, hnone, hdrop]
      exact .refused _
    · have hnext (depth : Nat) : Follows s (Ends s pos fun t => t.span.stop)
          (skipStatement s n depth (pos + 1))
            (Parser.skipStatement depth (s.tokens.drop (pos + 1))) :=
        (ih depth (pos + 1) (by omega)).mono fun _ _ h => ⟨by have := h.past; omega, h.last⟩
      have hdone : Follows s (Ends s pos fun t => t.span.stop) (.ok (t, pos + 1))
          (.ok (t, s.tokens.drop (pos + 1))) :=
        .reads t (pos + 1) hlt ⟨Nat.lt_succ_self pos, t, hsome, rfl⟩
      rw [hsome, hdrop]
      dsimp only
      cases depth with
      | zero =>
        rw [Parser.skipStatement]
        cases t.isOpener with
        | true => exact hnext 1
        | false =>
          cases t.isCloser with
          | true => exact .refused _
          | false =>
            cases t.is ";" with
            | true => exact hdone
            | false => exact hnext 0
      | succ depth =>
        rw [Parser.skipStatement, minus_of_le (Nat.le_add_left 1 depth), Nat.add_sub_cancel]
        simp only [bind, Except.bind, sees_eq]
        cases t.isOpener with
        | true => exact hnext (depth + 1 + 1)
        | false =>
          cases t.isCloser with
          | false => exact hnext (depth + 1)
          | true =>
            cases depth == 0 && t.is "\x7d" && !Parser.sees "on" (s.tokens.drop (pos + 1)) with
            | true => exact hdone
            | false => exact hnext depth

lemma follows_unsupportedStatement {start : Nat} {a : Token} (ha : s.tokens[start]? = some a)
    (construct : String) :
    Follows s (Past (start + 1)) (unsupportedStatement s construct start)
      (Parser.unsupportedStatement construct a (s.tokens.drop start)) := by
  refine (follows_skipStatement s _ 0 start (by omega)).bind fun last pos hpos hends => ?_
  dsimp only
  rw [spanFrom_eq ha hends le_rfl]
  exact .reads _ pos hpos hends.past

lemma follows_exit (hs : s.Sound) (kind : ExitKind) {start : Nat} {a : Token}
    (ha : s.tokens[start]? = some a) :
    Follows s (Past (start + 1)) (exit s kind a start)
      (Parser.exit kind a (s.tokens.drop (start + 1))) := by
  rw [exit, Parser.exit]
  rcases findMark_cases s ";" (start + 1) with ⟨e, hfind, hthrough, -⟩ |
    ⟨stop, t, hfind, hpos, hstop, ht, -, hcut⟩
  · rw [hfind, hthrough]
    exact .refused e
  · rw [hfind, through_of_cut hcut]
    simp only [bind, Except.bind, spanFrom_token ha ht (show start ≤ stop by omega)]
    by_cases hempty : start + 1 < stop
    · obtain ⟨first, hfirst⟩ := s.exists_getElem? (show start + 1 < s.tokens.length by omega)
      rw [if_pos hempty, expression_eq hs hpos ht, s.window_cons hfirst hempty]
      simp only [Parser.expression, lift, Except.map, Option.isNone_some, Bool.and_false,
        Bool.false_eq_true, if_false]
      exact .reads _ (stop + 1) hstop (by unfold Past; omega)
    · rw [if_neg hempty, s.window_of_le (by omega)]
      simp only [pure, Except.pure, Option.isNone_none, Bool.and_true]
      cases kind == .panic with
      | true => exact .refused _
      | false => exact .reads _ (stop + 1) hstop (by unfold Past; omega)

lemma follows_jump (kind : JumpKind) {start : Nat} {a : Token} (ha : s.tokens[start]? = some a) :
    Follows s (Past (start + 1)) (jump s kind start)
      (Parser.jump kind a (s.tokens.drop (start + 1))) := by
  refine (follows_expect s ";" (start + 1)).bind fun semicolon pos hpos hends => ?_
  dsimp only
  rw [spanFrom_eq ha hends (Nat.le_succ start)]
  exact .reads _ pos hpos hends.past.le

lemma follows_markedDeclaration (hs : s.Sound) {start : Nat} {a : Token}
    (ha : s.tokens[start]? = some a) :
    Follows s (Past (start + 1)) (markedDeclaration s start)
      (Parser.markedDeclaration a (s.tokens.drop start)) := by
  obtain ⟨-, hlt⟩ := s.drop_of_getElem? ha
  refine (follows_annotations s hlt.le).bind fun names pos hpos hpast => ?_
  unfold Past at hpast
  have hdeclared (words : List String) (pos' : Nat) (hle : pos ≤ pos') :
      Follows s (Past (start + 1))
        (declaration s start names words pos' >>= fun r => pure (Statement.declaration r.1, r.2))
        (Parser.declaration a names words (s.tokens.drop pos') >>=
          fun r => pure (Statement.declaration r.1, r.2)) := by
    refine (follows_declaration hs ha (by omega) names words).bind fun d pos'' hpos'' hpast' => ?_
    exact .reads _ pos'' hpos'' (by unfold Past at *; omega)
  dsimp only
  rcases eat_cases s "final" pos with ⟨heat, hread⟩ | ⟨t, -, -, heat, hread, -⟩
  · rw [heat, hread]
    exact hdeclared [] pos le_rfl
  · rw [heat, hread]
    exact hdeclared ["final"] (pos + 1) (Nat.le_succ pos)

/-! ### Statements with blocks -/

lemma follows_condition (hs : s.Sound) (pos : Nat) :
    Follows s (Past pos) (condition s pos) (Parser.condition (s.tokens.drop pos)) := by
  rw [condition, Parser.condition]
  rcases findMark_cases s "\x7b" pos with ⟨e, hfind, -, -, hcut, rfl⟩ |
    ⟨i, t, hfind, hpos, hi, ht, -, hcut⟩
  · rw [hfind, hcut]
    exact .refused _
  · rw [hfind, hcut]
    simp only [bind, Except.bind, expression_eq hs hpos ht]
    cases Parser.expression t (s.window pos i) with
    | error e => exact .refused e
    | ok value =>
      change Follows s _ (.ok (value, i)) (.ok (value, t :: s.tokens.drop (i + 1)))
      rw [← (s.drop_of_getElem? ht).1]
      exact .reads value i hi.le hpos

/-- Blocks from `low` on are read alike, and there is none behind the last token. -/
structure BlocksFrom (s : Input) (low : Nat) (block : Nat → Checked (Block × Nat))
    (block' : Parser.Reader Block) : Prop where
  follows : ∀ pos, low ≤ pos → pos ≤ s.tokens.length →
    Follows s (Ends s pos fun b => b.span.stop) (block pos) (block' (s.tokens.drop pos))
  nil : block' [] = .error (.unexpectedEnd (Parser.quoted "\x7b"))

lemma BlocksFrom.mono {low low' : Nat} {block : Nat → Checked (Block × Nat)}
    {block' : Parser.Reader Block} (h : BlocksFrom s low block block') (hle : low ≤ low') :
    BlocksFrom s low' block block' :=
  ⟨fun pos hlow hpos => h.follows pos (hle.trans hlow) hpos, h.nil⟩

lemma follows_loop (hs : s.Sound) {block : Nat → Checked (Block × Nat)}
    {block' : Parser.Reader Block} {start : Nat} {a : Token} (ha : s.tokens[start]? = some a)
    (hblock : BlocksFrom s (start + 1) block block') :
    Follows s (Past (start + 1)) (loop s block start)
      (Parser.loop block' a (s.tokens.drop (start + 1))) := by
  refine (follows_condition hs (start + 1)).bind fun value pos hpos hpast => ?_
  refine (hblock.follows pos hpast hpos).bind fun body pos' hpos' hends => ?_
  unfold Past at hpast
  dsimp only
  rw [spanFrom_eq ha hends (by omega)]
  exact .reads _ pos' hpos' (by have := hends.past; unfold Past; omega)

lemma follows_conditional (hs : s.Sound) {block : Nat → Checked (Block × Nat)}
    {block' : Parser.Reader Block} (n m : Nat) {start : Nat} {a : Token}
    (ha : s.tokens[start]? = some a) (hif : a.is "if")
    (hblock : BlocksFrom s (start + 1) block block') (hn : s.tokens.length - start < n)
    (hm : s.tokens.length - (start + 1) ≤ m) :
    Follows s (Ends s start fun c => c.span.stop) (conditional s block n start)
      (Parser.conditional block' m a (s.tokens.drop (start + 1))) := by
  induction n generalizing m start a with
  | zero => omega
  | succ n ih =>
    rw [conditional, expect_of_getElem? ha hif]
    change Follows s _ (condition s (start + 1) >>= _) _
    have hcondition := follows_condition hs (start + 1)
    cases m with
    | zero =>
      rw [Parser.conditional]
      rw [List.drop_eq_nil_of_le (show s.tokens.length ≤ start + 1 by omega)] at hcondition ⊢
      rcases hcondition.outcomes with ⟨e, hread, hrefused⟩ | ⟨value, pos, -, hread, -⟩
      · obtain rfl : Parser.errorAt (Parser.quoted "\x7b") [] = e := Except.error.inj hrefused
        rw [hread]
        exact .refused _
      · cases hread
    | succ m =>
      rw [Parser.conditional]
      refine hcondition.bind fun value pos hpos hpast => ?_
      refine (hblock.follows pos hpast hpos).bind fun body pos' hpos' hends => ?_
      have hlow : start + 1 < pos' := hpast.trans_lt hends.past
      dsimp only
      rcases eat_cases s "else" pos' with ⟨heat, hread⟩ | ⟨t, -, -, heat, hread, hlt⟩
      · rw [heat, hread]
        dsimp only
        rw [spanFrom_eq ha hends (by unfold Past at hpast; omega)]
        exact .reads _ pos' hpos' ⟨by omega, hends.last⟩
      · rw [heat, hread]
        dsimp only
        rw [sees_eq]
        have hlast := hblock.follows (pos' + 1) (by omega) hlt
        rcases s.drop_cases (pos' + 1) with ⟨-, hdrop, -⟩ | ⟨u, hu, hdrop, hlt'⟩
        · rw [hdrop, hblock.nil] at hlast
          rw [hdrop]
          rcases hlast.outcomes with ⟨e, hread', hrefused⟩ | ⟨_, _, -, hread', -⟩
          · obtain rfl := Except.error.inj hrefused
            simp only [Parser.sees, Bool.false_eq_true, if_false, hread']
            exact .refused _
          · cases hread'
        · rw [hdrop]
          cases hagain : u.is "if" with
          | true =>
            have hnext := ih m hu hagain (hblock.mono (by omega)) (by omega) (by omega)
            simp only [Parser.sees, hagain, if_true]
            refine hnext.bind fun next pos'' hpos'' hends' => ?_
            dsimp only
            rw [spanFrom_eq ha hends' (by omega)]
            exact .reads _ pos'' hpos'' ⟨by have := hends'.past; omega, hends'.last⟩
          | false =>
            rw [hdrop] at hlast
            simp only [Parser.sees, hagain, Bool.false_eq_true, if_false]
            refine hlast.bind fun last pos'' hpos'' hends' => ?_
            dsimp only
            rw [spanFrom_eq ha hends' (by omega)]
            exact .reads _ pos'' hpos'' ⟨by have := hends'.past; omega, hends'.last⟩

lemma follows_statement (hs : s.Sound) {block : Nat → Checked (Block × Nat)}
    {block' : Parser.Reader Block} {start : Nat} {a : Token} (ha : s.tokens[start]? = some a)
    (hblock : BlocksFrom s (start + 1) block block') :
    Follows s (Past (start + 1)) (statement s block start)
      (Parser.statement block' a (s.tokens.drop (start + 1))) := by
  obtain ⟨hdrop, hlt⟩ := s.drop_of_getElem? ha
  have hskip (construct : String) := follows_unsupportedStatement ha construct
  have hmarked := follows_markedDeclaration hs ha
  have hsimple := follows_simpleStatement hs ha
  rw [hdrop] at hmarked hsimple
  simp only [hdrop] at hskip
  rw [statement, ha, Parser.statement]
  dsimp only
  refine .ite _ (fun _ => hskip a.text) fun _ => .ite _ (fun hif => ?_) fun _ => ?_
  · have hword : a.is "if" := by
      simp only [Token.isWord, Token.isIdentifier, Bool.and_eq_true, beq_iff_eq,
        List.contains_cons, List.contains_nil, Bool.or_false] at hif
      simp [Token.is, hif.1, hif.2]
    refine (follows_conditional hs _ _ ha hword hblock (by omega)
      (by rw [List.length_drop])).bind fun read pos hpos hends => ?_
    exact .reads _ pos hpos hends.past
  refine .ite _ (fun _ => follows_loop hs ha hblock) fun _ => ?_
  refine .ite _ (fun _ => follows_exit hs .return ha) fun _ => ?_
  refine .ite _ (fun _ => follows_exit hs .fail ha) fun _ => ?_
  refine .ite _ (fun _ => follows_exit hs .panic ha) fun _ => ?_
  refine .ite _ (fun _ => follows_jump .break ha) fun _ => ?_
  refine .ite _ (fun _ => follows_jump .continue ha) fun _ => ?_
  exact .ite _ (fun _ => hskip "block") fun _ => .ite _ (fun _ => hmarked) fun _ => hsimple

/-! ### Blocks -/

lemma follows_blockWith {statements : Nat → Checked ((List Statement × Token) × Nat)}
    {statements' : Parser.Reader (List Statement × Token)} {start : Nat}
    (hstatements : start < s.tokens.length → Follows s (Ends s (start + 1) fun r => r.2.span.stop)
      (statements (start + 1)) (statements' (s.tokens.drop (start + 1)))) :
    Follows s (Ends s start fun b => b.span.stop) (blockWith s statements start)
      (Parser.blockWith statements' (s.tokens.drop start)) := by
  rw [blockWith, Parser.blockWith]
  rcases expect_cases s "\x7b" start with ⟨e, hm, hr⟩ | ⟨brace, hbrace, hlt, hm, hr⟩
  · rw [hm, hr]
    exact .refused e
  · rw [hm, hr]
    refine (hstatements hlt).bind fun body pos hpos hends => ?_
    dsimp only
    rw [spanFrom_eq hbrace hends (Nat.le_succ start)]
    exact .reads _ pos hpos ⟨by have := hends.past; omega, hends.last⟩

/-- Each statement takes a token, and the blocks inside of it stand behind its first one. -/
lemma follows_statements (hs : s.Sound) (n m pos : Nat) (hpos : pos ≤ s.tokens.length)
    (hn : s.tokens.length - pos < n) (hm : s.tokens.length - pos ≤ m) :
    Follows s (Ends s pos fun r => r.2.span.stop) (statements s n pos)
      (Parser.statements m (s.tokens.drop pos)) := by
  induction n generalizing m pos with
  | zero => omega
  | succ n ih =>
    rw [statements, sees_eq]
    rcases s.drop_cases pos with ⟨hnone, hdrop, hend⟩ | ⟨t, hsome, hdrop, hlt⟩
    · have hread : Parser.statements m [] = .error (.unexpectedEnd (Parser.quoted "\x7d")) := by
        cases m <;> rfl
      rw [hdrop, hread, hnone, errorAt, hnone]
      exact .refused _
    · obtain ⟨m, rfl⟩ : ∃ k, m = k + 1 := ⟨m - 1, by omega⟩
      rw [hdrop, hsome, Parser.statements, Parser.sees]
      cases hclose : t.is "\x7d" with
      | true =>
        simp only [if_true, expect_of_getElem? hsome hclose]
        exact .reads ([], t) (pos + 1) hlt ⟨Nat.lt_succ_self pos, t, hsome, rfl⟩
      | false =>
        simp only [Bool.false_eq_true, if_false]
        have hblock : BlocksFrom s (pos + 1) (blockWith s (statements s n))
            (Parser.blockWith (Parser.statements m)) :=
          ⟨fun pos' hlow _ => follows_blockWith fun hlt' =>
            ih m (pos' + 1) hlt' (by omega) (by omega), rfl⟩
        refine (follows_statement hs hsome hblock).bind fun first pos' hpos' hpast => ?_
        unfold Past at hpast
        refine (ih m pos' hpos' (by omega) (by omega)).bind fun others pos'' hpos'' hends => ?_
        exact .reads _ pos'' hpos'' ⟨by have := hends.past; omega, hends.last⟩

lemma follows_block (hs : s.Sound) (pos : Nat) :
    Follows s (Ends s pos fun b => b.span.stop) (block s pos) (Parser.block (s.tokens.drop pos)) :=
  follows_blockWith fun hlt =>
    follows_statements hs _ _ (pos + 1) hlt (by omega) (by rw [List.length_drop]; omega)

end FlowCanvas.Indexed
