import FlowCanvas.Proofs.IndexedStatements

/-!
# Members by token index

The readers of imports and of the members of a module, standing at an index. What a reader relies on
is settled where it is called: a parameter ends where a comma or its list does, and the end of a
record's entry is found in front of the entry's annotations, which hold no semicolon outside braces.
-/

namespace FlowCanvas.Indexed

open Brackets

/-! ### Readers -/

/-- Reads up to the first token spelled `mark` outside brackets, which is left. -/
def upTo (s : Input) (mark : String) (pos : Nat) : Checked (Phrase × Nat) := do
  let stop ← findMark s mark pos
  let before ← phrase s pos stop
  return (before, stop)

/-- Reads what stands behind the mark at an index, if there is one. -/
def behind (s : Input) (mark : Option Nat) (stop : Nat) : Checked (Option Phrase) :=
  match mark with
  | none => .ok none
  | some i => (phrase s (i + 1) stop).map some

/-- Reads `.part` as often as it stands there. -/
def dottedRest (s : Input) : Nat → Nat → Checked (List String × Nat)
  | 0, _ => .error (.fault .stuck)
  | n + 1, pos =>
    match eat s "." pos with
    | none => .ok ([], pos)
    | some pos => do
      let (part, pos) ← identifier s pos
      let (parts, pos) ← dottedRest s n pos
      return (part.text :: parts, pos)

/-- Reads an organization, if one is written, and the first part of a module's name. -/
def importHead (s : Input) (pos : Nat) : Checked ((Option String × String) × Nat) := do
  let (first, pos) ← identifier s pos
  match eat s "/" pos with
  | none => return ((none, first.text), pos)
  | some pos =>
    let (second, pos) ← identifier s pos
    return ((some first.text, second.text), pos)

/-- Reads the name a module is given, which is `name` when none is written. -/
def importQualifier (s : Input) (name : String) (pos : Nat) : Checked (String × Nat) :=
  match eat s "as" pos with
  | none => .ok (name, pos)
  | some pos => do
    let (given, pos) ← identifier s pos
    return (given.text, pos)

/-- Reads an import. -/
def importDeclaration (s : Input) (start : Nat) : Checked (Import × Nat) := do
  let (_, pos) ← expect s "import" start
  let ((org, head), pos) ← importHead s pos
  let (parts, pos) ← dottedRest s (s.tokens.length + 1) pos
  let (qualifier, pos) ← importQualifier s (parts.getLast?.getD head) pos
  let (_, pos) ← expect s ";" pos
  let span ← spanFrom s start pos
  return (⟨org, String.intercalate "." (head :: parts), qualifier, span⟩, pos)

/-- Passes over a bracket group in front of `hi`, `depth` brackets of which are open. -/
def closeGroup (s : Input) (hi : Nat) : Nat → Nat → Nat → Checked Nat
  | 0, _, _ => .error (.fault .stuck)
  | n + 1, depth, pos =>
    if pos < hi then do
      let t ← item s.tokens pos
      if t.isOpener then closeGroup s hi n (depth + 1) (pos + 1)
      else if t.isCloser then
        let depth ← minus depth 1
        if depth == 0 then return pos + 1 else closeGroup s hi n depth (pos + 1)
      else closeGroup s hi n depth (pos + 1)
    else .ok pos

/-- Passes over an annotation's value in front of `hi`, if it has one. -/
def dropValue (s : Input) (hi pos : Nat) : Checked Nat :=
  if pos < hi then do
    let t ← item s.tokens pos
    if t.is "\x7b" then closeGroup s hi (s.tokens.length + 1) 0 pos else return pos
  else .ok pos

/-- Passes over the annotations in front of a parameter: a mark, one token, and a value in
braces. -/
def dropAnnotations (s : Input) (hi : Nat) : Nat → Nat → Checked Nat
  | 0, _ => .error (.fault .stuck)
  | n + 1, pos =>
    if pos < hi then do
      let t ← item s.tokens pos
      if t.is "@" then
        let pos ← dropValue s hi (pos + 2)
        dropAnnotations s hi n pos
      else return pos
    else .ok pos

/-- Reads one parameter; nothing is left of a list's empty place. -/
def parameter (s : Input) (lo hi : Nat) : Checked (Option Parameter) := do
  let lo ← dropAnnotations s hi (s.tokens.length + 1) lo
  let mark ← find s "=" lo hi
  if mark.getD hi ≤ lo then return none
  else
    let last ← minus (mark.getD hi) 1
    let name ← item s.tokens last
    let type ← phrase s lo last
    let default ← behind s mark hi
    return some ⟨type, name.text, default⟩

/-- Reads a parameter list. -/
def parameters (s : Input) (pos : Nat) : Checked (List Parameter × Nat) := do
  let (_, pos) ← expect s "(" pos
  let close ← findMark s ")" pos
  let list ← eachGroup s (parameter s) (s.tokens.length + 1) pos close
  return (list, close + 1)

/-- Reads the name of a function, which is an accessor and a path for a resource. -/
def functionName (s : Input) (words : List String) (pos : Nat) : Checked (FunctionName × Nat) := do
  let (name, pos) ← identifier s pos
  if words.contains "resource" then
    let (path, pos) ← upTo s "(" pos
    return (.resource name.text path, pos)
  else if words.contains "remote" then return (.remote name.text, pos)
  else return (.plain name.text, pos)

/-- Reads the return type of a function, if it has one. -/
def returnType (s : Input) (pos : Nat) : Checked (Option Phrase × Nat) :=
  match eat s "returns" pos with
  | none => .ok (none, pos)
  | some pos => do
    let (_, pos) ← annotations s pos
    let (type, pos) ← upTo s "\x7b" pos
    return (some type, pos)

/-- The error of a construct that is not supported. -/
def unsupportedAt (s : Input) (construct : String) (pos : Nat) : Stop :=
  .refused (.unsupported ((s.tokens[pos]?.map Token.position).getD .zero) construct)

/-- Reads a function from the word `function` on; `start` is the first token of the definition. -/
def functionDefinition (s : Input) (start : Nat) (words : List String) (pos : Nat) :
    Checked (FunctionDefinition × Nat) := do
  let (_, pos) ← expect s "function" pos
  let (name, pos) ← functionName s words pos
  let (parameters, pos) ← parameters s pos
  let (returns, pos) ← returnType s pos
  if sees s "=" pos then .error (unsupportedAt s "external function body" pos)
  else
    let (body, pos) ← block s pos
    let span ← spanFrom s start pos
    return (⟨words, name, parameters, returns, body, span⟩, pos)

/-- Reads the members of an object up to its closing brace. -/
def objectMembers (s : Input) : Nat → Nat → Checked (Parser.ObjectBody × Nat)
  | 0, _ => .error (.fault .stuck)
  | n + 1, start =>
    if sees s "\x7d" start then do
      let (close, pos) ← expect s "\x7d" start
      return (⟨[], [], close⟩, pos)
    else
      match s.tokens[start]? with
      | none => .error (errorAt s (Parser.quoted "\x7d") start)
      | some _ => do
        let (names, pos) ← annotations s start
        let (words, pos) ← qualifiers s pos
        if sees s "function" pos then
          let (function, pos) ← functionDefinition s start words pos
          let (body, pos) ← objectMembers s n pos
          return ({ body with functions := function :: body.functions }, pos)
        else if sees s "*" pos then
          let stop ← findMark s ";" pos
          objectMembers s n (stop + 1)
        else
          let (field, pos) ← declaration s start names words pos
          let (body, pos) ← objectMembers s n pos
          return ({ body with fields := field :: body.fields }, pos)

/-- Reads an object's members between braces. -/
def objectBody (s : Input) (pos : Nat) : Checked (Parser.ObjectBody × Nat) := do
  let (_, pos) ← expect s "\x7b" pos
  objectMembers s (s.tokens.length + 1) pos

/-- Reads a service from the word `service` on; `start` is the first token of the definition. -/
def serviceDefinition (s : Input) (start pos : Nat) : Checked (ServiceDefinition × Nat) := do
  let (_, pos) ← expect s "service" pos
  let (path, pos) ← upTo s "on" pos
  let (listener, pos) ← upTo s "\x7b" (pos + 1)
  let (body, pos) ← objectBody s pos
  let pos := (eat s ";" pos).getD pos
  let span ← spanFrom s start pos
  return (⟨path, listener, body.fields, body.functions, span⟩, pos)

/-- Reads a class from the word `class` on; `start` is the first token of the definition. -/
def classDefinition (s : Input) (start : Nat) (words : List String) (pos : Nat) :
    Checked (ClassDefinition × Nat) := do
  let (_, pos) ← expect s "class" pos
  let (name, pos) ← identifier s pos
  let (body, pos) ← objectBody s pos
  let span ← spanFrom s start pos
  return (⟨words, name.text, body.fields, body.functions, span⟩, pos)

/-- Whether what stands from `lo` up to `left` ends in a question mark. -/
def endsOptional (s : Input) (lo left : Nat) : Checked Bool :=
  if lo < left then do
    let last ← item s.tokens (← minus left 1)
    return last.is "?"
  else .ok false

/-- Adds the entry from `lo` up to `stop` to a record. Its type and name end in front of `left`, and
the token there may be the one in front of the entry. -/
def addRead (s : Input) (record : RecordType) (optional : Bool) (mark : Option Nat)
    (lo left stop : Nat) : Checked RecordType := do
  let rest ← phrase s lo stop
  if left == 0 then return { record with rest := some rest }
  else
    let last ← minus left 1
    let name ← item s.tokens last
    if name.isIdentifier && decide (lo < last) then
      let type ← phrase s lo last
      let default ← behind s mark stop
      return { record with fields := record.fields ++ [⟨type, name.text, optional, default⟩] }
    else return { record with rest := some rest }

/-- Adds the entry from `lo` up to `stop` to a record. -/
def addEntry (s : Input) (record : RecordType) (lo stop : Nat) : Checked RecordType := do
  let mark ← find s "=" lo stop
  let optional ← endsOptional s lo (mark.getD stop)
  let left ← minus (mark.getD stop) (if optional then 1 else 0)
  addRead s record optional mark lo left stop

/-- Reads the entries of a record up to its closing bracket. -/
def recordEntries (s : Input) (close : String) :
    Nat → RecordType → Nat → Checked (RecordType × Nat)
  | 0, _, _ => .error (.fault .stuck)
  | n + 1, record, pos =>
    if sees s close pos then do
      let (_, pos) ← expect s close pos
      return (record, pos)
    else
      match s.tokens[pos]? with
      | none => .error (errorAt s (Parser.quoted close) pos)
      | some _ => do
        let stop ← findMark s ";" pos
        match eat s "*" pos with
        | some pos =>
          let entry ← phrase s pos stop
          recordEntries s close n { record with inclusions := record.inclusions ++ [entry] }
            (stop + 1)
        | none =>
          let (_, pos) ← annotations s pos
          let record ← addEntry s record pos stop
          recordEntries s close n record (stop + 1)

/-- Reads a record type from the word `record` on. -/
def recordType (s : Input) (pos : Nat) : Checked (RecordType × Nat) := do
  let (_, pos) ← expect s "record" pos
  match eat s "\x7b|" pos with
  | some pos => recordEntries s "|\x7d" (s.tokens.length + 1) ⟨true, [], [], none⟩ pos
  | none =>
    let (_, pos) ← expect s "\x7b" pos
    recordEntries s "\x7d" (s.tokens.length + 1) ⟨false, [], [], none⟩ pos

/-- Reads the type of a type definition. -/
def typeDescriptor (s : Input) (pos : Nat) : Checked (TypeDescriptor × Nat) :=
  if sees s "record" pos then do
    let (record, pos) ← recordType s pos
    return (.record record, pos)
  else do
    let (descriptor, pos) ← upTo s ";" pos
    return (.other descriptor, pos)

/-- Reads a type definition from the word `type` on; `start` is its first token. -/
def typeDefinition (s : Input) (start : Nat) (words : List String) (pos : Nat) :
    Checked (TypeDefinition × Nat) := do
  let (_, pos) ← expect s "type" pos
  let (name, pos) ← identifier s pos
  let (descriptor, pos) ← typeDescriptor s pos
  let (_, pos) ← expect s ";" pos
  let span ← spanFrom s start pos
  return (⟨words.contains "public", name.text, descriptor, span⟩, pos)

/-- Reads a member of an enumeration; nothing is left of an empty place. -/
def enumMember (s : Input) (lo hi : Nat) : Checked (Option Phrase) :=
  if lo < hi then (phrase s lo hi).map some else .ok none

/-- Reads an enumeration from the word `enum` on; `start` is the first token of the definition. -/
def enumDefinition (s : Input) (start : Nat) (words : List String) (pos : Nat) :
    Checked (TypeDefinition × Nat) := do
  let (_, pos) ← expect s "enum" pos
  let (name, pos) ← identifier s pos
  let (_, pos) ← expect s "\x7b" pos
  let close ← findMark s "\x7d" pos
  let members ← eachGroup s (enumMember s) (s.tokens.length + 1) pos close
  let (_, pos) ← expect s "\x7d" close
  let span ← spanFrom s start pos
  return (⟨words.contains "public", name.text, .enumeration members, span⟩, pos)

/-- Reads a member past its annotations and qualifiers; `start` is its first token. -/
def memberAfter (s : Input) (start : Nat) (names words : List String) (pos : Nat) :
    Checked (Member × Nat) :=
  match s.tokens[pos]? with
  | none => .error (errorAt s "a module member" pos)
  | some t =>
    if t.text == "function" then do
      let (read, pos) ← functionDefinition s start words pos
      return (.function read, pos)
    else if t.text == "service" then do
      let (read, pos) ← serviceDefinition s start pos
      return (.service read, pos)
    else if t.text == "class" then do
      let (read, pos) ← classDefinition s start words pos
      return (.classDefinition read, pos)
    else if t.text == "type" then do
      let (read, pos) ← typeDefinition s start words pos
      return (.typeDefinition read, pos)
    else if t.text == "enum" then do
      let (read, pos) ← enumDefinition s start words pos
      return (.typeDefinition read, pos)
    else if t.text == "const" then do
      let (read, pos) ← declaration s start names (words ++ ["const"]) (pos + 1)
      return (.variable read, pos)
    else if t.text == "annotation" || t.text == "xmlns" then .error (unsupportedAt s t.text pos)
    else do
      let (read, pos) ← declaration s start names words pos
      return (.variable read, pos)

/-- Reads a member. -/
def member (s : Input) (start : Nat) : Checked (Member × Nat) := do
  let (names, pos) ← annotations s start
  let (words, pos) ← qualifiers s pos
  memberAfter s start names words pos

/-- Reads imports and members to the end. -/
def moduleParts (s : Input) : Nat → Nat → Checked (List Import × List Member)
  | 0, _ => .error (.fault .stuck)
  | n + 1, pos =>
    match s.tokens[pos]? with
    | none => .ok ([], [])
    | some t =>
      if t.is "import" then do
        let (read, pos) ← importDeclaration s pos
        let (imports, members) ← moduleParts s n pos
        return (read :: imports, members)
      else
        match eat s ";" pos with
        | some pos => moduleParts s n pos
        | none => do
          let (read, pos) ← member s pos
          let (imports, members) ← moduleParts s n pos
          return (imports, read :: members)

/-! ### Imports -/

variable {s : Input}

lemma follows_upTo (hs : s.Sound) (mark : String) (pos : Nat) :
    Follows s (Past pos) (upTo s mark pos) (Parser.upTo mark (s.tokens.drop pos)) := by
  rw [upTo]
  rcases findMark_cases s mark pos with ⟨e, hfind, -, hupTo, -⟩ |
    ⟨i, t, hfind, hpos, hi, ht, -, hcut⟩
  · rw [hfind, hupTo]
    exact .refused e
  · rw [hfind, upTo_of_cut hcut, ← (s.drop_of_getElem? ht).1]
    simp only [bind, Except.bind, phrase_eq hs pos hi.le]
    exact .reads _ i hi.le hpos

lemma behind_eq (hs : s.Sound) {mark : Option Nat} {stop : Nat} (hstop : stop ≤ s.tokens.length) :
    behind s mark stop = .ok (mark.map fun i => s.window (i + 1) stop) := by
  cases mark with
  | none => rfl
  | some i => rw [behind, phrase_eq hs (i + 1) hstop]; rfl

lemma follows_dottedRest (s : Input) (n m pos : Nat) (hpos : pos ≤ s.tokens.length)
    (hn : s.tokens.length - pos < n) (hm : s.tokens.length - pos ≤ m) :
    Follows s (Past pos) (dottedRest s n pos) (Parser.dottedRest m (s.tokens.drop pos)) := by
  induction n generalizing m pos with
  | zero => omega
  | succ n ih =>
    rw [dottedRest]
    rcases eat_cases s "." pos with ⟨heat, hread⟩ | ⟨t, -, -, heat, hread, hlt⟩
    · have hnone : Parser.dottedRest m (s.tokens.drop pos) = .ok ([], s.tokens.drop pos) := by
        cases m with
        | zero => rfl
        | succ m => rw [Parser.dottedRest, hread]
      rw [heat, hnone]
      exact .reads [] pos hpos le_rfl
    · obtain ⟨m, rfl⟩ : ∃ k, m = k + 1 := ⟨m - 1, by omega⟩
      rw [Parser.dottedRest, heat, hread]
      refine (follows_identifier s (pos + 1)).bind fun part pos' hpos' hpast => ?_
      unfold Past at hpast
      refine (ih m pos' hpos' (by omega) (by omega)).bind fun parts pos'' hpos'' hpast' => ?_
      exact .reads _ pos'' hpos'' (by unfold Past at *; omega)

lemma follows_importHead (s : Input) (pos : Nat) :
    Follows s (Past (pos + 1)) (importHead s pos) (Parser.importHead (s.tokens.drop pos)) := by
  refine (follows_identifier s pos).bind fun first pos' hpos hpast => ?_
  dsimp only
  rcases eat_cases s "/" pos' with ⟨heat, hread⟩ | ⟨t, -, -, heat, hread, -⟩
  · rw [heat, hread]
    exact .reads _ pos' hpos hpast
  · rw [heat, hread]
    refine (follows_identifier s (pos' + 1)).bind fun second pos'' hpos' hpast' => ?_
    exact .reads _ pos'' hpos' (by unfold Past at *; omega)

lemma follows_importQualifier (s : Input) (name : String) {pos : Nat}
    (hpos : pos ≤ s.tokens.length) :
    Follows s (Past pos) (importQualifier s name pos)
      (Parser.importQualifier name (s.tokens.drop pos)) := by
  rw [importQualifier, Parser.importQualifier]
  rcases eat_cases s "as" pos with ⟨heat, hread⟩ | ⟨t, -, -, heat, hread, -⟩
  · rw [heat, hread]
    exact .reads name pos hpos le_rfl
  · rw [heat, hread]
    refine (follows_identifier s (pos + 1)).bind fun given pos' hpos' hpast => ?_
    exact .reads _ pos' hpos' (by unfold Past at *; omega)

lemma follows_importDeclaration {start : Nat} {a : Token} (ha : s.tokens[start]? = some a)
    (hword : a.is "import") :
    Follows s (Past (start + 1)) (importDeclaration s start)
      (Parser.importDeclaration a (s.tokens.drop (start + 1))) := by
  rw [importDeclaration, expect_of_getElem? ha hword]
  refine (follows_importHead s (start + 1)).bind fun head pos hpos hpast => ?_
  refine (follows_dottedRest s _ _ pos hpos (by omega) (by rw [List.length_drop])).bind
    fun parts pos' hpos' hpast' => ?_
  refine (follows_importQualifier s _ hpos').bind fun qualifier pos'' hpos'' hpast'' => ?_
  refine (follows_expect s ";" pos'').bind fun semicolon last hlast hends => ?_
  unfold Past at *
  dsimp only
  rw [spanFrom_eq ha hends (by omega)]
  exact .reads _ last hlast (by have := hends.past; omega)


/-! ### Functions -/

/-- A group that is open in front of `hi` ends with its closing bracket, or at `hi`. -/
lemma closeGroup_eq {hi : Nat} (hhi : hi ≤ s.tokens.length) (n depth pos : Nat)
    (hn : hi - pos < n) :
    ∃ next, closeGroup s hi n (depth + 1) pos = .ok next ∧
      (dropGroupFrom (depth + 1) (s.window pos hi)).getD [] = s.window next hi ∧ pos ≤ next := by
  induction n generalizing depth pos with
  | zero => omega
  | succ n ih =>
    rw [closeGroup]
    by_cases hlt : pos < hi
    · obtain ⟨t, ht⟩ := s.exists_getElem? (show pos < s.tokens.length by omega)
      have hnext (depth : Nat) : ∃ next, closeGroup s hi n (depth + 1) (pos + 1) = .ok next ∧
          (dropGroupFrom (depth + 1) (s.window (pos + 1) hi)).getD [] = s.window next hi ∧
          pos ≤ next := by
        obtain ⟨next, hclose, hdrop, hle⟩ := ih depth (pos + 1) (by omega)
        exact ⟨next, hclose, hdrop, by omega⟩
      rw [if_pos hlt, item_of_getElem? ht, s.window_cons ht hlt, dropGroupFrom,
        minus_of_le (Nat.le_add_left 1 depth), Nat.add_sub_cancel]
      simp only [bind, Except.bind]
      cases t.isOpener with
      | true => exact hnext (depth + 1)
      | false =>
        cases t.isCloser with
        | false => exact hnext depth
        | true =>
          cases depth with
          | zero => exact ⟨pos + 1, rfl, rfl, Nat.le_succ pos⟩
          | succ depth => exact hnext depth
    · rw [if_neg hlt, s.window_of_le (Nat.not_lt.mp hlt)]
      exact ⟨pos, rfl, (s.window_of_le (Nat.not_lt.mp hlt)).symm, le_rfl⟩

lemma dropValue_eq (hs : s.Sound) {hi : Nat} (hhi : hi ≤ s.tokens.length) (pos : Nat) :
    ∃ next, dropValue s hi pos = .ok next ∧
      (if Parser.sees "\x7b" (s.window pos hi) then (dropGroup (s.window pos hi)).getD []
        else s.window pos hi) = s.window next hi ∧ pos ≤ next := by
  rw [dropValue]
  by_cases hlt : pos < hi
  · obtain ⟨t, ht⟩ := s.exists_getElem? (show pos < s.tokens.length by omega)
    rw [if_pos hlt, item_of_getElem? ht, s.window_cons ht hlt, Parser.sees]
    simp only [bind, Except.bind]
    cases hbrace : t.is "\x7b" with
    | false => exact ⟨pos, rfl, (s.window_cons ht hlt).symm, le_rfl⟩
    | true =>
      have hopen := (marked_bracket hs (s.mem_of_getElem? ht) hbrace).2 (by simp)
      obtain ⟨next, hclose, hdrop, hle⟩ :=
        closeGroup_eq hhi s.tokens.length 0 (pos + 1) (by omega)
      refine ⟨next, ?_, ?_, by omega⟩
      · rw [if_pos rfl, closeGroup, if_pos hlt, item_of_getElem? ht]
        simp only [bind, Except.bind, hopen, if_true]
        exact hclose
      · rw [if_pos rfl, dropGroup, hopen]
        exact hdrop
  · rw [if_neg hlt, s.window_of_le (Nat.not_lt.mp hlt)]
    exact ⟨pos, rfl, (s.window_of_le (Nat.not_lt.mp hlt)).symm, le_rfl⟩

/-- A mark without a name moves past `hi`, where nothing is left. -/
lemma dropAnnotations_eq (hs : s.Sound) {hi : Nat} (hhi : hi ≤ s.tokens.length) (n m pos : Nat)
    (hn : hi - pos < n) (hm : hi - pos ≤ m) :
    ∃ next, dropAnnotations s hi n pos = .ok next ∧
      Parser.dropAnnotations m (s.window pos hi) = s.window next hi := by
  induction n generalizing m pos with
  | zero => omega
  | succ n ih =>
    rw [dropAnnotations]
    by_cases hlt : pos < hi
    · obtain ⟨t, ht⟩ := s.exists_getElem? (show pos < s.tokens.length by omega)
      obtain ⟨m, rfl⟩ : ∃ k, m = k + 1 := ⟨m - 1, by omega⟩
      rw [if_pos hlt, item_of_getElem? ht, s.window_cons ht hlt, Parser.dropAnnotations]
      simp only [bind, Except.bind]
      cases t.is "@" with
      | false => exact ⟨pos, rfl, (s.window_cons ht hlt).symm⟩
      | true =>
        obtain ⟨next, hvalue, hrest, hle⟩ := dropValue_eq hs hhi (pos + 2)
        have hdrop : (s.window (pos + 1) hi).drop 1 = s.window (pos + 2) hi := List.drop_drop
        simp only [if_true, hvalue, hdrop, hrest]
        exact ih m next (by omega) (by omega)
    · rw [if_neg hlt, s.window_of_le (Nat.not_lt.mp hlt)]
      refine ⟨pos, rfl, ?_⟩
      rw [s.window_of_le (Nat.not_lt.mp hlt)]
      cases m <;> rfl

lemma parameter_eq (hs : s.Sound) {lo hi : Nat} (hhi : hi ≤ s.tokens.length) :
    parameter s lo hi = .ok (Parser.parameter? (s.window lo hi)) := by
  obtain ⟨next, hdrop, hrest⟩ := dropAnnotations_eq hs hhi (s.tokens.length + 1)
    (s.window lo hi).length lo (by omega) (by rw [s.length_window hhi])
  rw [parameter, hdrop, Parser.parameter?, hrest]
  by_cases hle : next ≤ hi
  · obtain ⟨mark, hmark, hleft, hlo, hstop, -⟩ := find_cutOrAll s "=" hle hhi
    simp only [bind, Except.bind, hmark, hleft]
    by_cases hempty : mark.getD hi ≤ next
    · rw [if_pos hempty, s.window_of_le hempty]
      rfl
    · obtain ⟨k, hk⟩ : ∃ k, mark.getD hi = k + 1 := ⟨mark.getD hi - 1, by omega⟩
      obtain ⟨name, hname⟩ := s.exists_getElem? (show k < s.tokens.length by omega)
      rw [if_neg hempty, hk, minus_of_le (Nat.le_add_left 1 k), s.window_concat hname (by omega),
        List.getLast?_concat, List.dropLast_concat, behind_eq hs hhi]
      simp only [Nat.add_sub_cancel, item_of_getElem? hname,
        phrase_eq hs next (show k ≤ s.tokens.length by omega)]
      rfl
  · have hfind : find s "=" next hi = .ok none := by
      rw [find, show min hi s.tokens.length - next = 0 by omega, findFrom]
    rw [s.window_of_le (by omega)]
    simp only [bind, Except.bind, hfind, Option.getD_none, if_pos (show hi ≤ next by omega)]
    rfl

lemma follows_parameters (hs : s.Sound) (pos : Nat) :
    Follows s (Past (pos + 1)) (parameters s pos) (Parser.parameters (s.tokens.drop pos)) := by
  refine (follows_expect s "(" pos).bind fun paren pos' hpos hends => ?_
  dsimp only
  rcases findMark_cases s ")" pos' with ⟨e, hfind, hthrough, -⟩ |
    ⟨close, t, hfind, hle, hclose, ht, -, hcut⟩
  · rw [hfind, hthrough]
    exact .refused e
  · have hgroups := eachGroup_eq hclose.le
      (fun lo stop _ _ hstop => parameter_eq hs (show stop ≤ s.tokens.length by omega))
      (s.tokens.length + 1) pos' le_rfl (by omega)
    rw [hfind, through_of_cut hcut]
    simp only [bind, Except.bind, hgroups]
    exact .reads _ (close + 1) hclose (by have := hends.past; unfold Past; omega)

lemma follows_functionName (hs : s.Sound) (words : List String) (pos : Nat) :
    Follows s (Past (pos + 1)) (functionName s words pos)
      (Parser.functionName words (s.tokens.drop pos)) := by
  refine (follows_identifier s pos).bind fun name pos' hpos hpast => ?_
  refine .ite _ (fun _ => ?_) fun _ => .ite _ (fun _ => ?_) fun _ => ?_
  · refine (follows_upTo hs "(" pos').bind fun path pos'' hpos' hpast' => ?_
    exact .reads _ pos'' hpos' (by unfold Past at *; omega)
  · exact .reads _ pos' hpos hpast
  · exact .reads _ pos' hpos hpast

lemma follows_returnType (hs : s.Sound) {pos : Nat} (hpos : pos ≤ s.tokens.length) :
    Follows s (Past pos) (returnType s pos) (Parser.returnType (s.tokens.drop pos)) := by
  rw [returnType, Parser.returnType]
  rcases eat_cases s "returns" pos with ⟨heat, hread⟩ | ⟨t, -, -, heat, hread, hlt⟩
  · rw [heat, hread]
    exact .reads none pos hpos le_rfl
  · rw [heat, hread]
    refine (follows_annotations s hlt).bind fun names pos' hpos' hpast => ?_
    refine (follows_upTo hs "\x7b" pos').bind fun type pos'' hpos'' hpast' => ?_
    exact .reads _ pos'' hpos'' (by unfold Past at *; omega)

lemma unsupportedAt_eq {pos : Nat} {t : Token} (ht : s.tokens[pos]? = some t) (construct : String) :
    unsupportedAt s construct pos = .refused (.unsupported t.position construct) := by
  rw [unsupportedAt, ht]
  rfl

lemma follows_functionDefinition (hs : s.Sound) {start pos : Nat} {a word : Token}
    (ha : s.tokens[start]? = some a) (hstart : start ≤ pos) (hword : s.tokens[pos]? = some word)
    (his : word.is "function") (words : List String) :
    Follows s (Past (pos + 1)) (functionDefinition s start words pos)
      (Parser.functionDefinition a words (s.tokens.drop (pos + 1))) := by
  rw [functionDefinition, expect_of_getElem? hword his]
  refine (follows_functionName hs words (pos + 1)).bind fun name pos1 hpos1 hpast1 => ?_
  refine (follows_parameters hs pos1).bind fun parameters pos2 hpos2 hpast2 => ?_
  refine (follows_returnType hs hpos2).bind fun returns pos3 hpos3 hpast3 => ?_
  unfold Past at *
  have hblock := follows_block hs pos3
  dsimp only
  rw [sees_eq]
  rcases s.drop_cases pos3 with ⟨hnone, hdrop, -⟩ | ⟨t, ht, hdrop, -⟩
  · rw [hdrop] at hblock ⊢
    rcases hblock.outcomes with ⟨e, hread, hrefused⟩ | ⟨_, _, -, hread, -⟩
    · obtain rfl := Except.error.inj hrefused
      simp only [Parser.sees, Bool.false_eq_true, if_false, hread]
      exact .refused _
    · cases hread
  · rw [hdrop] at hblock ⊢
    refine .ite _ (fun _ => ?_) fun _ => ?_
    · rw [unsupportedAt_eq ht]
      exact .refused _
    · refine hblock.bind fun body pos4 hpos4 hends => ?_
      dsimp only
      rw [spanFrom_eq ha hends (by omega)]
      exact .reads _ pos4 hpos4 (by have := hends.past; omega)


/-! ### Objects -/

lemma sees_of_eat {mark : String} {ts : Phrase} (h : Parser.eat mark ts = none) :
    Parser.sees mark ts = false := by
  cases ts with
  | nil => rfl
  | cons t ts =>
    rw [Parser.sees]
    simpa [Parser.eat] using h

/-- Each member takes a token. -/
lemma follows_objectMembers (hs : s.Sound) (n m start : Nat) (hstart : start ≤ s.tokens.length)
    (hn : s.tokens.length - start < n) (hm : s.tokens.length - start ≤ m) :
    Follows s (Ends s start fun b => b.close.span.stop) (objectMembers s n start)
      (Parser.objectMembers m (s.tokens.drop start)) := by
  induction n generalizing m start with
  | zero => omega
  | succ n ih =>
    rw [objectMembers, sees_eq]
    rcases s.drop_cases start with ⟨hnone, hdrop, -⟩ | ⟨t, ht, hdrop, hlt⟩
    · have hread : Parser.objectMembers m [] = .error (.unexpectedEnd (Parser.quoted "\x7d")) := by
        cases m <;> rfl
      rw [hdrop, hread, hnone, errorAt, hnone]
      exact .refused _
    · obtain ⟨m, rfl⟩ : ∃ k, m = k + 1 := ⟨m - 1, by omega⟩
      have hnext (pos : Nat) (hpos : pos ≤ s.tokens.length) (hpast : start + 1 ≤ pos) :
          Follows s (Ends s start fun b => b.close.span.stop) (objectMembers s n pos)
            (Parser.objectMembers m (s.tokens.drop pos)) := by
        refine (ih m pos hpos (by omega) (by omega)).mono fun _ _ h => ⟨?_, h.last⟩
        exact lt_of_lt_of_le hpast h.past.le
      have hnames := follows_annotations s hlt.le
      rw [hdrop] at hnames
      rw [hdrop, ht, Parser.objectMembers, Parser.sees]
      cases hclose : t.is "\x7d" with
      | true =>
        simp only [if_true, expect_of_getElem? ht hclose]
        exact .reads _ (start + 1) hlt ⟨Nat.lt_succ_self start, t, ht, rfl⟩
      | false =>
        simp only [Bool.false_eq_true, if_false]
        refine hnames.bind fun names pos hpos hpast => ?_
        obtain ⟨pos', hwords, hrest, hle, hpos'⟩ := qualifiers_eq s hpos
        unfold Past at hpast
        dsimp only
        rw [hwords, hrest]
        simp only [bind, Except.bind, sees_eq]
        rcases eat_cases s "function" pos' with ⟨-, hread⟩ | ⟨word, hword, his, -, hread, hlt'⟩
        · rw [hread, sees_of_eat hread]
          simp only [Bool.false_eq_true, if_false]
          refine .ite _ (fun _ => ?_) fun _ => ?_
          · rcases findMark_cases s ";" pos' with ⟨e, hfind, hthrough, -⟩ |
              ⟨stop, u, hfind, hle', hstop, -, -, hcut⟩
            · rw [hfind, hthrough]
              exact .refused e
            · rw [hfind, through_of_cut hcut]
              exact hnext (stop + 1) hstop (by omega)
          · refine (follows_declaration hs ht (by omega) names _).bind
              fun field pos'' hpos'' hpast' => ?_
            unfold Past at hpast'
            refine (hnext pos'' hpos'' (by omega)).bind fun body last hlast hends => ?_
            exact .reads _ last hlast ⟨hends.past, hends.last⟩
        · have hsees : Parser.sees "function" (s.tokens.drop pos') = true := by
            rw [(s.drop_of_getElem? hword).1]
            exact his
          rw [hread, hsees]
          refine (follows_functionDefinition hs ht (by omega) hword his _).bind
            fun function pos'' hpos'' hpast' => ?_
          unfold Past at hpast'
          refine (hnext pos'' hpos'' (by omega)).bind fun body last hlast hends => ?_
          exact .reads _ last hlast ⟨hends.past, hends.last⟩

lemma follows_objectBody (hs : s.Sound) (pos : Nat) :
    Follows s (Ends s pos fun b => b.close.span.stop) (objectBody s pos)
      (Parser.objectBody (s.tokens.drop pos)) := by
  refine (follows_expect s "\x7b" pos).bind fun brace pos' hpos hends => ?_
  refine (follows_objectMembers hs _ _ pos' hpos (by omega) (by rw [List.length_drop])).mono
    fun _ _ h => ⟨?_, h.last⟩
  exact hends.past.trans h.past

lemma follows_serviceDefinition (hs : s.Sound) {start pos : Nat} {a word : Token}
    (ha : s.tokens[start]? = some a) (hstart : start ≤ pos) (hword : s.tokens[pos]? = some word)
    (his : word.is "service") :
    Follows s (Past (pos + 1)) (serviceDefinition s start pos)
      (Parser.serviceDefinition a (s.tokens.drop (pos + 1))) := by
  rw [serviceDefinition, expect_of_getElem? hword his, Parser.serviceDefinition]
  change Follows s _ (upTo s "on" (pos + 1) >>= _) _
  rw [upTo]
  rcases findMark_cases s "on" (pos + 1) with ⟨e, hfind, hthrough, -⟩ |
    ⟨i, t, hfind, hle, hi, ht, -, hcut⟩
  · rw [hfind, hthrough]
    exact .refused e
  · rw [hfind, through_of_cut hcut]
    simp only [bind, Except.bind, phrase_eq hs (pos + 1) hi.le]
    refine (follows_upTo hs "\x7b" (i + 1)).bind fun listener pos1 hpos1 hpast1 => ?_
    refine (follows_objectBody hs pos1).bind fun body pos2 hpos2 hends => ?_
    unfold Past at *
    have hpast2 := hends.past
    dsimp only
    rcases eat_cases s ";" pos2 with ⟨heat, hread⟩ | ⟨semicolon, hsemicolon, his', heat, -, hlt⟩
    · have hreads (x : ServiceDefinition) : Follows s (Past (pos + 1)) (.ok (x, pos2))
          (.ok (x, s.tokens.drop pos2)) := .reads x pos2 hpos2 (by unfold Past; omega)
      have hsees := sees_of_eat hread
      rw [heat, Option.getD_none, spanFrom_eq ha hends (by omega)]
      rcases s.drop_cases pos2 with ⟨-, hdrop, -⟩ | ⟨u, -, hdrop, -⟩
      · rw [hdrop] at hreads ⊢
        exact hreads _
      · rw [hdrop] at hreads hsees ⊢
        simp only [show u.is ";" = false from hsees, Bool.false_eq_true, if_false]
        exact hreads _
    · rw [heat, Option.getD_some, (s.drop_of_getElem? hsemicolon).1,
        spanFrom_token ha hsemicolon (by omega)]
      simp only [his', if_true]
      exact .reads _ (pos2 + 1) hlt (by omega)

lemma follows_classDefinition (hs : s.Sound) {start pos : Nat} {a word : Token}
    (ha : s.tokens[start]? = some a) (hstart : start ≤ pos) (hword : s.tokens[pos]? = some word)
    (his : word.is "class") (words : List String) :
    Follows s (Past (pos + 1)) (classDefinition s start words pos)
      (Parser.classDefinition a words (s.tokens.drop (pos + 1))) := by
  rw [classDefinition, expect_of_getElem? hword his]
  refine (follows_identifier s (pos + 1)).bind fun name pos1 hpos1 hpast1 => ?_
  refine (follows_objectBody hs pos1).bind fun body pos2 hpos2 hends => ?_
  unfold Past at *
  have hpast2 := hends.past
  dsimp only
  rw [spanFrom_eq ha hends (by omega)]
  exact .reads _ pos2 hpos2 (by omega)


/-! ### Types -/

/-- A token that is spelled like a semicolon or a brace is one. -/
def Faithful (t : Token) : Prop := (t.isIdentifier → t.is ";" = false) ∧ (t.is "\x7b" → t.isOpener)

lemma free_of_annotationName {ts rest : Phrase} {name : String} (hts : ∀ t ∈ ts, Faithful t)
    (h : Parser.annotationName ts = .ok (name, rest)) :
    ∃ used, ts = used ++ rest ∧ Free ";" used := by
  obtain ⟨⟨first, after⟩, hfirst, hread⟩ := Parser.bind_eq_ok_iff.mp h
  obtain ⟨rfl, hidentifier⟩ := Parser.identifier_eq_ok_iff.mp hfirst
  have hname := free_singleton (matched_identifier hidentifier)
    ((hts first (by simp)).1 hidentifier)
  dsimp only at hread
  cases heat : Parser.eat ":" after with
  | none =>
    rw [heat] at hread
    obtain ⟨rfl, rfl⟩ := hread
    exact ⟨[first], rfl, hname⟩
  | some after' =>
    rw [heat] at hread
    obtain ⟨colon, rfl, hcolon⟩ := Parser.eat_eq_some_iff.mp heat
    obtain ⟨⟨second, left⟩, hsecond, hread'⟩ := Parser.bind_eq_ok_iff.mp hread
    obtain ⟨rfl, hidentifier'⟩ := Parser.identifier_eq_ok_iff.mp hsecond
    obtain ⟨rfl, rfl⟩ := hread'
    have hname' := free_singleton (matched_identifier hidentifier')
      ((hts second (by simp)).1 hidentifier')
    exact ⟨[first] ++ ([colon] ++ [second]), rfl, hname.append
      ((free_mark hcolon (by decide) (by decide)).append hname')⟩

lemma free_of_annotationValue {ts rest : Phrase} (hts : ∀ t ∈ ts, Faithful t)
    (h : Parser.annotationValue ts = .ok rest) : ∃ used, ts = used ++ rest ∧ Free ";" used := by
  rw [Parser.annotationValue] at h
  cases hsees : Parser.sees "\x7b" ts with
  | false =>
    rw [hsees] at h
    obtain rfl := Except.ok.inj h
    exact ⟨[], rfl, rfl⟩
  | true =>
    rw [hsees] at h
    cases ts with
    | nil => cases hsees
    | cons t ts =>
      have hopen := (hts t (by simp)).2 hsees
      rw [dropGroup, hopen] at h
      simp only [if_true] at h
      cases hdrop : dropGroupFrom 1 ts with
      | none => simp [hdrop] at h
      | some left =>
        rw [hdrop] at h
        obtain rfl := Except.ok.inj h
        obtain ⟨group, rfl, hgroup⟩ :=
          Parser.depthAfter?_of_dropGroupFrom ";" Nat.one_pos hdrop
        refine ⟨t :: group, rfl, ?_⟩
        simp [Free, depthAfter?, Parser.is_eq_false hsees, hopen, hgroup]

/-- Annotations hold no semicolon outside braces. -/
lemma free_of_annotationsFrom {n : Nat} {ts rest : Phrase} {names : List String}
    (hts : ∀ t ∈ ts, Faithful t) (h : Parser.annotationsFrom n ts = .ok (names, rest)) :
    ∃ used, ts = used ++ rest ∧ Free ";" used := by
  induction n generalizing ts names with
  | zero =>
    obtain ⟨rfl, rfl⟩ := h
    exact ⟨[], rfl, rfl⟩
  | succ n ih =>
    rw [Parser.annotationsFrom] at h
    cases heat : Parser.eat "@" ts with
    | none =>
      rw [heat] at h
      obtain ⟨rfl, rfl⟩ := h
      exact ⟨[], rfl, rfl⟩
    | some after =>
      rw [heat] at h
      obtain ⟨mark, rfl, hmark⟩ := Parser.eat_eq_some_iff.mp heat
      obtain ⟨⟨name, after1⟩, hname, h⟩ := Parser.bind_eq_ok_iff.mp h
      obtain ⟨after2, hvalue, h⟩ := Parser.bind_eq_ok_iff.mp h
      obtain ⟨⟨names', after3⟩, hnames, h⟩ := Parser.bind_eq_ok_iff.mp h
      obtain ⟨rfl, rfl⟩ := h
      have hafter := (List.forall_mem_cons.mp hts).2
      obtain ⟨used1, rfl, hused1⟩ := free_of_annotationName hafter hname
      have hafter1 := (List.forall_mem_append.mp hafter).2
      obtain ⟨used2, rfl, hused2⟩ := free_of_annotationValue hafter1 hvalue
      obtain ⟨used3, rfl, hused3⟩ := ih (List.forall_mem_append.mp hafter1).2 hnames
      have hat : Free ";" [mark] := free_mark hmark (by decide) (by decide)
      exact ⟨[mark] ++ (used1 ++ (used2 ++ used3)), by simp,
        hat.append (hused1.append (hused2.append hused3))⟩

lemma faithful (hs : s.Sound) {t : Token} (ht : t ∈ s.tokens) : Faithful t := by
  constructor
  · intro hidentifier
    rw [Token.isIdentifier, beq_iff_eq] at hidentifier
    cases h : t.is ";" with
    | false => rfl
    | true => simp [hs.marked t ht ";" (by decide) h] at hidentifier
  · intro hbrace
    exact (marked_bracket hs ht hbrace).2 (by simp)

/-- The semicolon behind the annotations of an entry is the one that is found in front of them. -/
lemma cut_behind_annotations (hs : s.Sound) {pos pos' stop : Nat} {names : List String} {t : Token}
    (hnames : Parser.annotations (s.tokens.drop pos) = .ok (names, s.tokens.drop pos'))
    (hpos' : pos' ≤ s.tokens.length) (hle : pos ≤ pos') (hstop : stop < s.tokens.length)
    (hpos : pos ≤ stop)
    (hcut : cut ";" (s.tokens.drop pos) = some (s.window pos stop, t, s.tokens.drop (stop + 1))) :
    pos' ≤ stop ∧
      cut ";" (s.tokens.drop pos') = some (s.window pos' stop, t, s.tokens.drop (stop + 1)) := by
  obtain ⟨used, hused, hfree⟩ := free_of_annotationsFrom
    (fun t ht => faithful hs (List.mem_of_mem_drop ht)) hnames
  have hlength := congrArg List.length hused
  rw [List.length_append, List.length_drop, List.length_drop] at hlength
  rw [cut, hused, cutFrom_append hfree] at hcut
  obtain ⟨⟨before, found, after⟩, hcut', heq⟩ := Option.map_eq_some_iff.mp hcut
  obtain ⟨hbefore, hrest⟩ := Prod.mk.inj heq
  obtain ⟨rfl, rfl⟩ := Prod.mk.inj hrest
  have hbefore' := congrArg List.length hbefore
  rw [List.length_append, s.length_window hstop.le] at hbefore'
  have hstop' : pos' ≤ stop := by omega
  rw [s.window_append hle hpos' hstop'] at hbefore
  obtain ⟨-, rfl⟩ := List.append_inj hbefore (by rw [s.length_window hpos']; omega)
  exact ⟨hstop', hcut'⟩

lemma addRead_eq (hs : s.Sound) (record : RecordType) (optional : Bool) (mark : Option Nat)
    {lo left stop : Nat} (hlo : lo ≤ left) (hleft : left ≤ stop) (hstop : stop ≤ s.tokens.length) :
    addRead s record optional mark lo left stop =
      .ok (Parser.addRead record (s.window lo stop) optional
        (mark.map fun i => s.window (i + 1) stop) (s.window lo left)) := by
  rw [addRead, Parser.addRead, phrase_eq hs lo hstop, behind_eq hs hstop]
  simp only [bind, Except.bind]
  cases left with
  | zero =>
    rw [s.window_of_le (Nat.zero_le lo)]
    rfl
  | succ k =>
    obtain ⟨name, hname⟩ := s.exists_getElem? (show k < s.tokens.length by omega)
    rw [if_neg (by simp), minus_of_le (Nat.le_add_left 1 k), Nat.add_sub_cancel]
    simp only [item_of_getElem? hname, phrase_eq hs lo (show k ≤ s.tokens.length by omega)]
    by_cases hempty : lo ≤ k
    · have hcount : decide (2 ≤ (s.window lo k ++ [name]).length) = decide (lo < k) := by
        rw [decide_eq_decide, List.length_append, s.length_window (by omega), List.length_singleton]
        omega
      rw [s.window_concat hname hempty, List.getLast?_concat, List.dropLast_concat]
      dsimp only
      rw [hcount]
      cases name.isIdentifier && decide (lo < k) <;> rfl
    · rw [s.window_of_le (show k + 1 ≤ lo by omega), decide_eq_false (by omega), Bool.and_false]
      rfl

lemma addEntry_eq (hs : s.Sound) (record : RecordType) {lo stop : Nat} (hlo : lo ≤ stop)
    (hstop : stop ≤ s.tokens.length) :
    addEntry s record lo stop = .ok (Parser.addEntry record (s.window lo stop)) := by
  obtain ⟨mark, hmark, hleft, hlo', hstop', -⟩ := find_cutOrAll s "=" hlo hstop
  have hfold : Parser.addEntry record (s.window lo stop) =
      Parser.addRead record (s.window lo stop)
        (Parser.isMarked (cutOrAll "=" (s.window lo stop)).1) (cutOrAll "=" (s.window lo stop)).2
        (Parser.unmarked (cutOrAll "=" (s.window lo stop)).1) := rfl
  rw [addEntry, hfold, hmark, hleft]
  simp only [bind, Except.bind]
  by_cases hempty : lo < mark.getD stop
  · obtain ⟨k, hk⟩ : ∃ k, mark.getD stop = k + 1 := ⟨mark.getD stop - 1, by omega⟩
    obtain ⟨last, hlast⟩ := s.exists_getElem? (show k < s.tokens.length by omega)
    have hoptional : endsOptional s lo (k + 1) = .ok (last.is "?") := by
      rw [endsOptional, if_pos (by omega), minus_of_le (Nat.le_add_left 1 k), Nat.add_sub_cancel]
      simp only [bind, Except.bind, item_of_getElem? hlast]
      rfl
    have hmarked : Parser.isMarked (s.window lo k ++ [last]) = last.is "?" := by
      simp [Parser.isMarked]
    rw [hk, hoptional, Parser.unmarked, s.window_concat hlast (by omega), hmarked,
      List.dropLast_concat]
    dsimp only
    cases last.is "?" with
    | true =>
      rw [minus_of_le (by simp)]
      exact addRead_eq hs record true mark (show lo ≤ k by omega) (by omega) hstop
    | false =>
      rw [minus_of_le (by simp), ← s.window_concat hlast (by omega)]
      exact addRead_eq hs record false mark (show lo ≤ k + 1 by omega) (by omega) hstop
  · have hoptional : endsOptional s lo (mark.getD stop) = .ok false := by
      rw [endsOptional, if_neg hempty]
    have hread := addRead_eq hs record false mark hlo' hstop' hstop
    rw [hoptional]
    dsimp only
    rw [minus_of_le (by simp)]
    rw [s.window_of_le (Nat.not_lt.mp hempty)] at hread ⊢
    exact hread

/-- Each entry takes a token. -/
lemma follows_recordEntries (hs : s.Sound) (close : String) (n m : Nat) (record : RecordType)
    (pos : Nat) (hpos : pos ≤ s.tokens.length) (hn : s.tokens.length - pos < n)
    (hm : s.tokens.length - pos ≤ m) :
    Follows s (Past pos) (recordEntries s close n record pos)
      (Parser.recordEntries close m record (s.tokens.drop pos)) := by
  induction n generalizing m record pos with
  | zero => omega
  | succ n ih =>
    rw [recordEntries, sees_eq]
    rcases s.drop_cases pos with ⟨hnone, hdrop, -⟩ | ⟨t, ht, hdrop, hlt⟩
    · have hread : Parser.recordEntries close m record [] =
          .error (.unexpectedEnd (Parser.quoted close)) := by
        cases m <;> rfl
      rw [hdrop, hread, hnone, errorAt, hnone]
      exact .refused _
    · obtain ⟨m, rfl⟩ : ∃ k, m = k + 1 := ⟨m - 1, by omega⟩
      have hnext (record : RecordType) (stop : Nat) (hle : pos ≤ stop)
          (hstop : stop < s.tokens.length) :
          Follows s (Past pos) (recordEntries s close n record (stop + 1))
            (Parser.recordEntries close m record (s.tokens.drop (stop + 1))) :=
        (ih m record (stop + 1) hstop (by omega) (by omega)).mono fun _ _ h => by
          unfold Past at *
          omega
      have hentry := findMark_cases s ";" pos
      have hnames := follows_annotations s hlt.le
      have heat := eat_cases s "*" pos
      rw [hdrop] at hentry hnames heat ⊢
      rw [ht, Parser.recordEntries, Parser.sees]
      cases hclose : t.is close with
      | true =>
        simp only [if_true, expect_of_getElem? ht hclose]
        exact .reads _ (pos + 1) hlt (Nat.le_succ pos)
      | false =>
        simp only [Bool.false_eq_true, if_false]
        rcases hentry with
          ⟨e, hfind, hthrough, -⟩ | ⟨stop, semicolon, hfind, hle, hstop, -, -, hcut⟩
        · rw [hfind, hthrough]
          exact .refused e
        · rw [hfind, through_of_cut hcut]
          simp only [bind, Except.bind]
          cases hstar : t.is "*" with
          | true =>
            have heats : eat s "*" pos = some (pos + 1) := by simp [eat, sees, ht, hstar]
            have hdropped : (s.window pos stop).drop 1 = s.window (pos + 1) stop := List.drop_drop
            rw [heats]
            simp only [if_true, phrase_eq hs (pos + 1) hstop.le, hdropped]
            exact hnext _ stop hle hstop
          | false =>
            have heats : eat s "*" pos = none := by simp [eat, sees, ht, hstar]
            rw [heats]
            simp only [Bool.false_eq_true, if_false]
            rcases hnames.outcomes with ⟨e, hread, hrefused⟩ |
              ⟨names, pos', hread, hnames', hpos', hpast⟩
            · rw [hread, hrefused]
              exact .refused e
            · rw [← hdrop] at hnames' hcut
              obtain ⟨hle', hcut'⟩ :=
                cut_behind_annotations hs hnames' hpos' hpast hstop hle hcut
              rw [hdrop] at hnames'
              rw [hread, hnames']
              simp only [through_of_cut hcut', addEntry_eq hs record hle' hstop.le]
              exact hnext _ stop hle hstop

lemma follows_recordType (hs : s.Sound) {pos : Nat} {word : Token}
    (hword : s.tokens[pos]? = some word) (his : word.is "record") :
    Follows s (Past (pos + 1)) (recordType s pos)
      (Parser.recordType (s.tokens.drop (pos + 1))) := by
  rw [recordType, expect_of_getElem? hword his, Parser.recordType]
  simp only [bind, Except.bind]
  rcases eat_cases s "\x7b|" (pos + 1) with ⟨heat, hread⟩ | ⟨t, -, -, heat, hread, hlt⟩
  · rw [heat, hread]
    refine (follows_expect s "\x7b" (pos + 1)).bind fun brace pos' hpos' hends => ?_
    refine (follows_recordEntries hs _ _ _ _ pos' hpos' (by omega) (by rw [List.length_drop])).mono
      fun _ _ h => ?_
    have hpast := hends.past
    unfold Past at *
    omega
  · rw [heat, hread]
    refine (follows_recordEntries hs _ _ _ _ (pos + 1 + 1) hlt (by omega)
      (by rw [List.length_drop])).mono fun _ _ h => ?_
    unfold Past at *
    omega

lemma follows_typeDescriptor (hs : s.Sound) (pos : Nat) :
    Follows s (Past pos) (typeDescriptor s pos) (Parser.typeDescriptor (s.tokens.drop pos)) := by
  rw [typeDescriptor, Parser.typeDescriptor, sees_eq]
  rcases eat_cases s "record" pos with ⟨-, hread⟩ | ⟨word, hword, his, -, hread, -⟩
  · rw [hread, sees_of_eat hread]
    refine (follows_upTo hs ";" pos).bind fun descriptor pos' hpos' hpast => ?_
    exact .reads _ pos' hpos' hpast
  · have hsees : Parser.sees "record" (s.tokens.drop pos) = true := by
      rw [(s.drop_of_getElem? hword).1]
      exact his
    rw [hread, hsees]
    refine (follows_recordType hs hword his).bind fun record pos' hpos' hpast => ?_
    exact .reads _ pos' hpos' (by unfold Past at *; omega)

lemma follows_typeDefinition (hs : s.Sound) {start pos : Nat} {a word : Token}
    (ha : s.tokens[start]? = some a) (hstart : start ≤ pos) (hword : s.tokens[pos]? = some word)
    (his : word.is "type") (words : List String) :
    Follows s (Past (pos + 1)) (typeDefinition s start words pos)
      (Parser.typeDefinition a words (s.tokens.drop (pos + 1))) := by
  rw [typeDefinition, expect_of_getElem? hword his]
  refine (follows_identifier s (pos + 1)).bind fun name pos1 hpos1 hpast1 => ?_
  refine (follows_typeDescriptor hs pos1).bind fun descriptor pos2 hpos2 hpast2 => ?_
  refine (follows_expect s ";" pos2).bind fun semicolon pos3 hpos3 hends => ?_
  unfold Past at *
  have hpast3 := hends.past
  dsimp only
  rw [spanFrom_eq ha hends (by omega)]
  exact .reads _ pos3 hpos3 (by omega)

lemma enumMember_eq (hs : s.Sound) {lo hi : Nat} (hhi : hi ≤ s.tokens.length) :
    enumMember s lo hi = .ok (Option.guard (!·.isEmpty) (s.window lo hi)) := by
  rw [enumMember, phrase_eq hs lo hhi]
  by_cases hlt : lo < hi
  · have hne : (s.window lo hi).isEmpty = false := by
      rw [List.isEmpty_eq_false_iff, Ne, s.window_eq_nil_iff hhi]
      omega
    rw [if_pos hlt, Option.guard, hne]
    rfl
  · rw [if_neg hlt, s.window_of_le (Nat.not_lt.mp hlt)]
    rfl

lemma follows_enumDefinition (hs : s.Sound) {start pos : Nat} {a word : Token}
    (ha : s.tokens[start]? = some a) (hstart : start ≤ pos) (hword : s.tokens[pos]? = some word)
    (his : word.is "enum") (words : List String) :
    Follows s (Past (pos + 1)) (enumDefinition s start words pos)
      (Parser.enumDefinition a words (s.tokens.drop (pos + 1))) := by
  rw [enumDefinition, expect_of_getElem? hword his]
  refine (follows_identifier s (pos + 1)).bind fun name pos1 hpos1 hpast1 => ?_
  refine (follows_expect s "\x7b" pos1).bind fun brace pos2 hpos2 hends => ?_
  unfold Past at hpast1
  have hpast2 := hends.past
  dsimp only
  rcases findMark_cases s "\x7d" pos2 with ⟨e, hfind, hthrough, -⟩ |
    ⟨close, t, hfind, hle, hclose, ht, hmark, hcut⟩
  · rw [hfind, hthrough]
    exact .refused e
  · have hgroups := eachGroup_eq hclose.le
      (fun lo stop _ _ hstop => enumMember_eq hs (show stop ≤ s.tokens.length by omega))
      (s.tokens.length + 1) pos2 le_rfl (by omega)
    rw [List.filterMap_eq_filter] at hgroups
    rw [hfind, through_of_cut hcut]
    simp only [bind, Except.bind, hgroups, expect_of_getElem? ht hmark,
      spanFrom_token ha ht (show start ≤ close by omega)]
    exact .reads _ (close + 1) hclose (by unfold Past; omega)

/-! ### Modules -/

/-- A word is no string literal. -/
lemma is_of_text (hs : s.Sound) {pos : Nat} {t : Token} (ht : s.tokens[pos]? = some t)
    {word : String} (htext : (t.text == word) = true) (hword : word.toList.all Char.isAlpha) :
    t.is word := by
  have hkind : t.kind ≠ .string := by
    intro hkind
    obtain ⟨c, cs, hcs, hc⟩ := hs.quoted t (s.mem_of_getElem? ht) hkind
    rw [← beq_iff_eq.mp htext, hcs, List.all_cons, Bool.and_eq_true] at hword
    rcases hc with rfl | rfl
    · exact absurd hword.1 (by decide)
    · exact absurd hword.1 (by decide)
  rw [Token.is, htext, Bool.and_true]
  simpa using hkind

lemma follows_memberAfter (hs : s.Sound) {start pos : Nat} {a : Token}
    (ha : s.tokens[start]? = some a) (hstart : start ≤ pos) (names words : List String) :
    Follows s (Past (pos + 1)) (memberAfter s start names words pos)
      (Parser.memberAfter a names words (s.tokens.drop pos)) := by
  rw [memberAfter]
  have hdeclaration := follows_declaration hs ha hstart names words
  rcases s.drop_cases pos with ⟨hnone, hdrop, -⟩ | ⟨t, ht, hdrop, -⟩
  · rw [hdrop, hnone, errorAt, hnone]
    exact .refused _
  · have hword {word : String} (htext : (t.text == word) = true) := is_of_text hs ht htext
    rw [hdrop] at hdeclaration ⊢
    rw [ht, Parser.memberAfter]
    dsimp only
    refine .ite _ (fun h => ?_) fun _ => ?_
    · refine (follows_functionDefinition hs ha hstart ht (hword h (by decide)) words).bind
        fun read pos' hpos' hpast => ?_
      exact .reads _ pos' hpos' hpast
    refine .ite _ (fun h => ?_) fun _ => ?_
    · refine (follows_serviceDefinition hs ha hstart ht (hword h (by decide))).bind
        fun read pos' hpos' hpast => ?_
      exact .reads _ pos' hpos' hpast
    refine .ite _ (fun h => ?_) fun _ => ?_
    · refine (follows_classDefinition hs ha hstart ht (hword h (by decide)) words).bind
        fun read pos' hpos' hpast => ?_
      exact .reads _ pos' hpos' hpast
    refine .ite _ (fun h => ?_) fun _ => ?_
    · refine (follows_typeDefinition hs ha hstart ht (hword h (by decide)) words).bind
        fun read pos' hpos' hpast => ?_
      exact .reads _ pos' hpos' hpast
    refine .ite _ (fun h => ?_) fun _ => ?_
    · refine (follows_enumDefinition hs ha hstart ht (hword h (by decide)) words).bind
        fun read pos' hpos' hpast => ?_
      exact .reads _ pos' hpos' hpast
    refine .ite _ (fun _ => ?_) fun _ => ?_
    · refine (follows_declaration hs ha (show start ≤ pos + 1 by omega) names _).bind
        fun read pos' hpos' hpast => ?_
      exact .reads _ pos' hpos' (by unfold Past at *; omega)
    refine .ite _ (fun _ => ?_) fun _ => ?_
    · rw [unsupportedAt_eq ht]
      exact .refused _
    · refine hdeclaration.bind fun read pos' hpos' hpast => ?_
      exact .reads _ pos' hpos' hpast

lemma follows_member (hs : s.Sound) {start : Nat} {a : Token} (ha : s.tokens[start]? = some a) :
    Follows s (Past (start + 1)) (member s start)
      (Parser.member a (s.tokens.drop (start + 1))) := by
  obtain ⟨hdrop, hlt⟩ := s.drop_of_getElem? ha
  have hnames := follows_annotations s hlt.le
  rw [hdrop] at hnames
  refine hnames.bind fun names pos hpos hpast => ?_
  obtain ⟨pos', hwords, hrest, hle, -⟩ := qualifiers_eq s hpos
  unfold Past at hpast
  dsimp only
  rw [hwords, hrest]
  refine (follows_memberAfter hs ha (show start ≤ pos' by omega) names _).mono fun _ _ h => ?_
  unfold Past at *
  omega

/-- Each import, member and stray semicolon takes a token, so that no token is left at the end. -/
lemma moduleParts_eq (hs : s.Sound) (n m pos : Nat) (hn : s.tokens.length - pos < n)
    (hm : s.tokens.length - pos ≤ m) :
    moduleParts s n pos = lift (Parser.moduleParts m (s.tokens.drop pos)) := by
  induction n generalizing m pos with
  | zero => omega
  | succ n ih =>
    rw [moduleParts]
    rcases s.drop_cases pos with ⟨hnone, hdrop, -⟩ | ⟨t, ht, hdrop, hlt⟩
    · rw [hnone, hdrop]
      cases m <;> rfl
    · obtain ⟨m, rfl⟩ : ∃ k, m = k + 1 := ⟨m - 1, by omega⟩
      have hnext (pos' : Nat) (hle : pos + 1 ≤ pos') :
          moduleParts s n pos' = lift (Parser.moduleParts m (s.tokens.drop pos')) :=
        ih m pos' (by omega) (by omega)
      rw [ht, hdrop, Parser.moduleParts]
      dsimp only
      cases himport : t.is "import" with
      | true =>
        simp only [if_true]
        rcases (follows_importDeclaration ht himport).outcomes with ⟨e, hread, hrefused⟩ |
          ⟨read, pos', hread, hread', -, hpast⟩
        · rw [hread, hrefused]
          rfl
        · rw [hread, hread']
          simp only [bind, Except.bind, hnext pos' hpast]
          cases Parser.moduleParts m (s.tokens.drop pos') <;> rfl
      | false =>
        simp only [Bool.false_eq_true, if_false]
        cases hsemicolon : t.is ";" with
        | true =>
          have heat : eat s ";" pos = some (pos + 1) := by simp [eat, sees, ht, hsemicolon]
          rw [heat]
          exact hnext (pos + 1) le_rfl
        | false =>
          have heat : eat s ";" pos = none := by simp [eat, sees, ht, hsemicolon]
          rw [heat]
          simp only [Bool.false_eq_true, if_false]
          rcases (follows_member hs ht).outcomes with ⟨e, hread, hrefused⟩ |
            ⟨read, pos', hread, hread', -, hpast⟩
          · rw [hread, hrefused]
            rfl
          · rw [hread, hread']
            simp only [bind, Except.bind, hnext pos' hpast]
            cases Parser.moduleParts m (s.tokens.drop pos') <;> rfl

end FlowCanvas.Indexed
