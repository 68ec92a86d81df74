import FlowCanvas.Proofs.Erasure
import FlowCanvas.Proofs.Lossless

/-!
# Readers do not look at layout

A reader that is given tokens without layout and places reads the same, without layout and places:
`Erases` says so of one reader, and there is one lemma for each. Two texts of one wording are then
read alike, the errors included.
-/

namespace FlowCanvas.Parser

open Brackets Phrase

variable {α β γ δ : Type}

/-- A result without layout and places. -/
def eraseResult (look : α → β) : Except SyntaxError α → Except SyntaxError β
  | .ok x => .ok (look x)
  | .error e => .error e.erase

/-- What was read and the tokens that are left, without layout and places. -/
def eraseRead (look : α → β) (read : α × Phrase) : β × Phrase := (look read.1, read.2.erase)

/-- `read'` reads from tokens without layout and places what `read` reads from the tokens. -/
def Erases (look : α → β) (read : Reader α) (read' : Reader β) : Prop :=
  ∀ ts, read' ts.erase = eraseResult (eraseRead look) (read ts)

lemma eraseResult_bind {look : α → β} {look' : γ → δ} {m : Except SyntaxError α}
    {m' : Except SyntaxError β} {k : α → Except SyntaxError γ} {k' : β → Except SyntaxError δ}
    (hm : m' = eraseResult look m) (hk : ∀ x, k' (look x) = eraseResult look' (k x)) :
    m' >>= k' = eraseResult look' (m >>= k) := by
  rw [hm]
  cases m with
  | error e => rfl
  | ok x => exact hk x

lemma eraseResult_ite {look : α → β} {m k : Except SyntaxError α} {m' k' : Except SyntaxError β}
    (c : Bool) (hm : m' = eraseResult look m) (hk : k' = eraseResult look k) :
    (if c then m' else k') = eraseResult look (if c then m else k) := by
  cases c with
  | true => exact hm
  | false => exact hk

lemma Erases.bind {look : α → β} {look' : γ → δ} {read : Reader α} {read' : Reader β}
    {next : α × Phrase → Except SyntaxError (γ × Phrase)}
    {next' : β × Phrase → Except SyntaxError (δ × Phrase)} (h : Erases look read read')
    (hnext : ∀ x, Erases look' (fun ts => next (x, ts)) fun ts => next' (look x, ts)) :
    Erases look' (fun ts => read ts >>= next) fun ts => read' ts >>= next' :=
  fun ts => eraseResult_bind (h ts) fun r => hnext r.1 r.2

lemma erases_pure {look : α → β} {x : α} {y : β} (h : y = look x) :
    Erases look (fun ts => pure (x, ts)) fun ts => pure (y, ts) := by
  intro ts
  rw [h]
  rfl

lemma errorAt_erase (expected : String) (ts : Phrase) :
    errorAt expected ts.erase = (errorAt expected ts).erase := by
  cases ts <;> rfl

lemma erases_errorAt (look : α → β) (expected : String) :
    Erases look (fun ts => .error (errorAt expected ts)) fun ts => .error (errorAt expected ts) :=
  fun ts => congrArg Except.error (errorAt_erase expected ts)

lemma sees_erase (mark : String) (ts : Phrase) : sees mark ts.erase = sees mark ts := by
  cases ts <;> rfl

lemma eat_erase (mark : String) (ts : Phrase) : eat mark ts.erase = (eat mark ts).map erase := by
  cases ts with
  | nil => rfl
  | cons t ts =>
    cases h : t.is mark <;> simp [eat, h]

/-- A reader that goes one way or the other by its first token. -/
lemma Erases.branch {mark : String} {look : α → β} {without behind : Reader α}
    {without' behind' : Reader β} (hwithout : Erases look without without')
    (hbehind : Erases look behind behind') :
    Erases look (fun ts => match eat mark ts with | none => without ts | some ts => behind ts)
      (fun ts => match eat mark ts with | none => without' ts | some ts => behind' ts) := by
  intro ts
  dsimp only
  rw [eat_erase]
  cases eat mark ts with
  | none => exact hwithout ts
  | some rest => exact hbehind rest

/-! ### Steps -/

lemma erases_readIf {test : Token → Bool} (htest : ∀ t : Token, test t.erase = test t)
    (expected : String) : Erases Token.erase (readIf test expected) (readIf test expected) := by
  intro ts
  cases ts with
  | nil => rfl
  | cons t ts =>
    cases h : test t <;> simp [readIf, htest, h, eraseResult, eraseRead, ← errorAt_erase]

lemma erases_expect (mark : String) : Erases Token.erase (expect mark) (expect mark) :=
  erases_readIf (fun _ => rfl) _

lemma erases_identifier : Erases Token.erase identifier identifier :=
  erases_readIf (fun _ => rfl) _

lemma erases_through (mark : String) :
    Erases (fun p : Phrase × Token => (p.1.erase, p.2.erase)) (through mark) (through mark) := by
  intro ts
  rw [through, through, cut_erase]
  cases cut mark ts with
  | none => exact congrArg Except.error (errorAt_erase _ ts)
  | some r => rfl

lemma erases_upTo (mark : String) : Erases Phrase.erase (upTo mark) (upTo mark) := by
  intro ts
  rw [upTo, upTo, cut_erase]
  cases cut mark ts with
  | none => exact congrArg Except.error (errorAt_erase _ ts)
  | some r => rfl

lemma erases_annotationName : Erases id annotationName annotationName := by
  refine .bind erases_identifier fun first => ?_
  refine .branch (erases_pure rfl) ?_
  exact .bind erases_identifier fun second => erases_pure rfl

lemma annotationValue_erase (ts : Phrase) :
    annotationValue ts.erase = eraseResult erase (annotationValue ts) := by
  unfold annotationValue
  rw [sees_erase, dropGroup_erase]
  cases dropGroup ts with
  | none => split_ifs <;> rfl
  | some rest => split_ifs <;> rfl

lemma erases_annotationsFrom (n : Nat) : Erases id (annotationsFrom n) (annotationsFrom n) := by
  induction n with
  | zero => exact fun ts => rfl
  | succ n ih =>
    refine .branch (erases_pure rfl) (.bind erases_annotationName fun name ts => ?_)
    refine eraseResult_bind (annotationValue_erase ts) fun rest => ?_
    exact eraseResult_bind (ih rest) fun r => rfl

lemma erases_annotations : Erases id annotations annotations := by
  intro ts
  unfold annotations
  rw [length_erase]
  exact erases_annotationsFrom ts.length ts

lemma qualifiers_erase (ts : Phrase) :
    qualifiers ts.erase = ((qualifiers ts).1, (qualifiers ts).2.erase) := by
  induction ts with
  | nil => rfl
  | cons t ts ih =>
    simp only [erase_cons, qualifiers, Token.erase_isWord, ih]
    split_ifs <;> rfl

/-! ### Statements -/

lemma expression_erase (next : Token) (ts : Phrase) :
    expression next.erase ts.erase = eraseResult Expression.erase (expression next ts) := by
  cases ts <;> rfl

lemma initializer_erase (next : Token) (value : Option Phrase) :
    initializer next.erase (value.map erase) =
      eraseResult (Option.map Expression.erase) (initializer next value) := by
  cases value with
  | none => rfl
  | some ts => cases ts <;> rfl

lemma erases_declaration (start : Token) (names words : List String) :
    Erases Declaration.erase (declaration start names words)
      (declaration start.erase names words) := by
  intro ts
  refine eraseResult_bind (erases_through ";" ts) fun r => ?_
  obtain ⟨⟨body, semicolon⟩, rest⟩ := r
  simp only [eraseRead, cutOrAll_erase, getLast?_erase, errorAt_erase, dropLast_erase]
  cases (cutOrAll "=" body).1.getLast? with
  | none => rfl
  | some name =>
    cases h : name.isIdentifier with
    | false => simp [h, eraseResult]
    | true =>
      simp only [Option.map_some, Token.erase_isIdentifier, h, if_true]
      exact eraseResult_bind (initializer_erase semicolon _) fun value => rfl

lemma looksDeclared_erase (left : Phrase) : looksDeclared left.erase = looksDeclared left := by
  have h : (erase left).lexemes = left.lexemes := by
    simp [lexemes, erase, Function.comp_def]
  exact (alike_iff.mpr h).looksDeclared

lemma erases_simpleStatement (start : Token) :
    Erases Statement.erase (simpleStatement start) (simpleStatement start.erase) := by
  intro ts
  refine eraseResult_bind (erases_through ";" ts) fun r => ?_
  obtain ⟨⟨body, semicolon⟩, rest⟩ := r
  simp only [eraseRead, cutOrAll_erase, looksDeclared_erase, errorAt_erase, isEmpty_erase]
  cases looksDeclared (cutOrAll "=" body).1 with
  | true => exact eraseResult_bind (erases_declaration start [] [] ts) fun d => rfl
  | false =>
    simp only [Bool.false_eq_true, if_false]
    cases (cutOrAll "=" body).2 with
    | none => exact eraseResult_bind (expression_erase semicolon body) fun value => rfl
    | some value =>
      simp only [Option.map_some]
      split_ifs
      · rfl
      · exact eraseResult_bind (expression_erase semicolon value) fun value => rfl

lemma erases_skipStatement (depth : Nat) :
    Erases Token.erase (skipStatement depth) (skipStatement depth) := by
  intro ts
  induction ts generalizing depth with
  | nil => rfl
  | cons t ts ih =>
    cases depth with
    | zero =>
      simp only [erase_cons, skipStatement, Token.erase_isOpener, Token.erase_isCloser,
        Token.erase_is, ih]
      split_ifs <;> rfl
    | succ depth =>
      simp only [erase_cons, skipStatement, Token.erase_isOpener, Token.erase_isCloser,
        Token.erase_is, sees_erase, ih]
      split_ifs <;> rfl

lemma erases_unsupportedStatement (construct : String) (start : Token) :
    Erases Statement.erase (unsupportedStatement construct start)
      (unsupportedStatement construct start.erase) :=
  .bind (erases_skipStatement 0) fun _ => erases_pure rfl

lemma erases_condition : Erases Expression.erase condition condition := by
  intro ts
  rw [condition, condition, cut_erase]
  cases cut "\x7b" ts with
  | none => exact congrArg Except.error (errorAt_erase _ ts)
  | some r => exact eraseResult_bind (expression_erase r.2.1 r.1) fun value => rfl

lemma erases_conditional {block : Reader Block} (hblock : Erases Block.erase block block) (n : Nat)
    (start : Token) :
    Erases Conditional.erase (conditional block n start) (conditional block n start.erase) := by
  induction n generalizing start with
  | zero => exact erases_errorAt _ _
  | succ n ih =>
    refine .bind erases_condition fun value => .bind hblock fun body ts => ?_
    dsimp only
    rw [eat_erase]
    cases eat "else" ts with
    | none => cases body; rfl
    | some rest =>
      cases rest with
      | nil => rfl
      | cons t rest =>
        cases h : t.is "if" with
        | true =>
          simp only [Option.map_some, erase_cons, Token.erase_is, h, if_true]
          refine eraseResult_bind (ih t rest) fun r => ?_
          obtain ⟨⟨_, _, _, _⟩, _⟩ := r
          rfl
        | false =>
          simp only [Option.map_some, erase_cons, Token.erase_is, h, Bool.false_eq_true, if_false]
          refine eraseResult_bind (hblock (t :: rest)) fun r => ?_
          obtain ⟨⟨_, _⟩, _⟩ := r
          rfl

lemma erases_loop {block : Reader Block} (hblock : Erases Block.erase block block) (start : Token) :
    Erases Statement.erase (loop block start) (loop block start.erase) := by
  refine .bind erases_condition fun value => .bind hblock fun body => erases_pure ?_
  cases body
  rfl

lemma erases_exit (kind : ExitKind) (start : Token) :
    Erases Statement.erase (exit kind start) (exit kind start.erase) := by
  refine .bind (erases_through ";") fun r rest => ?_
  obtain ⟨body, semicolon⟩ := r
  cases body with
  | nil =>
    simp only [erase_nil]
    split_ifs <;> rfl
  | cons t ts => rfl

lemma erases_jump (kind : JumpKind) (start : Token) :
    Erases Statement.erase (jump kind start) (jump kind start.erase) :=
  .bind (erases_expect ";") fun _ => erases_pure rfl

lemma erases_markedDeclaration (start : Token) :
    Erases Statement.erase (markedDeclaration start) (markedDeclaration start.erase) := by
  refine .bind erases_annotations fun names ts => ?_
  dsimp only
  rw [eat_erase]
  cases eat "final" ts with
  | none =>
    exact eraseResult_bind (erases_declaration start names [] ts) fun r => rfl
  | some rest =>
    exact eraseResult_bind (erases_declaration start names ["final"] rest) fun r => rfl

lemma erases_statement {block : Reader Block} (hblock : Erases Block.erase block block)
    (start : Token) :
    Erases Statement.erase (statement block start) (statement block start.erase) := by
  intro ts
  have hskip (construct : String) := erases_unsupportedStatement construct start (start :: ts)
  have hsimple := erases_simpleStatement start (start :: ts)
  have hmarked := erases_markedDeclaration start (start :: ts)
  rw [erase_cons] at hskip hsimple hmarked
  unfold statement
  rw [length_erase]
  refine eraseResult_ite _ (hskip start.text) ?_
  refine eraseResult_ite _
    (eraseResult_bind (erases_conditional hblock ts.length start ts) fun _ => rfl) ?_
  refine eraseResult_ite _ (erases_loop hblock start ts) ?_
  refine eraseResult_ite _ (erases_exit .return start ts) ?_
  refine eraseResult_ite _ (erases_exit .fail start ts) ?_
  refine eraseResult_ite _ (erases_exit .panic start ts) ?_
  refine eraseResult_ite _ (erases_jump .break start ts) ?_
  refine eraseResult_ite _ (erases_jump .continue start ts) ?_
  refine eraseResult_ite _ (hskip "block") ?_
  exact eraseResult_ite _ hmarked hsimple

/-- Statements and the brace after them, without layout and places. -/
def eraseBody (body : List Statement × Token) : List Statement × Token :=
  (Statement.eraseAll body.1, body.2.erase)

lemma erases_blockWith {statements : Reader (List Statement × Token)}
    (hstatements : Erases eraseBody statements statements) :
    Erases Block.erase (blockWith statements) (blockWith statements) :=
  .bind (erases_expect "\x7b") fun _ => .bind hstatements fun _ => erases_pure rfl

lemma erases_statements (n : Nat) : Erases eraseBody (statements n) (statements n) := by
  induction n with
  | zero => exact erases_errorAt _ _
  | succ n ih =>
    intro ts
    cases ts with
    | nil => rfl
    | cons t ts =>
      cases h : t.is "\x7d" with
      | true => simp [statements, h, eraseResult, eraseRead, eraseBody, Statement.eraseAll]
      | false =>
        simp only [erase_cons, statements, Token.erase_is, h, Bool.false_eq_true, if_false]
        refine eraseResult_bind (erases_statement (erases_blockWith ih) t ts) fun first => ?_
        exact eraseResult_bind (ih first.2) fun others => rfl

lemma erases_block : Erases Block.erase block block := by
  intro ts
  unfold block
  rw [length_erase]
  exact erases_blockWith (erases_statements ts.length) ts

/-! ### Members -/

lemma erases_dottedRest (n : Nat) : Erases id (dottedRest n) (dottedRest n) := by
  induction n with
  | zero => exact erases_pure rfl
  | succ n ih =>
    refine .branch (erases_pure rfl) (.bind erases_identifier fun part rest => ?_)
    exact eraseResult_bind (ih rest) fun _ => rfl

lemma erases_importHead : Erases id importHead importHead := by
  refine .bind erases_identifier fun first => .branch (erases_pure rfl) ?_
  exact .bind erases_identifier fun second => erases_pure rfl

lemma erases_importQualifier (name : String) :
    Erases id (importQualifier name) (importQualifier name) :=
  .branch (erases_pure rfl) (.bind erases_identifier fun _ => erases_pure rfl)

lemma erases_importDeclaration (start : Token) :
    Erases Import.unplaced (importDeclaration start) (importDeclaration start.erase) := by
  refine .bind erases_importHead fun head ts => ?_
  dsimp only
  rw [length_erase]
  refine eraseResult_bind (erases_dottedRest ts.length ts) fun parts => ?_
  refine eraseResult_bind (erases_importQualifier _ parts.2) fun qualifier => ?_
  exact eraseResult_bind (erases_expect ";" qualifier.2) fun _ => rfl

lemma dropAnnotations_erase (n : Nat) (ts : Phrase) :
    dropAnnotations n ts.erase = (dropAnnotations n ts).erase := by
  induction n generalizing ts with
  | zero => rfl
  | succ n ih =>
    cases ts with
    | nil => rfl
    | cons t ts =>
      have hgetD (rest : Option Phrase) : (rest.map erase).getD [] = (rest.getD []).erase := by
        cases rest <;> rfl
      have hrest (rest : Phrase) :
          (if sees "\x7b" rest then (dropGroup rest.erase).getD [] else rest.erase) =
            (if sees "\x7b" rest then (dropGroup rest).getD [] else rest).erase := by
        rw [dropGroup_erase, hgetD]
        split_ifs <;> rfl
      simp only [erase_cons, dropAnnotations, Token.erase_is, drop_erase, sees_erase, hrest, ih]
      split_ifs <;> rfl

lemma parameter?_erase (ts : Phrase) :
    parameter? ts.erase = (parameter? ts).map Parameter.erase := by
  simp only [parameter?, length_erase, dropAnnotations_erase, cutOrAll_erase, getLast?_erase,
    dropLast_erase]
  cases (cutOrAll "=" (dropAnnotations ts.length ts)).1.getLast? <;> rfl

lemma filterMap_parameter?_erase (list : List Phrase) :
    (list.map erase).filterMap parameter? =
      (list.filterMap parameter?).map Parameter.erase := by
  rw [List.filterMap_map, List.map_filterMap]
  congr 1
  funext ts
  exact parameter?_erase ts

lemma erases_parameters : Erases (List.map Parameter.erase) parameters parameters := by
  refine .bind (erases_expect "(") fun _ => .bind (erases_through ")") fun inner => ?_
  refine erases_pure ?_
  rw [segments_erase, filterMap_parameter?_erase]

lemma erases_functionName (words : List String) :
    Erases FunctionName.erase (functionName words) (functionName words) := by
  refine .bind erases_identifier fun name ts => eraseResult_ite _ ?_ (eraseResult_ite _ rfl rfl)
  exact eraseResult_bind (erases_upTo "(" ts) fun _ => rfl

lemma erases_returnType : Erases (Option.map erase) returnType returnType := by
  refine .branch (erases_pure rfl) (.bind erases_annotations fun _ => ?_)
  exact .bind (erases_upTo "\x7b") fun _ => erases_pure rfl

lemma erases_functionDefinition (start : Token) (words : List String) :
    Erases FunctionDefinition.erase (functionDefinition start words)
      (functionDefinition start.erase words) := by
  refine .bind (erases_functionName words) fun name => .bind erases_parameters fun list => ?_
  refine .bind erases_returnType fun returns ts => ?_
  cases ts with
  | nil => rfl
  | cons t ts =>
    refine eraseResult_ite _ rfl ?_
    refine eraseResult_bind (erases_block (t :: ts)) fun r => ?_
    obtain ⟨⟨_, _⟩, _⟩ := r
    rfl

/-- Members of an object without layout and places. -/
def ObjectBody.erase (body : ObjectBody) : ObjectBody :=
  ⟨body.fields.map Declaration.erase, body.functions.map FunctionDefinition.erase,
    body.close.erase⟩

lemma erases_objectMembers (n : Nat) :
    Erases ObjectBody.erase (objectMembers n) (objectMembers n) := by
  induction n with
  | zero => exact erases_errorAt _ _
  | succ n ih =>
    intro ts
    cases ts with
    | nil => rfl
    | cons start ts =>
      refine eraseResult_ite _ rfl ?_
      refine eraseResult_bind (erases_annotations (start :: ts)) fun marks => ?_
      simp only [eraseRead, qualifiers_erase, eat_erase, sees_erase]
      cases eat "function" (qualifiers marks.2).2 with
      | some rest =>
        refine eraseResult_bind (erases_functionDefinition start _ rest) fun function => ?_
        exact eraseResult_bind (ih function.2) fun _ => rfl
      | none =>
        refine eraseResult_ite _ ?_ ?_
        · exact eraseResult_bind (erases_through ";" _) fun r => ih r.2
        · refine eraseResult_bind (erases_declaration start marks.1 _ _) fun field => ?_
          exact eraseResult_bind (ih field.2) fun _ => rfl

lemma erases_objectBody : Erases ObjectBody.erase objectBody objectBody := by
  refine .bind (erases_expect "\x7b") fun _ ts => ?_
  dsimp only
  rw [length_erase]
  exact erases_objectMembers ts.length ts

lemma erases_serviceDefinition (start : Token) :
    Erases ServiceDefinition.erase (serviceDefinition start) (serviceDefinition start.erase) := by
  refine .bind (erases_through "on") fun path => .bind (erases_upTo "\x7b") fun listener => ?_
  refine .bind erases_objectBody fun body ts => ?_
  cases ts with
  | nil => rfl
  | cons t ts =>
    cases h : t.is ";" with
    | true =>
      simp only [erase_cons, Token.erase_is, h, ite_true]
      rfl
    | false =>
      simp only [erase_cons, Token.erase_is, h, Bool.false_eq_true, ite_false]
      rfl

lemma erases_classDefinition (start : Token) (words : List String) :
    Erases ClassDefinition.erase (classDefinition start words)
      (classDefinition start.erase words) :=
  .bind erases_identifier fun _ => .bind erases_objectBody fun _ => erases_pure rfl

lemma addEntry_erase (record : RecordType) (entry : Phrase) :
    addEntry record.erase entry.erase = (addEntry record entry).erase := by
  have hany (t : Option Token) : (t.map Token.erase).any (·.is "?") = t.any (·.is "?") := by
    cases t <;> rfl
  have hleft (c : Bool) (left : Phrase) :
      (if c then left.erase.dropLast else left.erase) =
        erase (if c then left.dropLast else left) := by
    cases c with
    | false => rfl
    | true => exact dropLast_erase left
  simp only [addEntry, cutOrAll_erase, getLast?_erase (cutOrAll "=" entry).1, hany, hleft]
  generalize (cutOrAll "=" entry).1.getLast?.any (·.is "?") = optional
  generalize (if optional then (cutOrAll "=" entry).1.dropLast else (cutOrAll "=" entry).1) = left
  rw [getLast?_erase]
  cases left.getLast? with
  | none => rfl
  | some name =>
    simp only [Option.map_some, Token.erase_isIdentifier, length_erase]
    split_ifs
    · simp [RecordType.erase, RecordField.erase]
    · rfl

lemma erases_recordEntries (close : String) (n : Nat) (record : RecordType) :
    Erases RecordType.erase (recordEntries close n record)
      (recordEntries close n record.erase) := by
  induction n generalizing record with
  | zero => exact erases_errorAt _ _
  | succ n ih =>
    intro ts
    cases ts with
    | nil => rfl
    | cons t ts =>
      refine eraseResult_ite _ rfl ?_
      refine eraseResult_bind (erases_through ";" (t :: ts)) fun r => eraseResult_ite _ ?_ ?_
      · have hadded := ih { record with inclusions := record.inclusions ++ [r.1.1.drop 1] } r.2
        simp only [RecordType.erase, List.map_append, List.map_cons, ← drop_erase] at hadded
        exact hadded
      · refine eraseResult_bind (erases_annotations (t :: ts)) fun marks => ?_
        refine eraseResult_bind (erases_through ";" marks.2) fun r => ?_
        have hadded := ih (addEntry record r.1.1) r.2
        rw [← addEntry_erase] at hadded
        exact hadded

lemma erases_recordType : Erases RecordType.erase recordType recordType := by
  have hentries (close : String) (closed : Bool) : Erases RecordType.erase
      (fun ts => recordEntries close ts.length ⟨closed, [], [], none⟩ ts)
      (fun ts => recordEntries close ts.length ⟨closed, [], [], none⟩ ts) := by
    intro ts
    dsimp only
    rw [length_erase]
    exact erases_recordEntries close ts.length ⟨closed, [], [], none⟩ ts
  exact .branch (.bind (erases_expect "\x7b") fun _ => hentries _ _) (hentries _ _)

lemma erases_typeDescriptor :
    Erases TypeDescriptor.erase typeDescriptor typeDescriptor := by
  refine .branch (.bind (erases_upTo ";") fun _ => erases_pure rfl) ?_
  exact .bind erases_recordType fun _ => erases_pure rfl

lemma erases_typeDefinition (start : Token) (words : List String) :
    Erases TypeDefinition.erase (typeDefinition start words)
      (typeDefinition start.erase words) := by
  refine .bind erases_identifier fun _ => .bind erases_typeDescriptor fun _ => ?_
  exact .bind (erases_expect ";") fun _ => erases_pure rfl

lemma erases_enumDefinition (start : Token) (words : List String) :
    Erases TypeDefinition.erase (enumDefinition start words)
      (enumDefinition start.erase words) := by
  refine .bind erases_identifier fun _ => .bind (erases_expect "\x7b") fun _ => ?_
  refine .bind (erases_through "\x7d") fun inner => erases_pure ?_
  have hmembers : (segments inner.1.erase).filter (!·.isEmpty) =
      ((segments inner.1).filter (!·.isEmpty)).map erase := by
    rw [segments_erase, List.filter_map]
    congr 2
    funext ts
    simp
  simp only [TypeDefinition.erase, TypeDescriptor.erase, ← hmembers]
  rfl

lemma erases_memberAfter (start : Token) (names words : List String) :
    Erases Member.erase (memberAfter start names words) (memberAfter start.erase names words) := by
  intro ts
  cases ts with
  | nil => rfl
  | cons t ts =>
    have hdeclared := erases_declaration start names words (t :: ts)
    rw [erase_cons] at hdeclared
    refine eraseResult_ite _ ?_ (eraseResult_ite _ ?_ (eraseResult_ite _ ?_ ?_))
    · exact eraseResult_bind (erases_functionDefinition start words ts) fun _ => rfl
    · exact eraseResult_bind (erases_serviceDefinition start ts) fun _ => rfl
    · exact eraseResult_bind (erases_classDefinition start words ts) fun _ => rfl
    refine eraseResult_ite _ ?_ (eraseResult_ite _ ?_ (eraseResult_ite _ ?_ ?_))
    · exact eraseResult_bind (erases_typeDefinition start words ts) fun _ => rfl
    · exact eraseResult_bind (erases_enumDefinition start words ts) fun _ => rfl
    · exact eraseResult_bind (erases_declaration start names _ ts) fun _ => rfl
    exact eraseResult_ite _ rfl (eraseResult_bind hdeclared fun _ => rfl)

lemma erases_member (start : Token) :
    Erases Member.erase (member start) (member start.erase) := by
  intro ts
  refine eraseResult_bind (erases_annotations (start :: ts)) fun marks => ?_
  simp only [eraseRead, qualifiers_erase]
  exact erases_memberAfter start marks.1 _ _

/-- The parts of a module without layout and places. -/
def eraseParts (parts : List Import × List Member) : List Import × List Member :=
  (parts.1.map Import.unplaced, parts.2.map Member.erase)

lemma moduleParts_erase (n : Nat) (ts : Phrase) :
    moduleParts n ts.erase = eraseResult eraseParts (moduleParts n ts) := by
  induction n generalizing ts with
  | zero => rfl
  | succ n ih =>
    cases ts with
    | nil => rfl
    | cons t ts =>
      refine eraseResult_ite _ ?_ (eraseResult_ite _ (ih ts) ?_)
      · refine eraseResult_bind (erases_importDeclaration t ts) fun read => ?_
        exact eraseResult_bind (ih read.2) fun _ => rfl
      · refine eraseResult_bind (erases_member t ts) fun read => ?_
        exact eraseResult_bind (ih read.2) fun _ => rfl

/-! ### Texts of one wording -/

/-- What is read of a text without layout and places depends on its tokens without them. -/
lemma parse_erase {source : String} {ts : List Token} (hts : Lexer.tokenize source = .ok ts) :
    eraseResult SourceModule.erase (parse source) =
      (moduleParts ts.length (erase ts)).map fun parts => ⟨parts.1, parts.2, default⟩ := by
  rw [parse, hts, moduleParts_erase]
  change eraseResult SourceModule.erase (moduleParts ts.length ts >>= _) = _
  cases moduleParts ts.length ts <;> rfl

/-- Two texts of one wording are both refused, with the same error up to its place, or both read,
with the same tree up to the layout of its phrases and its places. Expressions that are the same up
to these are then read as the same call, literal or name, with the same arguments. -/
theorem parse_layout_free {s s' : String} {ts us : List Token} (hs : Lexer.tokenize s = .ok ts)
    (hs' : Lexer.tokenize s' = .ok us) (hwording : lexemes ts = lexemes us) :
    ((∃ e e', parse s = .error e ∧ parse s' = .error e' ∧ e.erase = e'.erase) ∨
      ∃ m m', parse s = .ok m ∧ parse s' = .ok m' ∧ m.erase = m'.erase) ∧
      ∀ e e' : Expression, e.erase = e'.erase → e.shape.erase = e'.shape.erase := by
  have herase : erase ts = erase us := erase_eq_iff.mpr hwording
  have hlength : ts.length = us.length := by
    rw [← length_erase, herase, length_erase]
  have hparse : eraseResult SourceModule.erase (parse s) =
      eraseResult SourceModule.erase (parse s') := by
    rw [parse_erase hs, parse_erase hs', herase, hlength]
  refine ⟨?_, fun e e' he => ?_⟩
  · cases hread : parse s with
    | error e =>
      cases hread' : parse s' with
      | error e' =>
        rw [hread, hread'] at hparse
        exact .inl ⟨e, e', rfl, rfl, Except.error.inj hparse⟩
      | ok m' =>
        rw [hread, hread'] at hparse
        cases hparse
    | ok m =>
      cases hread' : parse s' with
      | error e' =>
        rw [hread, hread'] at hparse
        cases hparse
      | ok m' =>
        rw [hread, hread'] at hparse
        exact .inr ⟨m, m', rfl, rfl, Except.ok.inj hparse⟩
  · rw [← Expression.shape_erase, he, Expression.shape_erase]

/-- A variable that is read alike with comments and line breaks between its tokens, and one without
a value that is refused alike. -/
theorem parse_layout_free_comments :
    (∃ m m', parse "int[] a=f(x,1);" = .ok m ∧
      parse "int // é\n[ ] a = # ;\n f( x\n, 1 );" = .ok m' ∧ m.members.length = 1 ∧
      m.erase = m'.erase) ∧
    ∃ e e', parse "int a=;" = .error e ∧ parse "int a // 1\n= ;" = .error e' ∧
      e.erase = e'.erase := by
  have hsame : (Lexer.tokenize "int[] a=f(x,1);").toOption.any fun ts =>
      (Lexer.tokenize "int // é\n[ ] a = # ;\n f( x\n, 1 );").toOption.any fun us =>
        lexemes ts = lexemes us := by
    decide +kernel
  have hsame' : (Lexer.tokenize "int a=;").toOption.any fun ts =>
      (Lexer.tokenize "int a // 1\n= ;").toOption.any fun us => lexemes ts = lexemes us := by
    decide +kernel
  have hread : (parse "int[] a=f(x,1);").toOption.any fun m => m.members.length = 1 := by
    decide +kernel
  have hrefused : (parse "int a=;").toOption.isNone := by
    decide +kernel
  constructor
  · obtain ⟨ts, hts, hsame⟩ := exists_ok_of_any hsame
    obtain ⟨us, hus, hsame⟩ := exists_ok_of_any hsame
    obtain ⟨m, hm, hlength⟩ := exists_ok_of_any hread
    rcases (parse_layout_free hts hus (of_decide_eq_true hsame)).1 with
      ⟨e, -, he, -, -⟩ | ⟨_, m', hread, hm', herase⟩
    · rw [hm] at he
      cases he
    · rw [hm] at hread
      cases hread
      exact ⟨m, m', hm, hm', of_decide_eq_true hlength, herase⟩
  · obtain ⟨ts, hts, hsame⟩ := exists_ok_of_any hsame'
    obtain ⟨us, hus, hsame⟩ := exists_ok_of_any hsame
    rcases (parse_layout_free hts hus (of_decide_eq_true hsame)).1 with herror | ⟨m, -, hm, -, -⟩
    · exact herror
    · rw [hm] at hrefused
      cases hrefused

end FlowCanvas.Parser
