import FlowCanvas.Proofs.Unplaced

/-!
# Trees without layout

`erase` leaves the kinds and spellings of the tokens and takes everything else out of a tree: the
places, and the layout inside of its phrases. Phrases are divided alike with layout and without it.
-/

namespace FlowCanvas

/-! ### Tokens -/

namespace Token

variable (t : Token)

@[simp]
lemma erase_kind : t.erase.kind = t.kind := rfl

@[simp]
lemma erase_text : t.erase.text = t.text := rfl

@[simp]
lemma erase_span : t.erase.span = default := rfl

@[simp]
lemma erase_position : t.erase.position = .zero := rfl

@[simp]
lemma erase_is (mark : String) : t.erase.is mark = t.is mark := rfl

@[simp]
lemma erase_isIdentifier : t.erase.isIdentifier = t.isIdentifier := rfl

@[simp]
lemma erase_isWord (words : List String) : t.erase.isWord words = t.isWord words := rfl

@[simp]
lemma erase_isOpener : t.erase.isOpener = t.isOpener := rfl

@[simp]
lemma erase_isCloser : t.erase.isCloser = t.isCloser := rfl

@[simp]
lemma erase_endsType : Parser.endsType t.erase = Parser.endsType t := rfl

end Token

namespace Phrase

/-- The tokens without their layout and their places. -/
def erase (ts : Phrase) : Phrase := ts.map Token.erase

@[simp]
lemma erase_nil : erase [] = [] := rfl

@[simp]
lemma erase_cons (t : Token) (ts : Phrase) : erase (t :: ts) = t.erase :: erase ts := rfl

@[simp]
lemma erase_append (ts us : Phrase) : erase (ts ++ us) = erase ts ++ erase us := List.map_append

@[simp]
lemma length_erase (ts : Phrase) : (erase ts).length = ts.length := List.length_map _

@[simp]
lemma isEmpty_erase (ts : Phrase) : (erase ts).isEmpty = ts.isEmpty := List.isEmpty_map

@[simp]
lemma getLast?_erase (ts : Phrase) : (erase ts).getLast? = ts.getLast?.map Token.erase :=
  List.getLast?_map

@[simp]
lemma dropLast_erase (ts : Phrase) : (erase ts).dropLast = erase ts.dropLast :=
  List.map_dropLast.symm

lemma drop_erase (n : Nat) (ts : Phrase) : (erase ts).drop n = erase (ts.drop n) :=
  List.map_drop.symm

lemma reverse_erase (ts : Phrase) : (erase ts).reverse = erase ts.reverse := List.map_reverse.symm

/-- Phrases of one wording are the same without layout. -/
lemma erase_eq_iff {ts us : Phrase} : ts.erase = us.erase ↔ ts.lexemes = us.lexemes := by
  rw [← alike_iff]
  constructor
  · intro h
    induction ts generalizing us with
    | nil =>
      obtain rfl : us = [] := List.map_eq_nil_iff.mp h.symm
      exact .nil
    | cons t ts ih =>
      cases us with
      | nil => simp at h
      | cons u us =>
        obtain ⟨hhead, htail⟩ := List.cons.inj h
        exact .cons (Token.same_of_erase hhead) (ih htail)
  · intro h
    induction h with
    | nil => rfl
    | cons hsame _ ih => rw [erase_cons, erase_cons, Token.erase_of_same hsame, ih]

end Phrase

/-! ### Divided phrases -/

namespace Brackets

open Phrase

/-- A divided phrase without its layout. -/
def eraseCut (r : Phrase × Token × Phrase) : Phrase × Token × Phrase :=
  (r.1.erase, r.2.1.erase, erase r.2.2)

lemma cutFrom_erase (mark : String) (depth : Nat) (ts : Phrase) :
    cutFrom mark depth ts.erase = (cutFrom mark depth ts).map eraseCut := by
  induction ts generalizing depth with
  | nil => rfl
  | cons t ts ih =>
    have hcons (found : Option (Phrase × Token × Phrase)) :
        (found.map eraseCut).map (fun x => (t.erase :: x.1, x.2.1, x.2.2)) =
          (found.map fun x => (t :: x.1, x.2.1, x.2.2)).map eraseCut := by
      cases found <;> rfl
    rw [erase_cons, cutFrom_cons, cutFrom_cons]
    simp only [Token.erase_is, Token.erase_isOpener, Token.erase_isCloser, ih]
    split_ifs
    · rfl
    · exact hcons _
    · rfl
    · exact hcons _
    · exact hcons _

lemma cut_erase (mark : String) (ts : Phrase) :
    cut mark ts.erase = (cut mark ts).map eraseCut := cutFrom_erase mark 0 ts

lemma cutOrAll_erase (mark : String) (ts : Phrase) :
    cutOrAll mark ts.erase = ((cutOrAll mark ts).1.erase, (cutOrAll mark ts).2.map erase) := by
  unfold cutOrAll
  rw [cut_erase]
  cases cut mark ts <;> rfl

lemma consFirst_erase (t : Token) (list : List Phrase) :
    consFirst t.erase (list.map erase) = (consFirst t list).map erase := by
  cases list <;> rfl

lemma segmentsFrom_erase (depth : Nat) (ts : Phrase) :
    segmentsFrom depth ts.erase = (segmentsFrom depth ts).map erase := by
  induction ts generalizing depth with
  | nil => rfl
  | cons t ts ih =>
    cases depth with
    | zero =>
      simp only [erase_cons, segmentsFrom, Token.erase_is, Token.erase_isOpener,
        Token.erase_isCloser, isEmpty_erase, ih, consFirst_erase]
      split_ifs <;> rfl
    | succ depth =>
      simp only [erase_cons, segmentsFrom, Token.erase_is, Token.erase_isOpener,
        Token.erase_isCloser, isEmpty_erase, ih, consFirst_erase]
      split_ifs <;> rfl

lemma segments_erase (ts : Phrase) : segments ts.erase = (segments ts).map erase := by
  unfold segments
  rw [isEmpty_erase, segmentsFrom_erase]
  split_ifs <;> rfl

lemma dropGroupFrom_erase (depth : Nat) (ts : Phrase) :
    dropGroupFrom depth ts.erase = (dropGroupFrom depth ts).map erase := by
  induction ts generalizing depth with
  | nil => rfl
  | cons t ts ih =>
    simp only [erase_cons, dropGroupFrom, Token.erase_isOpener, Token.erase_isCloser, ih]
    split_ifs <;> rfl

lemma dropGroup_erase (ts : Phrase) : dropGroup ts.erase = (dropGroup ts).map erase := by
  cases ts with
  | nil => rfl
  | cons t ts =>
    simp only [erase_cons, dropGroup, Token.erase_isOpener, dropGroupFrom_erase]
    split_ifs <;> rfl

lemma openBefore_erase (depth : Nat) (inner ts : Phrase) :
    openBefore depth inner.erase ts.erase =
      (openBefore depth inner ts).map fun r => (r.1.erase, r.2.erase) := by
  induction ts generalizing depth inner with
  | nil => rfl
  | cons t ts ih =>
    have hih (depth : Nat) := ih depth (t :: inner)
    rw [erase_cons] at hih
    simp only [erase_cons, openBefore, Token.erase_isOpener, Token.erase_isCloser, Token.erase_is,
      hih, reverse_erase]
    split_ifs <;> rfl

lemma splitLastGroup?_erase (ts : Phrase) :
    splitLastGroup? ts.erase = (splitLastGroup? ts).map fun r => (r.1.erase, r.2.erase) := by
  unfold splitLastGroup?
  rw [reverse_erase]
  cases ts.reverse with
  | nil => rfl
  | cons t before =>
    have hopen := openBefore_erase 1 [] before
    rw [erase_nil] at hopen
    simp only [erase_cons, Token.erase_is, hopen]
    split_ifs <;> rfl

end Brackets

/-! ### Expressions -/

namespace Expression

/-- The expression without layout and places. -/
def erase (e : Expression) : Expression := ⟨e.first.erase, Phrase.erase e.rest⟩

end Expression

namespace Argument

def erase (a : Argument) : Argument := ⟨a.name, a.value.erase⟩

lemma ofPhrase?_erase (ts : Phrase) : ofPhrase? ts.erase = (ofPhrase? ts).map erase := by
  rcases ts with _ | ⟨t, _ | ⟨u, _ | ⟨v, ts⟩⟩⟩
  · rfl
  · rfl
  · rfl
  · by_cases hnamed : (t.isIdentifier && u.is "=") = true
    · simp [ofPhrase?, hnamed, erase, Expression.erase]
    · simp [ofPhrase?, hnamed, erase, Expression.erase]

lemma listOf_erase (inner : Phrase) : listOf inner.erase = (listOf inner).map erase := by
  unfold listOf
  rw [Brackets.segments_erase, List.filterMap_map, List.map_filterMap]
  congr 1
  funext ts
  exact ofPhrase?_erase ts

end Argument

namespace Shape

/-- The shape without layout and places. -/
def erase : Shape → Shape
  | .check panics inner => .check panics inner.erase
  | .new type arguments => .new (type.map Phrase.erase) (arguments.map Argument.erase)
  | .remote client method arguments => .remote client.erase method (arguments.map Argument.erase)
  | .call qualifier name arguments => .call qualifier name (arguments.map Argument.erase)
  | .reference name => .reference name
  | .literal => .literal
  | .other => .other

lemma ofNew_erase (ts : Phrase) : ofNew ts.erase = (ofNew ts).erase := by
  rw [ofNew.eq_def, ofNew.eq_def ts, Brackets.splitLastGroup?_erase]
  cases ts with
  | nil => rfl
  | cons t ts =>
    cases Brackets.splitLastGroup? (t :: ts) with
    | none => rfl
    | some r =>
      obtain ⟨_ | ⟨u, callee⟩, inner⟩ := r
      · simp [erase, Argument.listOf_erase]
      · simp [erase, Argument.listOf_erase]

lemma isPath_erase (ts : Phrase) : isPath ts.erase = isPath ts := by
  fun_induction isPath ts with
  | case1 => rfl
  | case2 t => rfl
  | case3 t u ts ih => simp [isPath, ih]

lemma qualifier?_erase (ts : Phrase) : qualifier? ts.erase = qualifier? ts := by
  rcases ts with _ | ⟨t, _ | ⟨u, _ | ⟨v, ts⟩⟩⟩ <;> rfl

lemma ofCallee?_erase (head : Phrase) (method : Token) (arguments : List Argument) :
    ofCallee? head.erase method.erase (arguments.map Argument.erase) =
      (ofCallee? head method arguments).map erase := by
  have harrow : (head.getLast?.map Token.erase).any (·.is "->") =
      head.getLast?.any (·.is "->") := by
    cases head.getLast? <;> rfl
  unfold ofCallee?
  rw [qualifier?_erase, Phrase.isEmpty_erase, Phrase.getLast?_erase, Phrase.dropLast_erase,
    isPath_erase, harrow, Token.erase_isIdentifier]
  cases qualifier? head with
  | some q => split_ifs <;> rfl
  | none => split_ifs <;> rfl

lemma ofCall?_erase (ts : Phrase) : ofCall? ts.erase = (ofCall? ts).map erase := by
  unfold ofCall?
  rw [Brackets.splitLastGroup?_erase]
  cases Brackets.splitLastGroup? ts with
  | none => rfl
  | some r =>
    obtain ⟨callee, inner⟩ := r
    simp only [Option.map_some, Phrase.getLast?_erase]
    cases callee.getLast? with
    | none => rfl
    | some method =>
      simp only [Option.map_some, Phrase.dropLast_erase, Argument.listOf_erase, ofCallee?_erase]

lemma ofToken_erase (t : Token) : ofToken t.erase = (ofToken t).erase := by
  unfold ofToken
  rw [Token.erase_isIdentifier, Token.erase_isWord]
  split_ifs <;> rfl

end Shape

/-- What an expression is read as does not depend on layout, at any depth. -/
lemma Expression.shape_erase (e : Expression) : e.erase.shape = e.shape.erase := by
  obtain ⟨first, rest⟩ := e
  cases rest with
  | nil =>
    simp only [erase, Phrase.erase_nil, shape, Token.erase_isWord, Shape.ofToken_erase]
    split_ifs <;> rfl
  | cons t ts =>
    have hcall := Shape.ofCall?_erase (first :: t :: ts)
    simp only [erase, Phrase.erase_cons, shape, tokens, Token.erase_isWord, Token.erase_is,
      Phrase.isEmpty_erase, Token.erase_text] at hcall ⊢
    have hnew := Shape.ofNew_erase (t :: ts)
    rw [Phrase.erase_cons] at hnew
    rw [hcall, hnew]
    cases Shape.ofCall? (first :: t :: ts) with
    | some call => split_ifs <;> rfl
    | none => split_ifs <;> rfl

/-! ### Statements -/

/-- The declaration without layout and places. -/
def Declaration.erase (d : Declaration) : Declaration :=
  { d with
    type := d.type.erase, initializer := d.initializer.map Expression.erase, span := default }

mutual

/-- The statement without layout and places. -/
def Statement.erase : Statement → Statement
  | .declaration d => .declaration d.erase
  | .assignment target value _ => .assignment target.erase value.erase default
  | .conditional read => .conditional read.erase
  | .loop value body _ => .loop value.erase body.erase default
  | .exit kind value _ => .exit kind (value.map Expression.erase) default
  | .jump kind _ => .jump kind default
  | .expression value _ => .expression value.erase default
  | .unsupported construct _ => .unsupported construct default

def Conditional.erase : Conditional → Conditional
  | .mk value body alternative _ => .mk value.erase body.erase alternative.erase default

def Alternative.erase : Alternative → Alternative
  | .absent => .absent
  | .block body => .block body.erase
  | .chained next => .chained next.erase

def Block.erase : Block → Block
  | .mk list _ => .mk (Statement.eraseAll list) default

def Statement.eraseAll : List Statement → List Statement
  | [] => []
  | s :: list => s.erase :: Statement.eraseAll list

end

/-! ### Members -/

def Parameter.erase (p : Parameter) : Parameter :=
  { p with type := p.type.erase, default := p.default.map Phrase.erase }

def FunctionName.erase : FunctionName → FunctionName
  | .plain name => .plain name
  | .remote name => .remote name
  | .resource accessor path => .resource accessor path.erase

def FunctionDefinition.erase (f : FunctionDefinition) : FunctionDefinition :=
  { f with
    name := f.name.erase, parameters := f.parameters.map Parameter.erase,
    returns := f.returns.map Phrase.erase, body := f.body.erase, span := default }

def ServiceDefinition.erase (s : ServiceDefinition) : ServiceDefinition where
  basePath := s.basePath.erase
  listener := s.listener.erase
  fields := s.fields.map Declaration.erase
  functions := s.functions.map FunctionDefinition.erase
  span := default

def ClassDefinition.erase (c : ClassDefinition) : ClassDefinition :=
  { c with
    fields := c.fields.map Declaration.erase, functions := c.functions.map FunctionDefinition.erase,
    span := default }

def RecordField.erase (f : RecordField) : RecordField :=
  { f with type := f.type.erase, default := f.default.map Phrase.erase }

def RecordType.erase (r : RecordType) : RecordType :=
  { r with
    fields := r.fields.map RecordField.erase, inclusions := r.inclusions.map Phrase.erase,
    rest := r.rest.map Phrase.erase }

def TypeDescriptor.erase : TypeDescriptor → TypeDescriptor
  | .record r => .record r.erase
  | .enumeration members => .enumeration (members.map Phrase.erase)
  | .other descriptor => .other descriptor.erase

def TypeDefinition.erase (t : TypeDefinition) : TypeDefinition :=
  { t with descriptor := t.descriptor.erase, span := default }

/-- The member without layout and places. -/
def Member.erase : Member → Member
  | .function f => .function f.erase
  | .variable d => .variable d.erase
  | .service s => .service s.erase
  | .classDefinition c => .classDefinition c.erase
  | .typeDefinition t => .typeDefinition t.erase

/-- The tree without layout and places. -/
def SourceModule.erase (m : SourceModule) : SourceModule :=
  ⟨m.imports.map Import.unplaced, m.members.map Member.erase, default⟩

end FlowCanvas
