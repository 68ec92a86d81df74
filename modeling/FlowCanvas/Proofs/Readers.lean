import FlowCanvas.Proofs.Spelling
import FlowCanvas.Source.Parser.Member

/-!
# What the readers of a module read

The readers of imports and members, taken apart: what a reader that succeeds has found in its
tokens, and what it makes of it. A fact about every module follows the cases below and opens no
reader again.
-/

namespace FlowCanvas.Parser

open Brackets

variable {start : Token} {names words : List String} {ts rest : Phrase}

/-- A reader whose result is wrapped. -/
lemma wrapped_eq_ok_iff {α β : Type} {read : Except SyntaxError (α × Phrase)} (wrap : α → β)
    {y : β} :
    (read >>= fun p => pure (wrap p.1, p.2)) = .ok (y, rest) ↔
      ∃ x, read = .ok (x, rest) ∧ wrap x = y := by
  constructor
  · intro h
    obtain ⟨⟨x, left⟩, hread, hdone⟩ := bind_eq_ok_iff.mp h
    obtain ⟨rfl, rfl⟩ := Prod.mk.inj (Except.ok.inj hdone)
    exact ⟨x, hread, rfl⟩
  · rintro ⟨x, rfl, rfl⟩
    rfl

/-! ### Imports -/

/-- What names a module in an import. -/
def NamesModule (t : Token) : Prop := t.isIdentifier ∨ ∃ mark ∈ [".", "/", "as"], t.is mark

lemma dottedRest_names {n : Nat} {parts : List String} (h : dottedRest n ts = .ok (parts, rest)) :
    ∃ used, ts = used ++ rest ∧ ∀ t ∈ used, NamesModule t := by
  induction n generalizing ts parts with
  | zero =>
    obtain ⟨rfl, rfl⟩ := h
    exact ⟨[], rfl, by simp⟩
  | succ n ih =>
    rw [dottedRest] at h
    split at h
    · obtain ⟨rfl, rfl⟩ := h
      exact ⟨[], rfl, by simp⟩
    · rename_i after heat
      obtain ⟨dot, rfl, hdot⟩ := eat_eq_some_iff.mp heat
      obtain ⟨⟨part, after'⟩, hpart, hread⟩ := bind_eq_ok_iff.mp h
      obtain ⟨rfl, hidentifier⟩ := identifier_eq_ok_iff.mp hpart
      obtain ⟨⟨others, left⟩, hothers, hdone⟩ := bind_eq_ok_iff.mp hread
      obtain ⟨rfl, rfl⟩ := hdone
      obtain ⟨used, rfl, hused⟩ := ih hothers
      refine ⟨dot :: part :: used, rfl, ?_⟩
      simpa [NamesModule, hdot, hidentifier] using hused

lemma importHead_names {head : Option String × String} (h : importHead ts = .ok (head, rest)) :
    ∃ used, ts = used ++ rest ∧ ∀ t ∈ used, NamesModule t := by
  obtain ⟨⟨first, after⟩, hfirst, hread⟩ := bind_eq_ok_iff.mp h
  obtain ⟨rfl, hidentifier⟩ := identifier_eq_ok_iff.mp hfirst
  dsimp only at hread
  split at hread
  · obtain ⟨rfl, rfl⟩ := hread
    exact ⟨[first], rfl, by simp [NamesModule, hidentifier]⟩
  · rename_i after' heat
    obtain ⟨slash, rfl, hslash⟩ := eat_eq_some_iff.mp heat
    obtain ⟨⟨second, left⟩, hsecond, hdone⟩ := bind_eq_ok_iff.mp hread
    obtain ⟨rfl, hidentifier'⟩ := identifier_eq_ok_iff.mp hsecond
    obtain ⟨rfl, rfl⟩ := hdone
    exact ⟨[first, slash, second], rfl, by
      simp [NamesModule, hidentifier, hslash, hidentifier']⟩

lemma importQualifier_names {name given : String}
    (h : importQualifier name ts = .ok (given, rest)) :
    ∃ used, ts = used ++ rest ∧ ∀ t ∈ used, NamesModule t := by
  rw [importQualifier] at h
  split at h
  · obtain ⟨rfl, rfl⟩ := h
    exact ⟨[], rfl, by simp⟩
  · rename_i after heat
    obtain ⟨word, rfl, hword⟩ := eat_eq_some_iff.mp heat
    obtain ⟨⟨given, left⟩, hgiven, hdone⟩ := bind_eq_ok_iff.mp h
    obtain ⟨rfl, hidentifier⟩ := identifier_eq_ok_iff.mp hgiven
    obtain ⟨rfl, rfl⟩ := hdone
    exact ⟨[word, given], rfl, by simp [NamesModule, hword, hidentifier]⟩

/-- An import names a module and ends with a semicolon. -/
theorem importDeclaration_spec {i : Import} (h : importDeclaration start ts = .ok (i, rest)) :
    ∃ used semicolon, ts = used ++ semicolon :: rest ∧ (∀ t ∈ used, NamesModule t) ∧
      semicolon.is ";" ∧ i.span = start.span.through semicolon.span := by
  obtain ⟨⟨head, after⟩, hhead, hread⟩ := bind_eq_ok_iff.mp h
  obtain ⟨⟨parts, after1⟩, hparts, hread1⟩ := bind_eq_ok_iff.mp hread
  obtain ⟨⟨qualifier, after2⟩, hqualifier, hread2⟩ := bind_eq_ok_iff.mp hread1
  obtain ⟨⟨semicolon, after3⟩, hsemicolon, hdone⟩ := bind_eq_ok_iff.mp hread2
  obtain ⟨rfl, rfl⟩ := Prod.mk.inj (Except.ok.inj hdone)
  obtain ⟨used, rfl, hused⟩ := importHead_names hhead
  obtain ⟨used1, rfl, hused1⟩ := dottedRest_names hparts
  obtain ⟨used2, rfl, hused2⟩ := importQualifier_names hqualifier
  obtain ⟨rfl, hend⟩ := expect_eq_ok_iff.mp hsemicolon
  refine ⟨used ++ (used1 ++ used2), semicolon, by simp, fun t ht => ?_, hend, rfl⟩
  rcases List.mem_append.mp ht with ht | ht
  · exact hused t ht
  · exact (List.mem_append.mp ht).elim (hused1 t) (hused2 t)

/-! ### Functions -/

theorem functionDefinition_eq_ok_iff {f : FunctionDefinition} :
    functionDefinition start words ts = .ok (f, rest) ↔
      ∃ name after list after' type behind body, functionName words ts = .ok (name, after) ∧
        parameters after = .ok (list, after') ∧ returnType after' = .ok (type, behind) ∧
        sees "=" behind = false ∧ block behind = .ok (body, rest) ∧
        f = ⟨words, name, list, type, body, start.span.through body.span⟩ := by
  constructor
  · intro h
    obtain ⟨⟨name, after⟩, hname, hread⟩ := bind_eq_ok_iff.mp h
    obtain ⟨⟨list, after'⟩, hlist, hread'⟩ := bind_eq_ok_iff.mp hread
    obtain ⟨⟨type, behind⟩, htype, hresult⟩ := bind_eq_ok_iff.mp hread'
    dsimp only at hresult
    split at hresult
    · simp at hresult
    · split at hresult
      · simp at hresult
      · rename_i hequal
        obtain ⟨⟨body, left⟩, hbody, hdone⟩ := bind_eq_ok_iff.mp hresult
        obtain ⟨rfl, rfl⟩ := hdone
        exact ⟨name, after, list, after', type, _, body, hname, hlist, htype,
          by simpa [sees] using hequal, hbody, rfl⟩
  · rintro ⟨name, after, list, after', type, behind, body, hname, hlist, htype, hequal, hbody, rfl⟩
    refine bind_eq_ok_iff.mpr ⟨_, hname, bind_eq_ok_iff.mpr ⟨_, hlist, bind_eq_ok_iff.mpr
      ⟨_, htype, ?_⟩⟩⟩
    cases behind with
    | nil => simp [block, blockWith, expect, readIf, bind, Except.bind] at hbody
    | cons t behind =>
      dsimp only
      rw [if_neg (by simpa [sees] using hequal)]
      exact bind_eq_ok_iff.mpr ⟨_, hbody, rfl⟩

/-! ### Objects -/

/-- Annotations and qualifiers stand in front of `rest`. -/
def ReadsFront (ts : Phrase) (names words : List String) (rest : Phrase) : Prop :=
  ∃ after, annotations ts = .ok (names, after) ∧ qualifiers after = (words, rest)

/-- The members of an object and the brace that closes it stand in front of `rest`. -/
inductive ReadsObject : Phrase → ObjectBody → Phrase → Prop
  | close {brace : Token} {rest : Phrase} (hbrace : brace.is "\x7d") :
    ReadsObject (brace :: rest) ⟨[], [], brace⟩ rest
  | function {start word : Token} {names words : List String} {ts after left rest : Phrase}
    {f : FunctionDefinition} {body : ObjectBody}
    (hfront : ReadsFront (start :: ts) names words (word :: after)) (hword : word.is "function")
    (hf : functionDefinition start words after = .ok (f, left))
    (hothers : ReadsObject left body rest) :
    ReadsObject (start :: ts) { body with functions := f :: body.functions } rest
  | inclusion {start semicolon : Token} {names words : List String} {ts after left rest : Phrase}
    {skipped : Phrase} {body : ObjectBody} (hfront : ReadsFront (start :: ts) names words after)
    (hskipped : through ";" after = .ok ((skipped, semicolon), left))
    (hothers : ReadsObject left body rest) : ReadsObject (start :: ts) body rest
  | field {start : Token} {names words : List String} {ts after left rest : Phrase}
    {field : Declaration} {body : ObjectBody} (hfront : ReadsFront (start :: ts) names words after)
    (hfield : declaration start names words after = .ok (field, left))
    (hothers : ReadsObject left body rest) :
    ReadsObject (start :: ts) { body with fields := field :: body.fields } rest

lemma readsObject_of_objectMembers {n : Nat} {body : ObjectBody}
    (h : objectMembers n ts = .ok (body, rest)) : ReadsObject ts body rest := by
  induction n generalizing ts body with
  | zero => simp [objectMembers] at h
  | succ n ih =>
    cases ts with
    | nil => simp [objectMembers] at h
    | cons start ts =>
      rw [objectMembers] at h
      split at h
      · rename_i hclose
        obtain ⟨rfl, rfl⟩ := h
        exact .close hclose
      · obtain ⟨⟨names, after⟩, hnames, hread⟩ := bind_eq_ok_iff.mp h
        have hfront : ReadsFront (start :: ts) names (qualifiers after).1 (qualifiers after).2 :=
          ⟨after, hnames, rfl⟩
        dsimp only at hread
        split at hread
        · rename_i after1 heat
          obtain ⟨word, hafter, hword⟩ := eat_eq_some_iff.mp heat
          obtain ⟨⟨f, left⟩, hf, hread1⟩ := bind_eq_ok_iff.mp hread
          obtain ⟨⟨others, left'⟩, hothers, hdone⟩ := bind_eq_ok_iff.mp hread1
          obtain ⟨rfl, rfl⟩ := hdone
          rw [hafter] at hfront
          exact .function hfront hword hf (ih hothers)
        · split at hread
          · obtain ⟨⟨⟨skipped, semicolon⟩, left⟩, hskipped, hothers⟩ := bind_eq_ok_iff.mp hread
            exact .inclusion hfront hskipped (ih hothers)
          · obtain ⟨⟨field, left⟩, hfield, hread1⟩ := bind_eq_ok_iff.mp hread
            obtain ⟨⟨others, left'⟩, hothers, hdone⟩ := bind_eq_ok_iff.mp hread1
            obtain ⟨rfl, rfl⟩ := hdone
            exact .field hfront hfield (ih hothers)

lemma ReadsObject.close_is {body : ObjectBody} (h : ReadsObject ts body rest) :
    body.close.is "\x7d" := by
  induction h with
  | close hbrace => exact hbrace
  | function _ _ _ _ ih => exact ih
  | inclusion _ _ _ ih => exact ih
  | field _ _ _ ih => exact ih

lemma objectBody_spec {body : ObjectBody} (h : objectBody ts = .ok (body, rest)) :
    ∃ brace after, ts = brace :: after ∧ brace.is "\x7b" ∧ ReadsObject after body rest := by
  obtain ⟨⟨brace, after⟩, hbrace, hread⟩ := bind_eq_ok_iff.mp h
  obtain ⟨rfl, hopen⟩ := expect_eq_ok_iff.mp hbrace
  exact ⟨brace, after, rfl, hopen, readsObject_of_objectMembers hread⟩

/-- A service ends with the brace that closes it or with a semicolon behind the brace. -/
theorem serviceDefinition_spec {s : ServiceDefinition}
    (h : serviceDefinition start ts = .ok (s, rest)) :
    ∃ path on after listener after' body left last, through "on" ts = .ok ((path, on), after) ∧
      upTo "\x7b" after = .ok (listener, after') ∧ objectBody after' = .ok (body, left) ∧
      (last = body.close ∧ left = rest ∨ left = last :: rest ∧ last.is ";") ∧
      s = ⟨path, listener, body.fields, body.functions, start.span.through last.span⟩ := by
  obtain ⟨⟨⟨path, on⟩, after⟩, hpath, hread⟩ := bind_eq_ok_iff.mp h
  obtain ⟨⟨listener, after'⟩, hlistener, hread'⟩ := bind_eq_ok_iff.mp hread
  obtain ⟨⟨body, left⟩, hbody, hresult⟩ := bind_eq_ok_iff.mp hread'
  refine ⟨path, on, after, listener, after', body, left, ?_⟩
  dsimp only at hresult
  split at hresult
  · rename_i t more
    split at hresult
    · rename_i hsemicolon
      obtain ⟨rfl, rfl⟩ := hresult
      exact ⟨t, hpath, hlistener, hbody, .inr ⟨rfl, hsemicolon⟩, rfl⟩
    · obtain ⟨rfl, rfl⟩ := hresult
      exact ⟨body.close, hpath, hlistener, hbody, .inl ⟨rfl, rfl⟩, rfl⟩
  · obtain ⟨rfl, rfl⟩ := hresult
    exact ⟨body.close, hpath, hlistener, hbody, .inl ⟨rfl, rfl⟩, rfl⟩

lemma classDefinition_spec {c : ClassDefinition}
    (h : classDefinition start words ts = .ok (c, rest)) :
    ∃ name after body, ts = name :: after ∧ name.isIdentifier ∧
      objectBody after = .ok (body, rest) ∧
      c = ⟨words, name.text, body.fields, body.functions,
        start.span.through body.close.span⟩ := by
  obtain ⟨⟨name, after⟩, hname, hread⟩ := bind_eq_ok_iff.mp h
  obtain ⟨⟨body, left⟩, hbody, hdone⟩ := bind_eq_ok_iff.mp hread
  obtain ⟨rfl, rfl⟩ := hdone
  obtain ⟨rfl, hidentifier⟩ := identifier_eq_ok_iff.mp hname
  exact ⟨name, after, body, rfl, hidentifier, hbody, rfl⟩

/-! ### Types -/

/-- The entries of a record and the bracket that closes it stand in front of `rest`. They are added
to what was read before. -/
inductive ReadsEntries (close : String) : RecordType → Phrase → RecordType → Phrase → Prop
  | close {record : RecordType} {bracket : Token} {rest : Phrase} (hbracket : bracket.is close) :
    ReadsEntries close record (bracket :: rest) record rest
  | inclusion {record read : RecordType} {star semicolon : Token} {ts entry left rest : Phrase}
    (hstar : star.is "*")
    (hentry : through ";" (star :: ts) = .ok ((entry, semicolon), left))
    (hothers : ReadsEntries close { record with inclusions := record.inclusions ++ [entry.drop 1] }
      left read rest) : ReadsEntries close record (star :: ts) read rest
  | entry {record read : RecordType} {names : List String} {semicolon : Token}
    {ts after entry left rest : Phrase} (hnames : annotations ts = .ok (names, after))
    (hentry : through ";" after = .ok ((entry, semicolon), left))
    (hothers : ReadsEntries close (addEntry record entry) left read rest) :
    ReadsEntries close record ts read rest

lemma readsEntries_of_recordEntries {close : String} {n : Nat} {record read : RecordType}
    (h : recordEntries close n record ts = .ok (read, rest)) :
    ReadsEntries close record ts read rest := by
  induction n generalizing ts record with
  | zero => simp [recordEntries] at h
  | succ n ih =>
    cases ts with
    | nil => simp [recordEntries] at h
    | cons t ts =>
      rw [recordEntries] at h
      dsimp only at h
      split at h
      · rename_i hclose
        obtain ⟨rfl, rfl⟩ := h
        exact .close hclose
      · obtain ⟨⟨⟨entry, semicolon⟩, after⟩, hentry, hread⟩ := bind_eq_ok_iff.mp h
        dsimp only at hread
        split at hread
        · rename_i hstar
          exact .inclusion hstar hentry (ih hread)
        · obtain ⟨⟨names, after1⟩, hnames, hread1⟩ := bind_eq_ok_iff.mp hread
          obtain ⟨⟨⟨entry', semicolon'⟩, after2⟩, hentry', hread2⟩ := bind_eq_ok_iff.mp hread1
          exact .entry hnames hentry' (ih hread2)

/-- A record is written between braces, with bars inside of them when it is closed. -/
lemma recordType_spec {record : RecordType} (h : recordType ts = .ok (record, rest)) :
    ∃ bracket after opening close, ts = bracket :: after ∧ bracket.is opening ∧
      (opening, close) ∈ [("\x7b|", "|\x7d"), ("\x7b", "\x7d")] ∧
      ∃ closed, ReadsEntries close ⟨closed, [], [], none⟩ after record rest := by
  rw [recordType] at h
  split at h
  · obtain ⟨⟨bracket, after⟩, hexpect, hread⟩ := bind_eq_ok_iff.mp h
    obtain ⟨rfl, hbracket⟩ := expect_eq_ok_iff.mp hexpect
    exact ⟨bracket, after, _, _, rfl, hbracket, by simp, false, readsEntries_of_recordEntries hread⟩
  · rename_i after heat
    obtain ⟨bracket, rfl, hbracket⟩ := eat_eq_some_iff.mp heat
    exact ⟨bracket, after, _, _, rfl, hbracket, by simp, true, readsEntries_of_recordEntries h⟩

lemma typeDescriptor_spec {d : TypeDescriptor} (h : typeDescriptor ts = .ok (d, rest)) :
    (∃ word after record, ts = word :: after ∧ word.is "record" ∧
      recordType after = .ok (record, rest) ∧ d = .record record) ∨
    ∃ descriptor, sees "record" ts = false ∧ upTo ";" ts = .ok (descriptor, rest) ∧
      d = .other descriptor := by
  rw [typeDescriptor] at h
  split at h
  · rename_i heat
    obtain ⟨descriptor, hdescriptor, rfl⟩ := (wrapped_eq_ok_iff TypeDescriptor.other).mp h
    exact .inr ⟨descriptor, eat_eq_none_iff.mp heat, hdescriptor, rfl⟩
  · rename_i after heat
    obtain ⟨word, rfl, hword⟩ := eat_eq_some_iff.mp heat
    obtain ⟨record, hrecord, rfl⟩ := (wrapped_eq_ok_iff TypeDescriptor.record).mp h
    exact .inl ⟨word, after, record, rfl, hword, hrecord, rfl⟩

lemma typeDefinition_spec {t : TypeDefinition} (h : typeDefinition start words ts = .ok (t, rest)) :
    ∃ name after descriptor semicolon, ts = name :: after ∧ name.isIdentifier ∧
      typeDescriptor after = .ok (descriptor, semicolon :: rest) ∧ semicolon.is ";" ∧
      t = ⟨words.contains "public", name.text, descriptor,
        start.span.through semicolon.span⟩ := by
  obtain ⟨⟨name, after⟩, hname, hread⟩ := bind_eq_ok_iff.mp h
  obtain ⟨⟨descriptor, after'⟩, hdescriptor, hread'⟩ := bind_eq_ok_iff.mp hread
  obtain ⟨⟨semicolon, left⟩, hsemicolon, hdone⟩ := bind_eq_ok_iff.mp hread'
  obtain ⟨rfl, rfl⟩ := hdone
  obtain ⟨rfl, hidentifier⟩ := identifier_eq_ok_iff.mp hname
  obtain ⟨rfl, hend⟩ := expect_eq_ok_iff.mp hsemicolon
  exact ⟨name, after, descriptor, semicolon, rfl, hidentifier, hdescriptor, hend, rfl⟩

lemma enumDefinition_spec {t : TypeDefinition} (h : enumDefinition start words ts = .ok (t, rest)) :
    ∃ name brace inner close, ts = name :: brace :: (inner ++ close :: rest) ∧
      name.isIdentifier ∧ brace.is "\x7b" ∧ Free "\x7d" inner ∧ close.is "\x7d" ∧
      t = ⟨words.contains "public", name.text,
        .enumeration ((segments inner).filter (!·.isEmpty)), start.span.through close.span⟩ := by
  obtain ⟨⟨name, after⟩, hname, hread⟩ := bind_eq_ok_iff.mp h
  obtain ⟨⟨brace, after'⟩, hbrace, hread'⟩ := bind_eq_ok_iff.mp hread
  obtain ⟨⟨⟨inner, close⟩, left⟩, hinner, hdone⟩ := bind_eq_ok_iff.mp hread'
  obtain ⟨rfl, rfl⟩ := hdone
  obtain ⟨rfl, hidentifier⟩ := identifier_eq_ok_iff.mp hname
  obtain ⟨rfl, hopen⟩ := expect_eq_ok_iff.mp hbrace
  obtain ⟨rfl, hfree, hclose⟩ := through_eq_ok_iff.mp hinner
  exact ⟨name, brace, inner, close, rfl, hidentifier, hopen, hfree, hclose, rfl⟩

/-! ### Members -/

/-- The words behind the qualifiers of a member that is no variable of the module, or a constant. -/
def memberWords : List String :=
  ["function", "service", "class", "type", "enum", "const", "annotation", "xmlns"]

/-- A member without its annotations and qualifiers stands in front of `rest`. -/
inductive ReadsMember (start : Token) (names words : List String) :
    Phrase → Member → Phrase → Prop
  | function {word : Token} {ts rest : Phrase} {f : FunctionDefinition}
    (hword : word.text = "function") (h : functionDefinition start words ts = .ok (f, rest)) :
    ReadsMember start names words (word :: ts) (.function f) rest
  | service {word : Token} {ts rest : Phrase} {s : ServiceDefinition}
    (hword : word.text = "service") (h : serviceDefinition start ts = .ok (s, rest)) :
    ReadsMember start names words (word :: ts) (.service s) rest
  | classDefinition {word : Token} {ts rest : Phrase} {c : ClassDefinition}
    (hword : word.text = "class") (h : classDefinition start words ts = .ok (c, rest)) :
    ReadsMember start names words (word :: ts) (.classDefinition c) rest
  | typeDefinition {word : Token} {ts rest : Phrase} {t : TypeDefinition}
    (hword : word.text = "type") (h : typeDefinition start words ts = .ok (t, rest)) :
    ReadsMember start names words (word :: ts) (.typeDefinition t) rest
  | enumDefinition {word : Token} {ts rest : Phrase} {t : TypeDefinition}
    (hword : word.text = "enum") (h : enumDefinition start words ts = .ok (t, rest)) :
    ReadsMember start names words (word :: ts) (.typeDefinition t) rest
  | constant {word : Token} {ts rest : Phrase} {d : Declaration} (hword : word.text = "const")
    (h : declaration start names (words ++ ["const"]) ts = .ok (d, rest)) :
    ReadsMember start names words (word :: ts) (.variable d) rest
  | declaration {ts rest : Phrase} {d : Declaration} (hwords : ∀ t ∈ ts.head?, t.text ∉ memberWords)
    (h : declaration start names words ts = .ok (d, rest)) :
    ReadsMember start names words ts (.variable d) rest

theorem readsMember_of_memberAfter {m : Member}
    (h : memberAfter start names words ts = .ok (m, rest)) :
    ReadsMember start names words ts m rest := by
  cases ts with
  | nil => simp [memberAfter] at h
  | cons t ts =>
    rw [memberAfter] at h
    simp only [beq_iff_eq, Bool.or_eq_true] at h
    split_ifs at h with hfunction hservice hclass htype henum hconst hother
    · obtain ⟨f, hf, rfl⟩ := (wrapped_eq_ok_iff Member.function).mp h
      exact .function hfunction hf
    · obtain ⟨s, hs, rfl⟩ := (wrapped_eq_ok_iff Member.service).mp h
      exact .service hservice hs
    · obtain ⟨c, hc, rfl⟩ := (wrapped_eq_ok_iff Member.classDefinition).mp h
      exact .classDefinition hclass hc
    · obtain ⟨d, hd, rfl⟩ := (wrapped_eq_ok_iff Member.typeDefinition).mp h
      exact .typeDefinition htype hd
    · obtain ⟨d, hd, rfl⟩ := (wrapped_eq_ok_iff Member.typeDefinition).mp h
      exact .enumDefinition henum hd
    · obtain ⟨d, hd, rfl⟩ := (wrapped_eq_ok_iff Member.variable).mp h
      exact .constant hconst hd
    · obtain ⟨d, hd, rfl⟩ := (wrapped_eq_ok_iff Member.variable).mp h
      refine .declaration (fun u hu => ?_) hd
      obtain rfl := Option.some.inj hu
      rw [not_or] at hother
      simp [memberWords, hfunction, hservice, hclass, htype, henum, hconst, hother]

lemma member_spec {m : Member} (h : member start ts = .ok (m, rest)) :
    ∃ names words after, ReadsFront (start :: ts) names words after ∧
      memberAfter start names words after = .ok (m, rest) := by
  obtain ⟨⟨names, after⟩, hnames, hread⟩ := bind_eq_ok_iff.mp h
  exact ⟨names, (qualifiers after).1, (qualifiers after).2, ⟨after, hnames, rfl⟩, hread⟩

end FlowCanvas.Parser
