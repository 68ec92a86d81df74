import FlowCanvas.Proofs.CallLosses
import FlowCanvas.Proofs.ModuleParts
import FlowCanvas.Proofs.TypePhrases

/-!
# Reading a written type

The tokens of a written definition are read as the definition they were written for, with one
difference: a rest descriptor comes back with the points that the writer puts behind it.
-/

namespace FlowCanvas

open Brackets Lexer FlowCanvas.Parser

/-! ### Marks in a source -/

/-- A name is no mark. -/
lemma Lexer.IsName.is_word {name : String} (h : IsName name) (mark : String)
    (hmark : mark.toList.head?.any isWordStart = false) (gap : String) :
    (Token.word gap name).is mark = false := by
  obtain ⟨c, cs, hname, -, -, hword, -⟩ := Starts.word (@IsName.starts _ h [] (by simp))
  have hne : name ≠ mark := by
    rintro rfl
    rw [hname, List.head?_cons, Option.any_some, hword] at hmark
    exact absurd hmark (by decide)
  simp [Token.is, Token.word, hne]

lemma Phrase.behind_concat (gap : String) (ts : Phrase) (m : String) :
    ∃ gap', behind gap (ts ++ [Token.mark "" m]) = behind gap ts ++ [Token.mark gap' m] := by
  cases ts with
  | nil => exact ⟨gap, rfl⟩
  | cons t ts => exact ⟨"", rfl⟩

lemma Phrase.free_behind {mark : String} {ts : Phrase} (h : Free mark ts) (gap : String) :
    Free mark (behind gap ts) :=
  (copy_behind gap ts).alike.free h

lemma Phrase.sees_behind (mark gap : String) (ts : Phrase) :
    sees mark (behind gap ts) = sees mark ts := by
  cases ts <;> rfl

lemma matched_word (gap text : String) : Matched [Token.word gap text] :=
  matched_singleton rfl rfl

/-! ### What is read back -/

/-- The field as it is read from what was written for it. -/
def RecordField.readBack (f : RecordField) : RecordField :=
  { f with type := f.type.behind " ", default := f.default.map (Phrase.behind " ") }

/-- The rest descriptor comes back with the points that were put behind it. -/
def RecordType.readBack (r : RecordType) : RecordType where
  closed := r.closed
  fields := r.fields.map .readBack
  inclusions := r.inclusions.map (Phrase.behind "")
  rest := r.rest.map fun p => p.behind " " ++ [Token.mark "" "..."]

def TypeDescriptor.readBack : TypeDescriptor → TypeDescriptor
  | .record r => .record r.readBack
  | .enumeration members => .enumeration (members.map (Phrase.behind " "))
  | .other descriptor => .other (descriptor.behind " ")

def TypeDefinition.readBack (t : TypeDefinition) : TypeDefinition :=
  { t with descriptor := t.descriptor.readBack }

/-! ### Entries of a record -/

namespace RecordField

/-- The tokens of a field up to its default. -/
def front (f : RecordField) : Phrase :=
  f.type.behind " " ++ Token.word " " f.name :: if f.optional then [Token.mark "" "?"] else []

/-- The tokens of a field up to its semicolon. -/
def entry (f : RecordField) : Phrase :=
  f.front ++ match f.default with
    | none => []
    | some value => Token.mark " " "=" :: value.behind " "

lemma written_eq (f : RecordField) : ∃ gap, f.written = f.entry ++ [Token.mark gap ";"] := by
  rw [written, entry, front]
  cases f.default with
  | none => exact ⟨"", by simp⟩
  | some value =>
    obtain ⟨gap, hgap⟩ := Phrase.behind_concat " " value ";"
    exact ⟨gap, by simp [hgap]⟩

lemma free_front {f : RecordField} (h : f.Sound) {mark : String} (htype : Free mark f.type)
    (hmark : mark = ";" ∨ mark = "=") : Free mark f.front := by
  have hword : Free mark [Token.word " " f.name] := by
    refine free_singleton (matched_word " " f.name) (h.name.is_word mark ?_ " ")
    rcases hmark with rfl | rfl <;> decide
  have hoptional : Free mark (if f.optional then [Token.mark "" "?"] else []) := by
    split
    · rcases hmark with rfl | rfl <;> rfl
    · exact .nil mark
  exact (Phrase.free_behind htype " ").append (hword.append hoptional)

lemma free_entry {f : RecordField} (h : f.Sound) : Free ";" f.entry := by
  refine (free_front h h.type.2.1 (.inl rfl)).append ?_
  split
  · exact .nil ";"
  · rename_i value hvalue
    have hequal : Free ";" [Token.mark " " "="] := rfl
    exact hequal.append (Phrase.free_behind (h.default value hvalue).2 " ")

/-- The entry of a field is read as the field. -/
lemma fieldOf?_entry {f : RecordField} (h : f.Sound) : fieldOf? f.entry = some f.readBack := by
  have hcut : cutOrAll "=" f.entry = (f.front, f.readBack.default) := by
    rw [entry, readBack]
    cases f.default with
    | none => rw [List.append_nil, cutOrAll_of_free (free_front h h.type.2.2 (.inr rfl))]; rfl
    | some value => exact cutOrAll_append (free_front h h.type.2.2 (.inr rfl)) rfl
  have hquestion := h.name.is_word "?" (by decide) " "
  have hmarked : isMarked f.front = f.optional := by
    rw [isMarked, front]
    cases f.optional with
    | false => simpa using hquestion
    | true => simp [Token.is, Token.mark]
  have hunmarked : unmarked f.front = f.type.behind " " ++ [Token.word " " f.name] := by
    rw [unmarked, hmarked, front]
    cases f.optional <;> simp
  have hlength : 1 ≤ (f.type.behind " ").length :=
    List.length_pos_iff.mpr ((Phrase.copy_behind " " f.type).ne_nil h.filled)
  rw [fieldOf?, hcut]
  simp only [hmarked, hunmarked, fieldWith?, List.getLast?_concat, Option.bind_some]
  simp [Token.isIdentifier, Token.word, readBack, hlength]

end RecordField

namespace RecordType

lemma fieldWith?_isSome (optional optional' : Bool) (default default' : Option Phrase)
    (left : Phrase) :
    (fieldWith? optional default left).isSome = (fieldWith? optional' default' left).isSome := by
  rw [fieldWith?, fieldWith?]
  cases left.getLast? with
  | none => rfl
  | some name =>
    rw [Option.bind_some, Option.bind_some]
    split <;> rfl

/-- What is no field is none with points behind it. -/
lemma fieldOf?_rest {p : Phrase} (hfree : Free ";" p) (h : fieldOf? p = none) :
    fieldOf? (p.behind " " ++ [Token.mark "" "..."]) = none := by
  have hcopy := fieldOf?_copy (Phrase.copy_behind " " p)
  rw [h, Option.map_none, Option.map_eq_none_iff] at hcopy
  rcases cutOrAll_cases "=" (Phrase.free_behind hfree " ") with
    ⟨-, hall⟩ | ⟨before, found, after, hp, hbefore, hfound, hcut⟩
  · have hpoints : Free "=" [Token.mark "" "..."] := rfl
    rw [fieldOf?, cutOrAll_of_free (hall.append hpoints)]
    simp [fieldWith?, isMarked, unmarked, Token.is, Token.mark, Token.isIdentifier]
  · have hcut' : cutOrAll "=" (p.behind " " ++ [Token.mark "" "..."]) =
        (before, some (after ++ [Token.mark "" "..."])) := by
      rw [hp, List.append_assoc, List.cons_append]
      exact cutOrAll_append hbefore hfound
    rw [fieldOf?, hcut] at hcopy
    have hsome := congrArg Option.isSome hcopy
    rw [fieldOf?, hcut', ← Option.not_isSome_iff_eq_none, Bool.not_eq_true]
    exact (fieldWith?_isSome _ _ _ _ _).trans hsome

/-- An entry without annotations. -/
lemma recordEntries_plain {close : String} {n : Nat} {record : RecordType} {entry after : Phrase}
    {semicolon : Token} (hne : entry ≠ []) (hclose : sees close entry = false)
    (hstar : sees "*" entry = false) (hat : sees "@" entry = false) (hentry : Free ";" entry)
    (hsemicolon : semicolon.is ";") :
    recordEntries close (n + 1) record (entry ++ semicolon :: after) =
      recordEntries close n (addEntry record entry) after := by
  obtain ⟨t, ts, rfl⟩ := List.exists_cons_of_ne_nil hne
  have hthrough : through ";" (t :: ts ++ semicolon :: after) =
      .ok ((t :: ts, semicolon), after) := through_eq_ok_iff.mpr ⟨rfl, hentry, hsemicolon⟩
  have hnames : annotations (t :: ts ++ semicolon :: after) =
      .ok ([], t :: ts ++ semicolon :: after) := Analysis.annotations_of_not_sees hat
  exact recordEntries_entry hclose hstar hthrough hnames hthrough

/-- Entries of one kind are read one after the other. -/
lemma recordEntries_flatten {α : Type} {close : String} {write : α → Phrase}
    {add : RecordType → α → RecordType} (list : List α)
    (h : ∀ a ∈ list, ∀ n record after, recordEntries close (n + 1) record (write a ++ after) =
      recordEntries close n (add record a) after) (n : Nat) (record : RecordType)
    (after : Phrase) :
    recordEntries close (list.length + n) record ((list.map write).flatten ++ after) =
      recordEntries close n (list.foldl add record) after := by
  induction list generalizing record with
  | nil => rw [List.length_nil, Nat.zero_add]; rfl
  | cons a list ih =>
    rw [List.length_cons, Nat.add_right_comm, List.map_cons, List.flatten_cons, List.append_assoc,
      h a List.mem_cons_self, List.foldl_cons]
    exact ih (fun b hb => h b (List.mem_cons_of_mem a hb)) _

/-- What a field adds to a record. -/
def addField (r : RecordType) (f : RecordField) : RecordType :=
  { r with fields := r.fields ++ [f.readBack] }

def addInclusion (r : RecordType) (p : Phrase) : RecordType :=
  { r with inclusions := r.inclusions ++ [p.behind ""] }

def addRest (r : RecordType) (p : Phrase) : RecordType :=
  { r with rest := some (p.behind " " ++ [Token.mark "" "..."]) }

lemma foldl_addField (r : RecordType) (fs : List RecordField) :
    fs.foldl addField r = { r with fields := r.fields ++ fs.map RecordField.readBack } := by
  induction fs generalizing r with
  | nil => simp
  | cons f fs ih => rw [List.foldl_cons, ih]; simp [addField]

lemma foldl_addInclusion (r : RecordType) (ps : List Phrase) :
    ps.foldl addInclusion r =
      { r with inclusions := r.inclusions ++ ps.map (Phrase.behind "") } := by
  induction ps generalizing r with
  | nil => simp
  | cons p ps ih => rw [List.foldl_cons, ih]; simp [addInclusion]

variable {close : String}

lemma recordEntries_field (hclose : close = "\x7d" ∨ close = "|\x7d") {f : RecordField}
    (h : f.Sound) (hstar : sees "*" f.type = false) (n : Nat) (record : RecordType)
    (after : Phrase) :
    recordEntries close (n + 1) record (f.written ++ after) =
      recordEntries close n (record.addField f) after := by
  obtain ⟨gap, hwritten⟩ := f.written_eq
  obtain ⟨t, ts, htype⟩ := List.exists_cons_of_ne_nil h.filled
  have hsees (mark : String) : sees mark f.entry = sees mark f.type := by
    rw [RecordField.entry, RecordField.front, htype]
    rfl
  have hcloses : sees close f.type = false := by
    have hsource := h.type.1
    have hfree := h.type.2.1
    rw [htype] at hsource hfree ⊢
    exact not_is_of_free hfree hsource hclose
  have hne : f.entry ≠ [] := by
    rw [RecordField.entry, RecordField.front]
    simp
  have hstep := @recordEntries_plain close n record f.entry after (Token.mark gap ";") hne
    ((hsees close).trans hcloses) ((hsees "*").trans hstar) ((hsees "@").trans h.plain)
    (RecordField.free_entry h) rfl
  rw [hwritten, List.append_assoc, List.singleton_append, hstep, addEntry_eq,
    RecordField.fieldOf?_entry h]
  rfl

lemma recordEntries_inclusionWritten (hclose : close = "\x7d" ∨ close = "|\x7d") {p : Phrase}
    (h : Free ";" p) (n : Nat) (record : RecordType) (after : Phrase) :
    recordEntries close (n + 1) record (inclusionWritten p ++ after) =
      recordEntries close n (record.addInclusion p) after := by
  have hstar : (Token.mark " " "*").is close = false := by
    rcases hclose with rfl | rfl <;> rfl
  have hfree : Free ";" (Token.mark " " "*" :: p.behind "") :=
    @Free.append ";" [Token.mark " " "*"] _ rfl (Phrase.free_behind h "")
  obtain ⟨gap, hgap⟩ := Phrase.behind_concat "" p ";"
  have hstep := @recordEntries_inclusion close n record (Token.mark " " "*") (p.behind "") after
    (Token.mark gap ";") hstar rfl hfree rfl
  rw [inclusionWritten, hgap, ← List.cons_append, List.append_assoc, List.singleton_append, hstep]
  rfl

lemma recordEntries_restWritten (hclose : close = "\x7d" ∨ close = "|\x7d") {p : Phrase}
    (hne : p ≠ []) (hsource : Sourced p) (hfree : Free ";" p) (hat : sees "@" p = false)
    (hfield : fieldOf? p = none) (hstar : sees "*" p = false) (n : Nat) (record : RecordType)
    (after : Phrase) :
    recordEntries close (n + 1) record (restWritten p ++ after) =
      recordEntries close n (record.addRest p) after := by
  have hpoints : Free ";" [Token.mark "" "..."] := rfl
  obtain ⟨t, ts, rfl⟩ := List.exists_cons_of_ne_nil hne
  have hcloses : t.is close = false := not_is_of_free hfree hsource hclose
  have hstep := @recordEntries_plain close n record
    (Phrase.behind " " (t :: ts) ++ [Token.mark "" "..."]) after (Token.mark "" ";") (by simp)
    hcloses hstar hat ((Phrase.free_behind hfree " ").append hpoints) rfl
  rw [addEntry_eq, fieldOf?_rest hfree hfield] at hstep
  rw [restWritten, List.append_assoc]
  rw [List.append_assoc] at hstep
  exact hstep

/-- The entries of a written record are read in the order inclusions, fields, rest. -/
lemma recordEntries_written {r : RecordType} (h : r.Sound) (hplain : r.Plain) (gap : String)
    (after : Phrase) :
    recordEntries r.closing
        (r.inclusions.length + (r.fields.length + (r.rest.toList.length + 1)))
        ⟨r.closed, [], [], none⟩
        (r.entriesWritten.flatten ++ Token.mark gap r.closing :: after) =
      .ok (r.readBack, after) := by
  have hclose : r.closing = "\x7d" ∨ r.closing = "|\x7d" := by
    rw [closing]
    split
    · exact .inr rfl
    · exact .inl rfl
  have hrests : (r.rest.map restWritten).toList = r.rest.toList.map restWritten := by
    cases r.rest <;> rfl
  have hinclusions := recordEntries_flatten r.inclusions
    fun p hp => recordEntries_inclusionWritten hclose (h.inclusions p hp).2
  have hfields := recordEntries_flatten r.fields
    fun f hf => recordEntries_field hclose (h.fields f hf) (hplain.fields f hf)
  have hrest : ∀ p ∈ r.rest.toList, ∀ n record after,
      recordEntries r.closing (n + 1) record (restWritten p ++ after) =
        recordEntries r.closing n (record.addRest p) after := by
    intro p hp
    obtain ⟨hsource, hfree, hat, hfield⟩ := h.rest p (Option.mem_toList.mp hp)
    have hstar := (hplain.rest p (Option.mem_toList.mp hp)).1
    obtain ⟨init, points, rfl, -⟩ := hplain.points (Option.mem_toList.mp hp)
    exact recordEntries_restWritten hclose (by simp) hsource hfree hat hfield hstar
  rw [entriesWritten, List.flatten_append, List.flatten_append, hrests, List.append_assoc,
    List.append_assoc, hinclusions, hfields, recordEntries_flatten _ hrest, foldl_addInclusion,
    foldl_addField]
  have hend (record : RecordType) :
      recordEntries r.closing 1 record (Token.mark gap r.closing :: after) =
        .ok (record, after) := by
    simp [recordEntries, Token.is, Token.mark]
  rw [hend, readBack]
  cases r.rest <;> rfl

/-- A written record is read with all its entries. -/
lemma recordType_written {r : RecordType} (h : r.Sound) (hplain : r.Plain) :
    ∃ r', recordType r.written = .ok (r', [Token.mark "" ";"]) ∧
      r'.unplaced = r.readBack.unplaced := by
  obtain ⟨gap, hwritten⟩ : ∃ gap, r.written = Token.mark " " r.opening ::
      (r.entriesWritten.flatten ++ [Token.mark gap r.closing, Token.mark "" ";"]) := ⟨_, rfl⟩
  have hentries := recordEntries_written h hplain gap [Token.mark "" ";"]
  obtain ⟨used, hused, -, hall⟩ := recordEntries_spec hentries
  -- as much fuel as there are tokens is enough
  obtain ⟨r', hr', hunplaced⟩ := hall [Token.mark "" ";"]
    (r.entriesWritten.flatten ++ [Token.mark gap r.closing, Token.mark "" ";"]).length
    (Phrase.Copy.refl used) rfl (by rw [hused]; simp)
  rw [← hused] at hr'
  refine ⟨r', ?_, hunplaced⟩
  rw [hwritten]
  cases hclosed : r.closed with
  | true =>
    rw [hclosed] at hr'
    simpa [recordType, eat, opening, closing, hclosed, Token.is, Token.mark] using hr'
  | false =>
    rw [hclosed] at hr'
    simpa [recordType, eat, expect, readIf, opening, closing, hclosed, Token.is, Token.mark,
      bind, Except.bind] using hr'

end RecordType

/-! ### Definitions -/

lemma free_enumerationWritten {ps : List Phrase} (h : ∀ p ∈ ps, Sourced p ∧ Free "," p) :
    Free "\x7d" (enumerationWritten ps) := by
  have hmember : ∀ p ∈ ps, Free "\x7d" (p.behind " ") := by
    intro p hp
    obtain ⟨hsource, hfree⟩ := h p hp
    refine Phrase.free_behind (hfree.matched.free fun t ht his => ?_) " "
    obtain ⟨hkind, htext⟩ := Prod.mk.inj (hsource.mark ht his (by decide))
    simp [Token.isCloser, hkind, htext]
  have hcomma : Free "\x7d" [Token.mark "" ","] := rfl
  clear h
  fun_induction enumerationWritten ps with
  | case1 => exact .nil _
  | case2 p => exact hmember p List.mem_cons_self
  | case3 p ps hne ih =>
    refine (hmember p List.mem_cons_self).append (hcomma.append (ih fun q hq => ?_))
    exact hmember q (List.mem_cons_of_mem p hq)

/-- The members of a written enumeration are its segments. -/
lemma segments_enumerationWritten {ps : List Phrase} (h : ∀ p ∈ ps, p ≠ [] ∧ Free "," p) :
    segments (enumerationWritten ps) = ps.map (Phrase.behind " ") := by
  cases ps with
  | nil => rfl
  | cons p ps =>
    have hjoined : Joined ((p :: ps).map (Phrase.behind " ")) (enumerationWritten (p :: ps)) := by
      clear h
      induction ps generalizing p with
      | nil => exact .single
      | cons q ps ih => exact .cons rfl (ih q)
    refine segments_of_joined hjoined (fun seg hseg => ?_) fun seg hseg => ?_
    · obtain ⟨q, hq, rfl⟩ := List.mem_map.mp hseg
      exact (Phrase.copy_behind " " q).ne_nil (h q hq).1
    · obtain ⟨q, hq, rfl⟩ := List.mem_map.mp hseg
      exact Phrase.free_behind (h q hq).2 " "

/-- The tokens of a written type are read as the type up to its semicolon. -/
lemma typeDescriptor_written {d : TypeDescriptor} (h : d.Sound) (hplain : d.Plain)
    (hintroducer : d.introducer = "type") :
    ∃ d' gap, typeDescriptor d.written = .ok (d', [Token.mark gap ";"]) ∧
      d'.unplaced = d.readBack.unplaced := by
  cases d with
  | record r =>
    obtain ⟨r', hr', hunplaced⟩ := RecordType.recordType_written h hplain
    refine ⟨.record r', "", ?_, congrArg TypeDescriptor.record hunplaced⟩
    have heat : eat "record" (Token.word " " "record" :: r.written) = some r.written := rfl
    rw [TypeDescriptor.written, typeDescriptor, heat]
    exact bind_eq_ok_iff.mpr ⟨_, hr', rfl⟩
  | enumeration members => exact absurd hintroducer (show "enum" ≠ "type" by decide)
  | other descriptor =>
    obtain ⟨-, hfree, hrecord⟩ := h
    obtain ⟨gap, hgap⟩ := Phrase.behind_concat " " descriptor ";"
    have hsees : sees "record" (descriptor.behind " " ++ [Token.mark gap ";"]) = false := by
      cases descriptor with
      | nil => rfl
      | cons t ts => exact hrecord
    have hread : upTo ";" (descriptor.behind " " ++ [Token.mark gap ";"]) =
        .ok (descriptor.behind " ", [Token.mark gap ";"]) :=
      upTo_eq_ok_iff.mpr ⟨rfl, Phrase.free_behind hfree " ", rfl⟩
    refine ⟨.other (descriptor.behind " "), gap, ?_, rfl⟩
    rw [TypeDescriptor.written, hgap, typeDescriptor, eat_eq_none_iff.mpr hsees]
    exact bind_eq_ok_iff.mpr ⟨_, hread, rfl⟩

namespace TypeDefinition

variable {t : TypeDefinition} {words : List String}

lemma typeDefinition_written (h : t.Sound) (hplain : t.descriptor.Plain)
    (hintroducer : t.descriptor.introducer = "type") (start : Token)
    (hpublic : words.contains "public" = t.isPublic) :
    ∃ t', typeDefinition start words (Token.word " " t.name :: t.descriptor.written) =
      .ok (t', []) ∧ t'.unplaced = t.readBack.unplaced := by
  obtain ⟨d', gap, hread, hunplaced⟩ := typeDescriptor_written h.descriptor hplain hintroducer
  have hname : identifier (Token.word " " t.name :: t.descriptor.written) =
      .ok (Token.word " " t.name, t.descriptor.written) := rfl
  have hsemicolon : expect ";" [Token.mark gap ";"] = .ok (Token.mark gap ";", []) := rfl
  refine ⟨⟨words.contains "public", t.name, d', start.span.through (Token.mark gap ";").span⟩,
    ?_, ?_⟩
  · exact bind_eq_ok_iff.mpr ⟨_, hname, bind_eq_ok_iff.mpr ⟨_, hread,
      bind_eq_ok_iff.mpr ⟨_, hsemicolon, rfl⟩⟩⟩
  · simp [unplaced, readBack, hunplaced, ← hpublic]

lemma enumDefinition_written {members : List Phrase}
    (hdescriptor : t.descriptor = .enumeration members) (h : t.Sound) (start : Token)
    (hpublic : words.contains "public" = t.isPublic) :
    ∃ t', enumDefinition start words (Token.word " " t.name :: t.descriptor.written) =
      .ok (t', []) ∧ t'.unplaced = t.readBack.unplaced := by
  have hsound : ∀ p ∈ members, p ≠ [] ∧ Sourced p ∧ Free "," p := by
    have hmembers := h.descriptor
    rwa [hdescriptor] at hmembers
  obtain ⟨gap, hwritten⟩ : ∃ gap, (TypeDescriptor.enumeration members).written =
      Token.mark " " "\x7b" :: (enumerationWritten members ++ [Token.mark gap "\x7d"]) := ⟨_, rfl⟩
  rw [hdescriptor, hwritten]
  have hname : identifier (Token.word " " t.name :: Token.mark " " "\x7b" ::
      (enumerationWritten members ++ [Token.mark gap "\x7d"])) = .ok (Token.word " " t.name,
        Token.mark " " "\x7b" :: (enumerationWritten members ++ [Token.mark gap "\x7d"])) := rfl
  have hopen : expect "\x7b" (Token.mark " " "\x7b" ::
      (enumerationWritten members ++ [Token.mark gap "\x7d"])) = .ok (Token.mark " " "\x7b",
        enumerationWritten members ++ [Token.mark gap "\x7d"]) := rfl
  have hinner : through "\x7d" (enumerationWritten members ++ [Token.mark gap "\x7d"]) =
      .ok ((enumerationWritten members, Token.mark gap "\x7d"), []) :=
    through_eq_ok_iff.mpr ⟨rfl, free_enumerationWritten fun p hp => (hsound p hp).2, rfl⟩
  have hmembers : (segments (enumerationWritten members)).filter (!·.isEmpty) =
      members.map (Phrase.behind " ") := by
    rw [segments_enumerationWritten fun p hp => ⟨(hsound p hp).1, (hsound p hp).2.2⟩,
      List.filter_eq_self]
    intro q hq
    obtain ⟨p, hp, rfl⟩ := List.mem_map.mp hq
    simpa using (Phrase.copy_behind " " p).ne_nil (hsound p hp).1
  refine ⟨⟨words.contains "public", t.name,
    .enumeration ((segments (enumerationWritten members)).filter (!·.isEmpty)),
    start.span.through (Token.mark gap "\x7d").span⟩, ?_, ?_⟩
  · exact bind_eq_ok_iff.mpr ⟨_, hname, bind_eq_ok_iff.mpr ⟨_, hopen,
      bind_eq_ok_iff.mpr ⟨_, hinner, rfl⟩⟩⟩
  · rw [hmembers, hpublic]
    simp [unplaced, readBack, hdescriptor, TypeDescriptor.readBack]

/-- What is read behind the qualifiers of a written definition. -/
lemma memberAfter_written (h : t.Sound) (hplain : t.descriptor.Plain) (start : Token)
    (gap : String) (hpublic : words.contains "public" = t.isPublic) :
    ∃ t', memberAfter start [] words
        (Token.word gap t.descriptor.introducer :: Token.word " " t.name :: t.descriptor.written) =
      .ok (.typeDefinition t', []) ∧ t'.unplaced = t.readBack.unplaced := by
  have htype (ts : Phrase) : memberAfter start [] words (Token.word gap "type" :: ts) =
      typeDefinition start words ts >>= fun read => .ok (.typeDefinition read.1, read.2) := rfl
  have henum (ts : Phrase) : memberAfter start [] words (Token.word gap "enum" :: ts) =
      enumDefinition start words ts >>= fun read => .ok (.typeDefinition read.1, read.2) := rfl
  by_cases hintroducer : t.descriptor.introducer = "type"
  · obtain ⟨t', ht', hunplaced⟩ := typeDefinition_written h hplain hintroducer start hpublic
    rw [hintroducer, htype]
    exact ⟨t', bind_eq_ok_iff.mpr ⟨_, ht', rfl⟩, hunplaced⟩
  · obtain ⟨members, hdescriptor⟩ : ∃ members, t.descriptor = .enumeration members := by
      cases hdescriptor : t.descriptor with
      | enumeration members => exact ⟨members, rfl⟩
      | record r => rw [hdescriptor] at hintroducer; exact absurd rfl hintroducer
      | other descriptor => rw [hdescriptor] at hintroducer; exact absurd rfl hintroducer
    obtain ⟨t', ht', hunplaced⟩ := enumDefinition_written hdescriptor h start hpublic
    have hword : t.descriptor.introducer = "enum" := by rw [hdescriptor]; rfl
    rw [hword, henum]
    exact ⟨t', bind_eq_ok_iff.mpr ⟨_, ht', rfl⟩, hunplaced⟩

lemma spells_of_memberAfter {start : Token} {ts ts' : Phrase} {m : Member}
    (himport : start.is "import" = false) (hstray : start.is ";" = false)
    (hat : start.is "@" = false) (hwords : qualifiers (start :: ts) = (words, ts'))
    (hm : memberAfter start [] words ts' = .ok (m, [])) :
    SpellsParts [] [m] (start :: ts) [] := by
  have hannotations : annotations (start :: ts) = .ok ([], start :: ts) :=
    Analysis.annotations_of_not_sees hat
  have hmember : Parser.member start ts = .ok (m, []) := by
    rw [Parser.member, hannotations]
    simpa only [bind, Except.bind, hwords] using hm
  have hspells := @SpellsParts.member start m [] [] ts [] [] himport hstray
    (by simpa using hmember) .nil
  simpa using hspells

/-- The tokens of a written definition are a module with that definition as its only member. -/
theorem spells_written (h : t.Sound) (hplain : t.descriptor.Plain) :
    ∃ t' : TypeDefinition, SpellsParts [] [.typeDefinition t'] t.written [] ∧
      t'.unplaced = t.readBack.unplaced := by
  obtain ⟨d, hd⟩ : ∃ d, t.descriptor = d := ⟨_, rfl⟩
  cases hpublic : t.isPublic with
  | false =>
    have hwords : [].contains "public" = t.isPublic := hpublic.symm
    obtain ⟨t', ht', hunplaced⟩ := memberAfter_written h hplain
      (Token.word "" t.descriptor.introducer) "" hwords
    refine ⟨t', ?_, hunplaced⟩
    rw [written, hpublic]
    rw [hd] at ht' ⊢
    refine spells_of_memberAfter ?_ ?_ ?_ ?_ ht' <;> cases d <;> rfl
  | true =>
    have hwords : ["public"].contains "public" = t.isPublic := hpublic.symm
    obtain ⟨t', ht', hunplaced⟩ := memberAfter_written h hplain
      (Token.word "" "public") " " hwords
    refine ⟨t', ?_, hunplaced⟩
    rw [written, hpublic]
    rw [hd] at ht' ⊢
    refine spells_of_memberAfter rfl rfl rfl ?_ ht'
    cases d <;> rfl

end TypeDefinition

end FlowCanvas
