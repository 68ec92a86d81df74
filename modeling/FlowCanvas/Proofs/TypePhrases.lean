import FlowCanvas.TypeData
import FlowCanvas.Proofs.CallWriting
import FlowCanvas.Proofs.Framing
import FlowCanvas.Proofs.Rescanning

/-!
# The tokens of a written type

The source text of a type definition is made of texts that were read and of words and marks between
them. `written` is that source as tokens: its text is the source, and the text is scanned as these
tokens.
-/

namespace FlowCanvas

open Lexer

/-! ### Written definitions -/

/-- The tokens of a field. -/
def RecordField.written (f : RecordField) : Phrase :=
  f.type.behind " " ++ Token.word " " f.name ::
    ((if f.optional then [Token.mark "" "?"] else []) ++
      match f.default with
      | none => [Token.mark "" ";"]
      | some value => Token.mark " " "=" :: Phrase.behind " " (value ++ [Token.mark "" ";"]))

namespace RecordType

/-- The tokens of an inclusion. -/
def inclusionWritten (p : Phrase) : Phrase :=
  Token.mark " " "*" :: Phrase.behind "" (p ++ [Token.mark "" ";"])

/-- The tokens of a rest descriptor, behind which the writer puts the points of one. -/
def restWritten (p : Phrase) : Phrase :=
  p.behind " " ++ [Token.mark "" "...", Token.mark "" ";"]

/-- The tokens of the entries: inclusions, fields and the rest type. -/
def entriesWritten (r : RecordType) : List Phrase :=
  r.inclusions.map inclusionWritten ++ r.fields.map RecordField.written ++
    (r.rest.map restWritten).toList

def opening (r : RecordType) : String := if r.closed then "\x7b|" else "\x7b"

def closing (r : RecordType) : String := if r.closed then "|\x7d" else "\x7d"

/-- The tokens behind the word `record`. -/
def written (r : RecordType) : Phrase :=
  Token.mark " " r.opening :: (r.entriesWritten.flatten ++
    [Token.mark (if r.entriesWritten.isEmpty then "" else " ") r.closing, Token.mark "" ";"])

end RecordType

/-- The tokens of the members of an enumeration with commas between them. -/
def enumerationWritten : List Phrase → Phrase
  | [] => []
  | [p] => p.behind " "
  | p :: ps => p.behind " " ++ Token.mark "" "," :: enumerationWritten ps

/-- The tokens behind the name of a definition. -/
def TypeDescriptor.written : TypeDescriptor → Phrase
  | .record r => Token.word " " "record" :: r.written
  | .enumeration members =>
    Token.mark " " "\x7b" :: (enumerationWritten members ++
      [Token.mark (if members.isEmpty then "  " else " ") "\x7d"])
  | .other descriptor => Phrase.behind " " (descriptor ++ [Token.mark "" ";"])

/-- The word that tells what is defined. -/
def TypeDescriptor.introducer : TypeDescriptor → String
  | .enumeration _ => "enum"
  | _ => "type"

/-- The tokens of a definition. -/
def TypeDefinition.written (t : TypeDefinition) : Phrase :=
  (if t.isPublic then [Token.word "" "public", Token.word " " t.descriptor.introducer]
    else [Token.word "" t.descriptor.introducer]) ++
    Token.word " " t.name :: t.descriptor.written

/-! ### What a definition that was read is made of -/

open Brackets FlowCanvas.Parser

/-- A field that was read. -/
structure RecordField.Sound (f : RecordField) : Prop where
  name : IsName f.name
  filled : f.type ≠ []
  type : Sourced f.type ∧ Free ";" f.type ∧ Free "=" f.type
  plain : sees "@" f.type = false
  default : ∀ value ∈ f.default, Sourced value ∧ Free ";" value

/-- A record that was read. -/
structure RecordType.Sound (r : RecordType) : Prop where
  fields : ∀ f ∈ r.fields, f.Sound
  inclusions : ∀ p ∈ r.inclusions, Sourced p ∧ Free ";" p
  rest : ∀ p ∈ r.rest, Sourced p ∧ Free ";" p ∧ sees "@" p = false ∧ fieldOf? p = none

/-- A type that was read. -/
def TypeDescriptor.Sound : TypeDescriptor → Prop
  | .record r => r.Sound
  | .enumeration members => ∀ p ∈ members, p ≠ [] ∧ Sourced p ∧ Free "," p
  | .other descriptor =>
    Sourced descriptor ∧ Free ";" descriptor ∧ sees "record" descriptor = false

/-- A definition that was read. -/
structure TypeDefinition.Sound (t : TypeDefinition) : Prop where
  name : IsName t.name
  descriptor : t.descriptor.Sound

/-! ### What can be written again -/

/-- A name, or a name behind the one of a module. -/
def IsReference (p : Phrase) : Prop :=
  p.lexemes.map Prod.fst = [.identifier] ∨
    p.lexemes.map Prod.fst = [.identifier, .punctuation, .identifier] ∧
      p.lexemes[1]? = some (.punctuation, ":")

instance (p : Phrase) : Decidable (IsReference p) := inferInstanceAs (Decidable (_ ∨ _ ∧ _))

/-- A record whose inclusions are references, whose rest descriptor ends with points, and whose
other entries start with no star, as they can behind an annotation only. -/
structure RecordType.Plain (r : RecordType) : Prop where
  fields : ∀ f ∈ r.fields, sees "*" f.type = false
  inclusions : ∀ p ∈ r.inclusions, IsReference p
  rest : ∀ p ∈ r.rest, sees "*" p = false ∧ p.getLast?.any (·.is "...")

instance (r : RecordType) : Decidable r.Plain :=
  decidable_of_iff ((∀ f ∈ r.fields, sees "*" f.type = false) ∧
      (∀ p ∈ r.inclusions, IsReference p) ∧
      ∀ p ∈ r.rest, sees "*" p = false ∧ p.getLast?.any (·.is "..."))
    ⟨fun ⟨fields, inclusions, rest⟩ => ⟨fields, inclusions, rest⟩,
      fun h => ⟨h.fields, h.inclusions, h.rest⟩⟩

lemma RecordType.Plain.points {r : RecordType} (h : r.Plain) {p : Phrase} (hp : p ∈ r.rest) :
    ∃ init points, p = init ++ [points] ∧ points.is "..." := by
  have hlast := (h.rest p hp).2
  rcases List.eq_nil_or_concat' p with rfl | ⟨init, points, rfl⟩
  · exact absurd hlast (by decide)
  · exact ⟨init, points, rfl, by simpa using hlast⟩

def TypeDescriptor.Plain : TypeDescriptor → Prop
  | .record r => r.Plain
  | _ => True

instance : (d : TypeDescriptor) → Decidable d.Plain
  | .record r => inferInstanceAs (Decidable r.Plain)
  | .enumeration _ | .other _ => inferInstanceAs (Decidable True)

/-! ### The text of a written definition -/

namespace TypeData

lemma intercalate_behind (e : String) (es : List String) :
    " " ++ String.intercalate " " (e :: es) = String.join ((e :: es).map (" " ++ ·)) := by
  induction es generalizing e with
  | nil => simp [String.join]
  | cons e' es ih =>
    rw [String.intercalate_cons_cons, String.append_assoc, ih, List.map_cons, String.join_cons]
    simp [String.append_assoc]

/-- What stands between the brackets of a record. -/
lemma body_eq {es : List String} (h : ∀ e ∈ es, e ≠ "") :
    (if (String.intercalate " " es).isEmpty then "" else " " ++ String.intercalate " " es ++ " ") =
      String.join (es.map (" " ++ ·)) ++ if es.isEmpty then "" else " " := by
  cases es with
  | nil => rfl
  | cons e es =>
    have hne : (String.intercalate " " (e :: es)).isEmpty = false := by
      have he := h e List.mem_cons_self
      cases es with
      | nil => simpa using he
      | cons e' es => simp [String.intercalate_cons_cons, he]
    rw [hne, if_neg (by simp), intercalate_behind]
    rfl

end TypeData

lemma TypeData.source_record {d : TypeData} (h : d.kind = .record) :
    d.source = (if d.isPublic then "public " else "") ++ "type " ++ d.name ++ " record " ++
      (if d.isOpen then "\x7b" else "\x7b|") ++
      (if (String.intercalate " " d.entries).isEmpty then ""
        else " " ++ String.intercalate " " d.entries ++ " ") ++
      (if d.isOpen then "\x7d" else "|\x7d") ++ ";" := by
  rw [source, h]
  cases d.isOpen <;> rfl

lemma RecordField.tail_written {f : RecordField} (h : f.type ≠ []) :
    Phrase.tail f.written = " " ++ (TypeMember.ofField f).source := by
  rw [written, Phrase.tail_append, Phrase.tail_behind h, ← String.toList_inj]
  cases hoptional : f.optional <;> cases hdefault : f.default <;>
    simp [TypeMember.ofField, TypeMember.source, hoptional, hdefault, Phrase.tail_behind_concat]

lemma RecordType.tail_inclusionWritten (p : Phrase) :
    Phrase.tail (inclusionWritten p) = " " ++ ("*" ++ Phrase.text p ++ ";") := by
  rw [← String.toList_inj]
  simp [inclusionWritten, Phrase.tail_behind_concat]

lemma RecordType.tail_restWritten {p : Phrase} (h : p ≠ []) :
    Phrase.tail (restWritten p) = " " ++ (Phrase.text p ++ "...;") := by
  rw [restWritten, Phrase.tail_append, Phrase.tail_behind h, ← String.toList_inj]
  simp

lemma tail_enumerationWritten {p : Phrase} {ps : List Phrase} (h : ∀ q ∈ p :: ps, q ≠ []) :
    Phrase.tail (enumerationWritten (p :: ps)) =
      " " ++ String.intercalate ", " ((p :: ps).map Phrase.text) := by
  induction ps generalizing p with
  | nil => simpa [enumerationWritten] using Phrase.tail_behind (h p List.mem_cons_self) " "
  | cons q ps ih =>
    have hrest := ih fun r hr => h r (List.mem_cons_of_mem p hr)
    have hjoined : String.intercalate ", " ((p :: q :: ps).map Phrase.text) =
        p.text ++ ", " ++ String.intercalate ", " ((q :: ps).map Phrase.text) :=
      String.intercalate_cons_cons
    rw [enumerationWritten, Phrase.tail_append, Phrase.tail_behind (h p List.mem_cons_self),
      Phrase.tail_mark, hrest, hjoined, ← String.toList_inj]
    · simp
    · simp

lemma RecordType.tail_entries (d : Document) (t : TypeDefinition) {r : RecordType}
    (ht : t.descriptor = .record r) (hsound : r.Sound) (hplain : r.Plain) :
    r.entriesWritten.map Phrase.tail =
      (TypeData.entries (TypeData.ofDefinition d t)).map (" " ++ ·) := by
  have hfields : (r.fields.map RecordField.written).map Phrase.tail =
      ((r.fields.map TypeMember.ofField).map TypeMember.source).map (" " ++ ·) := by
    rw [List.map_map, List.map_map, List.map_map]
    exact List.map_congr_left fun f hf => RecordField.tail_written (hsound.fields f hf).filled
  have hinclusions : (r.inclusions.map inclusionWritten).map Phrase.tail =
      ((r.inclusions.map Phrase.text).map fun name => "*" ++ name ++ ";").map (" " ++ ·) := by
    rw [List.map_map, List.map_map, List.map_map]
    exact List.map_congr_left fun p _ => tail_inclusionWritten p
  have hrest : (r.rest.map restWritten).toList.map Phrase.tail =
      ((r.rest.map Phrase.text).map fun rest => rest ++ "...;").toList.map (" " ++ ·) := by
    cases hsome : r.rest with
    | none => rfl
    | some p =>
      obtain ⟨init, points, rfl, -⟩ := hplain.points hsome
      exact congrArg (· :: []) (tail_restWritten (by simp))
  rw [entriesWritten, List.map_append, List.map_append, hfields, hinclusions, hrest,
    ← List.map_append, ← List.map_append, TypeData.entries, TypeData.ofDefinition, ht]

lemma TypeMember.source_ne (m : TypeMember) : m.source ≠ "" := by
  intro h
  have hlist := congrArg String.toList h
  simp [source] at hlist

lemma TypeData.entry_ne {d : TypeData} : ∀ e ∈ d.entries, e ≠ "" := by
  rintro e he rfl
  rcases List.mem_append.mp he with he | he
  · rcases List.mem_append.mp he with he | he
    · obtain ⟨name, -, hname⟩ := List.mem_map.mp he
      simpa using congrArg String.toList hname
    · obtain ⟨m, -, hm⟩ := List.mem_map.mp he
      exact m.source_ne hm
  · obtain ⟨rest, -, hrest⟩ := Option.map_eq_some_iff.mp (Option.mem_toList.mp he)
    simpa using congrArg String.toList hrest

namespace TypeDefinition

open TypeData

/-- The text of a written definition is its source. -/
theorem tail_written (d : Document) {t : TypeDefinition} (hsound : t.Sound)
    (hplain : t.descriptor.Plain) : Phrase.tail t.written = (ofDefinition d t).source := by
  obtain ⟨isPublic, name, descriptor, span⟩ := t
  cases descriptor with
  | other descriptor =>
    rw [← String.toList_inj]
    cases isPublic <;> simp [written, TypeDescriptor.written, TypeDescriptor.introducer, source,
      ofDefinition, Phrase.tail_behind_concat]
  | enumeration members =>
    cases members with
    | nil =>
      rw [← String.toList_inj]
      cases isPublic <;> simp [written, TypeDescriptor.written, TypeDescriptor.introducer, source,
        ofDefinition, enumerationWritten]
    | cons p ps =>
      have hmembers := tail_enumerationWritten fun q hq => (hsound.descriptor q hq).1
      rw [← String.toList_inj]
      cases isPublic <;> simp [written, TypeDescriptor.written, TypeDescriptor.introducer, source,
        ofDefinition, Phrase.tail_append, hmembers] <;> rfl
  | record r =>
    have hr : r.Sound := hsound.descriptor
    have hp : r.Plain := hplain
    have hentries := RecordType.tail_entries d ⟨isPublic, name, .record r, span⟩ rfl hr hp
    have hempty : r.entriesWritten.isEmpty =
        (entries (ofDefinition d ⟨isPublic, name, .record r, span⟩)).isEmpty := by
      rw [← List.isEmpty_map (f := Phrase.tail), hentries, List.isEmpty_map]
    have hbody := body_eq (entry_ne (d := ofDefinition d ⟨isPublic, name, .record r, span⟩))
    rw [← hentries, ← Phrase.tail_flatten, ← hempty] at hbody
    have hsource := source_record (d := ofDefinition d ⟨isPublic, name, .record r, span⟩) rfl
    rw [hsource, hbody, ← String.toList_inj]
    cases isPublic <;> cases hclosed : r.closed <;>
      simp [written, TypeDescriptor.written, TypeDescriptor.introducer, RecordType.written,
        ofDefinition, Phrase.tail_append, RecordType.opening, RecordType.closing, hclosed]

end TypeDefinition

/-! ### The scan of a written definition -/

lemma spaced_name {name : String} (h : IsName name) : Spaced [Token.word " " name] :=
  .word (h.starts (by simp; decide))

lemma RecordField.spaced_written {f : RecordField} (h : f.Sound) : Spaced f.written := by
  have hmark : Spaced (if f.optional then [Token.mark "" "?"] else []) := by
    split
    · have hstart : Starts .punctuation "?".toList [' '] :=
        starts_of_split (by decide) (by decide) (by decide) rfl
      exact .mark .nil hstart (safe_cons (by decide) _)
    · exact .nil
  have hdefault : Spaced (match f.default with
      | none => [Token.mark "" ";"]
      | some value =>
        Token.mark " " "=" :: Phrase.behind " " (value ++ [Token.mark "" ";"])) := by
    split
    · exact spaced_semicolon
    · rename_i value hvalue
      have hstart : Starts .punctuation "=".toList [' '] :=
        starts_of_split (by decide) (by decide) (by decide) rfl
      exact (Spaced.mark gap_space hstart (safe_space _)).append
        (spaced_closed (h.default value hvalue).1)
  exact (spaced_behind h.type.1).append ((spaced_name h.name).append (hmark.append hdefault))

/-- The text of a reference starts with a letter. -/
lemma IsReference.head {p : Phrase} (h : IsReference p) (hsource : Sourced p) :
    ∃ c ∈ p.text.toList.head?, isWordStart c := by
  have hfirst : ∃ kinds, p.lexemes.map Prod.fst = TokenKind.identifier :: kinds := by
    rcases h with h | ⟨h, -⟩
    · exact ⟨_, h⟩
    · exact ⟨_, h⟩
  obtain ⟨kinds, hkinds⟩ := hfirst
  obtain ⟨here, cs, rest, hscanned⟩ := hsource
  cases p with
  | nil => simp at hkinds
  | cons t ts =>
    have hkind : t.kind = .identifier := (List.cons.inj hkinds).1
    obtain ⟨-, -, -, hstart⟩ := hscanned.head
    rw [hkind] at hstart
    obtain ⟨c, cs, htext, -, -, hc, -⟩ := hstart.word
    refine ⟨c, ?_, hc⟩
    rw [Phrase.text_cons, String.toList_append, htext]
    rfl

lemma RecordType.spaced_inclusionWritten {p : Phrase} (h : Sourced p) (href : IsReference p) :
    Spaced (inclusionWritten p) := by
  obtain ⟨c, hc, hword⟩ := href.head h
  have hstar : GrowsBy '=' '*' := by decide
  refine ⟨.cons gap_space (fun rest _ => starts_mark hstar ?_) (scans_closed h .nil), ?_⟩
  · rw [Phrase.tail_behind_concat, String.empty_append, String.toList_append, List.append_assoc,
      List.head?_append, hc]
    rintro ⟨⟩
    exact absurd hword (by decide)
  · rw [tail_inclusionWritten]
    exact safe_space _

lemma RecordType.spaced_restWritten {init : Phrase} {points : Token}
    (h : Sourced (init ++ [points])) (hpoints : points.is "...") :
    Spaced (restWritten (init ++ [points])) := by
  have hmarks : Scans [Token.mark "" "...", Token.mark "" ";"] :=
    .mark gap_empty (starts_points _) (scans_semicolon .nil) (safe_cons (by decide) _)
  refine ⟨fun here rest hrest => ?_, ?_⟩
  · obtain ⟨_, _, _, hscanned⟩ := h
    -- points may stand behind points
    obtain ⟨us, hus, hsame⟩ := (hscanned.of_points hpoints
      ((Phrase.tail [Token.mark "" "...", Token.mark "" ";"]).toList ++ rest)).behind gap_space here
    obtain ⟨vs, hvs, hsame'⟩ := hmarks (here.advance
      (Phrase.tail (Phrase.behind " " (init ++ [points]))).toList) rest hrest
    refine ⟨us ++ vs, ?_, by rw [restWritten, List.map_append, List.map_append, hsame, hsame']⟩
    rw [restWritten, Phrase.tail_append, String.toList_append]
    exact hus.append hvs
  · rw [tail_restWritten (by simp)]
    exact safe_space _

lemma RecordType.spaced_entries {r : RecordType} (h : r.Sound) (hplain : r.Plain) :
    ∀ p ∈ r.entriesWritten, Spaced p := by
  intro p hp
  rcases List.mem_append.mp hp with hp | hp
  · rcases List.mem_append.mp hp with hp | hp
    · obtain ⟨q, hq, rfl⟩ := List.mem_map.mp hp
      exact spaced_inclusionWritten (h.inclusions q hq).1 (hplain.inclusions q hq)
    · obtain ⟨f, hf, rfl⟩ := List.mem_map.mp hp
      exact RecordField.spaced_written (h.fields f hf)
  · obtain ⟨q, hq, rfl⟩ := Option.map_eq_some_iff.mp (Option.mem_toList.mp hp)
    obtain ⟨init, points, rfl, hpoints⟩ := hplain.points hq
    exact spaced_restWritten (h.rest _ hq).1 hpoints

lemma RecordType.starts_opening (r : RecordType) {rest : List Char}
    (h : r.closed = false → rest.head? ≠ some '|') :
    Starts .punctuation r.opening.toList rest := by
  rw [opening]
  cases hclosed : r.closed with
  | false => exact starts_mark (by decide) (h hclosed)
  | true => exact starts_of_split (by decide) (by decide) (by decide) rfl

lemma RecordType.starts_closing (r : RecordType) : Starts .punctuation r.closing.toList [' '] := by
  rw [closing]
  split <;> exact starts_of_split (by decide) (by decide) (by decide) rfl

lemma RecordType.spaced_written {r : RecordType} (h : r.Sound) (hplain : r.Plain) :
    Spaced r.written := by
  have hclosing {gap : String} (hgap : Gap false gap.toList) :
      Scans [Token.mark gap r.closing, Token.mark "" ";"] :=
    .mark hgap r.starts_closing (scans_semicolon .nil) (safe_cons (by decide) _)
  have hentries := Spaced.flatten (spaced_entries h hplain)
  have hsafe : Safe (Phrase.tail r.written).toList := by
    rw [written, Phrase.tail_mark, String.append_assoc]
    exact safe_space _
  refine ⟨?_, hsafe⟩
  rw [written]
  cases hempty : r.entriesWritten with
  | nil =>
    refine .cons gap_space (fun rest _ => r.starts_opening fun hclosed => ?_) (hclosing .nil)
    simp [closing, hclosed]
  | cons e es =>
    rw [hempty] at hentries
    have hend : Spaced [Token.mark " " r.closing, Token.mark "" ";"] :=
      (Spaced.mark gap_space r.starts_closing (safe_space _)).append spaced_semicolon
    have hall := hentries.append hend
    refine .cons gap_space (fun rest hrest => r.starts_opening fun _ hbar => ?_) hall.scans
    exact absurd (hall.safe.append hrest _ hbar) (by decide)

lemma spaced_enumerationWritten {ps : List Phrase} (h : ∀ p ∈ ps, Sourced p) :
    Spaced (enumerationWritten ps) := by
  have hstart : Starts .punctuation ",".toList [' '] :=
    starts_of_split (by decide) (by decide) (by decide) rfl
  have hcomma : Spaced [Token.mark "" ","] := .mark .nil hstart (safe_cons (by decide) _)
  fun_induction enumerationWritten ps with
  | case1 => exact .nil
  | case2 p => exact spaced_behind (h p List.mem_cons_self)
  | case3 p ps hne ih =>
    refine (spaced_behind (h p List.mem_cons_self)).append (hcomma.append (ih fun q hq => ?_))
    exact h q (List.mem_cons_of_mem p hq)

lemma TypeDescriptor.spaced_written {d : TypeDescriptor} (h : d.Sound) (hplain : d.Plain) :
    Spaced d.written := by
  cases d with
  | record r =>
    have hstart : Starts .identifier "record".toList [' '] :=
      starts_of_split (by decide) (by decide) (by decide) rfl
    exact (Spaced.word hstart).append (RecordType.spaced_written h hplain)
  | enumeration members =>
    have hopen : Starts .punctuation "\x7b".toList [' '] :=
      starts_of_split (by decide) (by decide) (by decide) rfl
    have hclose : Starts .punctuation "\x7d".toList [' '] :=
      starts_of_split (by decide) (by decide) (by decide) rfl
    have hgap : Gap false (if members.isEmpty then "  " else " ").toList := by
      split
      · exact .blank rfl gap_space
      · exact gap_space
    have hsafe : Safe ((if members.isEmpty then "  " else " ") ++ "\x7d").toList := by
      split <;> exact safe_cons (by decide) _
    exact (Spaced.mark gap_space hopen (safe_space _)).append
      ((spaced_enumerationWritten fun p hp => (h p hp).2.1).append (.mark hgap hclose hsafe))
  | other descriptor => exact spaced_closed h.1

/-- The text of a written definition is scanned as the definition. -/
theorem TypeDefinition.scans_written {t : TypeDefinition} (h : t.Sound)
    (hplain : t.descriptor.Plain) : Scans t.written := by
  have hbody : Spaced (Token.word " " t.name :: t.descriptor.written) :=
    (spaced_name h.name).append (TypeDescriptor.spaced_written h.descriptor hplain)
  have htype : Starts .identifier "type".toList [' '] :=
    starts_of_split (by decide) (by decide) (by decide) rfl
  have henum : Starts .identifier "enum".toList [' '] :=
    starts_of_split (by decide) (by decide) (by decide) rfl
  have hintroducer : Starts .identifier t.descriptor.introducer.toList [' '] := by
    cases t.descriptor <;> assumption
  have hpublic : Starts .identifier "public".toList [' '] :=
    starts_of_split (by decide) (by decide) (by decide) rfl
  rw [written]
  split
  · have hall := (Spaced.word hintroducer).append hbody
    exact .word gap_empty hpublic hall.scans hall.safe
  · exact .word gap_empty hintroducer hbody.scans hbody.safe

end FlowCanvas
