import FlowCanvas.Proofs.Lossless
import FlowCanvas.Proofs.StatementEdits
import FlowCanvas.Proofs.TypeReading

/-!
# Types read and written again

A type definition that was read is written as text that is read as a module with the same
definition. Only a rest descriptor comes back longer: the reader keeps its points with its type and
the writer puts its own points behind them, so every round adds three.
-/

namespace FlowCanvas

open Brackets Lexer FlowCanvas.Parser

/-! ### Definitions of a source -/

namespace Parser

/-- A part in front of matching brackets has matching brackets. -/
lemma matched_left {xs ys : Phrase} (h : Matched (xs ++ ys)) (hys : Matched ys) : Matched xs := by
  unfold Matched at h
  rw [levelAfter?_append, Option.bind_eq_some_iff] at h
  obtain ⟨depth, hdepth, hrest⟩ := h
  obtain rfl := Option.some.inj (hrest.symm.trans (hys.level depth))
  exact hdepth

lemma sees_append {xs : Phrase} (hne : xs ≠ []) (mark : String) (ys : Phrase) :
    sees mark (xs ++ ys) = sees mark xs := by
  obtain ⟨x, xs, rfl⟩ := List.exists_cons_of_ne_nil hne
  rfl

lemma sees_left {xs ys : Phrase} {mark : String} (h : sees mark (xs ++ ys) = false) :
    sees mark xs = false := by
  cases xs with
  | nil => rfl
  | cons x xs => exact h

/-- The parts of a left side that is read as a type and a name. -/
lemma fieldWith?_eq_some {left : Phrase} {default : Option Phrase} {f : RecordField}
    (h : fieldWith? (isMarked left) default (unmarked left) = some f) :
    ∃ name marks, left = f.type ++ name :: marks ∧ name.isIdentifier ∧ f.name = name.text ∧
      f.type ≠ [] ∧ f.default = default ∧ Matched marks := by
  obtain ⟨name, hname, hfield⟩ := Option.bind_eq_some_iff.mp h
  obtain ⟨type, htype⟩ := List.getLast?_eq_some_iff.mp hname
  rw [htype] at hfield
  split at hfield
  · rename_i hfits
    obtain rfl := Option.some.inj hfield
    rw [Bool.and_eq_true, decide_eq_true_eq] at hfits
    have hne : type ≠ [] := by
      rintro rfl
      simp at hfits
    have hmarks : ∃ marks, left = type ++ name :: marks ∧ Matched marks := by
      rw [unmarked] at htype
      split at htype
      · rename_i hmarked
        rcases List.eq_nil_or_concat' left with rfl | ⟨front, mark, rfl⟩
        · exact absurd hmarked (by decide)
        · rw [isMarked, List.getLast?_concat] at hmarked
          rw [List.dropLast_concat] at htype
          exact ⟨[mark], by simp [htype], matched_mark hmarked (by decide)⟩
      · exact ⟨[], htype, .nil⟩
    obtain ⟨marks, hleft, hmatched⟩ := hmarks
    rw [List.dropLast_concat]
    exact ⟨name, marks, hleft, hfits.1, rfl, hne, rfl, hmatched⟩
  · simp at hfield

lemma sound_of_fieldOf? {entry : Phrase} {f : RecordField} (h : fieldOf? entry = some f)
    (hsource : Sourced entry) (hfree : Free ";" entry) (hat : sees "@" entry = false) :
    f.Sound := by
  obtain ⟨left, default, hleft, hcut, hequal, hdefault⟩ : ∃ left default,
      left <+: entry ∧ cutOrAll "=" entry = (left, default) ∧ Free "=" left ∧
      ∀ value ∈ default, value <:+ entry ∧ Free ";" value := by
    rcases cutOrAll_cases "=" hfree with
      ⟨hcut, hall⟩ | ⟨before, found, after, rfl, hbefore, hfound, hcut⟩
    · exact ⟨entry, none, List.prefix_refl entry, hcut, hall, by simp⟩
    · refine ⟨before, some after, List.prefix_append before _, hcut, hbefore, ?_⟩
      rintro value ⟨rfl⟩
      have hbehind := (Free.parts hfree hbefore.matched).2
      have hfound' : Matched [found] := matched_mark hfound (by decide)
      exact ⟨⟨before ++ [found], by simp⟩, (@Free.parts ";" [found] _ hbehind hfound').2⟩
  rw [fieldOf?, hcut] at h
  obtain ⟨name, marks, rfl, hidentifier, hname, hfilled, rfl, hmarks⟩ := fieldWith?_eq_some h
  obtain ⟨behind, rfl⟩ := hleft
  have hrest : Matched (name :: marks) :=
    @Matched.append [name] marks (matched_identifier hidentifier) hmarks
  have htype : Matched f.type := matched_left hequal.matched hrest
  have hsource' := Sourced.left hsource
  have hfree' := (Free.parts hfree hequal.matched).1
  refine ⟨?_, hfilled, ⟨hsource'.left, (Free.parts hfree' htype).1, (Free.parts hequal htype).1⟩,
    ?_, fun value hvalue => ?_⟩
  · rw [hname]
    exact isName_of_isIdentifier hidentifier (@Sourced.left [name] _ hsource'.right)
  · exact sees_left (sees_left hat)
  · obtain ⟨hinside, hvalue'⟩ := hdefault value hvalue
    exact ⟨Argument.Sourced.within hsource hinside.isInfix, hvalue'⟩

lemma sound_of_addEntry {record : RecordType} {entry : Phrase} (hrecord : record.Sound)
    (hsource : Sourced entry) (hfree : Free ";" entry) (hat : sees "@" entry = false) :
    (addEntry record entry).Sound := by
  rw [addEntry_eq]
  cases hfield : fieldOf? entry with
  | some f =>
    refine ⟨fun g hg => ?_, hrecord.inclusions, hrecord.rest⟩
    rcases List.mem_append.mp hg with hg | hg
    · exact hrecord.fields g hg
    · obtain rfl := List.mem_singleton.mp hg
      exact sound_of_fieldOf? hfield hsource hfree hat
  | none =>
    refine ⟨hrecord.fields, hrecord.inclusions, fun p hp => ?_⟩
    obtain rfl := Option.some.inj hp
    exact ⟨hsource, hfree, hat, hfield⟩

lemma ReadsEntries.sound {close : String} {record read : RecordType} {ts rest : Phrase}
    (h : ReadsEntries close record ts read rest) (hsource : Sourced ts) (hrecord : record.Sound) :
    read.Sound := by
  induction h with
  | close _ => exact hrecord
  | @inclusion record read star semicolon ts entry left rest hstar hentry _ ih =>
    obtain ⟨heq, hfree, -⟩ := through_eq_ok_iff.mp hentry
    rw [heq] at hsource
    refine ih (@Sourced.right [semicolon] _ hsource.right) ⟨hrecord.fields, fun p hp => ?_,
      hrecord.rest⟩
    rcases List.mem_append.mp hp with hp | hp
    · exact hrecord.inclusions p hp
    · obtain rfl := List.mem_singleton.mp hp
      cases entry with
      | nil => exact ⟨@Sourced.left [] _ hsource.left, .nil ";"⟩
      | cons first entry =>
        obtain ⟨rfl, -⟩ := List.cons.inj heq
        exact ⟨@Sourced.right [star] _ hsource.left,
          (@Free.parts ";" [star] _ hfree (matched_mark hstar (by decide))).2⟩
  | @entry record read names semicolon ts after entry left rest hnames hentry _ ih =>
    obtain ⟨used, rfl, -, -, hat, -⟩ := annotations_spec hnames
    obtain ⟨rfl, hfree, -⟩ := through_eq_ok_iff.mp hentry
    refine ih (@Sourced.right [semicolon] _ hsource.right.right) ?_
    exact sound_of_addEntry hrecord hsource.right.left hfree (sees_left hat)

lemma sound_of_recordType {ts rest : Phrase} {r : RecordType}
    (h : recordType ts = .ok (r, rest)) (hsource : Sourced ts) : r.Sound := by
  obtain ⟨bracket, after, opening, close, rfl, -, -, closed, hentries⟩ := recordType_spec h
  exact hentries.sound (@Sourced.right [bracket] _ hsource) ⟨by simp, by simp, by simp⟩

lemma sound_of_typeDescriptor {ts rest : Phrase} {d : TypeDescriptor}
    (h : typeDescriptor ts = .ok (d, rest)) (hsource : Sourced ts) : d.Sound := by
  rcases typeDescriptor_spec h with ⟨word, after, record, rfl, -, hrecord, rfl⟩ |
    ⟨descriptor, hsees, hdescriptor, rfl⟩
  · exact sound_of_recordType hrecord (@Sourced.right [word] _ hsource)
  · obtain ⟨rfl, hfree, -⟩ := upTo_eq_ok_iff.mp hdescriptor
    exact ⟨hsource.left, hfree, sees_left hsees⟩

lemma sound_of_typeDefinition {start : Token} {words : List String} {ts rest : Phrase}
    {t : TypeDefinition} (h : typeDefinition start words ts = .ok (t, rest))
    (hsource : Sourced ts) : t.Sound := by
  obtain ⟨name, after, descriptor, semicolon, rfl, hidentifier, hdescriptor, -, rfl⟩ :=
    typeDefinition_spec h
  exact ⟨isName_of_isIdentifier hidentifier (@Sourced.left [name] _ hsource),
    sound_of_typeDescriptor hdescriptor (@Sourced.right [name] _ hsource)⟩

lemma sound_of_enumDefinition {start : Token} {words : List String} {ts rest : Phrase}
    {t : TypeDefinition} (h : enumDefinition start words ts = .ok (t, rest))
    (hsource : Sourced ts) : t.Sound := by
  obtain ⟨name, brace, inner, close, rfl, hidentifier, -, hfree, -, rfl⟩ := enumDefinition_spec h
  have hsourced : Sourced inner := (@Sourced.right [name, brace] _ hsource).left
  refine ⟨isName_of_isIdentifier hidentifier (@Sourced.left [name] _ hsource), fun p hp => ?_⟩
  obtain ⟨hmem, hne⟩ := List.mem_filter.mp hp
  obtain ⟨hcommas, hinside⟩ := segments_spec hfree.matched p hmem
  exact ⟨by simpa using hne, Argument.Sourced.within hsourced hinside, hcommas⟩

lemma sound_of_memberAfter {start : Token} {names words : List String} {ts rest : Phrase}
    {t : TypeDefinition} (h : memberAfter start names words ts = .ok (.typeDefinition t, rest))
    (hsource : Sourced ts) : t.Sound := by
  cases readsMember_of_memberAfter h with
  | @typeDefinition word _ _ _ _ ht =>
    exact sound_of_typeDefinition ht (@Sourced.right [word] _ hsource)
  | @enumDefinition word _ _ _ _ ht =>
    exact sound_of_enumDefinition ht (@Sourced.right [word] _ hsource)

/-- A type definition that was read from a source is sound. -/
lemma sound_of_member {start : Token} {ts rest : Phrase} {t : TypeDefinition}
    (h : member start ts = .ok (.typeDefinition t, rest)) (hsource : Sourced (start :: ts)) :
    t.Sound := by
  obtain ⟨names, words, after, hfront, hread⟩ := member_spec h
  obtain ⟨used, hused, -⟩ := passes_of_front hfront
  rw [hused] at hsource
  exact sound_of_memberAfter hread hsource.right

end Parser

/-! ### What an editor sees -/

lemma Phrase.text_unplaced (p : Phrase) : p.unplaced.text = p.text := by
  cases p with
  | nil => rfl
  | cons t ts =>
    have htail : tail (ts.map Token.unspanned) = tail ts := by
      rw [tail, tail, List.map_map]
      rfl
    rw [unplaced, text_cons, text_cons, htail]
    rfl

lemma Phrase.text_behind (gap : String) (p : Phrase) : (p.behind gap).text = p.text :=
  (copy_behind gap p).text.symm

lemma Phrase.text_behind_concat (gap : String) {p : Phrase} (hne : p ≠ []) (m : String) :
    (p.behind gap ++ [Token.mark "" m]).text = p.text ++ m := by
  obtain ⟨t, ts, rfl⟩ := List.exists_cons_of_ne_nil hne
  rw [behind, List.cons_append, text_cons, text_cons, tail_append, tail_mark, tail_nil,
    String.empty_append, String.append_empty, String.append_assoc]

namespace TypeData

/-- The data without the range of its definition. -/
def unranged (d : TypeData) : TypeData := { d with lineRange := none }

/-- The data with points behind its rest type. -/
def pointed (points : String) (d : TypeData) : TypeData :=
  { d with restType := d.restType.map (· ++ points) }

lemma unranged_unplaced (d d' : Document) (t : TypeDefinition) :
    (ofDefinition d' t.unplaced).unranged = (ofDefinition d t).unranged := by
  obtain ⟨isPublic, name, descriptor, span⟩ := t
  cases descriptor with
  | record r =>
    have hfields : (r.fields.map RecordField.unplaced).map TypeMember.ofField =
        r.fields.map TypeMember.ofField := by
      rw [List.map_map]
      refine List.map_congr_left fun f _ => ?_
      simp [TypeMember.ofField, RecordField.unplaced, Phrase.text_unplaced, Function.comp_def]
    simp [ofDefinition, TypeDefinition.unplaced, TypeDescriptor.unplaced, RecordType.unplaced,
      unranged, hfields, Phrase.text_unplaced, Function.comp_def]
  | enumeration members =>
    simp [ofDefinition, TypeDefinition.unplaced, TypeDescriptor.unplaced, unranged,
      Phrase.text_unplaced, Function.comp_def]
  | other descriptor =>
    simp [ofDefinition, TypeDefinition.unplaced, TypeDescriptor.unplaced, unranged,
      Phrase.text_unplaced]

/-- Definitions with one text look the same. -/
lemma unranged_congr (d d' : Document) {t t' : TypeDefinition} (h : t'.unplaced = t.unplaced) :
    (ofDefinition d' t').unranged = (ofDefinition d t).unranged := by
  rw [← unranged_unplaced d' d' t', h, unranged_unplaced d d' t]

lemma unranged_readBack (d : Document) {t : TypeDefinition} (hplain : t.descriptor.Plain) :
    (ofDefinition d t.readBack).unranged = ((ofDefinition d t).pointed "...").unranged := by
  obtain ⟨isPublic, name, descriptor, span⟩ := t
  cases descriptor with
  | record r =>
    have hfields : (r.fields.map RecordField.readBack).map TypeMember.ofField =
        r.fields.map TypeMember.ofField := by
      rw [List.map_map]
      refine List.map_congr_left fun f _ => ?_
      simp [TypeMember.ofField, RecordField.readBack, Phrase.text_behind, Function.comp_def]
    have hrest : r.readBack.rest.map Phrase.text = (r.rest.map Phrase.text).map (· ++ "...") := by
      rw [RecordType.readBack]
      cases hsome : r.rest with
      | none => rfl
      | some p =>
        obtain ⟨init, points, rfl, -⟩ := RecordType.Plain.points hplain hsome
        exact congrArg some (Phrase.text_behind_concat " " (by simp) "...")
    simp [ofDefinition, TypeDefinition.readBack, TypeDescriptor.readBack, unranged, pointed, hrest]
    simp [RecordType.readBack, hfields, Phrase.text_behind, Function.comp_def]
  | enumeration members =>
    simp [ofDefinition, TypeDefinition.readBack, TypeDescriptor.readBack, unranged, pointed,
      Phrase.text_behind, Function.comp_def]
  | other descriptor =>
    simp [ofDefinition, TypeDefinition.readBack, TypeDescriptor.readBack, unranged, pointed,
      Phrase.text_behind]

end TypeData

/-! ### Definitions of a document -/

namespace Document

variable {path : Path} {text : String} {d : Document} {t : TypeDefinition}

/-- The type definitions of a document are sound. -/
lemma sound_of_mem_definitions (hd : Document.parse path text = .ok d)
    (ht : t ∈ TypeData.definitions d) : t.Sound := by
  obtain ⟨tree, htree, rfl⟩ := Document.parse_eq_ok_iff.mp hd
  obtain ⟨m, hm, hdefinition⟩ := List.mem_filterMap.mp ht
  obtain rfl : m = .typeDefinition t := by
    cases m <;> simp [TypeData.definition?] at hdefinition
    rw [hdefinition]
  obtain ⟨ts, hts, hparts, -⟩ := Parser.parse_eq_ok_iff.mp htree
  obtain ⟨front, back, hmembers⟩ := List.append_of_mem hm
  obtain ⟨cs, last, -, hscanned, -⟩ := scanned_of_tokenize hts
  dsimp only at hmembers hparts
  rw [hmembers] at hparts
  obtain ⟨-, -, before, start, used, after, rfl, -, -, -, -, hread, -⟩ := hparts.split
  have hsource : Sourced (before ++ (start :: used ++ after)) := ⟨_, _, _, hscanned⟩
  refine sound_of_member hread ?_
  simpa using hsource.right

/-- The source of a definition is read as a module with a copy of it, but for the points. -/
lemma parse_source (h : t.Sound) (hplain : t.descriptor.Plain) (d : Document) (path : Path) :
    ∃ (d' : Document) (t' : TypeDefinition),
      Document.parse path (TypeData.ofDefinition d t).source = .ok d' ∧ d'.tree.imports = [] ∧
        d'.tree.members = [.typeDefinition t'] ∧ t'.unplaced = t.readBack.unplaced := by
  obtain ⟨us, hus, hcopy⟩ := tokenize_of_scans (TypeDefinition.scans_written h hplain)
  rw [TypeDefinition.tail_written d h hplain] at hus
  obtain ⟨t', hspells, hunplaced⟩ := TypeDefinition.spells_written h hplain
  obtain ⟨imports, members, hparts, himports, hmembers⟩ := hspells.copy hcopy rfl
  obtain rfl : imports = [] := List.map_eq_nil_iff.mp himports
  obtain ⟨m, rfl, hm⟩ := List.map_eq_singleton_iff.mp hmembers
  obtain ⟨t'', rfl, ht''⟩ : ∃ t'', m = .typeDefinition t'' ∧ t''.unplaced = t'.unplaced := by
    cases m <;> simp [Member.unplaced] at hm
    exact ⟨_, rfl, hm⟩
  have hread : Parser.parse (TypeData.ofDefinition d t).source = .ok ⟨[], [.typeDefinition t''],
      ⟨.origin, Place.origin.advance (TypeData.ofDefinition d t).source.toList⟩⟩ :=
    Parser.parse_eq_ok_iff.mpr ⟨us, hus, hparts, rfl⟩
  exact ⟨_, t'', Document.parse_eq_ok_iff.mpr ⟨_, hread, rfl⟩, rfl, rfl, ht''.trans hunplaced⟩

end Document

/-! ### Plain definitions stay plain -/

lemma RecordType.Plain.copy {r r' : RecordType} (h : r.Plain) (hcopy : r'.unplaced = r.unplaced) :
    r'.Plain := by
  obtain ⟨-, hfields, hinclusions, hrest⟩ := RecordType.mk.inj hcopy
  refine ⟨fun f' hf' => ?_, fun p' hp' => ?_, fun p' hp' => ?_⟩
  · have hmem := List.mem_map_of_mem (f := RecordField.unplaced) hf'
    rw [hfields] at hmem
    obtain ⟨f, hf, heq⟩ := List.mem_map.mp hmem
    have htype : f.type.Copy f'.type := congrArg RecordField.type heq
    rw [← htype.alike.sees]
    exact h.fields f hf
  · have hmem := List.mem_map_of_mem (f := Phrase.unplaced) hp'
    rw [hinclusions] at hmem
    obtain ⟨p, hp, heq⟩ := List.mem_map.mp hmem
    have hlexemes := Phrase.alike_iff.mp (Phrase.Copy.alike heq)
    rw [IsReference, ← hlexemes]
    exact h.inclusions p hp
  · rw [hp', Option.map_some, eq_comm, Option.map_eq_some_iff] at hrest
    obtain ⟨p, hp, heq⟩ := hrest
    have hcopies : p.Copy p' := heq
    have hstar := (h.rest p hp).1
    obtain ⟨init, points, rfl, hpoints⟩ := h.points hp
    obtain ⟨init', points', rfl, -, hsame⟩ := hcopies.concat_left
    rw [← hcopies.alike.sees, List.getLast?_concat]
    exact ⟨hstar, (hsame.is "...").symm.trans hpoints⟩

lemma RecordType.Plain.readBack {r : RecordType} (h : r.Plain) : r.readBack.Plain := by
  refine ⟨fun f' hf' => ?_, fun p' hp' => ?_, fun p' hp' => ?_⟩
  · obtain ⟨f, hf, rfl⟩ := List.mem_map.mp hf'
    exact (Phrase.sees_behind "*" " " f.type).trans (h.fields f hf)
  · obtain ⟨p, hp, rfl⟩ := List.mem_map.mp hp'
    rw [IsReference, ← Phrase.alike_iff.mp (Phrase.copy_behind "" p).alike]
    exact h.inclusions p hp
  · obtain ⟨p, hp, rfl⟩ := Option.map_eq_some_iff.mp hp'
    have hstar := (h.rest p hp).1
    obtain ⟨init, points, rfl, -⟩ := h.points hp
    have hne := (Phrase.copy_behind " " (init ++ [points])).ne_nil (by simp)
    rw [sees_append hne, Phrase.sees_behind, List.getLast?_concat]
    exact ⟨hstar, rfl⟩

lemma TypeDefinition.plain_of_readBack {t t' : TypeDefinition} (h : t.descriptor.Plain)
    (hread : t'.unplaced = t.readBack.unplaced) : t'.descriptor.Plain := by
  have hdescriptor : t'.descriptor.unplaced = t.descriptor.readBack.unplaced :=
    congrArg TypeDefinition.descriptor hread
  cases ht' : t'.descriptor with
  | record r' =>
    rw [ht'] at hdescriptor
    cases ht : t.descriptor with
    | record r =>
      rw [ht] at h hdescriptor
      exact (RecordType.Plain.readBack h).copy (TypeDescriptor.record.inj hdescriptor)
    | enumeration members => rw [ht] at hdescriptor; cases hdescriptor
    | other descriptor => rw [ht] at hdescriptor; cases hdescriptor
  | enumeration members => trivial
  | other descriptor => trivial

/-! ### Rounds of reading and writing -/

namespace TypeData

variable {path : Path} {text : String} {d : Document} {t : TypeDefinition}

lemma list_of_members (h : d.tree.members = [.typeDefinition t]) : list d = [ofDefinition d t] := by
  rw [list, definitions, h]
  rfl

/-- A type definition of a document is written as text that is read as one member, in which an
editor sees the same type. Its record has no rest descriptor, includes nothing but references, and
the type of no field starts with a star, as one can behind an annotation only. -/
theorem source_restores_definition (hd : Document.parse path text = .ok d)
    (ht : t ∈ definitions d) (hplain : t.descriptor.Plain)
    (hrest : (ofDefinition d t).restType = none) (path' : Path) :
    ∃ d', Document.parse path' (ofDefinition d t).source = .ok d' ∧ d'.tree.imports = [] ∧
      d'.tree.members.length = 1 ∧ (list d').map unranged = [(ofDefinition d t).unranged] := by
  obtain ⟨d', t', hparse, himports, hmembers, hunplaced⟩ :=
    Document.parse_source (Document.sound_of_mem_definitions hd ht) hplain d path'
  have hpointed : (ofDefinition d t).pointed "..." = ofDefinition d t := by
    rw [pointed, hrest, Option.map_none, ← hrest]
  refine ⟨d', hparse, himports, by rw [hmembers]; rfl, ?_⟩
  rw [list_of_members hmembers, List.map_singleton, unranged_congr d d' hunplaced,
    unranged_readBack d hplain, hpointed]

def nestedSource : String :=
  "type R record \x7b*m:B; map< // k\nint> x?; " ++
    "record \x7bint p = f(1, a = 2);\x7d y = [1, 2];\x7d;"

/-- An inclusion, a comment inside a type, an optional field, a nested record and a default. -/
theorem source_restores_definition_nested :
    ∃ d, Document.parse ⟨"main.bal"⟩ nestedSource = .ok d ∧
      ∃ t ∈ definitions d, t.descriptor.Plain ∧ (ofDefinition d t).restType = none ∧
        ∃ d', Document.parse ⟨"copy.bal"⟩ (ofDefinition d t).source = .ok d' ∧
          (list d').map unranged = [(ofDefinition d t).unranged] := by
  have hcheck : (Document.parse ⟨"main.bal"⟩ nestedSource).toOption.any fun d =>
      (definitions d).any fun t => t.descriptor.Plain ∧ (ofDefinition d t).restType = none := by
    decide +kernel
  obtain ⟨d, hd, hany⟩ := exists_ok_of_any hcheck
  obtain ⟨t, ht, hplain⟩ := List.any_eq_true.mp hany
  obtain ⟨hplain, hrest⟩ := of_decide_eq_true hplain
  obtain ⟨d', hd', -, -, hlist⟩ := source_restores_definition hd ht hplain hrest ⟨"copy.bal"⟩
  exact ⟨d, hd, t, ht, hplain, hrest, d', hd', hlist⟩

/-- The type that is read from the source of a type, as the only one of a file. -/
def reread (path : Path) (data : TypeData) : Option TypeData :=
  match Document.parse path data.source with
  | .ok d => (list d).head?
  | .error _ => none

/-- The type after rounds of writing and reading. -/
def rounds (path : Path) : Nat → TypeData → Option TypeData
  | 0, data => some data
  | n + 1, data => (reread path data).bind (rounds path n)

/-- The points that rounds of writing and reading put behind a rest type. -/
def points (n : Nat) : String := String.join (List.replicate n "...")

lemma points_succ (n : Nat) : points (n + 1) = "..." ++ points n := by
  rw [points, List.replicate_succ, String.join_cons, points]

lemma points_eq_empty {n : Nat} (h : points n = "") : n = 0 := by
  cases n with
  | zero => rfl
  | succ n =>
    have hlist := congrArg String.toList h
    simp [points_succ] at hlist

/-- Every round puts three points behind the rest type and changes nothing else. -/
lemma exists_rounds (hsound : t.Sound) (hplain : t.descriptor.Plain) (d : Document)
    (path : Path) (n : Nat) :
    ∃ data, rounds path n (ofDefinition d t) = some data ∧
      data.unranged = (ofDefinition d t).unranged.pointed (points n) := by
  induction n generalizing d t with
  | zero =>
    have hnone : (ofDefinition d t).unranged.pointed (points 0) = (ofDefinition d t).unranged := by
      simp [pointed, points]
    exact ⟨_, rfl, hnone.symm⟩
  | succ n ih =>
    obtain ⟨d', t', hparse, -, hmembers, hunplaced⟩ := Document.parse_source hsound hplain d path
    have hlist := list_of_members hmembers
    have hmem : t' ∈ definitions d' := by
      rw [definitions, hmembers]
      exact List.mem_singleton_self t'
    have hplain' := TypeDefinition.plain_of_readBack hplain hunplaced
    obtain ⟨data, hdata, hpointed⟩ := ih (Document.sound_of_mem_definitions hparse hmem) hplain' d'
    refine ⟨data, ?_, ?_⟩
    · rw [rounds, reread, hparse]
      simp only [hlist, List.head?_cons, Option.bind_some, hdata]
    · have hstep : (ofDefinition d' t').unranged = (ofDefinition d t).unranged.pointed "..." := by
        rw [unranged_congr d d' hunplaced, unranged_readBack d hplain]
        rfl
      rw [hpointed, hstep, points_succ]
      simp [pointed, Function.comp_def, String.append_assoc]

/-- Writing and reading a type `n` times puts `n` times three points behind its rest type, which is
the same again only when there was no round. All else stays the same. -/
theorem restType_rounds (hd : Document.parse path text = .ok d) (ht : t ∈ definitions d)
    (hplain : t.descriptor.Plain) {rest : String} (hrest : (ofDefinition d t).restType = some rest)
    (n : Nat) :
    ∃ data, rounds path n (ofDefinition d t) = some data ∧
      data.restType = some (rest ++ points n) ∧ (data.restType = some rest ↔ n = 0) ∧
      data.unranged = { (ofDefinition d t).unranged with restType := some (rest ++ points n) } := by
  obtain ⟨data, hdata, hpointed⟩ :=
    exists_rounds (Document.sound_of_mem_definitions hd ht) hplain d path n
  have hrest' : data.restType = some (rest ++ points n) := by
    have hown : data.restType = data.unranged.restType := rfl
    rw [hown, hpointed]
    simp [pointed, unranged, hrest]
  refine ⟨data, hdata, hrest', ⟨fun h => ?_, ?_⟩, ?_⟩
  · rw [hrest', Option.some.injEq, ← String.toList_inj, String.toList_append] at h
    exact points_eq_empty (String.toList_inj.mp (by simpa using h))
  · rintro rfl
    simpa [points] using hrest'
  · rw [hpointed, pointed]
    simp [unranged, hrest]

/-- Two rounds over a record whose other fields are integers. -/
theorem restType_rounds_int :
    ∃ d, Document.parse ⟨"main.bal"⟩ "type R record \x7b| int...; |\x7d;" = .ok d ∧
      ∃ t ∈ definitions d, t.descriptor.Plain ∧ (ofDefinition d t).restType = some "int..." ∧
        ∃ data, rounds ⟨"main.bal"⟩ 2 (ofDefinition d t) = some data ∧
          data.restType = some "int........." := by
  have hcheck : (Document.parse ⟨"main.bal"⟩ "type R record \x7b| int...; |\x7d;").toOption.any
      fun d => (definitions d).any fun t =>
        t.descriptor.Plain ∧ (ofDefinition d t).restType = some "int..." := by
    decide +kernel
  obtain ⟨d, hd, hany⟩ := exists_ok_of_any hcheck
  obtain ⟨t, ht, hplain⟩ := List.any_eq_true.mp hany
  obtain ⟨hplain, hrest⟩ := of_decide_eq_true hplain
  obtain ⟨data, hdata, hrounds, -⟩ := restType_rounds hd ht hplain hrest 2
  exact ⟨d, hd, t, ht, hplain, hrest, data, hdata, hrounds⟩

end TypeData

end FlowCanvas
