import FlowCanvas.Proofs.Arguments
import FlowCanvas.Proofs.JsonRecords

/-!
# Nodes in JSON

A node that was read from JSON is read again from what is written for it. Reading a node leaves
nothing in it that could not be written: positions fit 32 bits, and values are canonical. Each
member that is left out is read as the value it was left out for.
-/

namespace FlowCanvas

open Json

/-! ### What reading leaves in a node -/

namespace Position

/-- A position that fits 32 bits. -/
def Sound (p : Position) : Prop := p.line < UInt32.size ∧ p.column < UInt32.size

end Position

namespace LineRange

/-- A stretch whose ends fit 32 bits. -/
def Sound (r : LineRange) : Prop := r.start.Sound ∧ r.stop.Sound

end LineRange

namespace Property

/-- The current value and the default. -/
def values (p : Property) : List Json := p.value :: p.defaultValue.toList

/-- A property with canonical values, and with a default other than `null` if it has one. -/
structure Sound (p : Property) : Prop where
  values : ∀ v ∈ p.values, Every (fun v => Fits v ∧ Ordered v) v
  default : p.defaultValue ≠ some .null

end Property

namespace PropertyBag

/-- A bag of sound properties. -/
def Sound (b : PropertyBag) : Prop := ∀ p ∈ b.entries, p.Sound

end PropertyBag

namespace FlowNode

/-- The properties of a node and those of its branches. -/
def bags (n : FlowNode) : List PropertyBag := n.properties :: n.branches.map (·.properties)

/-- A node and all nodes in its branches, at any depth, have a property. -/
inductive Every (p : FlowNode → Prop) : FlowNode → Prop
  | mk {n : FlowNode} (h : p n) (hchildren : ∀ b ∈ n.branches, ∀ c ∈ b.children, Every p c) :
    Every p n

/-- A node whose place fits 32 bits and whose bags are sound. -/
structure Sound (n : FlowNode) : Prop where
  place : ∀ r ∈ n.codedata.lineRange, r.Sound
  bags : ∀ b ∈ n.bags, b.Sound

/-- No value and no default of a property is a double or has one inside. -/
def HasNoDouble (n : FlowNode) : Prop :=
  ∀ b ∈ n.bags, ∀ p ∈ b.entries, ∀ v ∈ p.values, Json.Every NotDouble v

end FlowNode

/-! ### Words and numbers -/

lemma asWordOf?_word (k : NodeKind) : asWordOf? NodeKind.ofWord? (.string k.word) = some k := by
  cases k <;> decide

lemma asString?_string (s : String) : asString? (.string s) = some s := rfl

lemma asBool?_bool (b : Bool) : asBool? (.bool b) = some b := rfl

/-- A flag as a member. One that does not hold is left out. -/
def flagField (value : Bool) : Option Json := if value then some (.bool true) else none

lemma flag?_eq (name : String) (value : Bool) :
    flag? name value = member? name (flagField value) := by
  cases value <;> rfl

lemma orElse_flag (value : Bool) : orElse false asBool? (flagField value) = some value := by
  cases value <;> rfl

lemma asWordOf?_valueType (t : ValueType) :
    asWordOf? ValueType.ofWord? (.string t.word) = some t := by
  cases t <;> decide

lemma asWord?_ofNat {n : ℕ} (h : n < UInt32.size) : asWord? (.ofNat n) = some n := by
  rw [ofNat, asWord?, if_pos ⟨by omega, by exact_mod_cast h⟩, Int.toNat_natCast]

lemma lt_of_asWord? {j : Json} {n : ℕ} (h : asWord? j = some n) : n < UInt32.size := by
  cases j with
  | integer i =>
    rw [asWord?] at h
    split_ifs at h with hi
    obtain rfl := Option.some.inj h
    omega
  | _ => simp [asWord?] at h

lemma exact_string (s : String) : Exact (.string s) :=
  Json.Every.leaf ⟨⟨trivial, trivial⟩, trivial⟩ rfl

lemma exact_bool (b : Bool) : Exact (.bool b) :=
  Json.Every.leaf ⟨⟨trivial, trivial⟩, trivial⟩ rfl

lemma exact_ofNat {n : ℕ} (h : n < UInt32.size) : Exact (.ofNat n) := by
  refine Json.Every.leaf ⟨⟨⟨?_, ?_⟩, trivial⟩, trivial⟩ rfl
  · omega
  · exact_mod_cast h.trans (by decide)

lemma exact_array {items : List Json} (h : ∀ j ∈ items, Exact j) : Exact (.array items) :=
  .mk ⟨⟨trivial, trivial⟩, trivial⟩ h

lemma exact_ofFields {fields : List (String × Option Json)}
    (h : ∀ f ∈ fields, ∀ j ∈ f.2, Exact j) : Exact (.object (ofFields fields)) := by
  refine .mk ⟨⟨trivial, trivial⟩, trivial⟩ fun j hj => ?_
  obtain ⟨name, hf⟩ := mem_parts_ofFields.mp hj
  exact h _ hf j rfl

/-- A text that may be left out. -/
lemma exact_text {value : Option String} : ∀ j ∈ value.map Json.string, Exact j := by
  intro j hj
  obtain ⟨s, -, rfl⟩ := Option.map_eq_some_iff.mp hj
  exact exact_string s

lemma exact_some {j : Json} (h : Exact j) : ∀ k ∈ some j, Exact k := by
  rintro k ⟨⟩
  exact h

lemma exact_ite {j : Json} {p : Prop} [Decidable p] (h : Exact j) :
    ∀ k ∈ (if p then none else some j), Exact k := by
  split_ifs
  · simp
  · exact exact_some h

lemma exact_flag (value : Bool) : ∀ j ∈ flagField value, Exact j := by
  cases value with
  | false => simp [flagField]
  | true => exact exact_some (exact_bool true)

/-! ### Records without branches -/

namespace Position

def fields (p : Position) : List (String × Option Json) :=
  [("line", some (.ofNat p.line)), ("offset", some (.ofNat p.column))]

lemma toJson_eq (p : Position) : p.toJson = .object (ofFields p.fields) := rfl

lemma ofJson?_toJson {p : Position} (h : p.Sound) : ofJson? p.toJson = some p := by
  have hrecord : p.toJson.record? ["line", "offset"] =
      some [some (.ofNat p.line), some (.ofNat p.column)] := by
    rw [toJson_eq]
    exact record?_ofFields p.fields (show ["line", "offset"].Nodup by decide)
  simp only [ofJson?, hrecord, required_some (asWord?_ofNat h.1), required_some (asWord?_ofNat h.2),
    Option.bind_eq_bind, Option.bind_some, Option.pure_def]

lemma exact_toJson {p : Position} (h : p.Sound) : Exact p.toJson := by
  rw [toJson_eq]
  refine exact_ofFields ?_
  simp [fields, exact_ofNat h.1, exact_ofNat h.2]

lemma sound_of_ofJson? {j : Json} {p : Position} (h : ofJson? j = some p) : p.Sound := by
  rw [ofJson?] at h
  split at h
  · simp only [Option.bind_eq_bind, Option.bind_eq_some_iff, Option.pure_def,
      Option.some.injEq] at h
    obtain ⟨line, hline, column, hcolumn, rfl⟩ := h
    obtain ⟨_, _, hline'⟩ := of_required hline
    obtain ⟨_, _, hcolumn'⟩ := of_required hcolumn
    exact ⟨lt_of_asWord? hline', lt_of_asWord? hcolumn'⟩
  · simp at h

end Position

namespace LineRange

def fields (r : LineRange) : List (String × Option Json) :=
  [("fileName", some (.string r.fileName)), ("startLine", some r.start.toJson),
    ("endLine", some r.stop.toJson)]

lemma toJson_eq (r : LineRange) : r.toJson = .object (ofFields r.fields) := rfl

lemma ofJson?_toJson {r : LineRange} (h : r.Sound) : ofJson? r.toJson = some r := by
  have hrecord : r.toJson.record? ["fileName", "startLine", "endLine"] =
      some [some (.string r.fileName), some r.start.toJson, some r.stop.toJson] := by
    rw [toJson_eq]
    exact record?_ofFields r.fields
      (show ["fileName", "startLine", "endLine"].Nodup by decide)
  simp only [ofJson?, hrecord, required_some (asString?_string _),
    required_some (Position.ofJson?_toJson h.1), required_some (Position.ofJson?_toJson h.2),
    Option.bind_eq_bind, Option.bind_some, Option.pure_def]

lemma exact_toJson {r : LineRange} (h : r.Sound) : Exact r.toJson := by
  rw [toJson_eq]
  refine exact_ofFields ?_
  simp [fields, exact_string, Position.exact_toJson h.1, Position.exact_toJson h.2]

lemma sound_of_ofJson? {j : Json} {r : LineRange} (h : ofJson? j = some r) : r.Sound := by
  rw [ofJson?] at h
  split at h
  · simp only [Option.bind_eq_bind, Option.bind_eq_some_iff, Option.pure_def,
      Option.some.injEq] at h
    obtain ⟨-, -, start, hstart, stop, hstop, rfl⟩ := h
    obtain ⟨_, _, hstart'⟩ := of_required hstart
    obtain ⟨_, _, hstop'⟩ := of_required hstop
    exact ⟨Position.sound_of_ofJson? hstart', Position.sound_of_ofJson? hstop'⟩
  · simp at h

end LineRange

/-- A description as a member. The empty one is left out. -/
def descriptionField (text : String) : Option Json :=
  (if text.isEmpty then none else some text).map .string

lemma orElse_description (text : String) :
    orElse "" asString? (descriptionField text) = some text := by
  rw [descriptionField]
  split_ifs with h
  · rw [String.isEmpty_iff.mp h]
    rfl
  · rfl

namespace Metadata

def fields (m : Metadata) : List (String × Option Json) :=
  [("label", some (.string m.label)), ("description", descriptionField m.description)]

lemma toJson_eq (m : Metadata) : m.toJson = .object (ofFields m.fields) := by
  simp [toJson, text?, fields, ofFields, descriptionField, member?]

lemma ofJson?_toJson (m : Metadata) : ofJson? m.toJson = some m := by
  have hrecord : m.toJson.record? ["label", "description"] =
      some [some (.string m.label), descriptionField m.description] := by
    rw [toJson_eq]
    exact record?_ofFields m.fields (show ["label", "description"].Nodup by decide)
  simp only [ofJson?, hrecord, orElse_some (asString?_string _), orElse_description,
    Option.bind_eq_bind, Option.bind_some, Option.pure_def]

lemma exact_toJson (m : Metadata) : Exact m.toJson := by
  rw [toJson_eq]
  refine exact_ofFields ?_
  simp only [fields, List.forall_mem_cons, List.not_mem_nil, false_imp_iff, implies_true, and_true]
  exact ⟨exact_some (exact_string _), exact_text⟩

end Metadata

namespace Codedata

def fields (c : Codedata) : List (String × Option Json) :=
  [("node", some (.string c.node.word)), ("org", c.org.map .string),
    ("module", c.moduleName.map .string), ("modulePrefix", c.moduleQualifier.map .string),
    ("object", c.object.map .string), ("symbol", c.symbol.map .string),
    ("parentSymbol", c.parentSymbol.map .string), ("lineRange", c.lineRange.map LineRange.toJson),
    ("sourceCode", c.sourceCode.map .string), ("isNew", flagField c.isNew),
    ("inDisplayAnnotation", flagField c.inDisplayAnnotation)]

lemma toJson_eq (c : Codedata) : c.toJson = .object (ofFields c.fields) := by
  simp only [toJson, text?, fields, ofFields, flag?_eq, List.flatMap_cons, List.flatMap_nil,
    List.append_nil, List.append_assoc]
  rfl

lemma ofJson?_toJson {c : Codedata} (h : ∀ r ∈ c.lineRange, r.Sound) :
    ofJson? c.toJson = some c := by
  have hrecord : c.toJson.record? ["node", "org", "module", "modulePrefix", "object", "symbol",
      "parentSymbol", "lineRange", "sourceCode", "isNew", "inDisplayAnnotation"] =
      some [some (.string c.node.word), c.org.map .string, c.moduleName.map .string,
        c.moduleQualifier.map .string, c.object.map .string, c.symbol.map .string,
        c.parentSymbol.map .string, c.lineRange.map LineRange.toJson, c.sourceCode.map .string,
        flagField c.isNew, flagField c.inDisplayAnnotation] := by
    rw [toJson_eq]
    exact record?_ofFields c.fields (show ["node", "org", "module", "modulePrefix",
      "object", "symbol", "parentSymbol", "lineRange", "sourceCode", "isNew",
      "inDisplayAnnotation"].Nodup by decide)
  have hrange : optional LineRange.ofJson? (c.lineRange.map LineRange.toJson) = some c.lineRange :=
    optional_map fun r hr => ⟨LineRange.ofJson?_toJson (h r hr), by simp [LineRange.toJson]⟩
  simp only [ofJson?, hrecord, required_some (asWordOf?_word _), optional_text, hrange, orElse_flag,
    Option.bind_eq_bind, Option.bind_some, Option.pure_def]

lemma exact_toJson {c : Codedata} (h : ∀ r ∈ c.lineRange, r.Sound) : Exact c.toJson := by
  rw [toJson_eq]
  refine exact_ofFields ?_
  have hrange : ∀ j ∈ c.lineRange.map LineRange.toJson, Exact j := by
    intro j hj
    obtain ⟨r, hr, rfl⟩ := Option.map_eq_some_iff.mp hj
    exact LineRange.exact_toJson (h r hr)
  simp only [fields, List.forall_mem_cons, List.not_mem_nil, false_imp_iff, implies_true, and_true]
  exact ⟨exact_some (exact_string _), exact_text, exact_text, exact_text, exact_text, exact_text,
    exact_text, hrange, exact_text, exact_flag _, exact_flag _⟩

lemma sound_of_ofJson? {j : Json} {c : Codedata} (h : ofJson? j = some c) :
    ∀ r ∈ c.lineRange, r.Sound := by
  intro r hr
  rw [ofJson?] at h
  split at h
  · iterate 7 obtain ⟨_, _, h⟩ := Option.bind_eq_some_iff.mp h
    obtain ⟨range, hrange, h⟩ := Option.bind_eq_some_iff.mp h
    iterate 3 obtain ⟨_, _, h⟩ := Option.bind_eq_some_iff.mp h
    obtain rfl := Option.some.inj h
    obtain ⟨_, _, _, hread⟩ := of_optional hrange hr
    exact LineRange.sound_of_ofJson? hread
  · simp at h

end Codedata

/-! ### Properties -/

namespace Property

def fields (p : Property) : List (String × Option Json) :=
  [("displayLabel", some (.string p.label)), ("description", descriptionField p.description),
    ("valueType", some (.string p.valueType.word)), ("value", some p.value),
    ("optional", some (.bool p.optional)), ("editable", some (.bool p.editable)),
    ("defaultValue", p.defaultValue)]

lemma toJson_eq (p : Property) : p.toJson = .object (ofFields p.fields) := by
  simp only [toJson, text?, fields, ofFields, descriptionField, List.flatMap_cons, List.flatMap_nil,
    List.append_nil, List.append_assoc]
  rfl

lemma default_mem_values {p : Property} {v : Json} (h : p.defaultValue = some v) : v ∈ p.values :=
  List.mem_cons_of_mem _ (Option.mem_toList.mpr h)

/-- The default of a property is read back when it is canonical and not `null`. -/
lemma optional_default {p : Property} (h : p.Sound) :
    Json.optional canonical? p.defaultValue = some p.defaultValue := by
  have hread : Json.optional canonical? (p.defaultValue.map id) = some p.defaultValue :=
    optional_map fun v hv =>
      ⟨canonical?_of_ordered ((h.values v (default_mem_values hv)).imp fun _ h => h.2),
        fun hnull => h.default (hnull ▸ hv)⟩
  rwa [Option.map_id] at hread

lemma ofJson?_toJson {p : Property} (h : p.Sound) : ofJson? p.key p.toJson = some p := by
  have hrecord : p.toJson.record? ["displayLabel", "description", "valueType", "value", "optional",
      "editable", "defaultValue"] =
      some [some (.string p.label), descriptionField p.description, some (.string p.valueType.word),
        some p.value, some (.bool p.optional), some (.bool p.editable), p.defaultValue] := by
    rw [toJson_eq]
    exact record?_ofFields p.fields (show ["displayLabel", "description", "valueType",
      "value", "optional", "editable", "defaultValue"].Nodup by decide)
  have hvalue : canonical? p.value = some p.value :=
    canonical?_of_ordered ((h.values p.value List.mem_cons_self).imp fun _ h => h.2)
  simp only [ofJson?, hrecord, orElse_some (asString?_string _), orElse_description,
    required_some (asWordOf?_valueType _), orElse_some hvalue, orElse_some (asBool?_bool _),
    optional_default h, Option.bind_eq_bind, Option.bind_some, Option.pure_def]

lemma exact_toJson {p : Property} (h : p.Sound) (hdouble : ∀ v ∈ p.values, Every NotDouble v) :
    Exact p.toJson := by
  have hvalues : ∀ v ∈ p.values, Exact v := fun v hv =>
    ((h.values v hv).and (hdouble v hv)).imp fun v hv =>
      ⟨⟨hv.1.1, hv.2⟩, by cases v <;> first | trivial | exact absurd hv.1.2 not_false⟩
  rw [toJson_eq]
  refine exact_ofFields ?_
  simp only [fields, List.forall_mem_cons, List.not_mem_nil, false_imp_iff, implies_true, and_true]
  exact ⟨exact_some (exact_string _), exact_text, exact_some (exact_string _),
    exact_some (hvalues _ List.mem_cons_self), exact_some (exact_bool _), exact_some (exact_bool _),
    fun v hv => hvalues v (default_mem_values hv)⟩

lemma sound_of_ofJson? {key : String} {j : Json} {p : Property} (hfits : Every Fits j)
    (h : ofJson? key j = some p) : p.Sound := by
  rw [ofJson?] at h
  split at h
  · rename_i hrecord
    simp only [Option.bind_eq_bind, Option.bind_eq_some_iff, Option.pure_def,
      Option.some.injEq] at h
    obtain ⟨_, _, _, _, _, _, value, hvalue, _, _, _, _, default, hdefault, rfl⟩ := h
    have hcanonical {k : Json} {v : Json} (hk : k ∈ j.parts) (hv : canonical? k = some v) :
        Every (fun v => Fits v ∧ Ordered v) v :=
      ordered_of_canonical? (hfits.part hk) hv
    refine ⟨fun v hv => ?_, fun hnull => ?_⟩
    · rcases List.mem_cons.mp hv with rfl | hv
      · rcases of_orElse hvalue with hnull | ⟨k, rfl, hread⟩
        · rw [hnull]
          exact .mk ⟨trivial, trivial⟩ (by simp [parts])
        · exact hcanonical (mem_parts_of_record? hrecord (by simp)) hread
      · obtain ⟨k, rfl, -, hread⟩ := of_optional hdefault (Option.mem_toList.mp hv)
        exact hcanonical (mem_parts_of_record? hrecord (by simp)) hread
    · obtain ⟨k, -, hk, hread⟩ := of_optional hdefault hnull
      exact hk (eq_null_of_canonical? hread)
  · simp at h

end Property

namespace PropertyBag

/-- The members of a bag are read behind those that are there. -/
lemma ofMembers?_toJson {b whole : PropertyBag} {ps : List Property}
    (hwhole : whole.entries = b.entries ++ ps) (hsound : ∀ p ∈ ps, p.Sound) :
    b.ofMembers? (ps.map fun p => (p.key, p.toJson)) = some whole := by
  induction ps generalizing b with
  | nil => rw [List.map_nil, ofMembers?, PropertyBag.ext (hwhole.trans (List.append_nil _))]
  | cons p ps ih =>
    have hkeys : (b.keys ++ (p :: ps).map (·.key)).Nodup := by
      simpa [hwhole, keys] using whole.nodup
    have hnew : ¬b.contains p.key := fun hthere =>
      (List.nodup_append.mp hkeys).2.2 _ (mem_keys_iff.mpr hthere) p.key List.mem_cons_self rfl
    rw [List.map_cons, ofMembers?, Property.ofJson?_toJson (hsound p List.mem_cons_self),
      Option.bind_eq_bind, Option.bind_some, dif_neg hnew]
    exact ih (by simpa [push] using hwhole) fun q hq => hsound q (List.mem_cons_of_mem p hq)

lemma ofJson?_toJson {b : PropertyBag} (h : b.Sound) : ofJson? b.toJson = some b :=
  ofMembers?_toJson (b := empty) rfl h

lemma exact_toJson {b : PropertyBag} (h : b.Sound)
    (hdouble : ∀ p ∈ b.entries, ∀ v ∈ p.values, Every NotDouble v) : Exact b.toJson := by
  refine .mk ⟨⟨trivial, trivial⟩, trivial⟩ fun j hj => ?_
  obtain ⟨m, hm, rfl⟩ := List.mem_map.mp hj
  obtain ⟨p, hp, rfl⟩ := List.mem_map.mp hm
  exact Property.exact_toJson (h p hp) (hdouble p hp)

/-- The properties that the members of an object are read as, each with the name of its member as
its key. -/
def propertiesOf (members : List (String × Json)) : List Property :=
  members.filterMap fun m => Property.ofJson? m.1 m.2

/-- Members are read one behind the other. -/
lemma entries_ofMembers? {b b' : PropertyBag} {members : List (String × Json)}
    (h : b.ofMembers? members = some b') : b'.entries = b.entries ++ propertiesOf members := by
  induction members generalizing b with
  | nil =>
    obtain rfl := Option.some.inj h
    exact (List.append_nil _).symm
  | cons m members ih =>
    simp only [ofMembers?, Option.bind_eq_bind, Option.bind_eq_some_iff] at h
    obtain ⟨p, hp, h⟩ := h
    split_ifs at h with hnew
    have hfirst : propertiesOf (m :: members) = p :: propertiesOf members :=
      List.filterMap_cons_some (f := fun m : String × Json => Property.ofJson? m.1 m.2) hp
    rw [ih h, hfirst, push, List.append_assoc, List.singleton_append]

lemma sound_of_ofMembers? {b b' : PropertyBag} {members : List (String × Json)} (hb : b.Sound)
    (hfits : ∀ m ∈ members, Every Fits m.2) (h : b.ofMembers? members = some b') : b'.Sound := by
  intro p hp
  rw [entries_ofMembers? h] at hp
  rcases List.mem_append.mp hp with hp | hp
  · exact hb p hp
  · obtain ⟨m, hm, hread⟩ := List.mem_filterMap.mp hp
    exact Property.sound_of_ofJson? (hfits m hm) hread

lemma eq_empty_of_isEmpty {b : PropertyBag} (h : b.isEmpty) : b = empty :=
  PropertyBag.ext (List.isEmpty_iff.mp h)

lemma sound_empty : empty.Sound := fun _ hp => absurd hp List.not_mem_nil

lemma sound_of_ofJson? {j : Json} {b : PropertyBag} (hfits : Every Fits j)
    (h : ofJson? j = some b) : b.Sound := by
  cases j with
  | object members =>
    exact sound_of_ofMembers? sound_empty (fun m hm => hfits.part (List.mem_map_of_mem hm)) h
  | _ => simp [ofJson?, asObject?] at h

end PropertyBag

/-! ### Nodes -/

lemma Flags.ofJson?_toJson (f : Flags) : Flags.ofJson? f.toJson = some f := by
  have hbits : asWord? f.toJson = some f.bits.toNat := asWord?_ofNat f.bits.toNat_lt
  rw [Flags.ofJson?, hbits, Option.map_some, UInt32.ofNat_toNat]

namespace FlowNode

def fields (n : FlowNode) : List (String × Option Json) :=
  [("id", n.id.map .string), ("kind", some (.string n.kind.word)),
    ("metadata", some n.metadata.toJson), ("codedata", some n.codedata.toJson),
    ("properties", some n.properties.toJson),
    ("branches", if n.branches = [] then none else some (.array (n.branches.map branchToJson))),
    ("flags", some n.flags.toJson)]

def branchFields (b : Branch FlowNode) : List (String × Option Json) :=
  [("label", some (.string b.label)),
    ("properties", if b.properties.isEmpty then none else some b.properties.toJson),
    ("children", some (.array (b.children.map toJson)))]

lemma branchesToJson_eq_map (bs : List (Branch FlowNode)) :
    branchesToJson bs = bs.map branchToJson := by
  induction bs with
  | nil => rfl
  | cons b bs ih => rw [branchesToJson, ih, List.map_cons]

lemma nodesToJson_eq_map (ns : List FlowNode) : nodesToJson ns = ns.map toJson := by
  induction ns with
  | nil => rfl
  | cons n ns ih => rw [nodesToJson, ih, List.map_cons]

lemma toJson_eq (n : FlowNode) : n.toJson = .object (ofFields n.fields) := by
  obtain ⟨id, kind, metadata, codedata, properties, branches, flags⟩ := n
  rw [toJson, branchesToJson_eq_map]
  simp only [toMembers, text?, fields, ofFields, List.flatMap_cons, List.flatMap_nil,
    List.append_nil, List.append_assoc, List.isEmpty_map, List.isEmpty_iff]
  rfl

lemma branchToJson_eq (b : Branch FlowNode) :
    branchToJson b = .object (ofFields (branchFields b)) := by
  obtain ⟨label, properties, children⟩ := b
  rw [branchToJson, nodesToJson_eq_map]
  rfl

lemma branchOfJson?_toJson {node : Json → Option FlowNode} {b : Branch FlowNode}
    (hbag : b.properties.Sound) (hnodes : ∀ n ∈ b.children, node n.toJson = some n) :
    branchOfJson? node (branchToJson b) = some b := by
  have hrecord : (branchToJson b).record? ["label", "properties", "children"] =
      some [some (.string b.label),
        if b.properties.isEmpty then none else some b.properties.toJson,
        some (.array (b.children.map toJson))] := by
    rw [branchToJson_eq]
    exact record?_ofFields (branchFields b)
      (show ["label", "properties", "children"].Nodup by decide)
  have hproperties : orElse .empty PropertyBag.ofJson?
      (if b.properties.isEmpty then none else some b.properties.toJson) = some b.properties :=
    orElse_ite PropertyBag.eq_empty_of_isEmpty fun _ => PropertyBag.ofJson?_toJson hbag
  simp only [branchOfJson?, hrecord, required_some (asString?_string _), hproperties,
    orElse_some (listOf?_map hnodes), Option.bind_eq_bind, Option.bind_some, Option.pure_def]

/-- The bag of a branch is one of the node's. -/
lemma properties_mem_bags {n : FlowNode} {b : Branch FlowNode} (h : b ∈ n.branches) :
    b.properties ∈ n.bags :=
  List.mem_cons_of_mem _ (List.mem_map_of_mem h)

lemma height_child_lt {n c : FlowNode} {b : Branch FlowNode} (hb : b ∈ n.branches)
    (hc : c ∈ b.children) : c.toJson.height < n.toJson.height := by
  have hbranches : n.branches ≠ [] := List.ne_nil_of_mem hb
  calc c.toJson.height
      < (Json.array (b.children.map toJson)).height :=
        height_lt_of_mem_parts (List.mem_map_of_mem hc)
    _ < (branchToJson b).height := by
        rw [branchToJson_eq]
        exact height_lt_of_mem_parts (mem_parts_ofFields.mpr ⟨"children", by simp [branchFields]⟩)
    _ < (Json.array (n.branches.map branchToJson)).height :=
        height_lt_of_mem_parts (List.mem_map_of_mem hb)
    _ < n.toJson.height := by
        rw [toJson_eq]
        exact height_lt_of_mem_parts
          (mem_parts_ofFields.mpr ⟨"branches", by simp [fields, hbranches]⟩)

/-- A sound node is read from what is written for it, if there is room for its nodes. -/
lemma ofJsonAt?_toJson {n : FlowNode} (h : n.Every Sound) {k : ℕ} (hk : n.toJson.height ≤ k) :
    ofJsonAt? k n.toJson = some n := by
  induction h generalizing k with
  | @mk n h _ ih =>
    have hrecord : n.toJson.record? ["id", "kind", "metadata", "codedata", "properties", "branches",
        "flags"] = some [n.id.map .string, some (.string n.kind.word), some n.metadata.toJson,
          some n.codedata.toJson, some n.properties.toJson,
          if n.branches = [] then none else some (.array (n.branches.map branchToJson)),
          some n.flags.toJson] := by
      rw [toJson_eq]
      exact record?_ofFields n.fields (show ["id", "kind", "metadata", "codedata",
        "properties", "branches", "flags"].Nodup by decide)
    obtain ⟨k, rfl⟩ : ∃ m, k = m + 1 := by
      refine ⟨k - 1, ?_⟩
      rw [toJson_eq, height] at hk
      omega
    have hbranches : orElse [] (listOf? (branchOfJson? (ofJsonAt? k)))
        (if n.branches = [] then none else some (.array (n.branches.map branchToJson))) =
        some n.branches := by
      refine orElse_ite (fun h => h) fun _ => ?_
      refine listOf?_map fun b hb => branchOfJson?_toJson (h.bags _ (properties_mem_bags hb)) ?_
      exact fun c hc => ih b hb c hc (Nat.le_of_lt_succ ((height_child_lt hb hc).trans_le hk))
    simp only [ofJsonAt?, hrecord, optional_text, required_some (asWordOf?_word _),
      orElse_some (Metadata.ofJson?_toJson _), required_some (Codedata.ofJson?_toJson h.place),
      orElse_some (PropertyBag.ofJson?_toJson (h.bags _ List.mem_cons_self)), hbranches,
      orElse_some (Flags.ofJson?_toJson _), Option.bind_eq_bind, Option.bind_some, Option.pure_def]
    cases n
    rfl

lemma exact_toJson {n : FlowNode} (h : n.Every Sound) (hdouble : n.Every HasNoDouble) :
    Exact n.toJson := by
  induction h with
  | @mk n h _ ih =>
    obtain ⟨hown, hchildren⟩ := hdouble
    have hbag : ∀ b ∈ n.bags, Exact b.toJson := fun b hb =>
      PropertyBag.exact_toJson (h.bags b hb) (hown b hb)
    have hbranch : ∀ b ∈ n.branches, Exact (branchToJson b) := by
      intro b hb
      have hnodes : Exact (.array (b.children.map toJson)) := by
        refine exact_array fun j hj => ?_
        obtain ⟨c, hc, rfl⟩ := List.mem_map.mp hj
        exact ih b hb c hc (hchildren b hb c hc)
      rw [branchToJson_eq]
      refine exact_ofFields ?_
      simp only [branchFields, List.forall_mem_cons, List.not_mem_nil, false_imp_iff, implies_true,
        and_true]
      exact ⟨exact_some (exact_string _), exact_ite (hbag _ (properties_mem_bags hb)),
        exact_some hnodes⟩
    have hbranches : Exact (.array (n.branches.map branchToJson)) := by
      refine exact_array fun j hj => ?_
      obtain ⟨b, hb, rfl⟩ := List.mem_map.mp hj
      exact hbranch b hb
    rw [toJson_eq]
    refine exact_ofFields ?_
    simp only [fields, List.forall_mem_cons, List.not_mem_nil, false_imp_iff, implies_true,
      and_true]
    exact ⟨exact_text, exact_some (exact_string _), exact_some (Metadata.exact_toJson _),
      exact_some (Codedata.exact_toJson h.place), exact_some (hbag _ List.mem_cons_self),
      exact_ite hbranches, exact_some (exact_ofNat n.flags.bits.toNat_lt)⟩

/-- A bag that is read, or that is left out, is sound. -/
lemma sound_bag {j : Json} (hfits : Json.Every Fits j) {names : List String}
    {values : List (Option Json)} (hrecord : j.record? names = some values) {member : Option Json}
    (hmember : member ∈ values) {b : PropertyBag}
    (h : orElse .empty PropertyBag.ofJson? member = some b) : b.Sound := by
  rcases of_orElse h with rfl | ⟨k, rfl, hread⟩
  · exact PropertyBag.sound_empty
  · exact PropertyBag.sound_of_ofJson? (hfits.part (mem_parts_of_record? hrecord hmember)) hread

/-- The items of a list that is read are read from parts of the list. -/
lemma exists_of_list {α : Type} {read : Json → Option α} {j : Json} (hfits : Json.Every Fits j)
    {names : List String} {values : List (Option Json)} (hrecord : j.record? names = some values)
    {member : Option Json} (hmember : member ∈ values) {as : List α}
    (h : orElse [] (listOf? read) member = some as) {a : α} (ha : a ∈ as) :
    ∃ k, Json.Every Fits k ∧ read k = some a := by
  rcases of_orElse h with rfl | ⟨list, rfl, hlist⟩
  · simp at ha
  · obtain ⟨k, hk, hread⟩ := of_listOf? hlist ha
    exact ⟨k, (hfits.part (mem_parts_of_record? hrecord hmember)).part hk, hread⟩

lemma sound_of_branchOfJson? {node : Json → Option FlowNode} {j : Json} {b : Branch FlowNode}
    (hfits : Json.Every Fits j) (h : branchOfJson? node j = some b) :
    b.properties.Sound ∧ ∀ c ∈ b.children, ∃ k, Json.Every Fits k ∧ node k = some c := by
  rw [branchOfJson?] at h
  split at h
  · rename_i hrecord
    simp only [Option.bind_eq_bind, Option.bind_eq_some_iff, Option.pure_def,
      Option.some.injEq] at h
    obtain ⟨_, _, properties, hproperties, children, hchildren, rfl⟩ := h
    exact ⟨sound_bag hfits hrecord (by simp) hproperties,
      fun c hc => exists_of_list hfits hrecord (by simp) hchildren hc⟩
  · simp at h

/-- A node that is read is sound, and so are the nodes in its branches. -/
lemma sound_of_ofJsonAt? {k : ℕ} {j : Json} {n : FlowNode} (hfits : Json.Every Fits j)
    (h : ofJsonAt? k j = some n) : n.Every Sound := by
  induction k generalizing j n with
  | zero => simp [ofJsonAt?] at h
  | succ k ih =>
    rw [ofJsonAt?] at h
    split at h
    · rename_i hrecord
      simp only [Option.bind_eq_bind, Option.bind_eq_some_iff, Option.pure_def,
        Option.some.injEq] at h
      obtain ⟨_, _, _, _, _, _, codedata, hcodedata, properties, hproperties, branches, hbranches,
        _, _, rfl⟩ := h
      have hbranch : ∀ b ∈ branches, b.properties.Sound ∧
          ∀ c ∈ b.children, ∃ j', Json.Every Fits j' ∧ ofJsonAt? k j' = some c := by
        intro b hb
        obtain ⟨j', hj', hread⟩ := exists_of_list hfits hrecord (by simp) hbranches hb
        exact sound_of_branchOfJson? hj' hread
      refine .mk ⟨?_, ?_⟩ fun b hb c hc => ?_
      · obtain ⟨_, -, hread⟩ := of_required hcodedata
        exact Codedata.sound_of_ofJson? hread
      · intro bag hbag
        rcases List.mem_cons.mp hbag with rfl | hbag
        · exact sound_bag hfits hrecord (by simp) hproperties
        · obtain ⟨b, hb, rfl⟩ := List.mem_map.mp hbag
          exact (hbranch b hb).1
      · obtain ⟨j', hj', hread⟩ := (hbranch b hb).2 c hc
        exact ih hj' hread
    · simp at h

/-- A node that was read from a value is read again, with everything in it, from the value that it
is written as. -/
theorem ofJson?_toJson {j : Json} {n : FlowNode} (hfits : Json.Every Fits j)
    (hread : ofJson? j = some n) : ofJson? n.toJson = some n :=
  ofJsonAt?_toJson (sound_of_ofJsonAt? hfits hread) le_rfl

/-- The way of a node into a text and back is its way into a value and back, for every writer of
values that is undone by its reader. -/
theorem read_write_toJson {write : Json → String} {read : String → Option Json}
    (hinverse : Json.Inverse write read) {j : Json} {n : FlowNode} (hfits : Json.Every Fits j)
    (hread : ofJson? j = some n) (hdouble : n.Every HasNoDouble)
    (hheight : n.toJson.height ≤ Json.maxHeight) :
    (read (write n.toJson)).bind ofJson? = some n := by
  have hexact : Exact n.toJson := exact_toJson (sound_of_ofJsonAt? hfits hread) hdouble
  rw [hinverse n.toJson hexact hheight, Option.bind_some]
  exact ofJson?_toJson hfits hread

/-- A node that was read from a text or from a part of one is read again from the text that is
written for it, with everything in it, when it holds no double and its text does not nest too
deep: by every reader that undoes the writer on values, and so by the one for compact texts. -/
theorem read?_toJson {text : String} {whole j : Json} {n : FlowNode}
    (htext : Json.read? text = some whole) (hj : whole.Holds j) (hread : ofJson? j = some n)
    (hdouble : n.Every HasNoDouble) (hheight : n.toJson.height ≤ Json.maxHeight) :
    (∀ write read, Json.Inverse write read → (read (write n.toJson)).bind ofJson? = some n) ∧
      (Json.read? n.toJson.compact).bind ofJson? = some n := by
  have hfits : Json.Every Fits j := (fits_of_read? htext).held hj
  exact ⟨fun write read hinverse => read_write_toJson hinverse hfits hread hdouble hheight,
    read_write_toJson inverse_compact hfits hread hdouble hheight⟩

set_option maxRecDepth 2048 in
/-- A node in an array, with a node in its branch, properties at both levels, an object as a value,
flags without a name, and nearly everything left out. -/
theorem read?_toJson_nested :
    let text := "[[null,\"IF\",[],[\"IF\"],\x7b\"c\":[\"\",\"\",\"TYPE\",\x7b\"b\":2,\"a\":[]" ++
      "\x7d],\"a\":[\"\",\"\",\"ENUM\",null,false,false,-1]\x7d,[[\"Then\",\x7b\"x\":[" ++
      "\"\",\"\",\"TYPE\"]\x7d,[[null,\"FAIL\",[],[\"FAIL\"]]]]],4294967280]]"
    let n : FlowNode := ⟨none, .if, .empty, .ofKind .if,
      ⟨[(Property.plain "c" "" .type).withValue (.object [("a", .array []), ("b", .integer 2)]),
        ⟨"a", "", "", .enum, .null, false, false, some (.integer (-1))⟩], by decide⟩,
      [⟨"Then", ⟨[.plain "x" "" .type], by decide⟩, [.ofKind .fail]⟩], ⟨0xFFFFFFF0⟩⟩
    ∃ whole j : Json, Json.read? text = some whole ∧ whole.Holds j ∧ ofJson? j = some n ∧
      n.Every HasNoDouble ∧ n.toJson.height ≤ Json.maxHeight ∧
      (∀ write read, Json.Inverse write read → (read (write n.toJson)).bind ofJson? = some n) ∧
      (Json.read? n.toJson.compact).bind ofJson? = some n := by
  intro text n
  let j : Json := .array [.null, .string "IF", .array [], .array [.string "IF"],
    .object [("c", .array [.string "", .string "", .string "TYPE",
        .object [("b", .integer 2), ("a", .array [])]]),
      ("a", .array [.string "", .string "", .string "ENUM", .null, .bool false, .bool false,
        .integer (-1)])],
    .array [.array [.string "Then",
      .object [("x", .array [.string "", .string "", .string "TYPE"])],
      .array [.array [.null, .string "FAIL", .array [], .array [.string "FAIL"]]]]],
    .integer 4294967280]
  have htext : Json.read? text = some (.array [j]) := by
    dsimp only [text, j]
    cbv
  have hheld : (Json.array [j]).Holds j := .single List.mem_cons_self
  have hread : ofJson? j = some n := by rfl
  have hheight : n.toJson.height ≤ Json.maxHeight := by decide +kernel
  have hdouble : n.Every HasNoDouble := by
    have hobject : Json.Every NotDouble (.object [("a", .array []), ("b", .integer 2)]) := by
      refine .mk trivial fun k hk => ?_
      rcases List.mem_pair.mp hk with rfl | rfl <;> exact .leaf trivial rfl
    have hnull : Json.Every NotDouble .null := .leaf trivial rfl
    have hinteger : Json.Every NotDouble (.integer (-1)) := .leaf trivial rfl
    refine .mk ?_ ?_
    · simp [HasNoDouble, bags, n, Property.values, Property.withValue, Property.plain, hobject,
        hnull, hinteger]
    · intro b hb c hc
      obtain rfl := List.mem_singleton.mp hb
      obtain rfl := List.mem_singleton.mp hc
      refine .mk ?_ (by simp [ofKind, withCodedata])
      simp [HasNoDouble, bags, ofKind, withCodedata, PropertyBag.empty]
  exact ⟨.array [j], j, htext, hheld, hread, hdouble, hheight,
    read?_toJson htext hheld hread hdouble hheight⟩

end FlowNode

end FlowCanvas
