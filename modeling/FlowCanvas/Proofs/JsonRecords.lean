import FlowCanvas.Node.Codec
import FlowCanvas.Proofs.JsonTexts

/-!
# Records in JSON

The members of a record are read back from the object that holds those with a value, when their
names differ. A canonical value has sorted members at every level; it is its own canonical form,
and making a value canonical brings nothing new in.
-/

namespace FlowCanvas.Json

/-! ### Canonical values -/

/-- What holds of a value when it holds of all values inside of it. -/
theorem induction_parts {motive : Json → Prop}
    (h : ∀ j : Json, (∀ k ∈ j.parts, motive k) → motive j) (j : Json) : motive j :=
  h j fun k hk =>
    have hsmaller : sizeOf k < sizeOf j := by
      cases j with
      | array items =>
        have := List.sizeOf_lt_of_mem (show k ∈ items from hk)
        simp only [array.sizeOf_spec]
        omega
      | object members =>
        obtain ⟨m, hm, rfl⟩ := List.mem_map.mp hk
        have := List.sizeOf_lt_of_mem hm
        obtain ⟨name, j⟩ := m
        simp only [Prod.mk.sizeOf_spec] at this
        simp only [object.sizeOf_spec]
        omega
      | _ => simp [parts] at hk
    induction_parts h k
termination_by sizeOf j

/-- Members are sorted by name. -/
def Sorted (members : List (String × Json)) : Prop := members.Pairwise fun m m' => m.1 < m'.1

/-- A readable value, with sorted members if it is an object. -/
def Ordered : Json → Prop
  | .object members => Sorted members
  | .unreadable => False
  | _ => True

lemma mem_putSorted {name : String} {v : Json} {ms : List (String × Json)} {m : String × Json}
    (h : m ∈ putSorted name v ms) : m = (name, v) ∨ m ∈ ms := by
  induction ms with
  | nil => exact .inl (List.mem_singleton.mp h)
  | cons m' ms ih =>
    rw [putSorted] at h
    split_ifs at h
    · rcases List.mem_cons.mp h with h | h
      · exact .inl h
      · exact .inr (List.mem_cons_of_mem _ h)
    · rcases List.mem_cons.mp h with h | h
      · exact .inl h
      · exact .inr h
    · rcases List.mem_cons.mp h with rfl | h
      · exact .inr List.mem_cons_self
      · exact (ih h).imp_right (List.mem_cons_of_mem _)

lemma sorted_putSorted (name : String) (v : Json) {ms : List (String × Json)} (h : Sorted ms) :
    Sorted (putSorted name v ms) := by
  induction ms with
  | nil => exact List.pairwise_singleton _ _
  | cons m ms ih =>
    obtain ⟨hfirst, hrest⟩ := List.pairwise_cons.mp h
    rw [putSorted]
    split_ifs with hsame hless
    · subst hsame
      exact List.pairwise_cons.mpr ⟨hfirst, hrest⟩
    · refine List.pairwise_cons.mpr ⟨fun m' hm' => ?_, h⟩
      rcases List.mem_cons.mp hm' with rfl | hm'
      · exact hless
      · exact hless.trans (hfirst m' hm')
    · refine List.pairwise_cons.mpr ⟨fun m' hm' => ?_, ih hrest⟩
      rcases mem_putSorted hm' with rfl | hm'
      · exact lt_of_le_of_ne (not_lt.mp hless) (Ne.symm hsame)
      · exact hfirst m' hm'

lemma putSorted_last {name : String} (v : Json) {ms : List (String × Json)}
    (h : ∀ m ∈ ms, m.1 < name) : putSorted name v ms = ms ++ [(name, v)] := by
  induction ms with
  | nil => rfl
  | cons m ms ih =>
    have hless := h m List.mem_cons_self
    rw [putSorted, if_neg hless.ne', if_neg hless.not_gt,
      ih fun m' hm' => h m' (List.mem_cons_of_mem _ hm')]
    rfl

lemma canonicalItems?_eq_mapM (js : List Json) : canonicalItems? js = js.mapM canonical? := by
  induction js with
  | nil => rfl
  | cons j js ih => rw [canonicalItems?, ih, List.mapM_cons]

/-- The members of a canonical object are sorted, and each comes from some member. -/
lemma sorted_of_canonicalMembers? {sorted ms vs : List (String × Json)}
    (h : canonicalMembers? sorted ms = some vs) (hsorted : Sorted sorted) :
    Sorted vs ∧ ∀ m ∈ vs, m ∈ sorted ∨ ∃ m' ∈ ms, canonical? m'.2 = some m.2 := by
  induction ms generalizing sorted with
  | nil =>
    obtain rfl : sorted = vs := Option.some.inj h
    exact ⟨hsorted, fun m hm => .inl hm⟩
  | cons m ms ih =>
    simp only [canonicalMembers?, Option.bind_eq_bind, Option.bind_eq_some_iff] at h
    obtain ⟨v, hv, h⟩ := h
    obtain ⟨hall, hfrom⟩ := ih h (sorted_putSorted _ _ hsorted)
    refine ⟨hall, fun m' hm' => ?_⟩
    rcases hfrom m' hm' with hput | ⟨k, hk, hvalue⟩
    · rcases mem_putSorted hput with rfl | hold
      · exact .inr ⟨m, List.mem_cons_self, hv⟩
      · exact .inl hold
    · exact .inr ⟨k, List.mem_cons_of_mem _ hk, hvalue⟩

/-- Sorted members with canonical values are kept as they are. -/
lemma canonicalMembers?_sorted {front ms : List (String × Json)} (h : Sorted (front ++ ms))
    (hvalues : ∀ m ∈ ms, canonical? m.2 = some m.2) :
    canonicalMembers? front ms = some (front ++ ms) := by
  induction ms generalizing front with
  | nil => rw [canonicalMembers?, List.append_nil]
  | cons m ms ih =>
    have hlast : ∀ m' ∈ front, m'.1 < m.1 := fun m' hm' =>
      (List.pairwise_append.mp h).2.2 m' hm' m List.mem_cons_self
    rw [canonicalMembers?, hvalues m List.mem_cons_self, Option.bind_eq_bind, Option.bind_some,
      putSorted_last _ hlast, ih (by simpa using h) fun m' hm' =>
        hvalues m' (List.mem_cons_of_mem _ hm'), List.append_assoc]
    rfl

/-- An ordered value is its own canonical form. -/
lemma canonical?_of_ordered {v : Json} (h : Every Ordered v) : canonical? v = some v := by
  induction h with
  | @mk v h _ ih =>
    cases v with
    | array items =>
      have hitems : items.mapM canonical? = some items :=
        mapM_eq_some_iff.mpr (List.forall₂_same.mpr ih)
      rw [canonical?, canonicalItems?_eq_mapM, hitems, Option.map_some]
    | object members =>
      have hmembers : canonicalMembers? [] members = some ([] ++ members) :=
        canonicalMembers?_sorted h fun m hm => ih m.2 (List.mem_map_of_mem hm)
      rw [canonical?, hmembers, Option.map_some, List.nil_append]
    | unreadable => exact absurd h not_false
    | _ => rfl

/-- A canonical form is ordered, and holds no whole number that was not there. -/
lemma ordered_of_canonical? {j v : Json} (hfits : Every Fits j) (h : canonical? j = some v) :
    Every (fun v => Fits v ∧ Ordered v) v := by
  induction j using induction_parts generalizing v with
  | h j ih =>
    obtain ⟨hown, hparts⟩ := hfits
    cases j with
    | array items =>
      rw [canonical?, canonicalItems?_eq_mapM] at h
      obtain ⟨vs, hvs, rfl⟩ := Option.map_eq_some_iff.mp h
      refine .mk ⟨trivial, trivial⟩ fun v hv => ?_
      obtain ⟨j, hj, hvalue⟩ := exists_of_forall₂ (mapM_eq_some_iff.mp hvs) hv
      exact ih j hj (hparts j hj) hvalue
    | object members =>
      obtain ⟨vs, hvs, rfl⟩ := Option.map_eq_some_iff.mp h
      obtain ⟨hsorted, hfrom⟩ := sorted_of_canonicalMembers? hvs List.Pairwise.nil
      refine .mk ⟨trivial, hsorted⟩ fun v hv => ?_
      obtain ⟨m, hm, rfl⟩ := List.mem_map.mp hv
      rcases hfrom m hm with hnone | ⟨m', hm', hvalue⟩
      · simp at hnone
      · exact ih m'.2 (List.mem_map_of_mem hm') (hparts m'.2 (List.mem_map_of_mem hm')) hvalue
    | unreadable => simp [canonical?] at h
    | _ =>
      obtain rfl := Option.some.inj h
      exact .mk ⟨hown, trivial⟩ (by simp [parts])

lemma eq_null_of_canonical? {j : Json} (h : canonical? j = some .null) : j = .null := by
  cases j <;> simp [canonical?] at h ⊢

/-! ### Records -/

/-- The members of a record that have a value. -/
def ofFields (fields : List (String × Option Json)) : List (String × Json) :=
  fields.flatMap fun f => member? f.1 f.2

lemma mem_ofFields {fields : List (String × Option Json)} {m : String × Json} :
    m ∈ ofFields fields ↔ (m.1, some m.2) ∈ fields := by
  simp only [ofFields, List.mem_flatMap]
  constructor
  · rintro ⟨⟨name, value⟩, hf, hm⟩
    cases value with
    | none => simp [member?] at hm
    | some j => rwa [List.mem_singleton.mp hm]
  · intro h
    exact ⟨_, h, List.mem_singleton.mpr rfl⟩

lemma mem_parts_ofFields {fields : List (String × Option Json)} {j : Json} :
    j ∈ (Json.object (ofFields fields)).parts ↔ ∃ name, (name, some j) ∈ fields := by
  constructor
  · intro h
    obtain ⟨m, hm, rfl⟩ := List.mem_map.mp h
    exact ⟨m.1, mem_ofFields.mp hm⟩
  · rintro ⟨name, h⟩
    exact List.mem_map.mpr ⟨(name, j), mem_ofFields.mpr h, rfl⟩

lemma names_ofFields (fields : List (String × Option Json)) :
    ((ofFields fields).map Prod.fst).Sublist (fields.map Prod.fst) := by
  induction fields with
  | nil => exact .slnil
  | cons f fields ih =>
    obtain ⟨name, value⟩ := f
    cases value with
    | none => exact ih.cons name
    | some j => exact ih.cons_cons name

/-- No member of a record is given twice. -/
lemma not_repeats {fields : List (String × Option Json)} (h : (fields.map Prod.fst).Nodup)
    (name : String) : repeats (ofFields fields) name = false := by
  have hcount := List.nodup_iff_count_le_one.mp (h.sublist (names_ofFields fields)) name
  rw [List.count, List.countP_map, List.countP_eq_length_filter] at hcount
  rw [repeats, decide_eq_false_iff_not]
  exact Nat.not_le.mpr (Nat.lt_succ_of_le hcount)

/-- A member of a record is found under its name. -/
lemma find?_ofFields {fields : List (String × Option Json)} (h : (fields.map Prod.fst).Nodup)
    {f : String × Option Json} (hf : f ∈ fields) :
    ((ofFields fields).find? fun m => m.1 == f.1).map Prod.snd = f.2 := by
  obtain ⟨name, value⟩ := f
  cases hfound : (ofFields fields).find? fun m => m.1 == name with
  | none =>
    cases value with
    | none => rfl
    | some j =>
      have hmem : (name, j) ∈ ofFields fields := mem_ofFields.mpr hf
      simpa using List.find?_eq_none.mp hfound _ hmem
  | some m =>
    have hname : m.1 = name := by simpa using List.find?_some hfound
    have hmem := mem_ofFields.mp (List.mem_of_find?_eq_some hfound)
    rw [hname] at hmem
    exact (congrArg Prod.snd (List.inj_on_of_nodup_map h hmem hf rfl))

/-- A record is read with the members it was written with. -/
lemma record?_ofFields (fields : List (String × Option Json)) (h : (fields.map Prod.fst).Nodup) :
    (Json.object (ofFields fields)).record? (fields.map Prod.fst) = some (fields.map Prod.snd) := by
  have hnone : (fields.map Prod.fst).any (repeats (ofFields fields)) = false := by
    simp [not_repeats h]
  rw [record?, if_neg (by simp [hnone]), List.map_map]
  exact congrArg some (List.map_congr_left fun f hf => find?_ofFields h hf)

/-- The values of a record are parts of what it is read from. -/
lemma mem_parts_of_record? {names : List String} {j k : Json} {values : List (Option Json)}
    (h : j.record? names = some values) (hk : some k ∈ values) : k ∈ j.parts := by
  cases j with
  | object members =>
    rw [record?] at h
    split_ifs at h
    obtain rfl := Option.some.inj h
    obtain ⟨name, -, hfound⟩ := List.mem_map.mp hk
    obtain ⟨m, hm, rfl⟩ := Option.map_eq_some_iff.mp hfound
    exact List.mem_map_of_mem (List.mem_of_find?_eq_some hm)
  | array items =>
    rw [record?] at h
    split_ifs at h
    obtain rfl := Option.some.inj h
    rcases List.mem_append.mp hk with hk | hk
    · obtain ⟨k', hk', heq⟩ := List.mem_map.mp hk
      exact Option.some.inj heq ▸ hk'
    · exact absurd (List.eq_of_mem_replicate hk) (by simp)
  | _ => simp [record?] at h

/-! ### Members -/

variable {α : Type} {read : Json → Option α} {write : α → Json}

lemma required_some {j : Json} {a : α} (h : read j = some a) : required read (some j) = some a := by
  rw [required, h]

lemma orElse_some {value a : α} {j : Json} (h : read j = some a) :
    orElse value read (some j) = some a := by
  rw [orElse, h]

/-- A member that may be left out is read back, if its text is not that of no value. -/
lemma optional_map {value : Option α}
    (h : ∀ a ∈ value, read (write a) = some a ∧ write a ≠ .null) :
    optional read (value.map write) = some value := by
  cases value with
  | none => rfl
  | some a =>
    obtain ⟨hread, hnull⟩ := h a rfl
    rw [Option.map_some, optional.eq_def]
    split
    · rename_i heq
      simp at heq
    · rename_i heq
      exact absurd (Option.some.inj heq) hnull
    · rename_i heq
      rw [← Option.some.inj heq, hread, Option.map_some]

lemma optional_text (value : Option String) :
    optional asString? (value.map .string) = some value :=
  optional_map fun _ _ => ⟨rfl, by simp⟩

/-- A member that is left out when it has its default value is read back. -/
lemma orElse_ite {a value : α} {p : Prop} [Decidable p] {j : Json} (hdefault : p → a = value)
    (hread : ¬p → read j = some a) : orElse value read (if p then none else some j) = some a := by
  split_ifs with h
  · rw [hdefault h]
    rfl
  · exact hread h

lemma listOf?_map {values : List α} (h : ∀ a ∈ values, read (write a) = some a) :
    listOf? read (.array (values.map write)) = some values :=
  mapM_eq_some_iff.mpr (List.forall₂_map_left_iff.mpr (List.forall₂_same.mpr h))

lemma of_required {member : Option Json} {a : α} (h : required read member = some a) :
    ∃ j, member = some j ∧ read j = some a := by
  cases member with
  | none => simp [required] at h
  | some j => exact ⟨j, rfl, h⟩

lemma of_orElse {member : Option Json} {a value : α} (h : orElse value read member = some a) :
    a = value ∨ ∃ j, member = some j ∧ read j = some a := by
  cases member with
  | none => exact .inl (Option.some.inj h).symm
  | some j => exact .inr ⟨j, rfl, h⟩

lemma of_optional {member : Option Json} {value : Option α}
    (h : optional read member = some value) {a : α} (ha : value = some a) :
    ∃ j, member = some j ∧ j ≠ .null ∧ read j = some a := by
  subst ha
  rw [optional.eq_def] at h
  split at h
  · simp at h
  · simp at h
  · rename_i j hnull
    obtain ⟨a', hread, heq⟩ := Option.map_eq_some_iff.mp h
    exact ⟨j, rfl, fun hj => hnull hj, Option.some.inj heq ▸ hread⟩

lemma of_listOf? {j : Json} {values : List α} (h : listOf? read j = some values) {a : α}
    (ha : a ∈ values) : ∃ k ∈ j.parts, read k = some a := by
  cases j with
  | array items => exact exists_of_forall₂ (mapM_eq_some_iff.mp h) ha
  | _ => simp [listOf?, asArray?] at h

end FlowCanvas.Json
