import FlowCanvas.Build.Node
import Mathlib

/-!
# Arguments in a bag

Each argument of a call has a slot: a key, and whether it is written by name. Setting the arguments
fills the properties with these keys. No value is lost exactly if the keys are different and none of
them is structural.
-/

namespace FlowCanvas

namespace PropertyBag

/-! ### Keys -/

/-- Changing the first entry with a key. -/
lemma updateFirst_spec {key : String} (f : Property → Property) {ps : List Property}
    (h : key ∈ ps.map (·.key)) :
    ∃ pre p post, ps = pre ++ p :: post ∧ p.key = key ∧
      updateFirst key f ps = pre ++ f p :: post := by
  induction ps with
  | nil => simp at h
  | cons p ps ih =>
    rw [updateFirst]
    by_cases hp : p.key = key
    · exact ⟨[], p, ps, rfl, hp, by simp [hp]⟩
    · have hmem : key ∈ ps.map (·.key) := by
        rcases List.mem_cons.mp h with heq | hmem
        · exact absurd heq.symm hp
        · exact hmem
      obtain ⟨pre, q, post, rfl, hq, hupdate⟩ := ih hmem
      exact ⟨p :: pre, q, post, rfl, hq, by simp [hp, hupdate]⟩

/-- A property takes the place of the one with its key, or goes to the end. -/
lemma insert_cases (b : PropertyBag) (p : Property) :
    (∃ pre q post, b.entries = pre ++ q :: post ∧ q.key = p.key ∧
      (b.insert p).entries = pre ++ p :: post) ∨
    (p.key ∉ b.keys ∧ (b.insert p).entries = b.entries ++ [p]) := by
  unfold insert
  by_cases h : b.contains p.key
  · obtain ⟨pre, q, post, heq, hq, hupdate⟩ :=
      updateFirst_spec (fun _ => p) (mem_keys_iff.mpr h)
    exact .inl ⟨pre, q, post, heq, hq, by rw [dif_pos h]; exact hupdate⟩
  · exact .inr ⟨fun hmem => h (mem_keys_iff.mp hmem), by rw [dif_neg h]; rfl⟩

lemma mem_insert {b : PropertyBag} {p q : Property} (h : q ∈ (b.insert p).entries) :
    q = p ∨ q ∈ b.entries := by
  rcases insert_cases b p with ⟨pre, r, post, heq, -, hinsert⟩ | ⟨-, hinsert⟩
  · rw [hinsert] at h
    rw [heq]
    rcases List.mem_append.mp h with hmem | hmem
    · exact .inr (by simp [hmem])
    · rcases List.mem_cons.mp hmem with rfl | hmem'
      · exact .inl rfl
      · exact .inr (by simp [hmem'])
  · rw [hinsert] at h
    rcases List.mem_append.mp h with hmem | hmem
    · exact .inr hmem
    · exact .inl (by simpa using hmem)

lemma insertAll_cons (b : PropertyBag) (p : Property) (ps : List Property) :
    b.insertAll (p :: ps) = (b.insert p).insertAll ps := rfl

lemma mem_insertAll {b : PropertyBag} {ps : List Property} {q : Property}
    (h : q ∈ (b.insertAll ps).entries) : q ∈ ps ∨ q ∈ b.entries := by
  induction ps generalizing b with
  | nil => exact .inr h
  | cons p ps ih =>
    rcases ih h with hmem | hmem
    · exact .inl (List.mem_cons_of_mem _ hmem)
    · rcases mem_insert hmem with rfl | hmem'
      · exact .inl List.mem_cons_self
      · exact .inr hmem'

/-! ### Looking properties up -/

lemma get?_eq_some_iff {b : PropertyBag} {key : String} {p : Property} :
    b.get? key = some p ↔ p ∈ b.entries ∧ p.key = key := by
  constructor
  · intro hget
    exact ⟨List.mem_of_find?_eq_some hget, by simpa using List.find?_some hget⟩
  · rintro ⟨hmem, rfl⟩
    obtain ⟨pre, post, heq⟩ := List.append_of_mem hmem
    have h := b.nodup
    rw [heq, List.map_append, List.map_cons, List.nodup_append] at h
    rw [get?, heq, List.find?_append, List.find?_cons_of_pos (by simp)]
    have hpre : pre.find? (fun q => q.key == p.key) = none := by
      rw [List.find?_eq_none]
      intro q hq hkey
      exact h.2.2 q.key (List.mem_map_of_mem hq) p.key List.mem_cons_self (by simpa using hkey)
    rw [hpre, Option.none_or]

lemma get?_eq_none_iff {b : PropertyBag} {key : String} : b.get? key = none ↔ key ∉ b.keys := by
  simp [get?, keys]

section Entries

variable {key : String} {f : Property → Property}

/-- Changing the first entry with a key changes what is found under this key. -/
lemma find?_updateFirst (hf : ∀ p, p.key = key → (f p).key = key) (ps : List Property)
    (other : String) :
    (updateFirst key f ps).find? (·.key == other) =
      if other = key then (ps.find? (·.key == key)).map f else ps.find? (·.key == other) := by
  induction ps with
  | nil => simp [updateFirst]
  | cons p ps ih =>
    by_cases hp : p.key = key
    · by_cases hother : other = key
      · simp [updateFirst, hp, hf p hp, hother]
      · simp [updateFirst, hp, hf p hp, hother, Ne.symm hother]
    · by_cases hfound : p.key = other
      · simp [updateFirst, hp, ← hfound]
      · simp [updateFirst, hp, hfound, ih]

end Entries

lemma get?_insert (b : PropertyBag) (p : Property) (key : String) :
    (b.insert p).get? key = if key = p.key then some p else b.get? key := by
  unfold insert
  by_cases h : b.contains p.key
  · obtain ⟨q, hq⟩ : ∃ q, b.get? p.key = some q :=
      Option.ne_none_iff_exists'.mp fun hnone => get?_eq_none_iff.mp hnone (mem_keys_iff.mpr h)
    have hmap : (b.get? p.key).map (fun _ => p) = some p := congrArg (Option.map fun _ => p) hq
    rw [dif_pos h, get?, update, find?_updateFirst fun _ _ => rfl, ← hmap]
    rfl
  · have hnone : b.get? p.key = none := get?_eq_none_iff.mpr (mt mem_keys_iff.mp h)
    rw [dif_neg h, get?, push, List.find?_append]
    split_ifs with hkey
    · subst hkey
      rw [show b.entries.find? (·.key == p.key) = none from hnone, Option.none_or,
        List.find?_cons_of_pos (by simp)]
    · rw [List.find?_singleton, if_neg (by simpa using Ne.symm hkey), Option.or_none]
      rfl

lemma mem_insert_self (b : PropertyBag) (p : Property) : p ∈ (b.insert p).entries := by
  rcases insert_cases b p with ⟨pre, q, post, -, -, hinsert⟩ | ⟨-, hinsert⟩ <;> simp [hinsert]

lemma mem_insert_of_ne {b : PropertyBag} {p q : Property} (hq : q ∈ b.entries)
    (hne : q.key ≠ p.key) : q ∈ (b.insert p).entries := by
  rcases insert_cases b p with ⟨pre, r, post, heq, hr, hinsert⟩ | ⟨-, hinsert⟩
  · rw [heq] at hq
    rw [hinsert]
    rcases List.mem_append.mp hq with hmem | hmem
    · simp [hmem]
    · rcases List.mem_cons.mp hmem with rfl | hmem'
      · exact absurd hr hne
      · simp [hmem']
  · simp [hinsert, hq]

lemma mem_insertAll_of_not_mem {b : PropertyBag} {ps : List Property} {q : Property}
    (hq : q ∈ b.entries) (hkey : q.key ∉ ps.map (·.key)) : q ∈ (b.insertAll ps).entries := by
  induction ps generalizing b with
  | nil => exact hq
  | cons p ps ih =>
    rw [List.map_cons, List.mem_cons, not_or] at hkey
    exact ih (mem_insert_of_ne hq hkey.1) hkey.2

/-! ### Properties that are no structure -/

/-- The entries of a bag that may be arguments. -/
def free (b : PropertyBag) : List Property := b.entries.filter (!·.isStructural)

lemma free_insert_structural (b : PropertyBag) {p : Property} (hp : p.isStructural) :
    (b.insert p).free = b.free := by
  unfold free
  rcases insert_cases b p with ⟨pre, q, post, heq, hq, hinsert⟩ | ⟨-, hinsert⟩
  · have hstructural : q.isStructural := by simpa [Property.isStructural, hq] using hp
    simp [heq, hinsert, hp, hstructural]
  · simp [hinsert, hp]

lemma free_insert {b : PropertyBag} {p : Property} (hp : p.isStructural = false)
    (hkey : p.key ∉ b.free.map (·.key)) : (b.insert p).free = b.free ++ [p] := by
  rcases insert_cases b p with ⟨pre, q, post, heq, hq, -⟩ | ⟨-, hinsert⟩
  · have hstructural : q.isStructural = false := by simpa [Property.isStructural, hq] using hp
    have hmem : q ∈ b.free := by simp [free, heq, hstructural]
    exact absurd (hq ▸ List.mem_map_of_mem hmem) hkey
  · simp [free, hinsert, hp]

/-- Entries with keys of their own go into a bag one behind the other. -/
lemma free_insertAll {b : PropertyBag} {ps : List Property} (hps : (ps.map (·.key)).Nodup)
    (hkeys : ∀ q ∈ b.free, q.key ∉ ps.map (·.key)) :
    (b.insertAll ps).free = b.free ++ ps.filter (!·.isStructural) := by
  induction ps generalizing b with
  | nil => simp [insertAll]
  | cons p ps ih =>
    obtain ⟨hp, hnodup⟩ := List.nodup_cons.mp hps
    rw [insertAll_cons]
    cases hstructural : p.isStructural with
    | true =>
      have hsame := free_insert_structural b hstructural
      rw [ih hnodup, hsame, List.filter_cons_of_neg (by simp [hstructural])]
      intro q hq hkey
      exact hkeys q (hsame ▸ hq) (List.mem_cons_of_mem _ hkey)
    | false =>
      have hnew : p.key ∉ b.free.map (·.key) := by
        intro hmem
        obtain ⟨q, hq, hkey⟩ := List.mem_map.mp hmem
        exact hkeys q hq (by simp [hkey])
      have hmore := free_insert hstructural hnew
      rw [ih hnodup, hmore, List.filter_cons_of_pos (by simp [hstructural]), List.append_assoc,
        List.singleton_append]
      intro q hq hkey
      rw [hmore] at hq
      rcases List.mem_append.mp hq with hmem | hmem
      · exact hkeys q hmem (List.mem_cons_of_mem _ hkey)
      · obtain rfl : q = p := by simpa using hmem
        exact hp hkey

lemma free_insertAll_structural (b : PropertyBag) {ps : List Property}
    (hps : ∀ p ∈ ps, p.isStructural) : (b.insertAll ps).free = b.free := by
  induction ps generalizing b with
  | nil => rfl
  | cons p ps ih =>
    rw [insertAll_cons, ih (b.insert p) fun q hq => hps q (List.mem_cons_of_mem _ hq),
      free_insert_structural b (hps p List.mem_cons_self)]

lemma key_mem_insert {b : PropertyBag} {key : String} (h : key ∈ b.keys) (p : Property) :
    key ∈ (b.insert p).keys := by
  obtain ⟨q, hq, rfl⟩ := List.mem_map.mp h
  by_cases hkey : q.key = p.key
  · rw [hkey]
    exact List.mem_map_of_mem (mem_insert_self b p)
  · exact List.mem_map_of_mem (mem_insert_of_ne hq hkey)

lemma key_mem_insertAll {b : PropertyBag} {key : String} (h : key ∈ b.keys) (ps : List Property) :
    key ∈ (b.insertAll ps).keys := by
  induction ps generalizing b with
  | nil => exact h
  | cons p ps ih => exact ih (key_mem_insert h p)

lemma text?_eq_some {b : PropertyBag} {key text : String} (h : b.text? key = some text) :
    ∃ p ∈ b.entries, p.key = key ∧ p.isBlank = false ∧ p.sourceText = text := by
  unfold text? at h
  split at h
  · rename_i p hget
    split at h
    · simp at h
    · rename_i hblank
      exact ⟨p, List.mem_of_find?_eq_some hget, by simpa using List.find?_some hget,
        by simpa using hblank, Option.some.inj h⟩
  · simp at h

lemma text?_of_not_mem {b : PropertyBag} {key : String} (h : key ∉ b.keys) :
    b.text? key = none := by
  simp [text?, get?_eq_none_iff.mpr h]

end PropertyBag

namespace Build

/-! ### Slots -/

/-- Where the value of an argument goes. -/
structure Slot where
  key : String
  /-- Whether it is written by name. -/
  byName : Bool
  value : Expression

/-- Whether the property with a key is written by name: a parameter of the template if it is
optional, any other one if its argument was named. -/
def isByName (start : PropertyBag) (key : String) (named : Bool) : Bool :=
  match start.get? key with
  | some p => p.optional
  | none => named

/-- The slots of arguments; `place` counts the positional ones before them. -/
def slotsFrom (start : PropertyBag) (names : List String) : Nat → List Argument → List Slot
  | _, [] => []
  | place, a :: rest =>
    match a.name with
    | none =>
      let key := argumentKey start.keys names place
      ⟨key, isByName start key false, a.value⟩ :: slotsFrom start names (place + 1) rest
    | some name =>
      ⟨name, isByName start name true, a.value⟩ :: slotsFrom start names place rest

/-- The parameters that a call's properties start from. -/
def parameters (template : Option FlowNode) : PropertyBag :=
  (template.map parametersOf).getD .empty

/-- The slots of the arguments of a call. -/
def slots (template : Option FlowNode) (names : List String) (arguments : List Argument) :
    List Slot :=
  slotsFrom (parameters template) names 0 arguments

/-- The entries that have a value. -/
def filled (b : PropertyBag) : List Property := b.entries.filter (!·.isBlank)

/-- A property that an argument adds. -/
def added (key text : String) (named : Bool) : Property :=
  ((Property.plain key key .expression).withText text).asOptional named

/-- An argument gives a property its value or adds one. -/
lemma setArgument_cases (b : PropertyBag) (key text : String) (named : Bool) :
    (∃ pre p post, b.entries = pre ++ p :: post ∧ p.key = key ∧
      (setArgument b key text named).entries = pre ++ p.withText text :: post) ∨
    (key ∉ b.keys ∧
      (setArgument b key text named).entries = b.entries ++ [added key text named]) := by
  unfold setArgument
  by_cases h : b.contains key
  · obtain ⟨pre, p, post, heq, hp, hupdate⟩ :=
      PropertyBag.updateFirst_spec (·.withValue (.string text)) (PropertyBag.mem_keys_iff.mpr h)
    exact .inl ⟨pre, p, post, heq, hp, by rw [if_pos h]; exact hupdate⟩
  · refine .inr ⟨fun hmem => h (PropertyBag.mem_keys_iff.mp hmem), ?_⟩
    have hnew : ¬b.contains (added key text named).key := h
    rw [if_neg h]
    exact congrArg PropertyBag.entries (dif_neg hnew)

/-- The state of a bag while arguments are set: entries without a value are parameters of the
template. -/
structure Setting (start b : PropertyBag) : Prop where
  keys : ∀ key ∈ start.keys, key ∈ b.keys
  blank : ∀ p ∈ b.entries, p.isBlank → p ∈ start.entries

section Steps

variable {start b : PropertyBag} {key text : String}

lemma Setting.setArgument (h : Setting start b) (htext : Text.blank text = false) (key : String)
    (named : Bool) : Setting start (setArgument b key text named) := by
  rcases setArgument_cases b key text named with ⟨pre, p, post, heq, hp, hset⟩ | ⟨-, hset⟩
  · have hkeys : (Build.setArgument b key text named).keys = b.keys := by
      simp [PropertyBag.keys, hset, heq, Property.withText, Property.withValue]
    refine ⟨fun key hkey => hkeys ▸ h.keys key hkey, fun q hq hblank => ?_⟩
    rw [hset] at hq
    rcases List.mem_append.mp hq with hmem | hmem
    · exact h.blank q (by simp [heq, hmem]) hblank
    · rcases List.mem_cons.mp hmem with rfl | hmem'
      · exact absurd hblank (by simp [Property.isBlank, Property.sourceText, Property.withText,
          Property.withValue, htext])
      · exact h.blank q (by simp [heq, hmem']) hblank
  · have hkeys : (Build.setArgument b key text named).keys = b.keys ++ [key] := by
      simp [PropertyBag.keys, hset, added, Property.withText, Property.withValue, Property.plain,
        Property.asOptional]
    refine ⟨fun key' hkey' => hkeys ▸ List.mem_append_left _ (h.keys key' hkey'), ?_⟩
    intro q hq hblank
    rw [hset] at hq
    rcases List.mem_append.mp hq with hmem | hmem
    · exact h.blank q hmem hblank
    · obtain rfl : q = added key text named := by simpa using hmem
      exact absurd hblank (by simp [added, Property.isBlank, Property.sourceText,
        Property.withText, Property.withValue, Property.asOptional, htext])

/-- The value of an argument with a key of its own is added to the values. -/
lemma filled_setArgument (h : Setting start b)
    (htext : Text.blank text = false) (hkey : key ∉ (filled b).map (·.key)) (named : Bool) :
    ∃ q, q.key = key ∧ q.sourceText = text ∧ q.optional = isByName start key named ∧
      (filled (setArgument b key text named)).Perm (q :: filled b) := by
  rcases setArgument_cases b key text named with ⟨pre, p, post, heq, rfl, hset⟩ | ⟨hnew, hset⟩
  · have hblank : p.isBlank := by
      by_contra hblank
      have hmem : p ∈ filled b := List.mem_filter.mpr ⟨by simp [heq], by simpa using hblank⟩
      exact hkey (List.mem_map_of_mem hmem)
    have hmem : p ∈ start.entries := h.blank p (by simp [heq]) hblank
    have hget := PropertyBag.get?_eq_some_iff.mpr ⟨hmem, rfl⟩
    refine ⟨p.withText text, rfl, rfl, by simp [isByName, hget, Property.withText,
      Property.withValue], ?_⟩
    have hfilled : (p.withText text).isBlank = false := htext
    simp only [filled, heq, hset, List.filter_append, List.filter_cons, hblank, hfilled]
    exact List.perm_middle
  · have hget : start.get? key = none :=
      PropertyBag.get?_eq_none_iff.mpr fun hmem => hnew (h.keys key hmem)
    refine ⟨added key text named, rfl, rfl, by simp [isByName, hget, added,
      Property.asOptional], ?_⟩
    have hfilled : (added key text named).isBlank = false := htext
    simp only [filled, hset, List.filter_append, List.filter_cons, hfilled]
    exact List.perm_append_singleton _ _

lemma mem_setArgument {named : Bool} {q : Property}
    (h : q ∈ (setArgument b key text named).entries) :
    q ∈ b.entries ∨ q = added key text named ∨
      ∃ p ∈ b.entries, p.key = key ∧ q = p.withText text := by
  rcases setArgument_cases b key text named with ⟨pre, p, post, heq, hp, hset⟩ | ⟨-, hset⟩
  · rw [hset] at h
    rw [heq]
    rcases List.mem_append.mp h with hmem | hmem
    · exact .inl (by simp [hmem])
    · rcases List.mem_cons.mp hmem with rfl | hmem'
      · exact .inr (.inr ⟨p, by simp, hp, rfl⟩)
      · exact .inl (by simp [hmem'])
  · rw [hset] at h
    rcases List.mem_append.mp h with hmem | hmem
    · exact .inl hmem
    · exact .inr (.inl (by simpa using hmem))

end Steps

/-- What an argument's property has in common with the slot of the argument. -/
def Slot.sign (slot : Slot) : String × Bool × String := (slot.key, slot.byName, slot.value.text)

def signOf (p : Property) : String × Bool × String := (p.key, p.optional, p.sourceText)

section Runs

variable {start b : PropertyBag} {names : List String} {place : Nat} {arguments : List Argument}

/-- Arguments with different keys all keep their values. -/
lemma filled_setArguments (h : Setting start b)
    (htexts : ∀ a ∈ arguments, Text.blank a.value.text = false)
    (hkeys : ((slotsFrom start names place arguments).map (·.key)).Nodup)
    (hnew : ∀ slot ∈ slotsFrom start names place arguments, slot.key ∉ (filled b).map (·.key)) :
    ((filled (setArguments start.keys names place b arguments)).map signOf).Perm
      ((slotsFrom start names place arguments).map Slot.sign ++ (filled b).map signOf) := by
  induction arguments generalizing b place with
  | nil => exact List.Perm.refl _
  | cons a arguments ih =>
    have htext := htexts a List.mem_cons_self
    have hrest : ∀ (key : String) (named : Bool) (place' : Nat),
        setArguments start.keys names place b (a :: arguments) =
          setArguments start.keys names place' (setArgument b key a.value.text named) arguments →
        slotsFrom start names place (a :: arguments) =
          ⟨key, isByName start key named, a.value⟩ :: slotsFrom start names place' arguments →
        ((filled (setArguments start.keys names place b (a :: arguments))).map signOf).Perm
          ((slotsFrom start names place (a :: arguments)).map Slot.sign ++
            (filled b).map signOf) := by
      intro key named place' hset hslots
      rw [hslots] at hkeys hnew
      obtain ⟨hfirst, hnodup⟩ := List.nodup_cons.mp hkeys
      obtain ⟨q, hkey, hsource, hname, hperm⟩ := filled_setArgument h htext
        (hnew _ List.mem_cons_self) named
      have hmore := @ih _ place' (h.setArgument htext key named)
        (fun a ha => htexts a (List.mem_cons_of_mem _ ha)) hnodup (by
          intro slot hslot hmem
          rw [(hperm.map _).mem_iff, List.map_cons, List.mem_cons] at hmem
          rcases hmem with heq | hmem
          · exact hfirst (List.mem_map.mpr ⟨slot, hslot, heq.trans hkey⟩)
          · exact hnew slot (List.mem_cons_of_mem _ hslot) hmem)
      rw [hset, hslots]
      refine hmore.trans (((hperm.map signOf).append_left _).trans ?_)
      have hsign : signOf q = Slot.sign ⟨key, isByName start key named, a.value⟩ := by
        simp [signOf, Slot.sign, hkey, hsource, hname]
      rw [List.map_cons, hsign, List.map_cons, List.cons_append]
      exact List.perm_middle
    cases hname : a.name with
    | none =>
      exact hrest (argumentKey start.keys names place) false (place + 1)
        (by simp [setArguments, hname]) (by simp [slotsFrom, hname])
    | some name =>
      exact hrest name true place (by simp [setArguments, hname]) (by simp [slotsFrom, hname])

/-- What holds of the entries of a bag and of what arguments make of them holds in the end. -/
lemma forall_setArguments {P : Property → Prop} (hb : ∀ p ∈ b.entries, P p)
    (hset : ∀ a ∈ arguments, ∀ p, P p → P (p.withText a.value.text))
    (hpositional : ∀ a ∈ arguments, ∀ key, P (added key a.value.text false))
    (hnamed : ∀ a ∈ arguments, ∀ key ∈ a.name, P (added key a.value.text true)) :
    ∀ p ∈ (setArguments start.keys names place b arguments).entries, P p := by
  induction arguments generalizing b place with
  | nil => exact hb
  | cons a arguments ih =>
    have hrest : ∀ (key : String) (named : Bool) (place' : Nat), P (added key a.value.text named) →
        ∀ p ∈ (setArguments start.keys names place'
          (setArgument b key a.value.text named) arguments).entries, P p := by
      intro key named place' hadded
      refine ih ?_ (fun a ha => hset a (List.mem_cons_of_mem _ ha))
        (fun a ha => hpositional a (List.mem_cons_of_mem _ ha))
        (fun a ha => hnamed a (List.mem_cons_of_mem _ ha))
      intro p hp
      rcases mem_setArgument hp with hmem | rfl | ⟨q, hq, -, rfl⟩
      · exact hb p hmem
      · exact hadded
      · exact hset a List.mem_cons_self q (hb q hq)
    cases hname : a.name with
    | none =>
      simp only [setArguments, hname]
      exact hrest _ false _ (hpositional a List.mem_cons_self _)
    | some name =>
      simp only [setArguments, hname]
      exact hrest _ true _ (hnamed a List.mem_cons_self name (by simp [hname]))

/-- Every value in the end belongs to the key of an argument. -/
lemma key_mem_slots {q : Property}
    (hq : q ∈ filled (setArguments start.keys names place b arguments)) :
    q ∈ filled b ∨ q.key ∈ (slotsFrom start names place arguments).map (·.key) := by
  induction arguments generalizing b place with
  | nil => exact .inl hq
  | cons a arguments ih =>
    have hrest : ∀ (key : String) (named : Bool) (place' : Nat),
        q ∈ filled (setArguments start.keys names place'
          (setArgument b key a.value.text named) arguments) →
        q ∈ filled b ∨ q.key = key ∨
          q.key ∈ (slotsFrom start names place' arguments).map (·.key) := by
      intro key named place' hq
      rcases ih hq with hmem | hmem
      · obtain ⟨hentry, hfilled⟩ := List.mem_filter.mp hmem
        rcases mem_setArgument hentry with hold | rfl | ⟨p, -, hp, rfl⟩
        · exact .inl (List.mem_filter.mpr ⟨hold, hfilled⟩)
        · exact .inr (.inl rfl)
        · exact .inr (.inl hp)
      · exact .inr (.inr hmem)
    cases hname : a.name with
    | none =>
      simp only [setArguments, hname] at hq
      simpa [slotsFrom, hname] using hrest _ false _ hq
    | some name =>
      simp only [setArguments, hname] at hq
      simpa [slotsFrom, hname] using hrest _ true _ hq

lemma setting_setArguments (h : Setting start b)
    (htexts : ∀ a ∈ arguments, Text.blank a.value.text = false) :
    Setting start (setArguments start.keys names place b arguments) := by
  induction arguments generalizing b place with
  | nil => exact h
  | cons a arguments ih =>
    have htext := htexts a List.mem_cons_self
    have hmore := fun a ha => htexts a (List.mem_cons_of_mem _ ha)
    cases hname : a.name with
    | none =>
      simp only [setArguments, hname]
      exact ih (h.setArgument htext _ false) hmore
    | some name =>
      simp only [setArguments, hname]
      exact ih (h.setArgument htext _ true) hmore

end Runs

/-! ### The arguments of a call -/

section Calls

variable {template : Option FlowNode} {names : List String} {arguments : List Argument}

/-- Parameters are no structure and have no values. -/
lemma parameters_spec {p : Property} (h : p ∈ (parameters template).entries) :
    p.isStructural = false ∧ p.isBlank := by
  cases template with
  | none => simp [parameters, PropertyBag.empty] at h
  | some n =>
    rcases PropertyBag.mem_insertAll h with hmem | hmem
    · obtain ⟨q, hq, rfl⟩ := List.mem_map.mp hmem
      obtain ⟨-, hstructural⟩ := List.mem_filter.mp hq
      exact ⟨(Bool.not_eq_true' _).mp hstructural, rfl⟩
    · simp [PropertyBag.empty] at hmem

lemma setting_parameters (template : Option FlowNode) :
    Setting (parameters template) (parameters template) :=
  ⟨fun _ h => h, fun _ h _ => h⟩

lemma filled_parameters (template : Option FlowNode) : filled (parameters template) = [] := by
  rw [filled, List.filter_eq_nil_iff]
  intro p hp
  simp [(parameters_spec hp).2]

lemma key_mem_of_filled {p : Property}
    (hp : p ∈ filled (argumentProperties arguments template names)) :
    p.key ∈ (slots template names arguments).map (·.key) := by
  rcases key_mem_slots hp with hmem | hmem
  · have hnil : p ∈ filled (parameters template) := hmem
    simp [filled_parameters] at hnil
  · exact hmem

/-- The entries of a call's properties that are written as arguments. -/
def given (template : Option FlowNode) (names : List String) (arguments : List Argument) :
    List Property :=
  (argumentProperties arguments template names).entries.filter fun p =>
    !p.isStructural && !p.isBlank

/-- Every value is written once if the keys of the arguments differ and none is structural. -/
theorem given_perm (htexts : ∀ a ∈ arguments, Text.blank a.value.text = false)
    (hkeys : ((slots template names arguments).map (·.key)).Nodup)
    (hfree : ∀ slot ∈ slots template names arguments, slot.key ∉ Property.structuralKeys) :
    ((given template names arguments).map signOf).Perm
      ((slots template names arguments).map Slot.sign) := by
  have hperm := filled_setArguments (setting_parameters template) htexts hkeys
    (by simp [filled_parameters])
  rw [filled_parameters, List.map_nil, List.append_nil] at hperm
  have hgiven : given template names arguments =
      filled (argumentProperties arguments template names) := by
    refine List.filter_congr fun p hp => ?_
    cases hblank : p.isBlank with
    | true => simp
    | false =>
      have hmem : signOf p ∈ (slots template names arguments).map Slot.sign :=
        hperm.mem_iff.mp (List.mem_map_of_mem (List.mem_filter.mpr ⟨hp, by simp [hblank]⟩))
      obtain ⟨slot, hslot, hsign⟩ := List.mem_map.mp hmem
      have hkey : slot.key = p.key := congrArg Prod.fst hsign
      have hstructural : p.isStructural = false := by
        simpa [Property.isStructural, hkey] using hfree slot hslot
      simp [hstructural]
  rw [hgiven]
  exact hperm

/-- If as many values are written as there are arguments, the keys differ and none is structural. -/
theorem slots_of_length_given
    (hlength : (given template names arguments).length =
      (slots template names arguments).length) :
    ((slots template names arguments).map (·.key)).Nodup ∧
      ∀ slot ∈ slots template names arguments, slot.key ∉ Property.structuralKeys := by
  have hnodup : ((given template names arguments).map (·.key)).Nodup :=
    (argumentProperties arguments template names).nodup.sublist ((List.filter_sublist).map _)
  have hsubset : (given template names arguments).map (·.key) ⊆
      (slots template names arguments).map (·.key) := by
    intro key hkey
    obtain ⟨p, hp, rfl⟩ := List.mem_map.mp hkey
    obtain ⟨hentry, hgiven⟩ := List.mem_filter.mp hp
    rw [Bool.and_eq_true] at hgiven
    exact key_mem_of_filled (List.mem_filter.mpr ⟨hentry, hgiven.2⟩)
  have hperm : ((given template names arguments).map (·.key)).Perm
      ((slots template names arguments).map (·.key)) :=
    (hnodup.subperm hsubset).perm_of_length_le (by simp [hlength])
  refine ⟨hperm.nodup_iff.mp hnodup, fun slot hslot hstructural => ?_⟩
  obtain ⟨p, hp, hkey⟩ := List.mem_map.mp (hperm.mem_iff.mpr (List.mem_map_of_mem hslot))
  obtain ⟨-, hgiven⟩ := List.mem_filter.mp hp
  rw [Bool.and_eq_true] at hgiven
  have hfree : ¬p.isStructural := by simpa using hgiven.1
  exact hfree (by simpa [Property.isStructural, hkey] using hstructural)

/-- An entry with a structural key has a value. -/
lemma filled_of_structural (htexts : ∀ a ∈ arguments, Text.blank a.value.text = false)
    {p : Property} (hp : p ∈ (argumentProperties arguments template names).entries)
    (hstructural : p.isStructural) : p.isBlank = false := by
  by_contra hblank
  have hmem : p ∈ (parameters template).entries :=
    (setting_setArguments (setting_parameters template) htexts).blank p hp (by simpa using hblank)
  rw [(parameters_spec hmem).1] at hstructural
  simp at hstructural

/-- Without structural keys among the arguments there are none among the entries. -/
lemma not_structural_of_slots (htexts : ∀ a ∈ arguments, Text.blank a.value.text = false)
    (hfree : ∀ slot ∈ slots template names arguments, slot.key ∉ Property.structuralKeys)
    {p : Property} (hp : p ∈ (argumentProperties arguments template names).entries) :
    p.isStructural = false := by
  by_contra hstructural
  rw [Bool.not_eq_false] at hstructural
  have hfilled : p ∈ filled (argumentProperties arguments template names) :=
    List.mem_filter.mpr ⟨hp, by simp [filled_of_structural htexts hp hstructural]⟩
  obtain ⟨slot, hslot, hkey⟩ := List.mem_map.mp (key_mem_of_filled hfilled)
  refine hfree slot hslot ?_
  rw [hkey]
  simpa [Property.isStructural] using hstructural

/-- Every entry is blank or has the text of an argument. -/
lemma blank_or_argument {p : Property}
    (hp : p ∈ (argumentProperties arguments template names).entries) :
    p.isBlank ∨ ∃ a ∈ arguments, p.sourceText = a.value.text := by
  refine forall_setArguments (P := fun p => p.isBlank ∨ ∃ a ∈ arguments,
    p.sourceText = a.value.text) ?_ ?_ ?_ ?_ p hp
  · exact fun q hq => .inl (parameters_spec hq).2
  · exact fun a ha q _ => .inr ⟨a, ha, rfl⟩
  · exact fun a ha key => .inr ⟨a, ha, rfl⟩
  · exact fun a ha key _ => .inr ⟨a, ha, rfl⟩

end Calls

end Build

end FlowCanvas
