import FlowCanvas.Proofs.CallNodes
import FlowCanvas.Proofs.NodeTexts

/-!
# Bags in the order of insertion

A bag of properties is a map that remembers the order in which its keys came in. Whatever is done to
a bag that was empty, collected or read, its keys differ: a new key goes to the end, a known one
keeps its place, and a key that is taken out leaves no gap. The properties of a call's arguments are
the parameters of the template, and behind them the other keys in the order of their first use.
-/

namespace FlowCanvas

/-! ### Ordered maps -/

/-- Keys that stand in an order, with a value for each of them. -/
structure OrderedMap (ν : Type) where
  keys : List String
  value : String → Option ν
  nodup : keys.Nodup
  mem_keys : ∀ key, key ∈ keys ↔ (value key).isSome

/-- Keys with one more, which goes to the end if it is new. -/
def withKey (keys : List String) (key : String) : List String :=
  if key ∈ keys then keys else keys ++ [key]

lemma mem_withKey {keys : List String} {key other : String} :
    other ∈ withKey keys key ↔ other = key ∨ other ∈ keys := by
  unfold withKey
  split_ifs with h
  · exact ⟨.inr, fun hor => hor.elim (fun heq => heq ▸ h) id⟩
  · rw [List.mem_append, List.mem_singleton, or_comm]

lemma nodup_withKey {keys : List String} (h : keys.Nodup) (key : String) :
    (withKey keys key).Nodup := by
  unfold withKey
  split_ifs with hmem
  · exact h
  · exact List.concat_eq_append ▸ h.concat hmem

namespace OrderedMap

variable {ν : Type}

def empty : OrderedMap ν := ⟨[], fun _ => none, List.nodup_nil, by simp⟩

/-- Gives a key a value. A known key keeps its place, a new one goes to the end. -/
def put (m : OrderedMap ν) (key : String) (v : ν) : OrderedMap ν where
  keys := withKey m.keys key
  value := Function.update m.value key (some v)
  nodup := nodup_withKey m.nodup key
  mem_keys other := by
    by_cases h : other = key <;> simp [mem_withKey, h, m.mem_keys]

/-- Gives a key a value unless it has one. -/
def putIfAbsent (m : OrderedMap ν) (key : String) (v : ν) : OrderedMap ν :=
  if key ∈ m.keys then m else m.put key v

/-- Changes the value of a key, if it has one. -/
def modify (m : OrderedMap ν) (key : String) (f : ν → ν) : OrderedMap ν where
  keys := m.keys
  value := Function.update m.value key ((m.value key).map f)
  nodup := m.nodup
  mem_keys other := by
    by_cases h : other = key <;> simp [h, m.mem_keys]

/-- Takes a key out. The keys behind it move up. -/
def remove (m : OrderedMap ν) (key : String) : OrderedMap ν where
  keys := m.keys.erase key
  value := Function.update m.value key none
  nodup := m.nodup.erase key
  mem_keys other := by
    by_cases h : other = key <;> simp [m.nodup.mem_erase_iff, h, m.mem_keys]

lemma value_put (m : OrderedMap ν) (key : String) (v : ν) (other : String) :
    (m.put key v).value other = if other = key then some v else m.value other :=
  Function.update_apply m.value key (some v) other

lemma value_modify (m : OrderedMap ν) (key : String) (f : ν → ν) (other : String) :
    (m.modify key f).value other = if other = key then (m.value key).map f else m.value other :=
  Function.update_apply m.value key ((m.value key).map f) other

lemma value_remove (m : OrderedMap ν) (key other : String) :
    (m.remove key).value other = if other = key then none else m.value other :=
  Function.update_apply m.value key none other

/-- The values in the order of their keys. -/
def toList (m : OrderedMap ν) : List ν := m.keys.filterMap m.value

/-- Puts properties in by their keys, one after the other. -/
def putAll (m : OrderedMap Property) (ps : List Property) : OrderedMap Property :=
  ps.foldl (fun m p => m.put p.key p) m

end OrderedMap

/-! ### Bags as ordered maps -/

namespace PropertyBag

variable {b : PropertyBag}

lemma keys_insert (b : PropertyBag) (p : Property) : (b.insert p).keys = withKey b.keys p.key := by
  unfold insert withKey
  by_cases h : b.contains p.key
  · rw [dif_pos h, if_pos (mem_keys_iff.mpr h)]
    exact keys_updateFirst (fun _ _ => rfl) b.entries
  · rw [dif_neg h, if_neg (mt mem_keys_iff.mp h), keys, push, List.map_append]
    rfl

lemma keys_setValue (b : PropertyBag) (key : String) (value : Json) :
    (b.setValue key value).keys = b.keys :=
  keys_updateFirst (f := (·.withValue value)) (fun _ h => h) b.entries

lemma get?_setValue (b : PropertyBag) (key : String) (value : Json) (other : String) :
    (b.setValue key value).get? other =
      if other = key then (b.get? key).map (·.withValue value) else b.get? other :=
  find?_updateFirst (f := (·.withValue value)) (fun _ h => h) b.entries other

lemma keys_remove (b : PropertyBag) (key : String) : (b.remove key).keys = b.keys.erase key := by
  rw [keys, keys, List.erase_eq_eraseP', List.eraseP_map]
  rfl

lemma get?_remove (b : PropertyBag) (key other : String) :
    (b.remove key).get? other = if other = key then none else b.get? other := by
  split_ifs with hother
  · rw [get?_eq_none_iff, keys_remove, hother]
    exact b.nodup.not_mem_erase
  · show (b.entries.eraseP fun p => p.key == key).find? _ = b.entries.find? _
    obtain heq | ⟨p, pre, post, -, hp, heq, herase⟩ :=
      List.exists_or_eq_self_of_eraseP (fun p : Property => p.key == key) b.entries
    · rw [heq]
    · have hne : p.key ≠ other := fun hkey => hother (hkey ▸ by simpa using hp)
      rw [herase, heq, List.find?_append, List.find?_append,
        List.find?_cons_of_neg (by simpa using hne)]

/-- A bag is what its keys look up. -/
lemma entries_eq_filterMap (b : PropertyBag) : b.entries = b.keys.filterMap b.get? := by
  have hself : ∀ p ∈ b.entries, b.get? p.key = some p := fun p hp =>
    get?_eq_some_iff.mpr ⟨hp, rfl⟩
  calc b.entries = b.entries.filterMap some := List.filterMap_some.symm
    _ = b.entries.filterMap (b.get? ∘ (·.key)) :=
        List.filterMap_congr fun p hp => (hself p hp).symm
    _ = b.keys.filterMap b.get? := List.filterMap_map.symm

/-- A bag that has the keys of a map, in the same order and with the same values. -/
structure Represents (b : PropertyBag) (m : OrderedMap Property) : Prop where
  keys : b.keys = m.keys
  values : ∀ key, b.get? key = m.value key

namespace Represents

variable {m : OrderedMap Property}

lemma entries (h : b.Represents m) : b.entries = m.toList := by
  rw [entries_eq_filterMap, h.keys, funext h.values, OrderedMap.toList]

lemma empty : PropertyBag.empty.Represents .empty := ⟨rfl, fun _ => rfl⟩

lemma insert (h : b.Represents m) (p : Property) : (b.insert p).Represents (m.put p.key p) where
  keys := by rw [keys_insert, h.keys, OrderedMap.put]
  values key := by rw [get?_insert, h.values, OrderedMap.value_put]

lemma insertIfAbsent (h : b.Represents m) (p : Property) :
    (b.insertIfAbsent p).Represents (m.putIfAbsent p.key p) := by
  have hinsert := h.insert p
  unfold PropertyBag.insertIfAbsent OrderedMap.putIfAbsent
  rw [← h.keys]
  by_cases hp : b.contains p.key
  · rwa [dif_pos hp, if_pos (mem_keys_iff.mpr hp)]
  · rw [PropertyBag.insert, dif_neg hp] at hinsert
    rwa [dif_neg hp, if_neg (mt mem_keys_iff.mp hp)]

lemma setValue (h : b.Represents m) (key : String) (value : Json) :
    (b.setValue key value).Represents (m.modify key (·.withValue value)) where
  keys := by rw [keys_setValue, h.keys, OrderedMap.modify]
  values other := by rw [get?_setValue, h.values, h.values, OrderedMap.value_modify]

lemma remove (h : b.Represents m) (key : String) :
    (b.remove key).Represents (m.remove key) where
  keys := by rw [keys_remove, h.keys, OrderedMap.remove]
  values other := by rw [get?_remove, h.values, OrderedMap.value_remove]

lemma insertAll (h : b.Represents m) (ps : List Property) :
    (b.insertAll ps).Represents (m.putAll ps) := by
  induction ps generalizing b m with
  | nil => exact h
  | cons p ps ih => exact ih (h.insert p)

end Represents

/-! ### Properties with different keys -/

/-- Properties with keys of their own are put in one behind the other. -/
lemma entries_insertAll {ps : List Property} (h : (b.keys ++ ps.map (·.key)).Nodup) :
    (b.insertAll ps).entries = b.entries ++ ps := by
  induction ps generalizing b with
  | nil => exact (List.append_nil _).symm
  | cons p ps ih =>
    have hnew : ¬b.contains p.key := fun hthere =>
      (List.nodup_append.mp h).2.2 _ (mem_keys_iff.mpr hthere) p.key List.mem_cons_self rfl
    have hinsert : b.insert p = b.push p hnew := dif_neg hnew
    rw [insertAll_cons, hinsert, ih (by simpa [push, keys] using h), push, List.append_assoc,
      List.singleton_append]

end PropertyBag

namespace Build

open PropertyBag

/-! ### Where bags come from -/

/-- Where a bag comes from before anything is done to it. -/
inductive Origin where
  | empty
  | collected (ps : List Property)
  | read (j : Json)

namespace Origin

/-- The bag; what is read may be no bag. -/
def bag? : Origin → Option PropertyBag
  | empty => some .empty
  | collected ps => some (.ofList ps)
  | read j => PropertyBag.ofJson? j

/-- The properties that come in, in their order. -/
def properties : Origin → List Property
  | empty => []
  | collected ps => ps
  | read j => propertiesOf (j.asObject?.getD [])

/-- The map that the properties give when they are put in one after the other. -/
def map (origin : Origin) : OrderedMap Property := OrderedMap.empty.putAll origin.properties

lemma represents {origin : Origin} {b : PropertyBag} (h : origin.bag? = some b) :
    b.Represents origin.map := by
  have hcollected : (PropertyBag.ofList origin.properties).Represents origin.map :=
    Represents.empty.insertAll _
  cases origin with
  | empty => exact Option.some.inj h ▸ hcollected
  | collected ps => exact Option.some.inj h ▸ hcollected
  | read j =>
    obtain ⟨members, hmembers, hread⟩ := Option.bind_eq_some_iff.mp h
    have hentries : b.entries = propertiesOf members := entries_ofMembers? hread
    -- The keys differ, so collecting the properties that were read replaces none of them.
    have hsame : PropertyBag.ofList (propertiesOf members) = b :=
      PropertyBag.ext ((entries_insertAll (hentries ▸ b.nodup)).trans hentries.symm)
    rw [properties, hmembers, Option.getD_some, hsame] at hcollected
    exact hcollected

end Origin

/-! ### What is done to bags -/

/-- What is done to the properties of a node. -/
inductive Operation where
  | insert (p : Property)
  | insertIfAbsent (p : Property)
  | remove (key : String)
  | setValue (key : String) (value : Json)
  | setArgument (key text : String) (named : Bool)
  | applyTemplate (template : FlowNode)
  | bind (s : Site)

namespace Operation

/-- What an operation makes of a node. -/
def run (n : FlowNode) : Operation → FlowNode
  | insert p => n.withProperty p
  | insertIfAbsent p => { n with properties := n.properties.insertIfAbsent p }
  | remove key => { n with properties := n.properties.remove key }
  | setValue key value => { n with properties := n.properties.setValue key value }
  | setArgument key text named =>
    { n with properties := Build.setArgument n.properties key text named }
  | applyTemplate template => Template.apply n template
  | bind s => Build.bind n s

/-- What an operation makes of an ordered map. -/
def change (m : OrderedMap Property) : Operation → OrderedMap Property
  | insert p => m.put p.key p
  | insertIfAbsent p => m.putIfAbsent p.key p
  | remove key => m.remove key
  | setValue key value => m.modify key (·.withValue value)
  | setArgument key text named =>
    if key ∈ m.keys then m.modify key (·.withText text) else m.put key (added key text named)
  | applyTemplate template => m.putAll template.properties.entries
  | bind s => m.putAll (boundProperties s)

lemma represents_setArgument {b : PropertyBag} {m : OrderedMap Property} (h : b.Represents m)
    (key text : String) (named : Bool) :
    (Build.setArgument b key text named).Represents ((setArgument key text named).change m) := by
  rw [change, ← h.keys]
  unfold Build.setArgument
  by_cases hkey : b.contains key
  · rw [if_pos hkey, if_pos (mem_keys_iff.mpr hkey)]
    exact h.setValue key (.string text)
  · rw [if_neg hkey, if_neg (mt mem_keys_iff.mp hkey)]
    exact h.insert (added key text named)

/-- The metadata and flags of a template leave the properties as they are. -/
lemma properties_apply (n template : FlowNode) : (Template.apply n template).properties =
    n.properties.insertAll template.properties.entries := by
  unfold Template.apply Template.withMetadata
  split_ifs <;> rfl

/-- An operation on the properties of a node is the one on the map. -/
lemma represents_run {n : FlowNode} {m : OrderedMap Property} (h : n.properties.Represents m)
    (operation : Operation) : (operation.run n).properties.Represents (operation.change m) := by
  cases operation with
  | insert p => exact h.insert p
  | insertIfAbsent p => exact h.insertIfAbsent p
  | remove key => exact h.remove key
  | setValue key value => exact h.setValue key value
  | setArgument key text named => exact represents_setArgument h key text named
  | applyTemplate template =>
    rw [run, properties_apply]
    exact h.insertAll template.properties.entries
  | bind s =>
    rw [run, bind_eq]
    exact h.insertAll (boundProperties s)

/-- Operations on the properties of a node are those on the map. -/
theorem represents_foldl {n : FlowNode} {m : OrderedMap Property} (h : n.properties.Represents m)
    (operations : List Operation) :
    (operations.foldl run n).properties.Represents (operations.foldl change m) := by
  induction operations generalizing n m with
  | nil => exact h
  | cons operation operations ih => exact ih (represents_run h operation)

end Operation

/-! ### The keys of arguments -/

/-- The keys that are used without being known, in the order of their first use. -/
def newKeys (known used : List String) : List String := (used.filter (· ∉ known)).eraseDups

/-- A key that is used first is known from then on. -/
lemma newKeys_cons (known used : List String) (key : String) :
    known ++ newKeys known (key :: used) =
      withKey known key ++ newKeys (withKey known key) used := by
  unfold newKeys withKey
  split_ifs with h
  · rw [List.filter_cons_of_neg (by simpa using h)]
  · have hrest : (used.filter (· ∉ known)).filter (fun other => !other == key) =
        used.filter (· ∉ known ++ [key]) := by
      rw [List.filter_filter]
      refine List.filter_congr fun other _ => ?_
      simp [List.mem_append, not_or, and_comm, beq_eq_decide]
    rw [List.filter_cons_of_pos (by simpa using h), List.eraseDups_cons, hrest, List.append_assoc]
    rfl

lemma keys_setArgument (b : PropertyBag) (key text : String) (named : Bool) :
    (setArgument b key text named).keys = withKey b.keys key := by
  unfold setArgument
  by_cases h : b.contains key
  · rw [if_pos h, keys_setValue, withKey, if_pos (mem_keys_iff.mpr h)]
  · rw [if_neg h, keys_insert]
    rfl

/-- Arguments with unknown keys go behind the keys that are there. -/
lemma keys_setArguments (start b : PropertyBag) (names : List String) (place : ℕ)
    (arguments : List Argument) :
    (setArguments start.keys names place b arguments).keys =
      b.keys ++ newKeys b.keys ((slotsFrom start names place arguments).map (·.key)) := by
  induction arguments generalizing b place with
  | nil => exact (List.append_nil _).symm
  | cons a arguments ih =>
    cases hname : a.name with
    | none =>
      simp only [setArguments, slotsFrom, hname]
      rw [ih, keys_setArgument, List.map_cons, newKeys_cons]
    | some name =>
      simp only [setArguments, slotsFrom, hname]
      rw [ih, keys_setArgument, List.map_cons, newKeys_cons]

/-- The keys of a template that are not structural, in the order of the template. -/
def parameterKeys (template : Option FlowNode) : List String :=
  ((template.map (·.properties.keys)).getD []).filter (· ∉ Property.structuralKeys)

lemma keys_parameters (template : Option FlowNode) :
    (parameters template).keys = parameterKeys template := by
  cases template with
  | none => rfl
  | some t =>
    have hkeys : (((t.properties.entries.filter (!·.isStructural)).map
        (·.withValue .null)).map (·.key)) = parameterKeys (some t) := by
      rw [List.map_map, parameterKeys, Option.map_some, Option.getD_some, PropertyBag.keys,
        List.filter_map]
      congr 1
      refine List.filter_congr fun p _ => ?_
      simp [Property.isStructural]
    have hnodup : (parameterKeys (some t)).Nodup := t.properties.nodup.filter _
    rw [parameters, Option.map_some, Option.getD_some, parametersOf, PropertyBag.ofList,
      PropertyBag.keys, entries_insertAll (hkeys ▸ hnodup), ← hkeys]
    rfl

/-! ### The order of a bag -/

/-- Whatever is done to the properties of a node, they are the ordered map on which the same is
done: their keys differ and stand in the order in which they came in. The keys of a call's
arguments are those of the template, then the new ones by their first use. -/
theorem operations_keep_order :
    (∀ (origin : Origin) (operations : List Operation) (n : FlowNode),
      origin.bag? = some n.properties →
      let bag := (operations.foldl Operation.run n).properties
      let map := operations.foldl Operation.change origin.map
      bag.keys.Nodup ∧ bag.keys = map.keys ∧ (∀ key, bag.get? key = map.value key) ∧
        bag.entries = map.toList) ∧
    ∀ (arguments : List Argument) (template : Option FlowNode) (names : List String),
      (argumentProperties arguments template names).keys =
        parameterKeys template ++ newKeys (parameterKeys template)
          ((slots template names arguments).map (·.key)) := by
  refine ⟨fun origin operations n horigin => ?_, fun arguments template names => ?_⟩
  · have hrun := Operation.represents_foldl (Origin.represents horigin) operations
    exact ⟨PropertyBag.nodup _, hrun.keys, hrun.values, hrun.entries⟩
  · rw [← keys_parameters]
    exact keys_setArguments (parameters template) (parameters template) names 0 arguments

/-- A bag that was read, on which everything is done once, and a call with a parameter given by its
place, one given by its name, one with a structural name and a name that comes twice. -/
theorem operations_keep_order_read :
    let origin : Origin := .read (.object [("url", .object [("valueType", .string "EXPRESSION")]),
      ("type", .object [("valueType", .string "TYPE")])])
    let n : FlowNode := (FlowNode.ofKind .actionCall).withProperties
      [.plain "url" "" .expression, .plain "type" "" .type]
    let t : FlowNode := (FlowNode.ofKind .actionCall).withProperties
      [.ofConnection "client", .plain "path" "" .expression, .plain "url" "" .expression]
    let s : Site := { Site.ofSpan default with
      declaration := some ⟨[], [], [], "x", none, default⟩ }
    let operations : List Operation := [.setArgument "body" "1" true, .remove "url",
      .insertIfAbsent (.ofType "int"), .insert (.ofType "string"), .applyTemplate t,
      .setValue "path" .null, .bind s]
    let bag := (operations.foldl Operation.run n).properties
    let map := operations.foldl Operation.change origin.map
    let arguments : List Argument := [⟨none, ⟨default, []⟩⟩, ⟨some "type", ⟨default, []⟩⟩,
      ⟨some "body", ⟨default, []⟩⟩, ⟨none, ⟨default, []⟩⟩, ⟨some "body", ⟨default, []⟩⟩]
    origin.bag? = some n.properties ∧
      (bag.keys.Nodup ∧ bag.keys = map.keys ∧ (∀ key, bag.get? key = map.value key) ∧
        bag.entries = map.toList) ∧
      bag.keys = ["type", "body", "connection", "path", "url", "variable"] ∧
      (argumentProperties arguments (some t) []).keys = ["path", "url", "type", "body"] := by
  intro origin n t s operations bag map arguments
  have horigin : origin.bag? = some n.properties := by rfl
  have hkeys : bag.keys = ["type", "body", "connection", "path", "url", "variable"] := by
    decide +kernel
  refine ⟨horigin, operations_keep_order.1 origin operations n horigin, hkeys, ?_⟩
  exact (operations_keep_order.2 arguments (some t) []).trans (by decide +kernel)

end Build

end FlowCanvas
