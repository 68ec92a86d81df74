import FlowCanvas.Json.Writer
import FlowCanvas.Node.Kind
import FlowCanvas.Text.Blank

/-!
# Properties of a node

A property is a value with what an editor needs to show it. A node holds its properties in a bag,
an ordered map: a property with a new key goes to the end, one with a known key takes the place of
the old one. Call arguments are written in the order of the bag.
-/

namespace FlowCanvas

structure Property where
  key : String
  label : String
  description : String
  valueType : ValueType
  value : Json
  optional : Bool
  editable : Bool
  defaultValue : Option Json
deriving Inhabited, Repr

namespace Property

/-- A required, editable property without a value. -/
def plain (key label : String) (valueType : ValueType) : Property :=
  ⟨key, label, "", valueType, .null, false, true, none⟩

def withValue (p : Property) (value : Json) : Property := { p with value := value }

def withText (p : Property) (text : String) : Property := p.withValue (.string text)

/-- Sets the default and the current value. -/
def withDefault (p : Property) (value : Json) : Property :=
  { p with value := value, defaultValue := some value }

def describedAs (p : Property) (description : String) : Property :=
  { p with description := description }

def asOptional (p : Property) (flag : Bool) : Property := { p with optional := flag }

def asEditable (p : Property) (flag : Bool) : Property := { p with editable := flag }

/-- The name of a declared or assigned variable. -/
def ofVariable (name : String) : Property :=
  ((plain "variable" "Variable" .identifier).withText name).describedAs "Name of the variable"

/-- The type of a declared variable. -/
def ofType (type : String) : Property :=
  ((plain "type" "Type" .type).withText type).describedAs "Type of the variable"

/-- The connection that an action is called on. -/
def ofConnection (name : String) : Property :=
  ((plain "connection" "Connection" .identifier).withText name).asEditable false

def ofExpression (text : String) : Property :=
  (plain "expression" "Expression" .expression).withText text

def ofCondition (text : String) : Property :=
  ((plain "condition" "Condition" .expression).withText text).describedAs "Boolean condition"

/-- Where a connection is declared. -/
def ofTier (tier : Tier) : Property :=
  ((plain "scope" "Connection Scope" .enum).withText tier.word).describedAs
    "Where the connection is declared"

/-- The name of a mapping function. -/
def functionName : Property := plain "functionName" "Function" .identifier

/-- The arguments of a mapping function. -/
def inputs : Property := plain "inputs" "Inputs" .expression

/-- The keys that describe the form of a call and are no arguments of it. -/
def structuralKeys : List String := ["connection", "variable", "type", "targetType", "scope"]

def isStructural (p : Property) : Bool := structuralKeys.contains p.key

/-- The value as source text; no value is no text. -/
def sourceText (p : Property) : String :=
  match p.value with
  | .null => ""
  | .string s => s
  | other => other.compact

/-- Whether the source text holds blanks only. -/
def isBlank (p : Property) : Bool := Text.blank p.sourceText

end Property

/-- An ordered map of properties by key: no two of its properties have one key. -/
@[ext]
structure PropertyBag where
  entries : List Property
  nodup : (entries.map (·.key)).Nodup
deriving Repr

namespace PropertyBag

def empty : PropertyBag := ⟨[], List.nodup_nil⟩

instance : Inhabited PropertyBag := ⟨empty⟩

def keys (b : PropertyBag) : List String := b.entries.map (·.key)

def isEmpty (b : PropertyBag) : Bool := b.entries.isEmpty

def size (b : PropertyBag) : Nat := b.entries.length

def contains (b : PropertyBag) (key : String) : Bool := b.entries.any fun p => p.key == key

theorem mem_keys_iff {b : PropertyBag} {key : String} : key ∈ b.keys ↔ b.contains key := by
  simp [keys, contains]

def get? (b : PropertyBag) (key : String) : Option Property :=
  b.entries.find? fun p => p.key == key

/-- Changes the first entry with a key. -/
def updateFirst (key : String) (f : Property → Property) : List Property → List Property
  | [] => []
  | p :: ps => if p.key == key then f p :: ps else p :: updateFirst key f ps

theorem keys_updateFirst {key : String} {f : Property → Property}
    (hf : ∀ p, p.key = key → (f p).key = key) (ps : List Property) :
    (updateFirst key f ps).map (·.key) = ps.map (·.key) := by
  induction ps with
  | nil => rfl
  | cons p ps ih =>
    by_cases hp : p.key = key
    · simp [updateFirst, hp, hf p hp]
    · simp [updateFirst, hp, ih]

/-- Changes the property with a key, if it is there. It keeps its key. -/
def update (b : PropertyBag) (key : String) (f : Property → Property)
    (hf : ∀ p, p.key = key → (f p).key = key) : PropertyBag :=
  ⟨updateFirst key f b.entries, by rw [keys_updateFirst hf]; exact b.nodup⟩

/-- Puts a property with a new key at the end. -/
def push (b : PropertyBag) (p : Property) (h : ¬b.contains p.key) : PropertyBag :=
  ⟨b.entries ++ [p], by
    rw [List.map_append, List.nodup_append]
    refine ⟨b.nodup, by simp, ?_⟩
    rintro key hkey other hother rfl
    rw [List.map_singleton, List.mem_singleton] at hother
    exact h (mem_keys_iff.mp (hother ▸ hkey))⟩

/-- Puts a property in the place of the one with its key, or at the end. -/
def insert (b : PropertyBag) (p : Property) : PropertyBag :=
  if h : b.contains p.key then b.update p.key (fun _ => p) (fun _ _ => rfl) else b.push p h

/-- Puts a property at the end unless its key is there. -/
def insertIfAbsent (b : PropertyBag) (p : Property) : PropertyBag :=
  if h : b.contains p.key then b else b.push p h

/-- Puts properties in, one after the other. -/
def insertAll (b : PropertyBag) (ps : List Property) : PropertyBag := ps.foldl insert b

def ofList (ps : List Property) : PropertyBag := empty.insertAll ps

/-- Changes the value of the property with a key, if it is there. -/
def setValue (b : PropertyBag) (key : String) (value : Json) : PropertyBag :=
  b.update key (·.withValue value) fun _ h => h

/-- Takes the property with a key out. -/
def remove (b : PropertyBag) (key : String) : PropertyBag :=
  ⟨b.entries.eraseP fun p => p.key == key, b.nodup.sublist (List.eraseP_sublist.map _)⟩

/-- The source text of a property that is there and not blank. -/
def text? (b : PropertyBag) (key : String) : Option String :=
  match b.get? key with
  | some p => if p.isBlank then none else some p.sourceText
  | none => none

/-- The source text of a property that a node of a kind needs. -/
def require (b : PropertyBag) (kind : NodeKind) (key : String) : Except BuildError String :=
  match b.text? key with
  | some text => .ok text
  | none => .error (.missingProperty kind key)

end PropertyBag

end FlowCanvas
