import FlowCanvas.Decimal.Shortest

/-!
# JSON values

Members of an object keep their order and may repeat; a reader decides what that means. A part
that is well formed and yet has no value, such as a number out of range, is `unreadable`: it can
be passed over but not used.
-/

namespace FlowCanvas

inductive Json where
  | null
  | bool (value : Bool)
  | integer (value : Int)
  | double (value : Double)
  | string (value : String)
  | array (items : List Json)
  | object (members : List (String × Json))
  | unreadable
deriving Inhabited, Repr

namespace Json

def asString? : Json → Option String
  | .string s => some s
  | _ => none

def asBool? : Json → Option Bool
  | .bool b => some b
  | _ => none

def asArray? : Json → Option (List Json)
  | .array items => some items
  | _ => none

def asObject? : Json → Option (List (String × Json))
  | .object members => some members
  | _ => none

/-- A whole number below `2 ^ 32`. -/
def asWord? : Json → Option Nat
  | .integer n => if 0 ≤ n ∧ n < UInt32.size then some n.toNat else none
  | _ => none

/-- One of the words of an enumeration: a string, or an object whose only member has that name and
no value. -/
def asWordOf? {α : Type} (read : String → Option α) : Json → Option α
  | .string s => read s
  | .object [(s, .null)] => read s
  | _ => none

/-- Whether a member is given twice. -/
def repeats (members : List (String × Json)) (name : String) : Bool :=
  2 ≤ (members.filter fun m => m.1 == name).length

/-- The members `names` of a record, in this order. A record is written as an object without
repeated members among these, or as an array of its first values. -/
def record? (names : List String) : Json → Option (List (Option Json))
  | .object members =>
    if names.any (repeats members) then none
    else some (names.map fun name => (members.find? fun m => m.1 == name).map Prod.snd)
  | .array items =>
    if items.length ≤ names.length then
      some (items.map some ++ List.replicate (names.length - items.length) none)
    else none
  | _ => none

/-- A member that has to be there. -/
def required {α : Type} (read : Json → Option α) : Option Json → Option α
  | some j => read j
  | none => none

/-- A member that stands for `value` when it is left out. -/
def orElse {α : Type} (value : α) (read : Json → Option α) : Option Json → Option α
  | some j => read j
  | none => some value

/-- A member that may be left out or be `null`. -/
def optional {α : Type} (read : Json → Option α) : Option Json → Option (Option α)
  | none => some none
  | some .null => some none
  | some j => (read j).map some

/-- Reads every item of an array. -/
def listOf? {α : Type} (read : Json → Option α) (j : Json) : Option (List α) :=
  j.asArray?.bind (·.mapM read)

/-- Puts a member into a list sorted by name; a later value replaces an earlier one. -/
def putSorted (name : String) (value : Json) : List (String × Json) → List (String × Json)
  | [] => [(name, value)]
  | (n, v) :: rest =>
    if name = n then (name, value) :: rest
    else if name < n then (name, value) :: (n, v) :: rest
    else (n, v) :: putSorted name value rest

mutual

/-- The value with the members of every object sorted by name, the last one of a name kept. There
is none for a value with an unreadable part. -/
def canonical? : Json → Option Json
  | .null => some .null
  | .bool b => some (.bool b)
  | .integer n => some (.integer n)
  | .double d => some (.double d)
  | .string s => some (.string s)
  | .array items => (canonicalItems? items).map .array
  | .object members => (canonicalMembers? [] members).map .object
  | .unreadable => none

def canonicalItems? : List Json → Option (List Json)
  | [] => some []
  | j :: js => do
    let first ← canonical? j
    let others ← canonicalItems? js
    return first :: others

def canonicalMembers? (sorted : List (String × Json)) :
    List (String × Json) → Option (List (String × Json))
  | [] => some sorted
  | (name, j) :: rest => do
    let value ← canonical? j
    canonicalMembers? (putSorted name value sorted) rest

end

mutual

/-- How many arrays and objects stand inside each other. -/
def height : Json → Nat
  | .array items => heightItems items + 1
  | .object members => heightMembers members + 1
  | _ => 0

def heightItems : List Json → Nat
  | [] => 0
  | j :: js => max (height j) (heightItems js)

def heightMembers : List (String × Json) → Nat
  | [] => 0
  | (_, j) :: rest => max (height j) (heightMembers rest)

end

end Json

end FlowCanvas
