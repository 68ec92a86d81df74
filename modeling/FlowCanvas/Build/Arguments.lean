import FlowCanvas.Node.Basic
import FlowCanvas.Source.Expression

/-!
# Arguments as properties

The arguments of a call become properties. A positional argument takes the key of the template's
parameter at its place, or the name of the declared parameter there, or `arg` and its place; a
named one takes its name. Arguments that the template does not know come after its parameters.
-/

namespace FlowCanvas.Build

/-- The parameters of a template without values. -/
def parametersOf (template : FlowNode) : PropertyBag :=
  .ofList ((template.properties.entries.filter (!·.isStructural)).map (·.withValue .null))

/-- The key of the positional argument at a place. -/
def argumentKey (templateKeys names : List String) (place : Nat) : String :=
  match templateKeys[place]? with
  | some key => key
  | none =>
    match names[place]? with
    | some name => name
    | none => "arg" ++ toString place

/-- Gives a parameter its value, or adds it. -/
def setArgument (b : PropertyBag) (key text : String) (named : Bool) : PropertyBag :=
  if b.contains key then b.setValue key (.string text)
  else b.insert (((Property.plain key key .expression).withText text).asOptional named)

/-- Sets arguments one after the other; `place` counts the positional ones before them. -/
def setArguments (templateKeys names : List String) :
    Nat → PropertyBag → List Argument → PropertyBag
  | _, b, [] => b
  | place, b, a :: rest =>
    match a.name with
    | none =>
      setArguments templateKeys names (place + 1)
        (setArgument b (argumentKey templateKeys names place) a.value.text false) rest
    | some name =>
      setArguments templateKeys names place (setArgument b name a.value.text true) rest

/-- The properties of a call's arguments. -/
def argumentProperties (arguments : List Argument) (template : Option FlowNode)
    (names : List String) : PropertyBag :=
  let start := (template.map parametersOf).getD .empty
  setArguments start.keys names 0 start arguments

end FlowCanvas.Build
