import FlowCanvas.Node.Codec

/-!
# Template catalogs

A registry answers what a fresh node for an external symbol looks like. A catalog is a registry
held in memory, with one template for each key.
-/

namespace FlowCanvas

/-- Gives the template of a symbol. -/
abbrev Registry := Codedata → Except TemplateError FlowNode

namespace Registry

/-- Knows no templates. -/
def empty : Registry := fun c => .error (.unavailable c.descriptor)

end Registry

/-- What tells templates apart: the kind of node and the names of the symbol. -/
structure TemplateKey where
  node : NodeKind
  org : Option String
  moduleName : Option String
  object : Option String
  symbol : Option String
deriving DecidableEq, Repr

namespace TemplateKey

def ofCodedata (c : Codedata) : TemplateKey := ⟨c.node, c.org, c.moduleName, c.object, c.symbol⟩

end TemplateKey

/-- Templates by key. -/
structure Catalog where
  entries : List (TemplateKey × FlowNode)

namespace Catalog

def empty : Catalog := ⟨[]⟩

def size (c : Catalog) : Nat := c.entries.length

def isEmpty (c : Catalog) : Bool := c.entries.isEmpty

def find? (c : Catalog) (key : TemplateKey) : Option FlowNode :=
  (c.entries.find? fun e => e.1 == key).map Prod.snd

/-- Sets the template of a key. -/
def put (c : Catalog) (key : TemplateKey) (n : FlowNode) : Catalog :=
  ⟨(key, n) :: c.entries.filter fun e => e.1 != key⟩

/-- Adds a node under the key of its codedata, whose kind becomes the node's. -/
def insert (c : Catalog) (n : FlowNode) : Catalog :=
  let n := { n with codedata := { n.codedata with node := n.kind } }
  c.put (.ofCodedata n.codedata) n

def ofNodes (ns : List FlowNode) : Catalog := ns.foldl insert empty

/-- Adds all templates of another catalog, which win. -/
def extend (c other : Catalog) : Catalog :=
  other.entries.foldr (fun e c => c.put e.1 e.2) c

/-- Reads a catalog from the JSON text of a list of nodes. -/
def ofText (text : String) : Except TemplateError Catalog :=
  match (Json.read? text).bind (Json.listOf? FlowNode.ofJson?) with
  | some ns => .ok (ofNodes ns)
  | none => .error (.invalidCatalog "not a list of nodes")

/-- The template of a symbol. -/
def lookup (c : Catalog) : Registry := fun codedata =>
  match c.find? (.ofCodedata codedata) with
  | some n => .ok n
  | none => .error (.unavailable codedata.descriptor)

end Catalog

/-- A catalog behind a cache of the templates that were found before. -/
structure CachedCatalog where
  catalog : Catalog
  cache : Catalog

namespace CachedCatalog

def ofCatalog (catalog : Catalog) : CachedCatalog := ⟨catalog, .empty⟩

/-- Whether a symbol is answered from the cache. -/
def isCached (c : CachedCatalog) (codedata : Codedata) : Bool :=
  (c.cache.find? (.ofCodedata codedata)).isSome

/-- The template of a symbol, from the cache if it is there. -/
def lookup (c : CachedCatalog) : Registry := fun codedata =>
  match c.cache.find? (.ofCodedata codedata) with
  | some n => .ok n
  | none => c.catalog.lookup codedata

/-- The cache after a symbol was looked up. Failures leave no trace. -/
def remember (c : CachedCatalog) (codedata : Codedata) : CachedCatalog :=
  match c.lookup codedata with
  | .ok n =>
    if c.isCached codedata then c
    else { c with cache := c.cache.put (.ofCodedata codedata) n }
  | .error _ => c

/-- The cache after several symbols were looked up. -/
def rememberAll (c : CachedCatalog) (list : List Codedata) : CachedCatalog :=
  list.foldl remember c

/-- Empties the cache. -/
def invalidate (c : CachedCatalog) : CachedCatalog := { c with cache := .empty }

end CachedCatalog

end FlowCanvas
