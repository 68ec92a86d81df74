import FlowCanvas.Path

/-!
# Workspaces

A workspace gives the text of a path. Documents may be held in memory, where paths that name the
same file are one, or be the files of a folder.
-/

namespace FlowCanvas

/-- Gives the text of a path, if there is one. -/
abbrev Workspace := Path → Option String

/-- Documents held in memory. -/
structure DocumentStore where
  documents : List (Path × String)
deriving Repr

namespace DocumentStore

def empty : DocumentStore := ⟨[]⟩

def read (s : DocumentStore) : Workspace := fun path =>
  (s.documents.find? fun d => d.1.same path).map Prod.snd

/-- Takes a document out. -/
def remove (s : DocumentStore) (path : Path) : DocumentStore :=
  ⟨s.documents.filter fun d => !d.1.same path⟩

/-- Adds a document or replaces it. -/
def insert (s : DocumentStore) (path : Path) (text : String) : DocumentStore :=
  ⟨(path, text) :: (s.remove path).documents⟩

end DocumentStore

/-- The files of a folder by the pieces of their paths below it. -/
structure Folder where
  files : List (List (List Char) × String)
deriving Repr

namespace Folder

/-- The folder with some files, given by relative paths. -/
def ofFiles (files : List (Path × String)) : Folder :=
  ⟨files.map fun (path, text) => (path.components.2.2, text)⟩

/-- Whether some file lies below these pieces. -/
def isFolder (f : Folder) (pieces : List (List Char)) : Bool :=
  pieces.isEmpty || f.files.any fun file => pieces.isPrefixOf file.1 && pieces != file.1

/-- Walks along the pieces of a path from the pieces `here`. Going up or staying needs a folder,
and the way up ends at the folder itself. -/
def walk (f : Folder) (here : List (List Char)) : List (List Char) → Option (List (List Char))
  | [] => some here
  | piece :: rest =>
    if Path.isFiller piece then (if f.isFolder here then f.walk here rest else none)
    else if piece == ['.', '.'] then
      (if f.isFolder here && !here.isEmpty then f.walk here.dropLast rest else none)
    else f.walk (here ++ [piece]) rest

/-- The text of the file at a path seen from the folder. -/
def read (f : Folder) : Workspace := fun path =>
  if path.isAbsolute || path.text.isEmpty then none
  else
    (f.walk [] path.parts.body).bind fun pieces =>
      (f.files.find? fun file => file.1 == pieces).map Prod.snd

end Folder

end FlowCanvas
