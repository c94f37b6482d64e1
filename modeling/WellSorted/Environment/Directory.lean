import WellSorted.Environment.Files

/-!
# Directory trees

A directory tree in memory gives the files for paths relative to its root. Empty components of a
path and `.` stay where they are, `..` goes one directory up. Outside of the tree nothing is found.
-/

namespace WellSorted

inductive Entry where
  | text (s : String)
  | garbled
  | directory (entries : List (String × Entry))

namespace Entry

def isDirectory : Entry → Bool
  | directory _ => true
  | _ => false

/-- What a directory holds; a file holds nothing. -/
def entries : Entry → List (String × Entry)
  | directory entries => entries
  | _ => []

def content : Entry → Content
  | text s => .text s
  | garbled => .garbled
  | directory _ => .directory

/-- Entries without one of a name. -/
def without (name : String) (entries : List (String × Entry)) : List (String × Entry) :=
  entries.filter (·.1 != name)

/-- Put an entry at a path and make the directories that lead to it. A file replaces a file;
otherwise what stands at the path stays, so that a directory keeps what it holds. -/
def put (new : Entry) : Option Entry → List String → Entry
  | none, [] => new
  | some old, [] => if old.isDirectory || new.isDirectory then old else new
  | e?, name :: path =>
    let e := e?.getD (directory [])
    if e.isDirectory then
      directory ((name, put new (e.entries.lookup name) path) :: without name e.entries)
    else e

/-- Remove the file at a path, if there is one; a directory stays. -/
def remove (e : Entry) : List String → Entry
  | [] => e
  | name :: path =>
    match e.entries.lookup name with
    | none => e
    | some inner =>
      let rest := without name e.entries
      if path.isEmpty && !inner.isDirectory then directory rest
      else directory ((name, inner.remove path) :: rest)

/-- The components of a path, in order; `part` holds those characters of the first one that have
been seen. -/
def components (part : List Char) : List Char → List String
  | [] => [String.ofList part.reverse]
  | c :: rest =>
    if c = '/' then String.ofList part.reverse :: components [] rest
    else components (c :: part) rest

/-- Follow a path from an entry; `above` are the directories around it, innermost first. -/
def follow (above : List Entry) (e : Entry) : List String → Content
  | [] => e.content
  | name :: path =>
    if !e.isDirectory then .blocked
    else if name = "" ∨ name = "." then follow above e path
    else if name = ".." then
      match above with
      | outer :: above => follow above outer path
      | [] => follow [] (directory []) path
    else
      match e.entries.lookup name with
      | some inner => follow (e :: above) inner path
      | none => .missing

/-- The files of a tree. -/
def files (root : Entry) : Files := fun path =>
  match path.toList with
  | [] => .missing
  | '/' :: rest => follow [] (directory []) (components [] rest)
  | chars => follow [] root (components [] chars)

/-- A change of a tree at a path relative to its root. -/
inductive Change where
  | put (e : Entry)
  | remove

/-- Follow a path from the directory `place`, whose names stand innermost first, and make a change
where it ends. A directory that the path leaves upwards is made too. -/
def changeFrom (root : Entry) (place : List String) (c : Change) : List String → Entry
  | [] =>
    match c with
    | .put e => put e root place.reverse
    | .remove => root.remove place.reverse
  | name :: path =>
    if name = "" ∨ name = "." then changeFrom root place c path
    else if name = ".." then
      changeFrom (put (directory []) root place.reverse) place.tail c path
    else changeFrom root (name :: place) c path

def change (root : Entry) (path : String) (c : Change) : Entry :=
  root.changeFrom [] c (components [] path.toList)

end Entry

end WellSorted
