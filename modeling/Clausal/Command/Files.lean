import Clausal.Command.Path

/-!
# Files

A run reads and writes files through three operations. They can be carried out on real files or on
a tree of files that is a value.

A path is followed component by component from the root of the tree, or from outside the tree if it
starts with a separator. It can also leave the tree upwards. The places outside hold nothing but a
few landmarks until something is written there, and they are no part of what a run leaves behind.
-/

namespace Clausal

class Files (m : Type → Type) where
  /-- The content of a file, if it can be opened. A directory can be opened and reads as empty. -/
  content? : Text → m (Option Text)
  /-- Makes sure that a directory exists, with those above it, and tells whether it does. -/
  ensureDirectory : Text → m Bool
  /-- Replaces the content of a file and tells whether that was possible. -/
  store : Text → Text → m Bool

/-- What a path leads to. -/
inductive FileEntry where
  | file (content : Text)
  | directory
deriving DecidableEq, Inhabited

/-- A place for an entry: the names of the directories on the way to it and its own, from the root
of the tree or from the places above it. -/
inductive Place where
  | inside (names : List Text)
  | outside (names : List Text)
deriving DecidableEq, Inhabited

namespace Place

def root : Place := .inside []

/-- Any of the directories above the tree. -/
def above : Place := .outside []

def parent : Place → Place
  | .inside [] => above
  | .inside names => .inside names.dropLast
  | .outside names => .outside names.dropLast

def child (name : Text) : Place → Place
  | .inside names => .inside (names ++ [name])
  | .outside names => .outside (names ++ [name])

/-- Where a component leads from a directory. -/
def enter (place : Place) (name : Text) : Place :=
  if name.isEmpty || name = "." then place
  else if name = ".." then place.parent
  else place.child name

/-- The entries outside the tree that every system has. -/
def landmarks : List (Place × FileEntry) :=
  [(above, .directory), (above.child "dev", .directory),
    (.outside ["dev", "null"], .file []), (above.child "etc", .directory),
    (above.child "tmp", .directory), (above.child "usr", .directory)]

end Place

/-- The entries of a tree by place. The root is always a directory. -/
structure FileTree where
  entries : List (Place × FileEntry)
deriving Inhabited

namespace FileTree

def empty : FileTree := ⟨[]⟩

def lookup? (t : FileTree) (place : Place) : Option FileEntry :=
  if place = .root then some .directory
  else t.entries.lookup place <|> Place.landmarks.lookup place

/-- Replaces an entry, or adds it at the end. -/
def setEntry (place : Place) (e : FileEntry) : List (Place × FileEntry) → List (Place × FileEntry)
  | [] => [(place, e)]
  | (other, old) :: rest =>
    if other = place then (place, e) :: rest else (other, old) :: setEntry place e rest

def set (t : FileTree) (place : Place) (e : FileEntry) : FileTree := ⟨setEntry place e t.entries⟩

/-- Where a path starts and the components after that. A path ends at its first zero byte; nothing
can be found at one that is empty or too long. -/
def route? (path : Text) : Option (Place × List Text) :=
  let path := path.beforeNul
  if path.isEmpty || path.length > Path.lengthLimit then none
  else
    let start := if path.head? = some Path.separator then Place.above else .root
    some (start, Text.split Path.separator path)

/-- The place to which components lead from a place. Everything on the way is a directory. -/
def follow (t : FileTree) (place : Place) : List Text → Option Place
  | [] => some place
  | name :: names =>
    if t.lookup? place = some .directory && name.length ≤ Path.nameLimit then
      t.follow (place.enter name) names
    else none

def place? (t : FileTree) (path : Text) : Option Place := do
  let (start, names) ← route? path
  t.follow start names

/-- The content of a file, which is empty for a directory. -/
def content? (t : FileTree) (path : Text) : Option Text := do
  match ← t.lookup? (← t.place? path) with
  | .file content => some content
  | .directory => some []

/-- Makes directories along components from a place on. -/
def makeFrom (t : FileTree) (place : Place) : List Text → Option FileTree
  | [] => some t
  | name :: names =>
    if name.length > Path.nameLimit then none
    else
      match t.lookup? (place.enter name) with
      | some .directory => t.makeFrom (place.enter name) names
      | some (.file _) => none
      | none => (t.set (place.enter name) .directory).makeFrom (place.enter name) names

/-- How many components name a directory below the last one on the way that exists. -/
def lacking (t : FileTree) (place : Place) : List Text → Nat
  | [] => 0
  | name :: names =>
    if t.lookup? (place.enter name) = some .directory then t.lacking (place.enter name) names
    else (name :: names).countP Path.isUsable

/-- The tree with a directory and those above it, unless a file is in the way or too many of them
are lacking. -/
def ensureDirectory (t : FileTree) (path : Text) : Option FileTree := do
  let (start, names) ← route? path
  if t.lacking start names ≤ Path.depthLimit then t.makeFrom start names else none

/-- The tree with a file, unless there is a directory of this name or none that could hold it. -/
def store (t : FileTree) (path content : Text) : Option FileTree := do
  let place ← t.place? path
  if t.lookup? place = some .directory then none else return t.set place (.file content)

/-- Adds a file and the directories above it. -/
def add (t : FileTree) (path content : Text) : FileTree :=
  let names := Text.split Path.separator path
  let above := (t.makeFrom .root names.dropLast).getD t
  above.set (names.foldl Place.enter .root) (.file content)

/-- The files of a tree with their paths. -/
def files (t : FileTree) : List (Text × Text) :=
  t.entries.filterMap fun
    | (.inside names, .file content) => some (Text.join "/" names, content)
    | _ => none

/-- The files that another tree does not have with the same content, in order of their paths. -/
def changes (before after : FileTree) : List (Text × Text) :=
  (after.files.filter fun f => !before.files.contains f).mergeSort fun f g => !Text.less g.1 f.1

/-- A change that may be refused, which leaves the tree as it is. -/
def attempt (change : FileTree → Option FileTree) : StateM FileTree Bool := fun t =>
  match change t with
  | some t => (true, t)
  | none => (false, t)

instance : Files (StateM FileTree) where
  content? path := fun t => (t.content? path, t)
  ensureDirectory path := attempt fun t => t.ensureDirectory path
  store path content := attempt fun t => t.store path content

end FileTree

end Clausal
