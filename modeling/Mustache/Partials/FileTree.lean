import Mustache.Text.Search

/-!
# Trees of Files

Folders and files, and the paths that lead to them. A path is followed one
component at a time, and every component but the last must lead to a folder
that exists: `x/../y` leads nowhere when there is no folder `x`, and `x/` only
leads to a folder.

A place is given by the names from it up to the top of the tree, so that the
folder around a place is the tail of a list.

## Main definitions

* `Location`: A place where there may be a file or a folder.
* `FileTree`: The folders and files that there are.
* `FileTree.locate?`: The place that a path leads to.
* `FileTree.read?`, `FileTree.write?`, `FileTree.remove`: What is done with
  files.
-/

namespace Mustache

/-- A place in a tree of folders: its name, the name of the folder it is in, and
    so on up to the top. -/
abbrev Location := List String

/-- The folders and files that there are. The top is always a folder. -/
structure FileTree where
  folders : List Location := []
  files : List (Location × ByteArray) := []

namespace FileTree

/-- There is a folder at the place. -/
def isFolder (tree : FileTree) (place : Location) : Bool :=
  place.isEmpty || tree.folders.contains place

/-- The place after one more component of a path. -/
def move (place : Location) (component : String) : Location :=
  if component = "" || component = "." then place
  else if component = ".." then place.tail
  else component :: place

/-- One step along a path, which can be made from a folder only. -/
def step? (tree : FileTree) (place : Location) (component : String) : Option Location :=
  if tree.isFolder place then some (move place component) else none

/-- The components of a path. -/
def components (path : String) : List String :=
  let (first, others) := Text.fields '/' path.toList
  (first :: others).map String.ofList

/-- The place that a path from another place leads to. -/
def locate? (tree : FileTree) (start : Location) (path : String) : Option Location :=
  (components path).foldlM tree.step? start

/-- What the file holds that a path from the given place leads to. -/
def read? (tree : FileTree) (start : Location) (path : String) : Option ByteArray :=
  (tree.locate? start path).bind fun place => tree.files.lookup place

/-- The tree with a folder at the given place, unless there is a file. -/
def addFolder? (tree : FileTree) (place : Location) : Option FileTree :=
  if tree.isFolder place then some tree
  else if (tree.files.lookup place).isSome then none
  else some { tree with folders := place :: tree.folders }

/-- The tree with all folders made that the components of a path lead through,
    and the place where they end. -/
def addFolders? (tree : FileTree) (place : Location) :
    List String → Option (FileTree × Location)
  | [] => (tree.addFolder? place).map (·, place)
  | component :: path =>
    (tree.addFolder? place).bind fun tree => tree.addFolders? (move place component) path

/-- The tree without the file at the given place. -/
def removeAt (tree : FileTree) (place : Location) : FileTree :=
  { tree with files := tree.files.filter fun file => file.1 != place }

/-- The tree after a file was written. Missing folders on the way are made. It
    fails when a file is in the way, or a folder is where the file would be. -/
def write? (tree : FileTree) (start : Location) (path : String) (content : ByteArray) :
    Option FileTree :=
  let names := components path
  (tree.addFolders? start names.dropLast).bind fun (tree, folder) =>
    let place := move folder (names.getLast?.getD "")
    if tree.isFolder place then none
    else some { tree.removeAt place with files := (place, content) :: (tree.removeAt place).files }

/-- The tree without the file that a path leads to. The folders stay. -/
def remove (tree : FileTree) (start : Location) (path : String) : FileTree :=
  match tree.locate? start path with
  | some place => tree.removeAt place
  | none => tree

end FileTree

end Mustache
