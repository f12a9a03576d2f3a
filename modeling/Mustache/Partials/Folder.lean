import Mustache.Partials.FileTree
import Mustache.Partials.Store

/-!
# Folders of Templates

A store whose templates are the files of a folder. A file is read and compiled
when its name is first asked for, and the result is kept until the cache is
cleared, whatever happens to the file in the meantime. A file that cannot be
read as a template counts as an empty template, so every name has one.

Compiling the file may break off. Then the lookup does so too, and nothing is
kept: the file is read again when its name is asked for the next time.

Names must be plain file names. Any other name stands for the empty template
without a look at the files.

## Main definitions

* `Folder`: A place among files, how they are read, and what was read so far.
* `Folder.clear`: Forgets what was read.
* `Folder.read`: The template that a file holds at present.
* `Folder.get`: The template with a name.
* `Folder.store`: The folder as a store.
-/

namespace Mustache

/-- A folder of templates. -/
structure Folder where
  /-- The files and folders around it and in it. -/
  tree : FileTree
  /-- The place of the folder. -/
  location : Location
  /-- What follows the name of a template and a point in the name of its file;
      when it is empty, there is no point either. -/
  extension : String := "mustache"
  /-- How the files are compiled. -/
  options : Options := {}
  /-- The templates read so far. -/
  cache : List (String × Template) := []

namespace Folder

/-- The folder with nothing read yet. -/
def clear (folder : Folder) : Folder :=
  { folder with cache := [] }

/-- A name that is one component of a path and leads to something in the
    folder. -/
def isPlainName (name : String) : Bool :=
  name != "" && name != "." && name != ".." && !name.toList.contains '/'

/-- The path from the folder to the file for a name. -/
def pathOf (folder : Folder) (name : String) : String :=
  if folder.extension = "" then name else name ++ "." ++ folder.extension

/-- The template that the file for a name holds at present. It is empty when
    there is no file, or one that is not text or not a template. -/
def read (folder : Folder) (name : String) : Except Panic Template :=
  match folder.tree.read? folder.location (folder.pathOf name) with
  | none => .ok .empty
  | some content =>
    match String.fromUTF8? content with
    | none => .ok .empty
    | some source =>
      match Template.compile source folder.options with
      | .ok template => .ok template
      | .error (.illFormed _) => .ok .empty
      | .error (.panic panic) => .error panic

/-- The template with a name, and the folder after it was asked for. What was
    read is kept only if reading came to an end. -/
def get (folder : Folder) (name : String) : Except Panic Template × Folder :=
  if isPlainName name then
    match folder.cache.lookup name with
    | some template => (.ok template, folder)
    | none =>
      match folder.read name with
      | .ok template => (.ok template, { folder with cache := (name, template) :: folder.cache })
      | .error panic => (.error panic, folder)
  else (.ok .empty, folder)

/-- The folder as a store, which has a template for every name. -/
def store : Store Folder := fun name folder =>
  let (answer, folder) := folder.get name
  (answer.map some, folder)

end Folder

end Mustache
