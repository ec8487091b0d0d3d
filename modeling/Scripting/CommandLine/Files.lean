/-!
# Files

* `FileFault` : why a file cannot be read;
* `Files` : the files that a command can read;
* `FileTree` : directories and files as a value, with the way a path leads through them
  (`FileTree.resolve`, `FileTree.files`).
-/

namespace Scripting.CommandLine

set_option autoImplicit false

/-- Why a file or a directory cannot be read. -/
inductive FileFault
  | notFound
  | notDirectory
  | isDirectory
  | notText
  | other (text : String)
  deriving DecidableEq, Repr

/-- The wording of a fault. -/
def FileFault.text : FileFault → String
  | notFound => "No such file or directory (os error 2)"
  | notDirectory => "Not a directory (os error 20)"
  | isDirectory => "Is a directory (os error 21)"
  | notText => "stream did not contain valid UTF-8"
  | other text => text

/-- The files that a command can read: the bytes of a file, and the names of the regular files in a
directory. -/
structure Files where
  bytes : String → Except FileFault ByteArray
  names : String → Except FileFault (List String)

/-- The text of a file. -/
def Files.text (files : Files) (path : String) : Except FileFault String := do
  match String.fromUTF8? (← files.bytes path) with
  | some text => pure text
  | none => throw .notText

/-! ## Trees -/

/-- Directories and files by their paths from the root, each a list of names. Every part of a path
to a file or directory is a directory. -/
structure FileTree where
  directories : List (List String)
  files : List (List String × ByteArray)

namespace FileTree

/-- Whether a path is a directory. -/
def isDirectory (t : FileTree) (path : List String) : Bool :=
  path.isEmpty || (t.directories ++ t.files.map (·.1.dropLast)).any (path.isPrefixOf ·)

/-- The bytes of the file that a path is. -/
def file? (t : FileTree) (path : List String) : Option ByteArray :=
  (t.files.find? (·.1 = path)).map Prod.snd

/-- Where a path from `here` leads in one step. Above the root there is a directory of which nothing
is known; it is none. -/
def step (t : FileTree) (here : Option (List String)) (name : String) :
    Except FileFault (Option (List String)) :=
  match here with
  | none => if name = "" || name = "." || name = ".." then .ok none else .error .notFound
  | some here =>
    if !t.isDirectory here then .error .notDirectory
    else if name = "" || name = "." then .ok (some here)
    else if name = ".." then .ok (if here.isEmpty then none else some here.dropLast)
    else
      let there := here ++ [name]
      if t.isDirectory there || (t.file? there).isSome then .ok (some there) else .error .notFound

/-- Where a path leads. -/
def resolve (t : FileTree) (path : String) : Except FileFault (Option (List String)) :=
  if path.startsWith "/" then (path.splitOn "/").foldlM t.step none
  else (path.splitOn "/").foldlM t.step (some [])

/-- The files of a tree. -/
def toFiles (t : FileTree) : Files where
  bytes path := do
    match ← t.resolve path with
    | none => throw .isDirectory
    | some there =>
      match t.file? there with
      | some bytes => pure bytes
      | none => throw .isDirectory
  names path := do
    match ← t.resolve path with
    | none => pure []
    | some there =>
      if t.isDirectory there then
        pure (t.files.filterMap fun (p, _) => if p.dropLast = there then p.getLast? else none)
      else throw .notDirectory

end FileTree

end Scripting.CommandLine
