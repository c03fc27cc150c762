import ProcFlow.Table
/-!
# Reading and writing files

The program reads whole files and writes at most one. What can go wrong is named by its cause. A working
directory held in memory answers the same requests as a real one: a path is walked name by name, and the
first name that cannot be passed decides the answer.
-/

namespace ProcFlow

inductive FileFault where
  | notFound
  | notDirectory
  | isDirectory
  | nameTooLong
  | other (text : String)
  deriving DecidableEq, Repr

def FileFault.text : FileFault → String
  | notFound => "No such file or directory (os error 2)"
  | notDirectory => "Not a directory (os error 20)"
  | isDirectory => "Is a directory (os error 21)"
  | nameTooLong => "File name too long (os error 36)"
  | other text => text

structure FileAccess (m : Type → Type) where
  read : String → m (Except FileFault String)
  write : String → String → m (Except FileFault Unit)


/-! ### A working directory in memory -/

/-- The files of a working directory by name. A name may lead through folders. -/
abbrev Files := Table String

namespace Files

/-- Names from a folder downwards. The working directory stands below the root, under a name that no
path uses. -/
inductive Place where
  | inside (names : List String)
  | outside (names : List String)
  deriving DecidableEq, Repr

/-- The folder that a folder stands in. The root stands in itself. -/
def Place.parent : Place → Place
  | inside [] => outside []
  | inside names => inside names.dropLast
  | outside names => outside names.dropLast

def Place.child (name : String) : Place → Place
  | inside names => inside (names ++ [name])
  | outside names => outside (names ++ [name])

def Place.enter (p : Place) (name : String) : Except FileFault Place :=
  if name = "." then .ok p
  else if name = ".." then .ok p.parent
  else if 255 < name.utf8ByteSize then .error .nameTooLong
  else .ok (p.child name)

inductive Entry where
  | folder
  | file (text : String)
  deriving DecidableEq, Repr

def steps (path : String) : List String := (path.splitOn "/").filter (· ≠ "")

def systemFolders : List String := ["dev", "etc", "tmp", "usr"]

/-- The file of the working directory that names lead to, with the name it is kept under. -/
def find? (files : Files) (names : List String) : Option (String × String) :=
  files.entries.find? fun e => (steps e.1).filter (· ≠ ".") == names

/-- Whether names lead from the working directory to a folder: the working directory itself, or a folder
that holds a file. -/
def isFolder (files : Files) (names : List String) : Bool :=
  names.isEmpty || files.keys.any fun key =>
    let here := (steps key).filter (· ≠ ".")
    names.length < here.length && here.take names.length == names

/-- What stands at a place, if anything. Of what is outside the working directory, only the common
folders and the empty device are known. -/
def entry? (files : Files) : Place → Option Entry
  | .inside names =>
    if files.isFolder names then some .folder
    else (files.find? names).map fun e => .file e.2
  | .outside [] => some .folder
  | .outside [name] => if name ∈ systemFolders then some .folder else none
  | .outside names => if names = ["dev", "null"] then some (.file "") else none

def follow (files : Files) (p : Place) (name : String) : Except FileFault Place :=
  match files.entry? p with
  | some .folder => p.enter name
  | some (.file _) => .error .notDirectory
  | none => .error .notFound

/-- A path taken apart: where it starts, its names, and whether a slash ends it. -/
structure Location where
  start : Place
  names : List String
  closed : Bool
  deriving DecidableEq, Repr

/-- The location that a path spells. An empty path leads nowhere, and one of 4096 bytes or more is
refused. -/
def Location.ofPath (path : String) : Except FileFault Location :=
  if path = "" then .error .notFound
  else if 4096 ≤ path.utf8ByteSize then .error .nameTooLong
  else .ok ⟨if path.startsWith "/" then .outside [] else .inside [], steps path, path.endsWith "/"⟩

def read (files : Files) (path : String) : Except FileFault String := do
  let l ← Location.ofPath path
  let p ← l.names.foldlM files.follow l.start
  match files.entry? p with
  | none => .error .notFound
  | some .folder => .error .isDirectory
  | some (.file text) => if l.closed then .error .notDirectory else .ok text

/-- Puts a text at a place of the working directory. What is written elsewhere is not kept. -/
def put (files : Files) (p : Place) (text : String) : Files :=
  match p with
  | .outside _ => files
  | .inside names =>
    match files.find? names with
    | some (key, _) => files.insert key text
    | none => files.insert ("/".intercalate names) text

/-- Writes a file, which is made if there is none; its folder has to be there. Only a name that no slash
follows can become a file. -/
def write (files : Files) (path text : String) : Except FileFault Files := do
  let l ← Location.ofPath path
  let folder ← l.names.dropLast.foldlM files.follow l.start
  let name := l.names.getLast?.getD "."
  let p ← files.follow folder (if l.closed then "." else name)
  match files.entry? p with
  | some .folder => .error .isDirectory
  | _ => .ok (files.put p text)

def access : FileAccess (StateM Files) where
  read path := do return (← get).read path
  write path text := do
    match (← get).write path text with
    | .ok files =>
      set files
      return .ok ()
    | .error f => return .error f

end Files

end ProcFlow
