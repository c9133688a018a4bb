import MarkupTemplate.Store.LoadError

namespace MarkupTemplate

/-- What a file holds; bytes that are no Unicode text are not kept. -/
inductive FileContent where
  | text (text : Text)
  | notUnicode
deriving DecidableEq, Repr

/-- A file or directory by the names on the way from the working directory, the last one first. -/
abbrev Trail := List Text

/-- The files and directories below a working directory. Directories stay when their files go. -/
structure Disk where
  files : List (Trail × FileContent) := []
  directories : List Trail := []
deriving Repr, Inhabited

/-- Where a path leads: into the working directory, or above it. -/
inductive Location where
  | inside (trail : Trail)
  | above (levels : Nat)
deriving DecidableEq, Repr

/-- Why a path leads nowhere. -/
inductive PathError where
  | missing
  | failure (failure : ReadFailure)
deriving DecidableEq, Repr

/-- The parts of a path between slashes. -/
def pathParts : Text → List Text
  | [] => [[]]
  | '/' :: rest => [] :: pathParts rest
  | c :: rest =>
    match pathParts rest with
    | [] => [[c]]
    | part :: parts => (c :: part) :: parts

namespace Disk

/-- What a file holds, if there is one. -/
def file? (disk : Disk) (trail : Trail) : Option FileContent :=
  disk.files.lookup trail

/-- There is a directory. -/
def isDirectory (disk : Disk) : Location → Bool
  | .inside trail => trail.isEmpty || disk.directories.contains trail
  | .above _ => true

/-- There is a file or a directory. -/
def holds (disk : Disk) : Location → Bool
  | .inside trail => (disk.file? trail).isSome || disk.isDirectory (.inside trail)
  | .above _ => true

/-- One step along a path. A step leads on only from a directory; above the working directory no
names are known. -/
def enter (disk : Disk) (location : Location) (part : Text) : Except PathError Location :=
  if !disk.isDirectory location then .error (.failure .notDirectory)
  else if part = [] ∨ part = ['.'] then .ok location
  else if part = ['.', '.'] then
    match location with
    | .inside [] => .ok (.above 1)
    | .inside (_ :: trail) => .ok (.inside trail)
    | .above levels => .ok (.above (levels + 1))
  else if 255 < encodedSize part then .error (.failure .pathTooLong)
  else match location with
    | .inside trail =>
      let next : Location := .inside (part :: trail)
      if disk.holds next then .ok next else .error .missing
    | .above _ => .error .missing

/-- Where a path leads. A path that begins with a slash starts above the working directory. -/
def locate (disk : Disk) (path : Text) : Except PathError Location :=
  if path = [] then .error .missing
  else if path.contains '\x00' then .error (.failure .nulInPath)
  else if 4096 ≤ encodedSize path then .error (.failure .pathTooLong)
  else
    let start : Location := if path.head? = some '/' then .above 0 else .inside []
    (pathParts path).foldlM disk.enter start

/-- The text of the file that a path leads to. -/
def read (disk : Disk) (path : Text) : Except PathError Text :=
  match disk.locate path with
  | .error error => .error error
  | .ok (.above _) => .error (.failure .isDirectory)
  | .ok (.inside trail) =>
    match disk.file? trail with
    | none => .error (.failure .isDirectory)
    | some .notUnicode => .error (.failure .notUnicode)
    | some (.text text) => .ok text

/-- The trail of a path that stays inside the working directory. -/
def trailOf (path : Text) : Trail :=
  (pathParts path).foldl
    (fun trail part =>
      if part = [] ∨ part = ['.'] then trail
      else if part = ['.', '.'] then trail.drop 1
      else part :: trail) []

/-- Writes a file and makes the directories that it is in. -/
def write (disk : Disk) (path : Text) (content : FileContent) : Disk :=
  let trail := trailOf path
  { files := (trail, content) :: disk.files.filter (·.1 != trail)
    directories := (List.range trail.length).map (fun n => trail.drop (n + 1)) ++ disk.directories }

/-- Removes a file. -/
def remove (disk : Disk) (path : Text) : Disk :=
  { disk with files := disk.files.filter (·.1 != trailOf path) }

end Disk

end MarkupTemplate
