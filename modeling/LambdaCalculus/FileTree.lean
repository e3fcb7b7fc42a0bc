/-! # File trees

Files and directories in memory, and their paths.  Paths start at the root or at the working
directory.  Outside of the working directory only its ancestors exist.
-/
namespace LambdaCalculus

inductive ReadError where
  | missing
  | isDirectory
  /-- The path continues after a plain file. -/
  | notDirectory
  | nameTooLong
  | notText
  | other (reason : String)
  deriving DecidableEq, Repr

namespace ReadError

def reason : ReadError → String
  | .missing => "No such file or directory (os error 2)"
  | .isDirectory => "Is a directory (os error 21)"
  | .notDirectory => "Not a directory (os error 20)"
  | .nameTooLong => "File name too long (os error 36)"
  | .notText => "stream did not contain valid UTF-8"
  | .other reason => reason

def decode (content : ByteArray) : Except ReadError String :=
  match String.fromUTF8? content with
  | some text => .ok text
  | none => .error .notText

end ReadError

/-- The names on the path to a file or a directory, its own first. -/
abbrev Place := List String

namespace Place

/-- The working directory is two levels below the root, under names that no path can spell. -/
def working : Place := ["/", "/"]

def origin (path : String) : Place := if path.startsWith "/" then [] else working

/-- The place that a name on a path leads to.  The parent of the root is the root. -/
def step (place : Place) (name : String) : Place :=
  if name = "" ∨ name = "." then place
  else if name = ".." then place.tail
  else name :: place

end Place

structure FileTree where
  /-- Every directory other than the root. -/
  directories : List Place
  /-- The files, the last written first. -/
  files : List (Place × ByteArray)

namespace FileTree

/-- The longest name and the longest path, in bytes. -/
def maxName : Nat := 255

@[inherit_doc maxName]
def maxPath : Nat := 4095

def components (path : String) : List String := path.splitOn "/"

def empty : FileTree := ⟨[.working, Place.working.tail], []⟩

def isDirectory (t : FileTree) (place : Place) : Bool :=
  place.isEmpty || t.directories.contains place

def content? (t : FileTree) (place : Place) : Option ByteArray := t.files.lookup place

def contains (t : FileTree) (place : Place) : Bool :=
  t.isDirectory place || (t.content? place).isSome

def makeDirectories (t : FileTree) (place : Place) : List String → FileTree × Place
  | [] => (t, place)
  | name :: rest =>
    let inner := place.step name
    let t := if t.isDirectory inner then t else { t with directories := inner :: t.directories }
    t.makeDirectories inner rest

def addDirectory (t : FileTree) (path : String) : FileTree :=
  (t.makeDirectories (.origin path) (components path)).1

def addFile (t : FileTree) (file : String × ByteArray) : FileTree :=
  let names := components file.1
  let (t, place) := t.makeDirectories (.origin file.1) names.dropLast
  { t with files := (place.step (names.getLastD ""), file.2) :: t.files }

def ofContents (directories : List String) (files : List (String × ByteArray)) : FileTree :=
  files.foldl addFile (directories.foldl addDirectory empty)

def walk (t : FileTree) (place : Place) : List String → Except ReadError Place
  | [] => .ok place
  | name :: rest =>
    if !t.isDirectory place then .error .notDirectory
    else if maxName < name.utf8ByteSize then .error .nameTooLong
    else if t.contains (place.step name) then t.walk (place.step name) rest
    else .error .missing

def read (t : FileTree) (path : String) : Except ReadError String := do
  if path.isEmpty then throw .missing
  if maxPath < path.utf8ByteSize then throw .nameTooLong
  let place ← t.walk (.origin path) (components path)
  match t.content? place with
  | none => throw .isDirectory
  | some content => ReadError.decode content

end FileTree

end LambdaCalculus
