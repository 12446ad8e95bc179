import CssFallback.Text.Basic

/-!
# Files

The files and the directories that a run finds and leaves, and the directory it works in.
A path is followed from there, or from the root if a slash starts it, and each of its names
is looked up in a directory: `.` stays in it, and `..` leads back out of it. A slash at the
end of a path asks for a directory. There are no links, and everything may be read and
written.
-/

set_option autoImplicit false

namespace CssFallback

/-- The names from the root down to a file or a directory. -/
abbrev Place := List Text

/-- The place that a name leads to from a directory, whether or not there is anything. -/
def Place.next (place : Place) (name : Text) : Place :=
  if name = ['.'] then place else if name = ['.', '.'] then place.dropLast else place ++ [name]

structure Path where
  /-- A slash starts it. -/
  rooted : Bool
  names : List Text
  /-- A slash ends it. -/
  closed : Bool

namespace Path

/-- What stands between slashes, where `name` has been read already. -/
def namesFrom : (name : Text) → Text → List Text
  | name, [] => [name]
  | name, c :: rest =>
    if c = '/' then name :: namesFrom [] rest else namesFrom (name ++ [c]) rest

def ofText (t : Text) : Path :=
  ⟨t.head? = some '/', (namesFrom [] t).filter (· ≠ []), t.getLast? = some '/'⟩

def start (p : Path) (current : Place) : Place := if p.rooted then [] else current

end Path

structure Files where
  contents : List (Place × ByteArray)
  directories : List Place
  /-- The working directory. -/
  current : Place

namespace Files

inductive Fault where
  | notFound
  | notDirectory
  | isDirectory
  | notText
  deriving DecidableEq, Repr

def Fault.message : Fault → Text
  | .notFound => "No such file or directory (os error 2)".toList
  | .notDirectory => "Not a directory (os error 20)".toList
  | .isDirectory => "Is a directory (os error 21)".toList
  | .notText => "stream did not contain valid UTF-8".toList

def parents (place : Place) : List Place := (List.range place.length).map place.take

/-- Files in and below the root, which is worked in, with the directories that lead to them. -/
def ofContents (contents : List (Text × ByteArray)) : Files :=
  let held := contents.map fun file => ((Path.ofText file.1).names.foldl Place.next [], file.2)
  ⟨held, held.flatMap fun file => parents file.1, []⟩

def find? (files : Files) (place : Place) : Option ByteArray :=
  (files.contents.find? fun file => file.1 = place).map Prod.snd

def isDirectory (files : Files) (place : Place) : Bool :=
  place.isEmpty || files.directories.contains place

/-- A place at which there has to be a directory. -/
def directory (files : Files) (place : Place) : Except Fault Place :=
  if files.isDirectory place then .ok place
  else if (files.find? place).isSome then .error .notDirectory
  else .error .notFound

def walk (files : Files) : Place → List Text → Except Fault Place
  | place, [] => files.directory place
  | place, name :: rest =>
    match files.directory place with
    | .ok place => files.walk (place.next name) rest
    | .error fault => .error fault

/-- Where a path leads. There need not be anything yet. -/
structure Target where
  place : Place
  /-- Nothing but a directory is meant. -/
  closed : Bool

def locate (files : Files) (t : Text) : Except Fault Target :=
  let path := Path.ofText t
  match path.names.getLast? with
  | none => if path.rooted then .ok ⟨[], true⟩ else .error .notFound
  | some last =>
    match files.walk (path.start files.current) path.names.dropLast with
    | .ok place => .ok ⟨place.next last, path.closed || last = ['.'] || last = ['.', '.']⟩
    | .error fault => .error fault

def read (files : Files) (t : Text) : Except Fault ByteArray :=
  match files.locate t with
  | .error fault => .error fault
  | .ok target =>
    if files.isDirectory target.place then .error .isDirectory
    else
      match files.find? target.place with
      | none => .error .notFound
      | some content => if target.closed then .error .notDirectory else .ok content

def put (files : Files) (place : Place) (content : ByteArray) : Files :=
  { files with contents := (place, content) :: files.contents.filter fun file => file.1 ≠ place }

def write (files : Files) (t : Text) (content : ByteArray) : Except Fault Files :=
  match files.locate t with
  | .error fault => .error fault
  | .ok target =>
    if target.closed || files.isDirectory target.place then .error .isDirectory
    else .ok (files.put target.place content)

end Files

namespace Text

def ofUtf8? (bytes : ByteArray) : Option Text := (String.fromUTF8? bytes).map String.toList

def toUtf8 (t : Text) : ByteArray := (String.ofList t).toUTF8

end Text
end CssFallback
