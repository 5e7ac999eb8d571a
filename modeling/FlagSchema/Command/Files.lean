import FlagSchema.Text.Split

/-!
# Files

The files that a command line can name, and the walk along a path. The working directory lies inside an
outer one, of which nothing is known but that it exists; leaving the outer one leads back to it.

* **`Files.locate`**: the place that a path leads to, or why it leads nowhere.
* **`Files.read`**, **`Files.write`**: the content of the file that a path leads to.
-/

namespace FlagSchema.Command

/-- Why a file cannot be read or written. -/
inductive FileError where
  | missing
  | notDirectory
  | isDirectory
  | nameTooLong
  /-- The content is no text. -/
  | notText
  | other (reason : String)
  deriving DecidableEq, Repr

/-- The words for an error. -/
def FileError.message : FileError → String
  | missing      => "No such file or directory (os error 2)"
  | notDirectory => "Not a directory (os error 20)"
  | isDirectory  => "Is a directory (os error 21)"
  | nameTooLong  => "File name too long (os error 36)"
  | notText      => "stream did not contain valid UTF-8"
  | other reason => reason

/-- A place below the working directory or below the outer one, by the names that lead there. -/
structure Location where
  isOuter : Bool
  names   : List String
  deriving DecidableEq, Repr, Inhabited

namespace Location

/-- The working directory. -/
def working : Location := ⟨false, []⟩

/-- The outer directory. -/
def outer : Location := ⟨true, []⟩

/-- The directory that a place lies in. -/
def parent (l : Location) : Location :=
  if l.names = [] then outer else ⟨l.isOuter, l.names.dropLast⟩

/-- A place in a directory. -/
def child (l : Location) (name : String) : Location := ⟨l.isOuter, l.names ++ [name]⟩

end Location

/-- Files with their contents, and directories. -/
structure Files where
  contents    : List (Location × ByteArray) := []
  directories : List Location := []
  deriving Inhabited

namespace Files

/-- Whether a place is a directory: the working and the outer one, one declared as such, or one with a
    file below it. -/
def isDirectory (fs : Files) (l : Location) : Bool :=
  l.names.isEmpty || fs.directories.contains l ||
    fs.contents.any fun (file, _) =>
      file.isOuter == l.isOuter && file.names.length > l.names.length &&
        l.names.isPrefixOf file.names

/-- The content of a file. -/
def content? (fs : Files) (l : Location) : Option ByteArray := fs.contents.lookup l

-- ── Paths ────────────────────────────────────────────────────────────────────────

/-- The longest name of a file, in bytes. -/
def maxName : Nat := 255

/-- The longest path, in bytes. -/
def maxPath : Nat := 4095

/-- The names on a path. -/
def namesOn (path : String) : List String :=
  ((Text.splitAt '/' path.toList).filter (!·.isEmpty)).map String.ofList

/-- The place that one name leads to from a directory, whether there is anything or not. -/
def follow (l : Location) (name : String) : Except FileError Location :=
  if name = "." then .ok l
  else if name = ".." then .ok l.parent
  else if name.utf8ByteSize > maxName then .error .nameTooLong
  else .ok (l.child name)

/-- A place that has to be a directory. -/
def enter (fs : Files) (l : Location) : Except FileError Location :=
  if fs.isDirectory l then .ok l
  else if (fs.content? l).isSome then .error .notDirectory
  else .error .missing

/-- The directory that names lead to from a directory. -/
def walk (fs : Files) (l : Location) : List String → Except FileError Location
  | []            => .ok l
  | name :: names => do
    let next ← fs.enter (← follow l name)
    walk fs next names

/-- A path walked up to its last name. -/
structure Route where
  directory : Location
  /-- The last name; the root of all files has none. -/
  last?     : Option String
  /-- Whether a slash follows the last name. -/
  hasSlash  : Bool

/-- The walk along a path, its last name left out. -/
def route (fs : Files) (path : String) : Except FileError Route :=
  if path.isEmpty then .error .missing
  else if path.utf8ByteSize > maxPath then .error .nameTooLong
  else do
    let start := if path.toList.head? = some '/' then Location.outer else Location.working
    let names := namesOn path
    let directory ← fs.walk start names.dropLast
    return { directory, last? := names.getLast?, hasSlash := path.toList.getLast? = some '/' }

/-- The place that a path leads to, whether there is anything or not. -/
def locate (fs : Files) (path : String) : Except FileError Location := do
  let r ← fs.route path
  match r.last? with
  | none      => return r.directory
  | some name => follow r.directory name

-- ── Reading and writing ──────────────────────────────────────────────────────────

/-- The content of the file that a path leads to. A slash after its name asks for a directory. -/
def read (fs : Files) (path : String) : Except FileError ByteArray := do
  let l ← fs.locate path
  if fs.isDirectory l then .error .isDirectory
  else
    match fs.content? l with
    | none         => .error .missing
    | some content => if path.toList.getLast? = some '/' then .error .notDirectory else .ok content

/-- Whether a last name is only a way to a directory, or a slash follows it. -/
def Route.endsInDirectory (r : Route) : Bool :=
  r.hasSlash || r.last?.all fun name => name == "." || name == ".."

/-- The files once a content has been written to the file that a path leads to, which is made if it is
    missing. -/
def write (fs : Files) (path : String) (content : ByteArray) : Except FileError Files := do
  let r ← fs.route path
  if r.endsInDirectory then .error .isDirectory
  else
    let l ← fs.locate path
    if fs.isDirectory l then .error .isDirectory
    else .ok { fs with contents := (l, content) :: fs.contents }

/-- A content put at a path of plain names, with the directories above it. -/
def put (fs : Files) (path : String) (content : ByteArray) : Files :=
  { fs with contents := (⟨false, namesOn path⟩, content) :: fs.contents }

end Files

end FlagSchema.Command
