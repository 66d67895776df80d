import OpNet.Pack.Decode

/-!
Files in a tree of directories, and nets kept in them.
-/
namespace OpNet

inductive FileFault
  | missing
  | isDirectory
  | notDirectory
  | nameTooLong
  | zeroByte
  | other (text : String)
  deriving DecidableEq, Repr

def FileFault.text : FileFault → String
  | missing => "No such file or directory (os error 2)"
  | isDirectory => "Is a directory (os error 21)"
  | notDirectory => "Not a directory (os error 20)"
  | nameTooLong => "File name too long (os error 36)"
  | zeroByte => "file name contained an unexpected NUL byte"
  | other text => text

inductive FileAction
  | opening
  | reading
  | creating
  | writing
  deriving DecidableEq, Repr

def FileAction.text : FileAction → String
  | opening => "open"
  | reading => "read"
  | creating => "create"
  | writing => "write to"

def fileError (action : FileAction) (path : String) (fault : FileFault) : Error :=
  Cause.io s!"failed to {action.text} file '{path}': {fault.text}"

inductive Entry
  | file (bytes : Pack.Bytes)
  | directory
  deriving DecidableEq, Repr

/-- A place is given by the names that lead to it from the root. Directories above the root are
places of names "..", and the place of the one name "/" is where absolute paths start; nothing is
in them but what is written there. -/
abbrev Place := List String

namespace Place

def isTop (place : Place) : Bool := place = ["/"] || place.all (· = "..")

def up (place : Place) : Place :=
  if place = ["/"] then place
  else if place.isTop then place ++ [".."]
  else place.dropLast

def longestName : Nat := 255

def fits (place : Place) : Bool := place.getLast?.all fun name => name.utf8ByteSize ≤ longestName

end Place

structure Store where
  entries : List (Place × Entry) := []
  deriving DecidableEq, Repr, Inhabited

namespace Store

def entry? (s : Store) (place : Place) : Option Entry :=
  if place.isTop then some .directory else s.entries.lookup place

def put (s : Store) (place : Place) (entry : Entry) : Store :=
  { entries := (place, entry) :: s.entries.filter fun e => e.1 ≠ place }

def absence (place : Place) : FileFault := if place.fits then .missing else .nameTooLong

def walk (s : Store) (place : Place) : List String → Except FileFault Place
  | [] => .ok place
  | name :: rest =>
    match s.entry? place with
    | none => .error (absence place)
    | some (.file _) => .error .notDirectory
    | some .directory =>
      if name = "." then s.walk place rest
      else if name = ".." then s.walk place.up rest
      else s.walk (place ++ [name]) rest

def names (path : String) : List String :=
  (path.splitOn "/").filter fun name => name ≠ ""

def isAbsolute (path : String) : Bool := path.toList.head? = some '/'

def meansDirectory (path : String) : Bool := path.toList.getLast? = some '/'

def longestPath : Nat := 4095

/-- The place that a path leads to, which need not exist yet, though the directories on the way
must. An empty path leads nowhere. -/
def resolve (s : Store) (path : String) : Except FileFault Place :=
  if path.contains '\x00' then .error .zeroByte
  else if path = "" then .error .missing
  else if longestPath < path.utf8ByteSize then .error .nameTooLong
  else s.walk (if isAbsolute path then ["/"] else []) (names path)

def read (s : Store) (path : String) : Except Error Pack.Bytes :=
  match s.resolve path with
  | .error fault => .error (fileError .opening path fault)
  | .ok place =>
    match s.entry? place with
    | none => .error (fileError .opening path (absence place))
    | some .directory => .error (fileError .reading path .isDirectory)
    | some (.file bytes) =>
      if meansDirectory path then .error (fileError .opening path .notDirectory) else .ok bytes

def write (s : Store) (path : String) (bytes : Pack.Bytes) : Except Error Store :=
  match s.resolve path with
  | .error fault => .error (fileError .creating path fault)
  | .ok place =>
    if s.entry? place = some .directory || meansDirectory path then
      .error (fileError .creating path .isDirectory)
    else if place.fits then .ok (s.put place (.file bytes))
    else .error (fileError .creating path .nameTooLong)

def makeDirectory (s : Store) (path : String) : Store :=
  match s.resolve path with
  | .error _ => s
  | .ok place =>
    if (s.entry? place).isNone && place.fits then s.put place .directory else s

def load (s : Store) (path : String) : Except Error Net := do
  Pack.decode (← s.read path)

def save (s : Store) (path : String) (net : Net) : Except Error Store :=
  s.write path (Pack.encode net)

end Store

end OpNet
