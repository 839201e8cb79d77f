import LocaleKeys.Path

/-! A tree of files and directories as programs see it through paths. A path is
followed piece by piece from the working directory or the root: every piece but
the last must lead through a directory that is there, and two dots lead back to
the directory above. Nothing is ever removed. -/
namespace LocaleKeys

/-- The names from the root to a place. -/
abbrev Location := List String

/-- What a file holds: a text, or bytes that are none. -/
inductive Content
  | text (text : String)
  | binary (bytes : List UInt8)
  deriving DecidableEq

inductive Node
  | directory
  | file (content : Content)
  deriving DecidableEq

/-- Why an access failed. -/
inductive Access.Failure
  | notFound
  | alreadyExists
  | notDirectory
  | isDirectory
  | nameTooLong
  | nulInName
  | notText
  /-- Any other reason, in the words of the system. -/
  | other (message : String)
  deriving DecidableEq, Repr

def Access.Failure.message : Access.Failure → String
  | .notFound => "No such file or directory (os error 2)"
  | .alreadyExists => "File exists (os error 17)"
  | .notDirectory => "Not a directory (os error 20)"
  | .isDirectory => "Is a directory (os error 21)"
  | .nameTooLong => "File name too long (os error 36)"
  | .nulInName => "file name contained an unexpected NUL byte"
  | .notText => "stream did not contain valid UTF-8"
  | .other message => message

/-- Places with their nodes, and the place from which relative paths start. The
root is always there and is a directory. -/
structure FileSystem where
  nodes : List (Location × Node) := []
  workingDirectory : Location := []
  deriving DecidableEq

namespace FileSystem

/-- The most bytes that a name may have. -/
def nameLimit : Nat := 255

/-- The most bytes that a path may have. A longer one is not followed at all. -/
def pathLimit : Nat := 4095

def node? (fs : FileSystem) (place : Location) : Option Node :=
  if place = [] then some .directory else fs.nodes.lookup place

/-- A place is given a node, in the stead of the one that it has. -/
def putNode (place : Location) (node : Node) : List (Location × Node) → List (Location × Node)
  | [] => [(place, node)]
  | (other, old) :: rest =>
      if other = place then (other, node) :: rest else (other, old) :: putNode place node rest

def put (fs : FileSystem) (place : Location) (node : Node) : FileSystem :=
  { fs with nodes := putNode place node fs.nodes }

/-- The place to which pieces lead; it need not have a node itself. -/
def follow (fs : FileSystem) : Location → List String → Except Access.Failure Location
  | place, [] => .ok place
  | place, piece :: rest =>
      match fs.node? place with
      | none => .error .notFound
      | some (.file _) => .error .notDirectory
      | some .directory =>
          if Path.isIdle piece then fs.follow place rest
          else if piece = ".." then fs.follow place.dropLast rest
          else if nameLimit < piece.utf8ByteSize then .error .nameTooLong
          else fs.follow (place ++ [piece]) rest

/-- The place where a path starts. -/
def start (fs : FileSystem) (path : String) : Location :=
  if Path.isAbsolute path then [] else fs.workingDirectory

/-- The place to which the given pieces of a path lead. -/
def locatePieces (fs : FileSystem) (path : String) (pieces : List String) :
    Except Access.Failure Location :=
  if path = "" then .error .notFound
  else if '\x00' ∈ path.toList then .error .nulInName
  else if pathLimit < path.utf8ByteSize then .error .nameTooLong
  else fs.follow (fs.start path) pieces

def locate (fs : FileSystem) (path : String) : Except Access.Failure Location :=
  fs.locatePieces path (Path.pieces path)

/-- The node at a path. -/
def find? (fs : FileSystem) (path : String) : Option Node :=
  match fs.locate path with
  | .ok place => fs.node? place
  | .error _ => none

/-- Whether there is anything at a path. -/
def isPresent (fs : FileSystem) (path : String) : Bool := (fs.find? path).isSome

def isDirectory (fs : FileSystem) (path : String) : Bool := fs.find? path = some .directory

/-- The text of a file. -/
def read (fs : FileSystem) (path : String) : Except Access.Failure String :=
  match fs.locate path with
  | .error e => .error e
  | .ok place =>
      match fs.node? place with
      | none => .error .notFound
      | some .directory => .error .isDirectory
      | some (.file (.binary _)) => .error .notText
      | some (.file (.text text)) => .ok text

/-- The pieces of a path without the empty ones at its end. -/
def barePieces (path : String) : List String :=
  ((Path.pieces path).reverse.dropWhile (· = "")).reverse

/-- A file is created or given another text. A path with a slash at its end can
only name a directory, which is not written; all that is looked at is whether
the directories before its last name are there. -/
def write (fs : FileSystem) (path text : String) : Except Access.Failure FileSystem :=
  if path.toList.getLast? = some '/' then
    match fs.locatePieces path ((barePieces path).dropLast ++ ["."]) with
    | .error e => .error e
    | .ok _ => .error .isDirectory
  else
    match fs.locate path with
    | .error e => .error e
    | .ok place =>
        if fs.node? place = some .directory then .error .isDirectory
        else .ok (fs.put place (.file (.text text)))

/-- One directory is created. A path that ends with dots names a directory that
is there already. -/
def makeDirectory (fs : FileSystem) (path : String) : Except Access.Failure FileSystem :=
  let pieces := barePieces path
  match fs.locatePieces path pieces with
  | .error e => .error e
  | .ok place =>
      if (fs.node? place).isSome || pieces.getLast? = some "." || pieces.getLast? = some ".." then
        .error .alreadyExists
      else .ok (fs.put place .directory)

/-- The directory at the head of a list of paths is created, after the one
behind it where it cannot be created yet. Directories created on the way stay
also when a later one fails. -/
def makeDirectories (fs : FileSystem) : List String → Except Access.Failure Unit × FileSystem
  | [] => (.error .notFound, fs)
  | path :: above =>
      if path = "" then (.ok (), fs)
      else
        match fs.makeDirectory path with
        | .ok fs => (.ok (), fs)
        | .error .notFound =>
            match fs.makeDirectories above with
            | (.error e, fs) => (.error e, fs)
            | (.ok (), fs) =>
                match fs.makeDirectory path with
                | .ok fs => (.ok (), fs)
                | .error e => (if fs.isDirectory path then .ok () else .error e, fs)
        | .error e => (if fs.isDirectory path then .ok () else .error e, fs)

/-- A directory and all that lead to it. -/
def createDirectories (fs : FileSystem) (path : String) : Except Access.Failure Unit × FileSystem :=
  fs.makeDirectories (Path.lineage path)

/-- The absolute path of a place. -/
def pathOf (place : Location) : String := "/" ++ "/".intercalate place

/-- The files, in the order in which they were created. -/
def files (fs : FileSystem) : List (Location × Content) :=
  fs.nodes.filterMap fun entry =>
    match entry.2 with
    | .file content => some (entry.1, content)
    | .directory => none

end FileSystem
end LocaleKeys
