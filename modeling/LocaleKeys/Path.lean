/-! Slash-separated paths. A path is kept as it is written. Its pieces are what
stands between slashes; empty pieces and single dots say nothing, except that a
leading slash starts at the root and a leading dot at the current directory. -/
namespace LocaleKeys.Path

/-- What stands between the slashes; never an empty list. -/
def pieces (path : String) : List String :=
  (path.toList.splitOn '/').map String.ofList

def ofPieces (pieces : List String) : String :=
  String.ofList (['/'].intercalate (pieces.map String.toList))

def isAbsolute (path : String) : Bool := path.toList.head? = some '/'

/-- Pieces that leave the place unchanged. -/
def isIdle (piece : String) : Bool := piece = "" || piece = "."

/-- The pieces that are names: neither idle nor a step upwards. -/
def names (path : String) : List String :=
  (pieces path).filter fun piece => !isIdle piece && piece ≠ ".."

/-- A path seen from a directory. An absolute path stays as it is, and an empty
one leaves the directory with a slash at its end. -/
def join (directory path : String) : String :=
  if isAbsolute path || directory = "" then path
  else if directory.toList.getLast? = some '/' then directory ++ path
  else directory ++ "/" ++ path

/-- A list without the idle pieces at its end. -/
def trimIdle (pieces : List String) : List String :=
  (pieces.reverse.dropWhile isIdle).reverse

/-- The path without its last component, as it is written up to there. The root
and the empty path have none. -/
def parent? (path : String) : Option String :=
  match pieces path with
  | [] => none
  | first :: others =>
      match trimIdle others with
      | [] => if first = "" then none else some ""
      | behind =>
          match trimIdle behind.dropLast with
          | [] => some (if isAbsolute path then "/" else first)
          | kept => some (ofPieces (first :: kept))

/-- A path and the paths above it, from the longest to the shortest. -/
def lineage (path : String) : List String := go path.length path
where
  go : Nat → String → List String
    | 0, path => [path]
    | fuel + 1, path =>
        path :: match parent? path with
          | some above => go fuel above
          | none => []

/-- The name at the end of a path; none when it ends at a root, at the current
directory or with a step upwards. -/
def fileName? (path : String) : Option String :=
  match pieces path with
  | [] => none
  | first :: others =>
      match (trimIdle others).getLast? with
      | some last => if last = ".." then none else some last
      | none => if isIdle first || first = ".." then none else some first

/-- A file name up to its last dot; a dot at its start does not count. -/
def stem (name : String) : String :=
  match (name.toList.reverse.dropWhile (· ≠ '.')).drop 1 with
  | [] => name
  | before => String.ofList before.reverse

end LocaleKeys.Path
