import LocaleKeys.Path

/-! Labels that a source file gives to its texts: the directories below the root
marker, without the directory of the component and the file itself. Files in
shared places and files outside every root give none. -/
namespace LocaleKeys.SourceFile

/-- Marks a place that many components share, where none is given. -/
def defaultSharedMarker : String := "shared"

/-- Whether a text occurs within another. -/
def occursIn (pattern : List Char) : List Char → Bool
  | [] => pattern.isEmpty
  | c :: rest => pattern.isPrefixOf (c :: rest) || occursIn pattern rest

/-- Whether a path goes through a place whose name holds the marker. -/
def isShared (marker path : String) : Bool :=
  marker ≠ "" && (Path.names path).any fun name => occursIn marker.toList name.toList

/-- The names of a path, the last one without its extension. -/
def parts (path : String) : List String :=
  match Path.fileName? path with
  | some name => (Path.names path).dropLast ++ [Path.stem name]
  | none => Path.names path

/-- The labels of a source file. -/
def labels (rootMarker sharedMarker path : String) : List String :=
  if isShared sharedMarker path then []
  else
    let parts := parts path
    match parts.idxOf? rootMarker with
    | none => []
    | some root => (parts.take (parts.length - 2)).drop (root + 1)

end LocaleKeys.SourceFile
