/-! Labels and the key segments made of them. A label is the name of a place in
a document: a markup tag, a component, a directory. Its segment holds the runs
of ASCII letters of its snake-cased form, joined by underscores, after the form
was cut to a limit. -/
namespace LocaleKeys.Label

/-- Every ASCII capital becomes an underscore and its small letter. -/
def snakeCase (label : String) : String :=
  String.ofList (label.toList.flatMap fun c => if c.isUpper then ['_', c.toLower] else [c])

/-- The maximal runs of ASCII letters, in order. -/
def letterRuns (text : List Char) : List (List Char) :=
  (text.splitOnP (fun c => !c.isAlpha)).filter (· ≠ [])

/-- The segment of a label: snake-cased, cut to `limit` characters, then reduced
to its letter runs with one underscore between neighbours. It is empty when no
letter is left. -/
def segment (limit : Nat) (label : String) : String :=
  String.ofList (['_'].intercalate (letterRuns ((snakeCase label).toList.take limit)))

/-- The lower case of a character, as far as a segment can show it. Two
characters outside ASCII have an ASCII letter in their lower case. All others
there have a lower case of one character that is not a letter of a segment
either, so they may stay. -/
def lowerCase : Char → List Char
  | '\u212a' => ['k']
  | '\u0130' => ['i', '\u0307']
  | c => [c.toLower]

/-- The segment of a running text. It is put into lower case first, so capitals
start no run. -/
def textSegment (limit : Nat) (text : String) : String :=
  segment limit (String.ofList (text.toList.flatMap lowerCase))

end LocaleKeys.Label
