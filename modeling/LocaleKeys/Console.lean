import LocaleKeys.Log

/-! What a command shows: lines on the output, lines beside it, and log events.
A line is made of spans that may be painted. -/
namespace LocaleKeys.Console

inductive Paint
  | green
  | red
  | boldRed
  | yellow
  deriving DecidableEq, Repr

def Paint.code : Paint → String
  | .green => "32"
  | .red => "31"
  | .boldRed => "1;31"
  | .yellow => "33"

def reset : String := "\x1b[0m"

/-- The sequence that starts a paint. -/
def Paint.start (p : Paint) : String := "\x1b[" ++ p.code ++ "m"

structure Span where
  paint : Option Paint := none
  text : String
  deriving DecidableEq, Repr

abbrev Line := List Span

/-- A painted text. A reset inside the text must not end the paint, so the paint
starts anew behind it. -/
def Paint.apply (p : Paint) (text : String) : String :=
  p.start ++ text.replace reset (reset ++ p.start) ++ reset

/-- The text of a span, painted only in colour. -/
def Span.render (colored : Bool) (s : Span) : String :=
  match s.paint with
  | some p => if colored then p.apply s.text else s.text
  | none => s.text

def Line.render (colored : Bool) (l : Line) : String :=
  l.foldl (fun text span => text ++ span.render colored) ""

def plain (text : String) : Line := [{ text }]

/-- A message of success behind its mark. -/
def success (message : String) : Line :=
  [{ paint := some .green, text := "\u2713" }, { text := " " },
    { paint := some .green, text := message }]

/-- A message of failure behind its mark. -/
def failure (message : String) : Line :=
  [{ paint := some .red, text := "\u2718" }, { text := " " },
    { paint := some .red, text := message }]

def warning (message : String) : Line := [{ paint := some .yellow, text := message }]

inductive Output
  | out (line : Line)
  | err (line : Line)
  | log (event : Log.Event)
  deriving DecidableEq, Repr

/-- How outputs are shown. -/
structure Display where
  colored : Bool := false
  threshold : Log.Level := .warn

/-- The text on the output. -/
def stdoutText (display : Display) (outputs : List Output) : String :=
  outputs.foldl
    (fun text output =>
      match output with
      | .out line => text ++ line.render display.colored ++ "\n"
      | _ => text)
    ""

/-- The text beside the output: messages and the events that are shown. -/
def stderrText (display : Display) (outputs : List Output) : String :=
  outputs.foldl
    (fun text output =>
      match output with
      | .out _ => text
      | .err line => text ++ line.render display.colored ++ "\n"
      | .log event => if event.isShown display.threshold then text ++ event.line ++ "\n" else text)
    ""

/-- The ending of "entry" for a number of them. -/
def entries (count : Nat) : String := if count = 1 then "y" else "ies"

end LocaleKeys.Console
