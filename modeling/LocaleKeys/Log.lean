import LocaleKeys.Namer
import LocaleKeys.Text.Quoted
import LocaleKeys.Tree

/-! Log events: what happened on the way to an answer, each with its level and
its named fields. -/
namespace LocaleKeys

/-- How important an event is; as a threshold, which events are shown. -/
inductive Log.Level
  | trace
  | debug
  | info
  | warn
  | error
  | off
  deriving DecidableEq, Repr

namespace Log.Level

def rank : Level → Nat
  | .trace => 0
  | .debug => 1
  | .info => 2
  | .warn => 3
  | .error => 4
  | .off => 5

/-- The name, right-aligned to five columns. -/
def column : Level → String
  | .trace => "TRACE"
  | .debug => "DEBUG"
  | .info => " INFO"
  | .warn => " WARN"
  | .error => "ERROR"
  | .off => "  OFF"

def ofName? : String → Option Level
  | "trace" => some .trace
  | "debug" => some .debug
  | "info" => some .info
  | "warn" => some .warn
  | "error" => some .error
  | "off" => some .off
  | _ => none

end Log.Level

inductive Log.Event
  | settingsLoaded (path : String)
  | tableMissing (path : String)
  | tableLoaded (path : String) (entries : Nat)
  | fileWritten (path : String)
  | overlapsFound (count : Nat) (table : String)
  | keyOverlaps (key overlapping : String)
  | keyNumbered (candidate : String)
  | searchEnded (candidate : String) (attempts : Nat)
  | keyReused (key : String)
  | keyInserted (key : String)
  | candidateTaken (candidate key : String)
  | clash (clash : Tree.Clash)
  deriving DecidableEq, Repr

namespace Log.Event

def level : Event → Level
  | .keyReused _ | .keyInserted _ => .trace
  | .overlapsFound _ _ | .clash _ => .warn
  | _ => .debug

def message : Event → String
  | .settingsLoaded _ => "Loaded config"
  | .tableMissing _ => "Table file not found, starting empty"
  | .tableLoaded _ _ => "Loaded table"
  | .fileWritten _ => "Wrote JSON file"
  | .overlapsFound _ _ => "Table has overlapping keys, run \u0060lutkey check\u0060 for details"
  | .keyOverlaps _ _ => "Key overlaps"
  | .keyNumbered _ => "Falling back to numbered key"
  | .searchEnded _ _ => "Key resolution gave up"
  | .keyReused _ => "Reusing existing key"
  | .keyInserted _ => "Inserting new key"
  | .candidateTaken _ _ => "Candidate key was taken"
  | .clash (.replaced _) => "Leaf replaced by nested group during export"
  | .clash (.shadowed _) => "Nested group shadows leaf during export"

/-- The fields with their values as they are shown. -/
def fields : Event → List (String × String)
  | .settingsLoaded path | .tableMissing path | .fileWritten path => [("path", path)]
  | .tableLoaded path entries => [("path", path), ("entries", toString entries)]
  | .overlapsFound count table => [("count", toString count), ("table", table)]
  | .keyOverlaps key overlapping => [("key", key), ("overlapping", Text.quoted overlapping)]
  | .keyNumbered candidate => [("candidate", candidate)]
  | .searchEnded candidate attempts =>
      [("candidate", Text.quoted candidate), ("attempts", toString attempts)]
  | .keyReused key | .keyInserted key => [("key", key)]
  | .candidateTaken candidate key => [("candidate", candidate), ("key", Text.quoted key)]
  | .clash (.replaced segment) | .clash (.shadowed segment) =>
      [("segment", Text.quoted segment)]

/-- Whether the event is shown at a threshold. -/
def isShown (threshold : Level) (e : Event) : Bool := threshold.rank ≤ e.level.rank

def line (e : Event) : String :=
  e.fields.foldl (fun text field => text ++ " " ++ field.1 ++ "=" ++ field.2)
    (e.level.column ++ " " ++ e.message)

/-- The event of one probe; an end without a key is no probe. -/
def ofProbe (suffix : String) (p : Probe) : Verdict → Event
  | .matched => .keyReused (p.key suffix)
  | .free => .keyInserted (p.key suffix)
  | .taken => .keyNumbered p.count.stem
  | .under other | .above other =>
      if p.number = 0 then .keyOverlaps (p.key suffix) other else .keyNumbered p.count.stem

/-- The events of a request to a namer, in order. -/
def ofRequest (n : Namer) (text : String) (labels : List String) (suffix : String) : List Event :=
  let candidate := n.scheme.candidate text labels
  let probes := n.table.trail text suffix n.limit ⟨candidate, 0⟩
  let ending : List Event :=
    match n.table.place n.limit text candidate suffix with
    | .ok (.inserted key) => if key ≠ candidate then [.candidateTaken candidate key] else []
    | .ok (.matched _) => []
    | .error _ => [.searchEnded candidate (n.limit + 1)]
  probes.map (fun probe => ofProbe suffix probe.1 probe.2) ++ ending

end Log.Event
end LocaleKeys
