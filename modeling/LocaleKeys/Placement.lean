import LocaleKeys.Overlap

/-! Placing a text in a table. A candidate is probed; if the key is not free,
the next probe moves it away from what blocks it. While only overlaps were met,
the candidate gets segments of its own: `of` in front to leave a stored
ancestor, `value` behind to join the descendants. The first stored key in the
way starts the numbering, after which the number alone grows. The table is
looked at by every probe and changed by none. -/
namespace LocaleKeys

/-- A form of the candidate. Number zero stands for the base without a number. -/
structure Probe where
  base : String
  number : Nat := 0
  deriving DecidableEq, Repr

/-- What a table says about a key for a text. -/
inductive Verdict
  /-- The key holds this text. -/
  | matched
  /-- The key is not stored and overlaps no stored key. -/
  | free
  /-- The key holds another text. -/
  | taken
  /-- The key is not stored and lies under a stored key. -/
  | under (ancestor : String)
  /-- The key is not stored, lies under none, and has a stored key under it. -/
  | above (descendant : String)
  deriving DecidableEq, Repr

/-- Where a text was found or put. -/
inductive Outcome
  /-- The text was already stored under this key. -/
  | matched (key : String)
  /-- The text is new under this key. -/
  | inserted (key : String)
  deriving DecidableEq, Repr

/-- No probe was free or held the text within the limit. -/
structure NoFreeKey where
  candidate : String
  limit : Nat
  deriving DecidableEq, Repr

namespace NoFreeKey

def message (e : NoFreeKey) : String :=
  "no free key for candidate \"" ++ e.candidate ++ "\" after " ++ toString e.limit ++ " attempts"

end NoFreeKey

namespace Outcome

def key : Outcome → String
  | .matched key | .inserted key => key

end Outcome

namespace Probe

/-- Segment put in front of a key that would lie under a stored one. -/
def qualifier : String := "of"

/-- Segment put behind a key that has stored keys under it. -/
def valueSegment : String := "value"

/-- The candidate that a probe stands for. -/
def stem (p : Probe) : String :=
  if p.number = 0 then p.base else p.base ++ toString p.number

/-- The key that a probe tries: its candidate within the namespace of a suffix. -/
def key (suffix : String) (p : Probe) : String := Key.extend p.stem suffix

/-- The probe that counts one further. -/
def count (p : Probe) : Probe := { p with number := p.number + 1 }

/-- The probe after a verdict that ends nothing. A numbered probe only counts. -/
def next (p : Probe) : Verdict → Probe
  | .under _ => if p.number = 0 then ⟨qualifier ++ "." ++ p.base, 0⟩ else p.count
  | .above _ => if p.number = 0 then ⟨p.base ++ "." ++ valueSegment, 0⟩ else p.count
  | _ => p.count

end Probe

namespace Table

/-- The verdict on a key for a text. A stored key is never judged by what it
overlaps. -/
def judge (t : Table) (text key : String) : Verdict :=
  match t.lookup key with
  | some stored => if stored = text then .matched else .taken
  | none =>
      match t.overlapping key with
      | none => .free
      | some (.ancestor ancestor) => .under ancestor
      | some (.descendant descendant) => .above descendant

/-- Probes in turn, at most as many as there are attempts. -/
def search (t : Table) (text suffix : String) : Nat → Probe → Option Outcome
  | 0, _ => none
  | attempts + 1, p =>
      match t.judge text (p.key suffix) with
      | .matched => some (.matched (p.key suffix))
      | .free => some (.inserted (p.key suffix))
      | verdict => search t text suffix attempts (p.next verdict)

/-- The probes of a search with their verdicts, in order. -/
def trail (t : Table) (text suffix : String) : Nat → Probe → List (Probe × Verdict)
  | 0, _ => []
  | attempts + 1, p =>
      match t.judge text (p.key suffix) with
      | .matched => [(p, .matched)]
      | .free => [(p, .free)]
      | verdict => (p, verdict) :: trail t text suffix attempts (p.next verdict)

/-- The key for a text, found within a limit of attempts. -/
def place (t : Table) (limit : Nat) (text candidate suffix : String) :
    Except NoFreeKey Outcome :=
  match t.search text suffix limit ⟨candidate, 0⟩ with
  | some outcome => .ok outcome
  | none => .error ⟨Key.extend candidate suffix, limit⟩

/-- The table after a text was placed: only an insertion changes it. -/
def after (t : Table) (text : String) : Outcome → Table
  | .matched _ => t
  | .inserted key => t.insert key text

end Table
end LocaleKeys
