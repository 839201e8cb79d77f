import LocaleKeys.Ledger
import LocaleKeys.Scheme

/-! A namer answers requests for keys: it makes the candidate by its scheme and
places the text in its ledger. -/
namespace LocaleKeys

/-- The limit of probes where none is given. -/
def Namer.defaultLimit : Nat := 1000

structure Namer where
  ledger : Ledger := {}
  scheme : Scheme := {}
  /-- Number of probes that a request may take. -/
  limit : Nat := Namer.defaultLimit

namespace Namer

def table (n : Namer) : Table := n.ledger.table

/-- The key for a text found at a place, within the namespace of a suffix. The
request is counted whether or not a key is found. -/
def name (n : Namer) (text : String) (labels : List String) (suffix : String) :
    Except NoFreeKey Outcome × Namer :=
  let (result, ledger) :=
    n.ledger.request.place n.limit text (n.scheme.candidate text labels) suffix
  (result, { n with ledger := ledger })

def withTable (n : Namer) (t : Table) : Namer :=
  { n with ledger := n.ledger.replaceTable t }

def withMaxSegmentLength (n : Namer) (length : Nat) : Namer :=
  { n with scheme := { n.scheme with maxSegmentLength := length } }

def beginUnit (n : Namer) : Namer := { n with ledger := n.ledger.beginUnit }

/-- Whether a key was asked for since the unit began. -/
def hasRequests (n : Namer) : Bool := n.ledger.requests > 0

end Namer
end LocaleKeys
