import LocaleKeys.Placement

/-! A ledger is a table together with the number of requests since the current
unit of work began. -/
namespace LocaleKeys

structure Ledger where
  table : Table := .empty
  requests : Nat := 0
  deriving DecidableEq

namespace Ledger

/-- A text is placed in the table. Failure leaves the ledger as it was. -/
def place (l : Ledger) (limit : Nat) (text candidate suffix : String) :
    Except NoFreeKey Outcome × Ledger :=
  match l.table.place limit text candidate suffix with
  | .ok outcome => (.ok outcome, { l with table := l.table.after text outcome })
  | .error e => (.error e, l)

/-- One more request was made. -/
def request (l : Ledger) : Ledger := { l with requests := l.requests + 1 }

/-- A new unit of work begins. -/
def beginUnit (l : Ledger) : Ledger := { l with requests := 0 }

/-- The whole table gives way to another; requests are still counted. -/
def replaceTable (l : Ledger) (t : Table) : Ledger := { l with table := t }

end Ledger
end LocaleKeys
