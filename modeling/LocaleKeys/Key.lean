/-! Dotted keys. A key is a string whose dots separate segments. Two keys are
related when one nests under the other on a dot, and a key is extended by whole
segments only, so an empty segment is never added. -/
namespace LocaleKeys.Key

/-- The non-empty pieces between the dots, in order. -/
def segments (key : String) : List String :=
  ((key.toList.splitOn '.').filter (· ≠ [])).map String.ofList

/-- Segments written one after another with a dot between neighbours. -/
def ofSegments (segments : List String) : String :=
  String.ofList (['.'].intercalate (segments.map String.toList))

/-- The candidate followed by the segments of a namespace suffix, each behind
its own dot. A suffix without segments changes nothing. -/
def extend (candidate suffix : String) : String :=
  (segments suffix).foldl (fun key segment => key ++ "." ++ segment) candidate

/-- A key lies under another when it continues that key after a dot. No key
lies under itself, and sharing plain leading characters is not enough. -/
def Under (descendant ancestor : String) : Prop :=
  ancestor.toList ++ ['.'] <+: descendant.toList

instance (descendant ancestor : String) : Decidable (Under descendant ancestor) :=
  inferInstanceAs (Decidable (ancestor.toList ++ ['.'] <+: descendant.toList))

/-- A key is longer than every key that it lies under. -/
theorem Under.length_lt {descendant ancestor : String} (h : Under descendant ancestor) :
    ancestor.length < descendant.length := by
  have hLength := List.IsPrefix.length_le h
  rw [List.length_append] at hLength
  simpa [← String.length_toList] using Nat.lt_of_succ_le hLength

theorem not_under_self (key : String) : ¬ Under key key :=
  fun h => Nat.lt_irrefl _ h.length_lt

end LocaleKeys.Key
