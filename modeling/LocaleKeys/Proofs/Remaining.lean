import LocaleKeys.Proofs.RoundTrip

/-! What remains of a table when it is read back from its tree. A key on which another
goes on gives way to the group of the other, however long the chain is, and every
other key comes back with its text. Keys of dots alone stand beside the groups and
keep out of each other's way. -/
namespace LocaleKeys

namespace Key

/-- No character of the key is anything but a dot. -/
def OnlyDots (key : String) : Prop := ∀ c ∈ key.toList, c = '.'

instance (key : String) : Decidable (OnlyDots key) :=
  List.decidableBAll (fun c => c = '.') key.toList

theorem splitOn_dots (count : Nat) :
    (List.replicate count '.').splitOn '.' = List.replicate (count + 1) [] := by
  induction count with
  | zero => rfl
  | succ count ih =>
      rw [List.replicate_succ, List.splitOn_cons_eq_if_modifyHead, ih]
      rfl

/-- The keys without segments are those of dots alone. -/
theorem segments_eq_nil_iff {key : String} : segments key = [] ↔ OnlyDots key := by
  rw [segments, List.map_eq_nil_iff, List.filter_eq_nil_iff]
  constructor
  · intro h c hC
    have hWritten : ['.'].intercalate (key.toList.splitOn '.') = key.toList :=
      List.intercalate_splitOn '.'
    rw [← hWritten] at hC
    rcases Label.mem_intercalate_singleton hC with hDot | ⟨piece, hPiece, hInside⟩
    · exact hDot
    · obtain rfl : piece = [] := by simpa using h piece hPiece
      cases hInside
  · intro h piece hPiece
    rw [List.eq_replicate_of_mem h, splitOn_dots] at hPiece
    simp [List.eq_of_mem_replicate hPiece]

theorem spelled_iff {key : String} : Spelled key ↔ OnlyDots key ∨ Whole key := by
  rw [Spelled, segments_eq_nil_iff, or_comm]

end Key

namespace Tree

open Key (OnlyDots Spelled Under Whole)

variable {t : Table} {a b key : String}

/-- A key under a key of segments goes on where the way of the latter ends. -/
theorem way_prefix_of_under (hA : Whole a) (hUnder : Under b a) : way a <+: way b := by
  obtain ⟨rest, rfl⟩ := Key.eq_join_of_under hUnder
  have hSome : Key.segments (a ++ "." ++ rest) ≠ [] := by
    rw [Key.segments_join]
    exact List.append_ne_nil_of_left_ne_nil (Key.segments_ne_nil_of_whole hA) _
  rw [way_of_whole hA, way_of_segments_ne_nil hSome, Key.segments_join]
  exact List.prefix_append _ _

/-- Among spelled keys one stands alone unless it is a key of segments with another
under it. -/
theorem standsAlone_iff (h : ∀ key ∈ t.keys, Spelled key) (hKey : key ∈ t.keys) :
    t.StandsAlone key ↔ ¬ (Whole key ∧ ∃ other ∈ t.keys, Under other key) := by
  constructor
  · rintro hAlone ⟨hWhole, other, hOther, hUnder⟩
    obtain rfl := hAlone other hOther (way_prefix_of_under hWhole hUnder)
    exact Key.not_under_self key hUnder
  · intro hKept other hOther hPrefix
    rcases h key hKey with hWhole | hNone
    · have hWays := eq_or_under_of_way_prefix (.inl hWhole) (h other hOther) hPrefix
      exact hWays.resolve_right fun hUnder => hKept ⟨hWhole, other, hOther, hUnder⟩
    · exact eq_of_way_prefix_of_segments_eq_nil hNone hPrefix

/-- Where each key is of dots alone or without empty segments, the tree gives the table
back but for the keys of segments under which another key lies. A table with a key of
any other kind does not come back. -/
theorem flatten_ofTable_remaining (t : Table) :
    ((∀ key ∈ t.keys, OnlyDots key ∨ Whole key) →
      flatten (ofTable .texts t) =
        t.filterKeys fun key => ¬ (Whole key ∧ ∃ other ∈ t.keys, Under other key)) ∧
    ((∃ key ∈ t.keys, ¬ OnlyDots key ∧ ¬ Whole key) → flatten (ofTable .texts t) ≠ t) := by
  constructor
  · intro h
    have hSpelled (key : String) (hKey : key ∈ t.keys) : Spelled key := Key.spelled_iff.mpr (h key hKey)
    rw [flatten_of_spelled hSpelled]
    exact Table.filterKeys_congr fun key hKey => decide_eq_decide.mpr (standsAlone_iff hSpelled hKey)
  · rintro ⟨key, hKey, hDots, hWhole⟩ hBack
    have hSpelled := (flatten_ofTable_iff.mp hBack).spelled key hKey
    exact (Key.spelled_iff.mp hSpelled).elim hDots hWhole

/-- Of a chain of three keys the last remains, beside a key that sorts between them and
two keys of dots; and `a..b` does not come back. -/
theorem last_of_chain_remains :
    let t := Table.ofList [("", "Empty"), ("..", "Dots"), ("a", "A"), ("a-b", "Between"),
      ("a.b", "B"), ("a.b.c", "C")]
    flatten (ofTable .texts t) =
        t.filterKeys (fun key => ¬ (Whole key ∧ ∃ other ∈ t.keys, Under other key)) ∧
      (flatten (ofTable .texts t)).keys = ["", "..", "a-b", "a.b.c"] ∧
      flatten (ofTable .texts (.ofList [("a..b", "B")])) ≠ .ofList [("a..b", "B")] := by
  intro t
  exact ⟨(flatten_ofTable_remaining t).1 (by decide +kernel), by decide +kernel,
    (flatten_ofTable_remaining _).2 ⟨"a..b", by decide +kernel⟩⟩

end Tree
end LocaleKeys
