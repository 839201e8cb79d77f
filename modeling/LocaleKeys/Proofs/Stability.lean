import LocaleKeys.Proofs.History

/-! An answer once given is given again: a later search for the same text meets
the same obstacles on its way, because other texts in the meantime can neither
clear nor change any of them, and ends at the key that now holds the text. -/
namespace LocaleKeys

/-- In every table that grew after a text was placed, placing it again finds
the same key and changes nothing. -/
theorem Table.Grows.place_again {t later : Table} {limit : Nat} {text candidate suffix : String}
    {outcome : Outcome} (h : t.place limit text candidate suffix = .ok outcome)
    (hGrows : (t.after text outcome).Grows later) :
    later.place limit text candidate suffix = .ok (.matched outcome.key) := by
  obtain ⟨hPlaced, hLookup⟩ := Table.after_of_place h
  have hFound := hGrows.keeps outcome.key text hLookup
  rw [Table.place_eq_ok_iff] at h ⊢
  exact (hPlaced.trans hGrows).search_eq_matched h hFound

theorem Ledger.place_again (l later : Ledger) {limit : Nat} {text candidate suffix : String}
    {outcome : Outcome} (h : (l.place limit text candidate suffix).1 = .ok outcome)
    (hGrows : (l.place limit text candidate suffix).2.table.Grows later.table) :
    later.place limit text candidate suffix = (.ok (.matched outcome.key), later) := by
  rw [place_snd_of_ok h] at hGrows
  rw [place_fst] at h
  rw [place, hGrows.place_again h]
  rfl

/-- Answers are stable over whole histories. A text that was placed is matched
under the same key by the same request at any later time, and a namer answers so
whenever its scheme is the same as at the first request. -/
theorem history_keeps_answers :
    (∀ (l : Ledger) (limit : Nat) (text candidate suffix : String) (outcome : Outcome),
      (l.place limit text candidate suffix).1 = .ok outcome → ∀ history,
        let later := (l.place limit text candidate suffix).2.run history
        later.place limit text candidate suffix = (.ok (.matched outcome.key), later)) ∧
    (∀ (n : Namer) (text : String) (labels : List String) (suffix : String) (outcome : Outcome),
      (n.name text labels suffix).1 = .ok outcome → ∀ history,
        let later := (n.name text labels suffix).2.run history
        later.scheme = n.scheme →
        (later.name text labels suffix).1 = .ok (.matched outcome.key) ∧
        (later.name text labels suffix).2.table = later.table) := by
  constructor
  · intro l limit text candidate suffix outcome h history later
    exact Ledger.place_again l later h (Ledger.run_grows _ history)
  · intro n text labels suffix outcome h history later hScheme
    have hLimit : later.limit = n.limit := Namer.run_limit (n.name text labels suffix).2 history
    have hGrows : (n.name text labels suffix).2.table.Grows later.table :=
      Namer.run_grows _ history
    have hAgain := Ledger.place_again n.ledger.request later.ledger.request h hGrows
    rw [Namer.name_eq, hScheme, hLimit]
    exact ⟨congrArg Prod.fst hAgain, congrArg (fun answer => answer.2.table) hAgain⟩

/-- A key that was rewritten behind `user` stays the answer after its neighbours
are taken, in a ledger and in a namer whose segment length was changed and back. -/
theorem rewritten_answer_is_kept :
    (let l : Ledger := { table := .ofList [("user.name", "Name")] }
      let later := (l.place 2 "Jane" "user" "").2.run
        [.place 9 "Bob" "user" "", .request, .place 0 "Ann" "user" "", .place 9 "Eve" "" "user"]
      later.place 2 "Jane" "user" "" = (.ok (.matched "user.value"), later)) ∧
    (let n : Namer := { ledger := { table := .ofList [("user.name", "Name")] } }
      let later := (n.name "Jane" ["user"] "").2.run
        [.maxSegmentLength 3, .name "Bob" ["user"] "", .maxSegmentLength 64, .beginUnit]
      (later.name "Jane" ["user"] "").1 = .ok (.matched "user.value") ∧
        (later.name "Jane" ["user"] "").2.table = later.table) :=
  ⟨history_keeps_answers.1 _ 2 "Jane" "user" "" (.inserted "user.value") rfl _,
    history_keeps_answers.2 _ "Jane" ["user"] "" (.inserted "user.value") rfl _ rfl⟩

end LocaleKeys
