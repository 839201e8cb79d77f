import LocaleKeys.Proofs.Independence

/-! Limits of attempts. A limit decides whether a search comes to its end, and nothing
else: what is found within a limit is found within every larger one. Requests that are
all answered with keys are therefore answered alike by a namer that may search longer,
and the two have the same table all along. -/
namespace LocaleKeys

/-- More attempts change nothing about a text that was placed. -/
theorem Table.place_mono {t : Table} {limit more : Nat} {text candidate suffix : String}
    {outcome : Outcome} (h : t.place limit text candidate suffix = .ok outcome)
    (hLe : limit ≤ more) : t.place more text candidate suffix = .ok outcome :=
  place_eq_ok_iff.mpr (search_mono (place_eq_ok_iff.mp h) hLe)

namespace Namer

/-- The namer with another limit and all else as it is. -/
def withLimit (n : Namer) (limit : Nat) : Namer := { n with limit }

variable {n : Namer} {more : Nat} {r : Request} {requests : List Request} {outcome : Outcome}

@[simp] theorem table_withLimit (n : Namer) (limit : Nat) : (n.withLimit limit).table = n.table :=
  rfl

theorem serve_of_ok (h : n.answer r = .ok outcome) :
    n.serve r =
      { n with ledger := { n.ledger.request with table := n.table.after r.text outcome } } := by
  have hLedger := Ledger.place_snd_of_ok (l := n.ledger.request) h
  rw [serve, name_eq, hLedger]
  rfl

theorem answer_withLimit (h : n.answer r = .ok outcome) (hLe : n.limit ≤ more) :
    (n.withLimit more).answer r = .ok outcome := by
  rw [answer_eq] at h ⊢
  exact Table.place_mono h hLe

/-- A request that gets a key leaves the namer as one with a larger limit. -/
theorem serve_withLimit (h : n.answer r = .ok outcome) (hLe : n.limit ≤ more) :
    (n.withLimit more).serve r = (n.serve r).withLimit more := by
  rw [serve_of_ok h, serve_of_ok (answer_withLimit h hLe)]
  rfl

/-- Whether every request gets a key. -/
def AllNamed (n : Namer) (requests : List Request) : Prop :=
  ∀ answer ∈ n.answers requests, ∃ outcome, answer = .ok outcome

theorem allNamed_cons_iff {rest : List Request} : n.AllNamed (r :: rest) ↔
    (∃ outcome, n.answer r = .ok outcome) ∧ (n.serve r).AllNamed rest :=
  List.forall_mem_cons

theorem AllNamed.take (h : n.AllNamed requests) (count : Nat) :
    n.AllNamed (requests.take count) := by
  induction requests generalizing n count with
  | nil => simpa using h
  | cons r rest ih =>
      obtain ⟨hFirst, hRest⟩ := allNamed_cons_iff.mp h
      cases count with
      | zero => simp [AllNamed, answers]
      | succ count => exact allNamed_cons_iff.mpr ⟨hFirst, ih hRest count⟩

/-- A whole run with a larger limit gives the same answers and the same namer in the end,
limit apart. -/
theorem AllNamed.withLimit (h : n.AllNamed requests) (hLe : n.limit ≤ more) :
    (n.withLimit more).answers requests = n.answers requests ∧
      (n.withLimit more).serveAll requests = (n.serveAll requests).withLimit more := by
  induction requests generalizing n with
  | nil => exact ⟨rfl, rfl⟩
  | cons r rest ih =>
      obtain ⟨⟨outcome, hAnswer⟩, hRest⟩ := allNamed_cons_iff.mp h
      obtain ⟨hAnswers, hLast⟩ := ih hRest hLe
      rw [← serve_withLimit hAnswer hLe] at hAnswers hLast
      constructor
      · rw [answers, answers, hAnswers, answer_withLimit hAnswer hLe, hAnswer]
      · exact hLast

/-- A larger limit changes no key. Requests that all get keys within a limit get the same
keys within every larger one, and after each of them the table is the same. -/
theorem answers_of_larger_limit (n : Namer) (more : Nat) (hLe : n.limit ≤ more)
    (requests : List Request)
    (hNamed : ∀ answer ∈ n.answers requests, ∃ outcome, answer = .ok outcome) :
    (n.withLimit more).answers requests = n.answers requests ∧
      ∀ count, ((n.withLimit more).serveAll (requests.take count)).table =
        (n.serveAll (requests.take count)).table := by
  have hAll : n.AllNamed requests := hNamed
  refine ⟨(hAll.withLimit hLe).1, fun count => ?_⟩
  rw [((hAll.take count).withLimit hLe).2, table_withLimit]

/-- Three texts for one place beside a stored key need three attempts at most. -/
theorem three_attempts_are_enough :
    let n : Namer := { ledger := { table := .ofList [("user.name", "Name")] }, limit := 3 }
    let requests : List Request :=
      [{ text := "Jane", labels := ["user"] }, { text := "Bob", labels := ["user"] },
        { text := "Jane", labels := ["user"] }]
    (n.withLimit 1000).answers requests = n.answers requests ∧
      ∀ count, ((n.withLimit 1000).serveAll (requests.take count)).table =
        (n.serveAll (requests.take count)).table := by
  intro n requests
  refine answers_of_larger_limit n 1000 (by decide) requests ?_
  have hAnswers : n.answers requests =
      [.ok (.inserted "user.value"), .ok (.inserted "user.value1"),
        .ok (.matched "user.value")] := by decide +kernel
  simp [hAnswers]

end Namer
end LocaleKeys
