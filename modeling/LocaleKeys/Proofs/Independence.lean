import LocaleKeys.Proofs.Branch
import LocaleKeys.Proofs.History
import Mathlib.Data.List.FinRange

/-! Requests on different branches do not see each other. A namer answers a
request as if only the earlier requests on the same branch had been made, so the
order among requests of different branches changes no answer, and the table at
the end is the same. -/
namespace LocaleKeys.Namer

/-- A text to be named, with the labels of its place and a suffix. -/
structure Request where
  text : String
  labels : List String := []
  suffix : String := ""
  deriving DecidableEq, Repr

def answer (n : Namer) (r : Request) : Except NoFreeKey Outcome :=
  (n.name r.text r.labels r.suffix).1

def serve (n : Namer) (r : Request) : Namer := (n.name r.text r.labels r.suffix).2

def serveAll (n : Namer) (requests : List Request) : Namer := requests.foldl serve n

/-- The answers to requests made one after another. -/
def answers : Namer → List Request → List (Except NoFreeKey Outcome)
  | _, [] => []
  | n, r :: rest => n.answer r :: answers (n.serve r) rest

/-- The first segment of the candidate of a request. -/
def branch (n : Namer) (r : Request) : String :=
  Key.firstSegment (n.scheme.candidate r.text r.labels)

variable {n m : Namer} {r : Request} {requests : List Request} {name key : String}

theorem plainSegment_branch (n : Namer) (r : Request) : Key.PlainSegment (n.branch r) := by
  obtain ⟨first, rest, hCandidate, hPlain⟩ := n.scheme.candidate_eq_ofSegments r.text r.labels
  rw [branch, hCandidate, Key.firstSegment_ofSegments fun segment h => (hPlain segment h).isSegment]
  exact hPlain first List.mem_cons_self

theorem answer_eq (n : Namer) (r : Request) :
    n.answer r = n.table.place n.limit r.text (n.scheme.candidate r.text r.labels) r.suffix := by
  rw [answer, name_eq]
  exact Ledger.place_fst _ _ _ _ _

theorem serve_table (n : Namer) (r : Request) :
    (n.serve r).table =
      match n.answer r with
      | .ok outcome => n.table.after r.text outcome
      | .error _ => n.table := by
  have hServe : (n.serve r).table = (n.ledger.request.place n.limit r.text
      (n.scheme.candidate r.text r.labels) r.suffix).2.table := rfl
  rw [hServe, answer_eq]
  exact Ledger.place_snd_table _ _ _ _ _

/-- A request leaves the table or inserts its text on its own branch. -/
theorem serve_table_cases (n : Namer) (r : Request) :
    (n.serve r).table = n.table ∨
      ∃ key, Key.OnBranch (n.branch r) key ∧ (n.serve r).table = n.table.insert key r.text := by
  rw [serve_table]
  cases hAnswer : n.answer r with
  | error e => exact .inl rfl
  | ok outcome =>
      rw [answer_eq, Table.place_eq_ok_iff] at hAnswer
      have hKey := Table.onBranch_of_search (Probe.onBranch_candidate _) hAnswer
      cases outcome with
      | matched key => exact .inl rfl
      | inserted key => exact .inr ⟨key, hKey, rfl⟩

/-- The answer to a request is given after all requests before it. -/
theorem answers_getElem? (n : Namer) (requests : List Request) (i : Nat) :
    (n.answers requests)[i]? = requests[i]?.map (n.serveAll (requests.take i)).answer := by
  induction requests generalizing n i with
  | nil => simp [answers]
  | cons r rest ih =>
      cases i with
      | zero => rfl
      | succ i => exact ih (n.serve r) i

/-- Two namers that cannot be told apart by requests on a branch. -/
structure AgreeOn (name : String) (n m : Namer) : Prop where
  scheme : n.scheme = m.scheme
  limit : n.limit = m.limit
  table : Table.AgreeOn name n.table m.table

namespace AgreeOn

theorem refl (name : String) (n : Namer) : AgreeOn name n n := ⟨rfl, rfl, .refl name n.table⟩

theorem answer_eq (h : AgreeOn name n m) (hBranch : n.branch r = name) :
    n.answer r = m.answer r := by
  rw [Namer.answer_eq, Namer.answer_eq, ← h.scheme, ← h.limit]
  exact h.table.place_eq hBranch n.limit r.text r.suffix

/-- A request on the branch is served alike by both. -/
theorem serve (h : AgreeOn name n m) (hBranch : n.branch r = name) :
    AgreeOn name (n.serve r) (m.serve r) where
  scheme := h.scheme
  limit := h.limit
  table := by
    rw [serve_table, serve_table, h.answer_eq hBranch]
    cases m.answer r with
    | error e => exact h.table
    | ok outcome =>
        cases outcome with
        | matched key => exact h.table
        | inserted key => exact h.table.insert key r.text

/-- A request on another branch is not noticed. -/
theorem serve_left (h : AgreeOn name n m) (hName : Key.BranchName name)
    (hAway : n.branch r ≠ Probe.qualifier) (hNe : n.branch r ≠ name) :
    AgreeOn name (n.serve r) m where
  scheme := h.scheme
  limit := h.limit
  table := by
    rcases n.serve_table_cases r with hSame | ⟨key, hKey, hInserted⟩
    · exact hSame ▸ h.table
    · exact hInserted ▸ h.table.insert_left hKey ⟨n.plainSegment_branch r, hAway⟩ hName hNe r.text

/-- All requests together look on a branch like those of the branch alone. -/
theorem serveAll_filter (h : AgreeOn name n m) (hName : Key.BranchName name)
    (hBranches : ∀ r ∈ requests, n.branch r ≠ Probe.qualifier) :
    AgreeOn name (n.serveAll requests) (m.serveAll (requests.filter (n.branch · = name))) := by
  induction requests generalizing n m with
  | nil => exact h
  | cons r rest ih =>
      obtain ⟨hFirst, hRest⟩ := List.forall_mem_cons.mp hBranches
      by_cases hBranch : n.branch r = name
      · rw [List.filter_cons_of_pos (by simpa using hBranch)]
        exact ih (h.serve hBranch) hRest
      · rw [List.filter_cons_of_neg (by simpa using hBranch)]
        exact ih (h.serve_left hName hFirst hBranch) hRest

end AgreeOn

theorem serveAll_branch (n : Namer) (requests : List Request) :
    (n.serveAll requests).branch = n.branch := by
  induction requests generalizing n with
  | nil => rfl
  | cons r rest ih => exact ih (n.serve r)

/-- A request is answered as after the earlier requests on its branch alone. -/
theorem answer_serveAll_filter (hBranches : ∀ r ∈ requests, n.branch r ≠ Probe.qualifier)
    (hBranch : n.branch r ≠ Probe.qualifier) :
    (n.serveAll requests).answer r =
      (n.serveAll (requests.filter (n.branch · = n.branch r))).answer r :=
  ((AgreeOn.refl (n.branch r) n).serveAll_filter ⟨n.plainSegment_branch r, hBranch⟩
    hBranches).answer_eq (congrFun (n.serveAll_branch requests) r)

theorem lookup_serveAll_of_off_branch
    (h : ∀ r ∈ requests, ¬ Key.OnBranch (n.branch r) key) :
    (n.serveAll requests).table.lookup key = n.table.lookup key := by
  induction requests generalizing n with
  | nil => rfl
  | cons r rest ih =>
      obtain ⟨hFirst, hRest⟩ := List.forall_mem_cons.mp h
      refine (ih (n := n.serve r) hRest).trans ?_
      rcases n.serve_table_cases r with hSame | ⟨inserted, hInserted, hTable⟩
      · rw [hSame]
      · rw [hTable, Table.lookup_insert, if_neg]
        rintro rfl
        exact hFirst hInserted

/-- Requests that are the same on each branch leave the same table. -/
theorem table_serveAll_eq {others : List Request}
    (hSame : ∀ name, requests.filter (n.branch · = name) = others.filter (n.branch · = name))
    (hBranches : ∀ r ∈ requests, n.branch r ≠ Probe.qualifier) :
    (n.serveAll requests).table = (n.serveAll others).table := by
  have hMem (r : Request) : r ∈ requests ↔ r ∈ others := by
    have hIff := congrArg (r ∈ ·) (hSame (n.branch r))
    simpa [List.mem_filter] using hIff
  have hOthers : ∀ r ∈ others, n.branch r ≠ Probe.qualifier := fun r hR =>
    hBranches r ((hMem r).mpr hR)
  apply Table.ext_lookup
  intro key
  by_cases hKey : ∃ r ∈ requests, Key.OnBranch (n.branch r) key
  · obtain ⟨r, hR, hKey⟩ := hKey
    have hName : Key.BranchName (n.branch r) := ⟨n.plainSegment_branch r, hBranches r hR⟩
    have hAgree := (AgreeOn.refl (n.branch r) n).serveAll_filter hName hBranches
    have hAgreeOthers := (AgreeOn.refl (n.branch r) n).serveAll_filter hName hOthers
    rw [hAgree.table key hKey key (.inl (.inl rfl)), hSame,
      hAgreeOthers.table key hKey key (.inl (.inl rfl))]
  · rw [lookup_serveAll_of_off_branch fun r hR h => hKey ⟨r, hR, h⟩,
      lookup_serveAll_of_off_branch fun r hR h => hKey ⟨r, (hMem r).mpr hR, h⟩]

/-- A rearrangement that keeps the order among the marked places makes of the
marked places of one part those of another, one by one. -/
theorem map_filter_eq_filter {k : Nat} {σ : Equiv.Perm (Fin k)} {marked : Fin k → Bool}
    {first second : List (Fin k)} (hFirst : first.Pairwise (· < ·))
    (hSecond : second.Pairwise (· < ·))
    (hOrder : ∀ i j, i < j → marked (σ i) = true → marked (σ j) = true → σ i < σ j)
    (hMem : ∀ i, marked (σ i) = true → (i ∈ first ↔ σ i ∈ second)) :
    (first.filter (marked ∘ σ)).map σ = second.filter marked := by
  have hAsymm (i j : Fin k) (hLt : i < j) : ¬ j < i := Fin.lt_asymm hLt
  refine Table.eq_of_mem_iff_of_pairwise hAsymm ?_ (hSecond.filter _) ?_
  · rw [List.pairwise_map]
    refine (hFirst.filter _).imp_of_mem ?_
    intro i j hI hJ hLt
    exact hOrder i j hLt (List.mem_filter.mp hI).2 (List.mem_filter.mp hJ).2
  · intro place
    rw [List.mem_map, List.mem_filter]
    constructor
    · rintro ⟨i, hI, rfl⟩
      obtain ⟨hIn, hMarked⟩ := List.mem_filter.mp hI
      exact ⟨(hMem i hMarked).mp hIn, hMarked⟩
    · rintro ⟨hIn, hMarked⟩
      obtain ⟨i, rfl⟩ := σ.surjective place
      exact ⟨i, List.mem_filter.mpr ⟨(hMem i hMarked).mpr hIn, hMarked⟩, rfl⟩

theorem mem_take_finRange {k count : Nat} {i : Fin k} :
    i ∈ (List.finRange k).take count ↔ i.val < count := by
  rw [List.mem_take_iff_getElem]
  constructor
  · rintro ⟨j, hj, rfl⟩
    simpa using (Nat.lt_min.mp hj).1
  · intro h
    exact ⟨i, Nat.lt_min.mpr ⟨h, by simp⟩, by simp⟩

theorem take_ofFn {k : Nat} (requests : Fin k → Request) (count : Nat) :
    (List.ofFn requests).take count = ((List.finRange k).take count).map requests := by
  rw [List.ofFn_eq_map, List.map_take]

section Rearranged

variable {k : Nat} {requests : Fin k → Request} {σ : Equiv.Perm (Fin k)}
  (hOrder : ∀ i j, i < j → n.branch (requests (σ i)) = n.branch (requests (σ j)) → σ i < σ j)

include hOrder

/-- The requests on a branch are the same, one by one, at places that correspond. -/
theorem filter_map_rearranged {first second : List (Fin k)} (hFirst : first.Pairwise (· < ·))
    (hSecond : second.Pairwise (· < ·))
    (hMem : ∀ i, n.branch (requests (σ i)) = name → (i ∈ first ↔ σ i ∈ second)) :
    (first.map (requests ∘ σ)).filter (n.branch · = name) =
      (second.map requests).filter (n.branch · = name) := by
  have hPlaces := @map_filter_eq_filter k σ ((n.branch · = name) ∘ requests) first second hFirst
    hSecond (fun i j hLt hI hJ => hOrder i j hLt (by simp_all)) (by simpa using hMem)
  rw [List.filter_map, List.filter_map, ← hPlaces, List.map_map, Function.comp_assoc]

theorem filter_rearranged (name : String) :
    (List.ofFn (requests ∘ σ)).filter (n.branch · = name) =
      (List.ofFn requests).filter (n.branch · = name) := by
  rw [List.ofFn_eq_map, List.ofFn_eq_map]
  refine filter_map_rearranged hOrder (List.pairwise_lt_finRange k) (List.pairwise_lt_finRange k) ?_
  simp

/-- Before a request the same ones were made on its branch as in the first order. -/
theorem filter_take_rearranged (i : Fin k) :
    ((List.ofFn (requests ∘ σ)).take i).filter (n.branch · = n.branch (requests (σ i))) =
      ((List.ofFn requests).take (σ i)).filter (n.branch · = n.branch (requests (σ i))) := by
  rw [take_ofFn, take_ofFn]
  have hRange (count : Nat) : ((List.finRange k).take count).Pairwise (· < ·) :=
    (List.pairwise_lt_finRange k).sublist (List.take_sublist _ _)
  refine filter_map_rearranged hOrder (hRange i) (hRange (σ i)) fun j hBranch => ?_
  rw [mem_take_finRange, mem_take_finRange]
  constructor
  · exact fun hLt => hOrder j i hLt hBranch
  · intro hLt
    rcases Nat.lt_trichotomy j i with hBefore | hSame | hAfter
    · exact hBefore
    · rw [Fin.ext hSame] at hLt
      exact absurd hLt (Nat.lt_irrefl _)
    · exact absurd (hOrder i j hAfter hBranch.symm) (Nat.lt_asymm hLt)

end Rearranged

/-- Requests on different branches are independent. Their order may be changed at
will, as long as requests on one branch stay in theirs and none is on the branch
of the qualifier: each request gets the answer it got before, and the table at the
end is the same. -/
theorem answers_independent_of_other_branches (n : Namer) {k : Nat} (requests : Fin k → Request)
    (hBranches : ∀ i, n.branch (requests i) ≠ Probe.qualifier) (σ : Equiv.Perm (Fin k))
    (hOrder : ∀ i j, i < j → n.branch (requests (σ i)) = n.branch (requests (σ j)) → σ i < σ j) :
    (∀ i : Fin k, ∃ answer, (n.answers (List.ofFn (requests ∘ σ)))[(i : Nat)]? = some answer ∧
      (n.answers (List.ofFn requests))[(σ i : Nat)]? = some answer) ∧
    (n.serveAll (List.ofFn (requests ∘ σ))).table = (n.serveAll (List.ofFn requests)).table := by
  have hFirst : ∀ r ∈ List.ofFn requests, n.branch r ≠ Probe.qualifier := by
    simpa [List.mem_ofFn] using hBranches
  have hSecond : ∀ r ∈ List.ofFn (requests ∘ σ), n.branch r ≠ Probe.qualifier := by
    simpa [List.mem_ofFn] using fun i => hBranches (σ i)
  refine ⟨fun i => ⟨(n.serveAll ((List.ofFn requests).take (σ i))).answer (requests (σ i)), ?_, ?_⟩,
    table_serveAll_eq (filter_rearranged hOrder) hSecond⟩
  · rw [answers_getElem?, List.getElem?_ofFn, dif_pos i.isLt, Option.map_some, Function.comp_apply,
      answer_serveAll_filter (fun r hR => hSecond r (List.mem_of_mem_take hR)) (hBranches (σ i)),
      filter_take_rearranged hOrder,
      ← answer_serveAll_filter (fun r hR => hFirst r (List.mem_of_mem_take hR)) (hBranches (σ i))]
  · rw [answers_getElem?, List.getElem?_ofFn, dif_pos (σ i).isLt]
    rfl

/-- A request for `settings` may come before or after the first one for `user`,
which meets a stored key and is moved below it either way. -/
theorem settings_is_independent_of_user :
    let n : Namer := { ledger := { table := .ofList [("user.name", "Name")] } }
    let jane : Request := { text := "Jane", labels := ["user"] }
    let save : Request := { text := "Save", labels := ["settings", "Button"], suffix := "text." }
    let bob : Request := { text := "Bob", labels := ["user"] }
    (n.serveAll [save, jane, bob]).table = (n.serveAll [jane, save, bob]).table ∧
      (n.answers [save, jane, bob])[2]? = some (.ok (.inserted "user.value1")) := by
  intro n jane save bob
  obtain ⟨hAnswers, hTable⟩ := answers_independent_of_other_branches n
    (fun i : Fin 3 => [jane, save, bob][i]) (by decide +kernel) (Equiv.swap 0 1) (by decide +kernel)
  refine ⟨hTable, ?_⟩
  obtain ⟨answer, hSecond, hFirst⟩ := hAnswers 2
  have hBob : (n.answers [jane, save, bob])[2]? = some (.ok (.inserted "user.value1")) := by
    decide +kernel
  exact hSecond.trans (hFirst.symm.trans hBob)

end LocaleKeys.Namer
