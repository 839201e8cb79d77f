import LocaleKeys.Namer
import LocaleKeys.Proofs.Growth

/-! Histories of ledgers and namers. A history may place any texts within any
limits and begin units of work, but it never replaces the table. Whatever it
does, the table has only grown by the end. -/
namespace LocaleKeys

/-- What can happen to a ledger while its table is kept. -/
inductive Ledger.Step
  | place (limit : Nat) (text candidate suffix : String)
  | request
  | beginUnit
  deriving DecidableEq, Repr

namespace Ledger

def step (l : Ledger) : Step → Ledger
  | .place limit text candidate suffix => (l.place limit text candidate suffix).2
  | .request => l.request
  | .beginUnit => l.beginUnit

def run (l : Ledger) (history : List Step) : Ledger := history.foldl step l

/-- What a text was answered when it was placed. -/
structure Answer where
  text : String
  result : Except NoFreeKey Outcome

/-- Whether an answer tells of a new entry. -/
def Answer.isInsertion (answer : Answer) : Bool :=
  match answer.result with
  | .ok (.inserted _) => true
  | _ => false

def answers : Ledger → List Step → List Answer
  | _, [] => []
  | l, .place limit text candidate suffix :: rest =>
      ⟨text, (l.place limit text candidate suffix).1⟩ ::
        answers (l.place limit text candidate suffix).2 rest
  | l, .request :: rest => answers l.request rest
  | l, .beginUnit :: rest => answers l.beginUnit rest

theorem place_fst (l : Ledger) (limit : Nat) (text candidate suffix : String) :
    (l.place limit text candidate suffix).1 = l.table.place limit text candidate suffix := by
  rw [place]
  cases l.table.place limit text candidate suffix <;> rfl

theorem place_snd_of_ok {l : Ledger} {limit : Nat} {text candidate suffix : String}
    {outcome : Outcome} (h : (l.place limit text candidate suffix).1 = .ok outcome) :
    (l.place limit text candidate suffix).2 = { l with table := l.table.after text outcome } := by
  rw [place_fst] at h
  simp only [place, h]

theorem place_snd_table (l : Ledger) (limit : Nat) (text candidate suffix : String) :
    (l.place limit text candidate suffix).2.table =
      match l.table.place limit text candidate suffix with
      | .ok outcome => l.table.after text outcome
      | .error _ => l.table := by
  rw [place]
  cases l.table.place limit text candidate suffix <;> rfl

/-- A placement keeps the table or places its text in it. -/
theorem place_table (l : Ledger) (limit : Nat) (text candidate suffix : String) :
    (l.place limit text candidate suffix).2.table = l.table ∨
      ∃ outcome, l.table.place limit text candidate suffix = .ok outcome ∧
        (l.place limit text candidate suffix).2.table = l.table.after text outcome := by
  rw [place_snd_table]
  cases l.table.place limit text candidate suffix with
  | ok outcome => exact .inr ⟨outcome, rfl, rfl⟩
  | error e => exact .inl rfl

/-- A step keeps the table or places one text in it. -/
theorem step_table (l : Ledger) (step : Step) :
    (l.step step).table = l.table ∨
      ∃ limit text candidate suffix outcome,
        l.table.place limit text candidate suffix = .ok outcome ∧
        (l.step step).table = l.table.after text outcome := by
  cases step with
  | request | beginUnit => exact .inl rfl
  | place limit text candidate suffix =>
      exact (l.place_table limit text candidate suffix).imp_right fun ⟨outcome, hPlaced⟩ =>
        ⟨limit, text, candidate, suffix, outcome, hPlaced⟩

theorem step_grows (l : Ledger) (step : Step) : l.table.Grows (l.step step).table := by
  rcases l.step_table step with hSame | ⟨limit, text, candidate, suffix, outcome, hPlace, hAfter⟩
  · exact hSame ▸ .refl l.table
  · exact hAfter ▸ (Table.after_of_place hPlace).1

theorem run_grows (l : Ledger) (history : List Step) :
    l.table.Grows (l.run history).table := by
  induction history generalizing l with
  | nil => exact .refl l.table
  | cons step rest ih => exact (l.step_grows step).trans (ih (l.step step))

/-- A text that was placed is stored under its key at once and ever after. -/
theorem lookup_run_of_place {l : Ledger} {limit : Nat} {text candidate suffix : String}
    {outcome : Outcome} (h : (l.place limit text candidate suffix).1 = .ok outcome)
    (later : List Step) :
    (((l.place limit text candidate suffix).2).run later).table.lookup outcome.key = some text := by
  apply (run_grows _ later).keeps
  rw [place_snd_of_ok h]
  rw [place_fst] at h
  exact (Table.after_of_place h).2

theorem step_overlaps (l : Ledger) (step : Step) :
    (l.step step).table.overlaps = l.table.overlaps := by
  rcases l.step_table step with hSame | ⟨limit, text, candidate, suffix, outcome, hPlace, hAfter⟩
  · rw [hSame]
  · rw [hAfter, Table.overlaps_after_of_place hPlace]

theorem run_overlaps (l : Ledger) (history : List Step) :
    (l.run history).table.overlaps = l.table.overlaps := by
  induction history generalizing l with
  | nil => rfl
  | cons step rest ih => exact (ih (l.step step)).trans (l.step_overlaps step)

/-- One placement: a new text makes one new entry, and anything else changes
nothing at all. -/
theorem place_effect (l : Ledger) (limit : Nat) (text candidate suffix : String) :
    match l.place limit text candidate suffix with
    | (.ok (.inserted key), next) =>
        l.table.lookup key = none ∧ next = { l with table := l.table.insert key text } ∧
          next.table.size = l.table.size + 1
    | (.ok (.matched key), next) => l.table.lookup key = some text ∧ next = l
    | (.error _, next) => next = l := by
  rw [place]
  cases hPlace : l.table.place limit text candidate suffix with
  | error e => rfl
  | ok outcome =>
      have hJudge := Table.judge_of_search (Table.place_eq_ok_iff.mp hPlace)
      cases outcome with
      | matched key => exact ⟨Table.judge_eq_matched_iff.mp hJudge, rfl⟩
      | inserted key =>
          have hLookup := (Table.judge_eq_free_iff.mp hJudge).1
          exact ⟨hLookup, rfl,
            Table.size_insert_of_not_mem text (Table.lookup_eq_none_iff.mp hLookup)⟩

/-- Every answer with a key is recorded in the table at the end. -/
theorem lookup_run_of_answer {l : Ledger} {history : List Step} {answer : Answer}
    (hAnswer : answer ∈ l.answers history) {outcome : Outcome}
    (hResult : answer.result = .ok outcome) :
    (l.run history).table.lookup outcome.key = some answer.text := by
  induction history generalizing l with
  | nil => cases hAnswer
  | cons step rest ih =>
      cases step with
      | place limit text candidate suffix =>
          rcases List.mem_cons.mp hAnswer with rfl | hRest
          · exact lookup_run_of_place hResult rest
          · exact ih hRest
      | request | beginUnit => exact ih hAnswer

/-- The table gains one entry for each insertion and no others. -/
theorem size_run (l : Ledger) (history : List Step) :
    (l.run history).table.size =
      l.table.size + (l.answers history).countP Answer.isInsertion := by
  induction history generalizing l with
  | nil => rfl
  | cons step rest ih =>
      cases step with
      | request | beginUnit => exact ih _
      | place limit text candidate suffix =>
          have hEffect := l.place_effect limit text candidate suffix
          change ((l.place limit text candidate suffix).2.run rest).table.size = _
          rw [answers, List.countP_cons, ih]
          split at hEffect
          next key next hPlace =>
              obtain ⟨_, _, hSize⟩ := hEffect
              simp only [hPlace, hSize, Answer.isInsertion, if_true]
              omega
          next key next hPlace => simp [hPlace, hEffect, Answer.isInsertion]
          next e next hPlace => simp [hPlace, hEffect, Answer.isInsertion]

/-- Nothing is lost, overwritten or shared. Every entry stays, a placement makes
one new entry or changes nothing, what it answered holds in every later state,
and one key is never the answer for two texts. -/
theorem history_keeps_texts (l : Ledger) :
    (∀ history key text, l.table.lookup key = some text →
      (l.run history).table.lookup key = some text) ∧
    (∀ earlier limit text candidate suffix,
      match (l.run earlier).place limit text candidate suffix with
      | (.ok (.inserted key), next) =>
          (l.run earlier).table.lookup key = none ∧
          next = { l.run earlier with table := (l.run earlier).table.insert key text } ∧
          next.table.size = (l.run earlier).table.size + 1 ∧
          ∀ later, (next.run later).table.lookup key = some text
      | (.ok (.matched key), next) =>
          next = l.run earlier ∧ ∀ later, (next.run later).table.lookup key = some text
      | (.error _, next) => next = l.run earlier) ∧
    (∀ history, (l.run history).table.size =
      l.table.size + (l.answers history).countP Answer.isInsertion) ∧
    (∀ history, ∀ first ∈ l.answers history, ∀ second ∈ l.answers history, ∀ a b,
      first.result = .ok a → second.result = .ok b → a.key = b.key → first.text = second.text) := by
  refine ⟨fun history => (l.run_grows history).keeps, ?_, l.size_run, ?_⟩
  · intro earlier limit text candidate suffix
    have hEffect := (l.run earlier).place_effect limit text candidate suffix
    have hLater := @lookup_run_of_place (l.run earlier) limit text candidate suffix
    split at hEffect
    next key next hPlace =>
        rw [hPlace] at hLater
        exact ⟨hEffect.1, hEffect.2.1, hEffect.2.2, hLater rfl⟩
    next key next hPlace =>
        rw [hPlace] at hLater
        exact ⟨hEffect.2, hLater rfl⟩
    next => exact hEffect
  · intro history first hFirst second hSecond a b hA hB hKey
    have hStored := lookup_run_of_answer hFirst hA
    rw [hKey, lookup_run_of_answer hSecond hB] at hStored
    exact (Option.some.inj hStored).symm

/-- Three texts for one candidate: the last one finds no key within its limit. -/
theorem three_texts_are_kept :
    let l : Ledger := { table := .ofList [("user.name", "Name")] }
    let history : List Step :=
      [.place 9 "Jane" "user" "", .place 9 "Bob" "user" "", .place 9 "Jane" "user" "",
        .place 1 "Eve" "user" ""]
    (l.run history).table.lookup "user.name" = some "Name" ∧
      ((l.run [.place 9 "Jane" "user" ""]).run [.place 9 "Bob" "user" ""]).table.lookup
        "user.value" = some "Jane" ∧
      (l.run history).table.size = 1 + 2 ∧
      ∀ text, ⟨text, .ok (.matched "user.value")⟩ ∈ l.answers history → text = "Jane" := by
  obtain ⟨hKept, hEffect, hSize, hShared⟩ :=
    history_keeps_texts { table := .ofList [("user.name", "Name")] }
  refine ⟨hKept _ "user.name" "Name" (by decide), ?_, (hSize _).trans (by decide), ?_⟩
  · exact (hEffect [] 9 "Jane" "user" "").2.2.2 [.place 9 "Bob" "user" ""]
  · intro text hText
    exact hShared _ _ hText ⟨"Jane", .ok (.inserted "user.value")⟩ (.head _) _ _ rfl rfl rfl

end Ledger

/-- What can happen to a namer while its table is kept. The length of segments
may change; the limit of probes is fixed when a namer is made. -/
inductive Namer.Step
  | name (text : String) (labels : List String) (suffix : String)
  | maxSegmentLength (length : Nat)
  | beginUnit
  deriving DecidableEq, Repr

namespace Namer

def step (n : Namer) : Step → Namer
  | .name text labels suffix => (n.name text labels suffix).2
  | .maxSegmentLength length => n.withMaxSegmentLength length
  | .beginUnit => n.beginUnit

def run (n : Namer) (history : List Step) : Namer := history.foldl step n

theorem name_eq (n : Namer) (text : String) (labels : List String) (suffix : String) :
    n.name text labels suffix =
      ((n.ledger.request.place n.limit text (n.scheme.candidate text labels) suffix).1,
        { n with ledger :=
          (n.ledger.request.place n.limit text (n.scheme.candidate text labels) suffix).2 }) :=
  rfl

/-- A step keeps the table or places one text with a candidate of the scheme. -/
theorem step_table (n : Namer) (step : Step) :
    (n.step step).table = n.table ∨
      ∃ text labels suffix outcome,
        n.table.place n.limit text (n.scheme.candidate text labels) suffix = .ok outcome ∧
        (n.step step).table = n.table.after text outcome := by
  cases step with
  | maxSegmentLength | beginUnit => exact .inl rfl
  | name text labels suffix =>
      have hPlace :=
        n.ledger.request.place_table n.limit text (n.scheme.candidate text labels) suffix
      exact hPlace.imp_right fun ⟨outcome, hPlaced⟩ => ⟨text, labels, suffix, outcome, hPlaced⟩

theorem step_limit (n : Namer) (step : Step) : (n.step step).limit = n.limit := by
  cases step <;> rfl

theorem run_limit (n : Namer) (history : List Step) : (n.run history).limit = n.limit := by
  induction history generalizing n with
  | nil => rfl
  | cons step rest ih => exact (ih (n.step step)).trans (n.step_limit step)

/-- A namer's history is one of its ledger, in which each request is counted and
then places its text with the candidate that the scheme of the moment makes. -/
theorem run_ledger (n : Namer) (history : List Step) :
    ∃ steps, (n.run history).ledger = n.ledger.run steps := by
  induction history generalizing n with
  | nil => exact ⟨[], rfl⟩
  | cons step rest ih =>
      obtain ⟨steps, hSteps⟩ := ih (n.step step)
      cases step with
      | name text labels suffix =>
          exact ⟨.request :: .place n.limit text (n.scheme.candidate text labels) suffix :: steps,
            hSteps⟩
      | maxSegmentLength length => exact ⟨steps, hSteps⟩
      | beginUnit => exact ⟨.beginUnit :: steps, hSteps⟩

theorem run_grows (n : Namer) (history : List Step) : n.table.Grows (n.run history).table := by
  obtain ⟨steps, hSteps⟩ := n.run_ledger history
  rw [table, table, hSteps]
  exact n.ledger.run_grows steps

theorem run_overlaps (n : Namer) (history : List Step) :
    (n.run history).table.overlaps = n.table.overlaps := by
  obtain ⟨steps, hSteps⟩ := n.run_ledger history
  rw [table, table, hSteps]
  exact n.ledger.run_overlaps steps

end Namer

/-- No history makes or mends an overlap, whatever the table at its start. A new
key is related to no other key, so a namer that starts without overlaps stays
without them. -/
theorem history_keeps_overlaps :
    (∀ (l : Ledger) (history : List Ledger.Step),
      (l.run history).table.overlaps = l.table.overlaps ∧
      ∀ key ∈ (l.run history).table.keys, key ∉ l.table.keys →
        ∀ other ∈ (l.run history).table.keys, ¬ Key.Related key other) ∧
    (∀ (n : Namer) (history : List Namer.Step),
      (n.run history).table.overlaps = n.table.overlaps ∧
      (∀ key ∈ (n.run history).table.keys, key ∉ n.table.keys →
        ∀ other ∈ (n.run history).table.keys, ¬ Key.Related key other) ∧
      (n.table = .empty ∨ n.table.overlaps = [] → (n.run history).table.overlaps = [])) := by
  constructor
  · intro l history
    exact ⟨l.run_overlaps history, (l.run_grows history).apart⟩
  · intro n history
    refine ⟨n.run_overlaps history, (n.run_grows history).apart, fun hStart => ?_⟩
    rw [n.run_overlaps history]
    rcases hStart with hEmpty | hNone
    · rw [hEmpty]
      rfl
    · exact hNone

/-- A table that starts with an overlap keeps this one alone, and a new key
below it is moved out of the way. -/
theorem one_overlap_is_kept :
    (let l : Ledger := { table := .ofList [("user", "User"), ("user.name", "Name")] }
      let later := l.run [.place 9 "Jane" "user.name.first" "", .place 9 "Bob" "user" "name"]
      later.table.overlaps = [("user", "user.name")] ∧
        ¬ Key.Related "of.user.name.first" "user1.name") ∧
    (let n : Namer := {}
      let later := n.run [.name "Jane" ["user", "name"] "", .name "User" ["user"] ""]
      later.table.overlaps = []) := by
  obtain ⟨hLedger, hNamer⟩ := history_keeps_overlaps
  refine ⟨⟨(hLedger _ _).1, ?_⟩, (hNamer _ _).2.2 (.inl rfl)⟩
  exact (hLedger { table := .ofList [("user", "User"), ("user.name", "Name")] }
    [.place 9 "Jane" "user.name.first" "", .place 9 "Bob" "user" "name"]).2
    "of.user.name.first" (by decide) (by decide) "user1.name" (by decide)

end LocaleKeys
