import LocaleKeys.Arguments
import Mathlib.Data.List.TakeWhile

/-! How the words of a command line are read. Whatever the words are, what they give fits
the form of the command; above all no path among the values is empty. The other way
round, options whose values are written behind equals signs, with the operand behind two
dashes, are read as what was written. -/
namespace LocaleKeys

namespace Arguments

/-- The arguments of a form: its options and its operand. -/
def Form.arguments (f : Form) : List Argument := f.options ++ f.operand.toList

/-- A step that goes on with the value of another one ends well when both do. -/
theorem bind_eq_ok_iff {E A B : Type} {step : Except E A} {next : A → Except E B} {last : B} :
    step >>= next = .ok last ↔ ∃ value, step = .ok value ∧ next value = .ok last := by
  cases step with
  | ok value =>
      constructor
      · exact fun h => ⟨value, rfl, h⟩
      · rintro ⟨other, hOther, h⟩
        exact Except.ok.inj hOther ▸ h
  | error e =>
      constructor
      · intro h
        cases h
      · rintro ⟨other, hOther, -⟩
        cases hOther

namespace Reading

variable {f : Form} {r next : Reading} {a : Argument} {value : Option String}

/-- An argument is taken unless its value is missing, it was given before and may not be
repeated, or it is a path and its value is empty. No other step takes a value. -/
theorem accept_eq_ok_iff : r.accept a value = .ok next ↔
    (a.takesValue = true → value ≠ none) ∧ (r.has a = true → a.repeats = true) ∧
      (a.isPath = true → value ≠ some "") ∧
      next = { given := r.given ++ [(a.name, value.getD "")], pending := none } := by
  have hMissing : (a.takesValue && value.isNone) = true ↔
      ¬ (a.takesValue = true → value ≠ none) := by
    simp
  have hTwice : (r.has a && !a.repeats) = true ↔ ¬ (r.has a = true → a.repeats = true) := by
    simp
  have hEmpty : (a.isPath && decide (value = some "")) = true ↔
      ¬ (a.isPath = true → value ≠ some "") := by
    simp
  simp only [accept, hMissing, hTwice, hEmpty]
  split
  next hRefused => simp [hRefused]
  next hValue =>
    split
    next hRefused => simp [hRefused]
    next hOnce =>
      split
      next hRefused => simp [hRefused]
      next hPath =>
        rw [Except.ok.injEq, eq_comm]
        exact ⟨fun hNext => ⟨not_not.mp hValue, not_not.mp hOnce, not_not.mp hPath, hNext⟩,
          fun hAccepted => hAccepted.2.2.2⟩

/-- An argument that is complete is taken after the one that was met before it. Asking for
help ends the reading instead. -/
theorem take_eq_ok_iff : r.take a value = .ok next ↔
    a ≠ help ∧ ∃ settled, r.settle = .ok settled ∧ settled.accept a value = .ok next := by
  rw [take]
  split
  next hHelp => simp [hHelp, bind_eq_ok_iff]
  next hOther => simp [hOther, bind_eq_ok_iff]

theorem await_eq_ok_iff : r.await a value = .ok next ↔
    ∃ settled, r.settle = .ok settled ∧ next = { settled with pending := some (a, value) } := by
  rw [await, bind_eq_ok_iff]
  simp [pure, Except.pure, eq_comm]

/-! What no word can do. -/

/-- What was given fits a form: each value is the one of an argument of the form, and the
value of a path is not empty. This is what every step of the reading keeps. -/
structure Fits (f : Form) (r : Reading) : Prop where
  given : ∀ entry ∈ r.given, ∃ a ∈ f.arguments, a.name = entry.1 ∧
    (a.takesValue = true → a.isPath = true → entry.2 ≠ "")
  pending : ∀ entry ∈ r.pending, entry.1 ∈ f.arguments

theorem fits_empty (f : Form) : Fits f {} where
  given := by simp
  pending := by simp

namespace Fits

/-- Taking an argument is the step that checks paths; all others hand their values on to
it. -/
theorem accept (h : r.Fits f) (hA : a ∈ f.arguments) (hNext : r.accept a value = .ok next) :
    next.Fits f := by
  obtain ⟨hValue, -, hPath, rfl⟩ := accept_eq_ok_iff.mp hNext
  refine ⟨fun entry hEntry => ?_, by simp⟩
  rcases List.mem_append.mp hEntry with hOld | hNew
  · exact h.given entry hOld
  · obtain rfl := List.mem_singleton.mp hNew
    refine ⟨a, hA, rfl, fun hTakes hIsPath hEmpty => ?_⟩
    obtain ⟨text, rfl⟩ := Option.ne_none_iff_exists'.mp (hValue hTakes)
    exact hPath hIsPath (congrArg some hEmpty)

theorem settle (h : r.Fits f) (hNext : r.settle = .ok next) : next.Fits f := by
  rw [Reading.settle] at hNext
  split at hNext
  next => exact Except.ok.inj hNext ▸ h
  next a value hPending => exact h.accept (h.pending (a, value) hPending) hNext

theorem take (h : r.Fits f) (hA : a ∈ f.arguments) (hNext : r.take a value = .ok next) :
    next.Fits f := by
  obtain ⟨-, settled, hSettled, hAccept⟩ := take_eq_ok_iff.mp hNext
  exact (h.settle hSettled).accept hA hAccept

/-- An argument that waits is one of the form, and its value is checked when it is taken. -/
theorem await (h : r.Fits f) (hA : a ∈ f.arguments) (hNext : r.await a value = .ok next) :
    next.Fits f := by
  obtain ⟨settled, hSettled, rfl⟩ := await_eq_ok_iff.mp hNext
  refine ⟨(h.settle hSettled).given, fun entry hEntry => ?_⟩
  obtain rfl := Option.some.inj hEntry
  exact hA

theorem operand {word : String} (h : r.Fits f) (hNext : r.operand f word = .ok next) :
    next.Fits f := by
  rw [Reading.operand] at hNext
  split at hNext
  next => cases hNext
  next a hOperand =>
    split at hNext
    · cases hNext
    · exact h.await (List.mem_append_right _ (by simp [hOperand])) hNext

/-- An option that was found is one of the form. -/
theorem mem_arguments {p : Argument → Bool} (h : f.options.find? p = some a) : a ∈ f.arguments :=
  List.mem_append_left _ (List.mem_of_find?_eq_some h)

theorem long {name : List Char} {attached : Option (List Char)} (h : r.Fits f)
    (hNext : r.long f name attached = .ok next) : next.Fits f := by
  rw [Reading.long] at hNext
  split at hNext
  next => cases hNext
  next a hFound =>
    have hA := mem_arguments hFound
    split at hNext
    · split at hNext
      · exact h.take hA hNext
      · cases hNext
    · split at hNext
      · exact h.await hA hNext
      · exact h.take hA hNext

/-- Options by their letters, one after another; only the last one may have a value. -/
theorem cluster {letters : List Char} (h : r.Fits f) (hNext : cluster f letters r = .ok next) :
    next.Fits f := by
  induction letters generalizing r with
  | nil => exact Except.ok.inj hNext ▸ h
  | cons letter rest ih =>
      rw [Reading.cluster] at hNext
      split at hNext
      next => cases hNext
      next a hFound =>
        have hA := mem_arguments hFound
        split at hNext
        · split at hNext
          · exact h.await hA hNext
          · exact h.take hA hNext
          · exact h.take hA hNext
        · obtain ⟨middle, hMiddle, hRest⟩ := bind_eq_ok_iff.mp hNext
          exact ih (h.take hA hMiddle) hRest

/-- One word, whichever way it is read: as options, as the value that is waited for, or as the
operand. -/
theorem word {w : String} (h : r.Fits f) (hNext : r.word f w = .ok next) : next.Fits f := by
  rw [Reading.word] at hNext
  split at hNext
  next body _ =>
    dsimp only at hNext
    split at hNext
    · exact h.long hNext
    · exact h.long hNext
  next => exact h.cluster hNext
  next =>
    split at hNext
    -- The word is the value of the option that waits, which is an argument of the form already.
    next a hPending =>
      obtain rfl := Except.ok.inj hNext
      refine ⟨h.given, fun entry hEntry => ?_⟩
      obtain rfl := Option.some.inj hEntry
      exact h.pending (a, none) hPending
    next => exact h.operand hNext

theorem operands {words : List String} (h : r.Fits f)
    (hNext : words.foldlM (fun r w => r.operand f w) r = .ok next) : next.Fits f := by
  induction words generalizing r with
  | nil => exact Except.ok.inj hNext ▸ h
  | cons w rest ih =>
      rw [List.foldlM_cons] at hNext
      obtain ⟨middle, hMiddle, hRest⟩ := bind_eq_ok_iff.mp hNext
      exact ih (h.operand hMiddle) hRest

/-- Whatever the words are, what they give fits the form. The reading starts with nothing
given, so this holds of every command that was read. -/
theorem words {given : List String} (h : r.Fits f) (hNext : Reading.words f given r = .ok next) :
    next.Fits f := by
  induction given generalizing r with
  | nil => exact h.settle hNext
  | cons w rest ih =>
      rw [Reading.words] at hNext
      split at hNext
      -- Behind two dashes every word is an operand.
      · obtain ⟨middle, hMiddle, hLast⟩ := bind_eq_ok_iff.mp hNext
        exact (h.operands hMiddle).settle hLast
      · obtain ⟨middle, hMiddle, hRest⟩ := bind_eq_ok_iff.mp hNext
        exact ih (h.word hMiddle) hRest

end Fits

/-- The last value of an argument is the last of its values. -/
theorem value?_eq_getLast? (r : Reading) (name : String) :
    r.value? name = (r.values name).getLast? := by
  rw [value?, values, List.getLast?_map, List.getLast?_eq_head?_reverse, ← List.filter_reverse,
    List.head?_filter]

/-- The words of a command give no empty path: where all arguments of a name are paths, none
of them has an empty value. -/
theorem value?_ne_of_words {name : String} {given : List String} (hRead : words f given {} = .ok r)
    (hPaths : ∀ a ∈ f.arguments, a.name = name → a.takesValue = true ∧ a.isPath = true) :
    r.value? name ≠ some "" := by
  have hFits : r.Fits f := (fits_empty f).words hRead
  intro hEmpty
  rw [value?, Option.map_eq_some_iff] at hEmpty
  obtain ⟨entry, hFound, hEntry⟩ := hEmpty
  have hMem : entry ∈ r.given := List.mem_reverse.mp (List.mem_of_find?_eq_some hFound)
  obtain ⟨a, hA, hName, hValue⟩ := hFits.given entry hMem
  have hSame : entry.1 = name := by simpa using List.find?_some hFound
  obtain ⟨hTakes, hIsPath⟩ := hPaths a hA (hName.trans hSame)
  exact hValue hTakes hIsPath hEntry

end Reading

/-! What words can do. -/

/-- An option with its value in one word. -/
def Argument.spelled (a : Argument) (value : String) : String :=
  if a.takesValue then "--" ++ a.name ++ "=" ++ value else "--" ++ a.name

/-- The values by which a flag is given or not. -/
def flagged (given : Bool) : List String := if given then [""] else []

/-- An option that a form finds by its name. Asking for help is none that goes on. -/
abbrev Form.Knows (f : Form) (a : Argument) : Prop :=
  f.options.find? (fun known => known.name.toList = a.name.toList) = some a ∧
    a.name ≠ "" ∧ '=' ∉ a.name.toList ∧ a ≠ help

/-- An option of a form with values that can be written, each in a word of its own. -/
structure Form.Writes (f : Form) (a : Argument) (values : List String) : Prop where
  known : f.Knows a
  once : a.repeats = true ∨ values.length ≤ 1
  flag : a.takesValue = false → ∀ value ∈ values, value = ""
  path : a.isPath = true → "" ∉ values

namespace Form.Writes

variable {f : Form} {a : Argument}

theorem of_cons {value : String} {values : List String} (h : f.Writes a (value :: values)) :
    f.Writes a values where
  known := h.known
  once := h.once.imp_right fun hLength => Nat.le_of_succ_le hLength
  flag := fun hFlag other hOther => h.flag hFlag other (List.mem_cons_of_mem _ hOther)
  path := fun hPath hEmpty => h.path hPath (List.mem_cons_of_mem _ hEmpty)

/-- A flag is written once or not at all, and never with a value. -/
theorem of_flag (h : f.Knows a) (hPath : a.isPath = false) (given : Bool) :
    f.Writes a (flagged given) where
  known := h
  once := .inr (by cases given <;> decide)
  flag := fun _ value hValue => by cases given <;> simp_all [flagged]
  path := fun hIsPath => by simp [hPath] at hIsPath

/-- An option with a value is written once or not at all. Any text is a value unless it is an
empty path. -/
theorem of_option (h : f.Knows a) (hTakes : a.takesValue = true) {value : Option String}
    (hPath : a.isPath = true → value ≠ some "") : f.Writes a value.toList where
  known := h
  once := .inr (by cases value <;> simp)
  flag := fun hFlag => by simp [hTakes] at hFlag
  path := fun hIsPath hEmpty => hPath hIsPath (Option.mem_toList.mp hEmpty)

theorem of_repeated (h : f.Knows a) (hRepeats : a.repeats = true) (hTakes : a.takesValue = true)
    (hPath : a.isPath = false) (values : List String) : f.Writes a values where
  known := h
  once := .inl hRepeats
  flag := fun hFlag => by simp [hTakes] at hFlag
  path := fun hIsPath => by simp [hPath] at hIsPath

end Form.Writes

namespace Reading

variable {f : Form} {r next : Reading} {a : Argument} {values : List String} {value : String}

/-- The characters of an option in one word, so that the word can be read again by its first
characters and its equals sign. -/
theorem toList_spelled (a : Argument) (value : String) : (a.spelled value).toList =
    '-' :: '-' :: (a.name.toList ++ if a.takesValue then '=' :: value.toList else []) := by
  have hDashes : "--".toList = ['-', '-'] := by decide
  have hEquals : "=".toList = ['='] := by decide
  rw [Argument.spelled]
  split <;> simp [hDashes, hEquals]

theorem spelled_ne (h : f.Writes a values) (value : String) : a.spelled value ≠ "--" := by
  intro hDashes
  have hList := toList_spelled a value
  rw [hDashes] at hList
  have hRest := (List.cons.inj (List.cons.inj hList).2).2
  exact h.known.2.1 (String.toList_eq_nil_iff.mp (List.append_eq_nil_iff.mp hRest.symm).1)

theorem settle_of_not_pending (hPending : r.pending = none) : r.settle = .ok r := by
  rw [settle, hPending]

/-- A word behind two dashes is the name of an option, up to an equals sign. -/
theorem word_of_dashes {w : String} {body : List Char} (h : w.toList = '-' :: '-' :: body) :
    r.word f w =
      match body.dropWhile (· ≠ '=') with
      | [] => r.long f (body.takeWhile (· ≠ '=')) none
      | _ :: attached => r.long f (body.takeWhile (· ≠ '=')) (some attached) := by
  rw [word, h]
  rfl

/-- An option in one word is taken with its value. The name ends at the first equals sign, so
the value may hold more of them. -/
theorem word_spelled (h : f.Writes a (value :: values)) (hPending : r.pending = none)
    (hNew : r.has a = true → a.repeats = true) :
    r.word f (a.spelled value) =
      .ok { given := r.given ++ [(a.name, value)], pending := none } := by
  have hSigns : ∀ c ∈ a.name.toList, decide (c ≠ '=') = true := fun c hC =>
    decide_eq_true (ne_of_mem_of_not_mem hC h.known.2.2.1)
  have hTake (given : Option String) (hGiven : given.getD "" = value)
      (hSome : a.takesValue = true → given ≠ none) (hPath : a.isPath = true → given ≠ some "") :
      r.take a given = .ok { given := r.given ++ [(a.name, value)], pending := none } := by
    refine take_eq_ok_iff.mpr ⟨h.known.2.2.2, r, settle_of_not_pending hPending, ?_⟩
    exact accept_eq_ok_iff.mpr ⟨hSome, hNew, hPath, by rw [hGiven]⟩
  have hPath : a.isPath = true → value ≠ "" := fun hIsPath hEmpty =>
    h.path hIsPath (hEmpty ▸ List.mem_cons_self)
  rw [word_of_dashes (toList_spelled a value)]
  cases hTakes : a.takesValue with
  | true =>
      rw [if_pos rfl, List.takeWhile_append_of_pos hSigns, List.dropWhile_append_of_pos hSigns,
        List.takeWhile_cons_of_neg (by simp), List.dropWhile_cons_of_neg (by simp), List.append_nil]
      dsimp only
      rw [long, h.known.1]
      dsimp only
      rw [if_pos hTakes, String.ofList_toList]
      exact hTake (some value) rfl (by simp) (by simpa using hPath)
  | false =>
      have hEmpty := h.flag hTakes value List.mem_cons_self
      rw [if_neg (by simp), List.append_nil, List.takeWhile_eq_self_iff.mpr hSigns,
        List.dropWhile_eq_nil_iff.mpr hSigns]
      dsimp only
      rw [long, h.known.1]
      dsimp only
      rw [if_neg (by simp [hTakes])]
      exact hTake none hEmpty.symm (by simp [hTakes]) (by simp)

/-- The words of one option with all of its values, by induction on the values. An option that
may not be repeated has no more than one, so it is never met twice. -/
theorem words_option (h : f.Writes a values) (hPending : r.pending = none)
    (hNew : values ≠ [] → r.has a = true → a.repeats = true) (rest : List String) :
    words f (values.map a.spelled ++ rest) r =
      words f rest { given := r.given ++ values.map (a.name, ·), pending := none } := by
  induction values generalizing r with
  | nil =>
      obtain ⟨given, pending⟩ := r
      obtain rfl : pending = none := hPending
      simp
  | cons value values ih =>
      have hOnce : values ≠ [] → a.repeats = true := fun hSome =>
        h.once.resolve_right (by simpa using hSome)
      rw [List.map_cons, List.cons_append, words, if_neg (spelled_ne h value),
        word_spelled h hPending (hNew (List.cons_ne_nil _ _))]
      exact (ih h.of_cons rfl fun hSome _ => hOnce hSome).trans (by simp)

end Reading

/-- Options with the values that they are given. -/
abbrev Columns := List (Argument × List String)

namespace Columns

/-- The words of options. -/
def words (columns : Columns) : List String := columns.flatMap fun c => c.2.map c.1.spelled

/-- What is read from them. -/
def given (columns : Columns) : List (String × String) :=
  columns.flatMap fun c => c.2.map (c.1.name, ·)

/-- No two of the options have one name. -/
def Distinct (columns : Columns) : Prop := columns.Pairwise fun c d => c.1.name ≠ d.1.name

end Columns

namespace Reading

variable {f : Form} {r : Reading} {columns : Columns}

theorem has_eq_false_iff {a : Argument} :
    r.has a = false ↔ ∀ entry ∈ r.given, entry.1 ≠ a.name := by
  simp [has]

/-- The words of options, one after another, are read as what the options are given, by
induction on the options. Their names differ, so none of them was given before. -/
theorem words_options (hWrites : ∀ c ∈ columns, f.Writes c.1 c.2) (hDistinct : columns.Distinct)
    (hPending : r.pending = none) (hNew : ∀ c ∈ columns, r.has c.1 = false) (rest : List String) :
    words f (columns.words ++ rest) r =
      words f rest { given := r.given ++ columns.given, pending := none } := by
  induction columns generalizing r with
  | nil =>
      obtain ⟨given, pending⟩ := r
      obtain rfl : pending = none := hPending
      simp [Columns.words, Columns.given]
  | cons c columns ih =>
      obtain ⟨hFirst, hOthers⟩ := List.forall_mem_cons.mp hWrites
      obtain ⟨hApart, hRest⟩ := List.pairwise_cons.mp hDistinct
      obtain ⟨hFirstNew, hOthersNew⟩ := List.forall_mem_cons.mp hNew
      have hStillNew : ∀ d ∈ columns,
          has { given := r.given ++ c.2.map (c.1.name, ·), pending := none } d.1 = false := by
        intro d hD
        rw [has_eq_false_iff]
        intro entry hEntry
        rcases List.mem_append.mp hEntry with hOld | hAdded
        · exact has_eq_false_iff.mp (hOthersNew d hD) entry hOld
        · obtain ⟨value, _, rfl⟩ := List.mem_map.mp hAdded
          exact hApart d hD
      have hHere := words_option hFirst hPending (fun _ hHas => by simp [hFirstNew] at hHas)
        (Columns.words columns ++ rest)
      rw [Columns.words, List.flatMap_cons, List.append_assoc]
      refine hHere.trans ((ih hOthers hRest rfl hStillNew).trans ?_)
      simp [Columns.given]

/-- What an option is given can be read back by its name, because no other option has that
name. -/
theorem values_given (hDistinct : columns.Distinct) {c : Argument × List String}
    (h : c ∈ columns) : values { given := columns.given, pending := none } c.1.name = c.2 := by
  have hPart (d : Argument × List String) (name : String) :
      (d.2.map (d.1.name, ·)).filter (fun entry => entry.1 = name) =
        if d.1.name = name then d.2.map (d.1.name, ·) else [] := by
    split
    next hSame => simp [hSame]
    next hOther => simp [hOther]
  induction columns with
  | nil => cases h
  | cons d columns ih =>
      obtain ⟨hApart, hRest⟩ := List.pairwise_cons.mp hDistinct
      rw [values, Columns.given, List.flatMap_cons, List.filter_append, hPart, List.map_append]
      rcases List.mem_cons.mp h with rfl | hC
      · have hNone : (Columns.given columns).filter (fun entry => entry.1 = c.1.name) = [] := by
          rw [List.filter_eq_nil_iff]
          intro entry hEntry
          obtain ⟨d, hD, hValue⟩ := List.mem_flatMap.mp hEntry
          obtain ⟨value, _, rfl⟩ := List.mem_map.mp hValue
          simpa using (hApart d hD).symm
        rw [Columns.given] at hNone
        simp [hNone, Function.comp_def]
      · rw [if_neg (hApart c hC), List.map_nil, List.nil_append]
        exact ih hRest hC

/-- An operand behind two dashes is read, whatever its text looks like. -/
theorem words_operand {a : Argument} {value : String} (hOperand : f.operand = some a)
    (hPath : a.isPath = true → value ≠ "")
    (hPending : r.pending = none) (hNew : r.has a = false) :
    words f ["--", value] r = .ok { given := r.given ++ [(a.name, value)], pending := none } := by
  have hAwait : r.operand f value = .ok { r with pending := some (a, some value) } := by
    rw [operand, hOperand]
    simp [hNew, hPending, await_eq_ok_iff, settle_of_not_pending hPending]
  have hAccept : r.accept a (some value) =
      .ok { given := r.given ++ [(a.name, value)], pending := none } :=
    accept_eq_ok_iff.mpr ⟨by simp, by simp [hNew], by simpa using hPath, rfl⟩
  rw [words, if_pos rfl, bind_eq_ok_iff]
  refine ⟨{ r with pending := some (a, some value) }, ?_, hAccept⟩
  rw [List.foldlM_cons, hAwait]
  rfl

/-- Options and what they are given are read back from their words. -/
theorem exists_of_columns (hWrites : ∀ c ∈ columns, f.Writes c.1 c.2)
    (hDistinct : columns.Distinct) :
    ∃ r, words f columns.words {} = .ok r ∧ ∀ c ∈ columns, r.values c.1.name = c.2 := by
  refine ⟨{ given := columns.given }, ?_, fun c hC => values_given hDistinct hC⟩
  have hWords := words_options hWrites hDistinct (r := {}) rfl (fun c _ => rfl) []
  rw [List.append_nil] at hWords
  exact hWords

/-- The same with an operand behind the options. The operand is one more column of what can be
read back. -/
theorem exists_of_columns_operand {a : Argument} {value : String} (hOperand : f.operand = some a)
    (hPath : a.isPath = true → value ≠ "") (hWrites : ∀ c ∈ columns, f.Writes c.1 c.2)
    (hDistinct : Columns.Distinct (columns ++ [(a, [value])])) :
    ∃ r, words f (columns.words ++ ["--", value]) {} = .ok r ∧
      ∀ c ∈ columns ++ [(a, [value])], r.values c.1.name = c.2 := by
  obtain ⟨hOptions, -, hApart⟩ := List.pairwise_append.mp hDistinct
  refine ⟨{ given := Columns.given (columns ++ [(a, [value])]) }, ?_,
    fun c hC => values_given hDistinct hC⟩
  have hNew : has { given := Columns.given columns } a = false := by
    rw [has_eq_false_iff]
    intro entry hEntry
    obtain ⟨c, hC, hValue⟩ := List.mem_flatMap.mp hEntry
    obtain ⟨value, _, rfl⟩ := List.mem_map.mp hValue
    exact hApart c hC _ (List.mem_singleton_self _)
  rw [words_options hWrites hOptions (r := {}) rfl (fun c _ => rfl), List.nil_append,
    words_operand hOperand hPath rfl hNew]
  simp [Columns.given]

end Reading

/-! What was read, by the values of one argument. -/

namespace Reading

variable {r : Reading} {name : String}

/-- An option that is given once or not at all has its value, or none. -/
theorem value?_of_values {value : Option String} (h : r.values name = value.toList) :
    r.value? name = value := by
  rw [value?_eq_getLast?, h]
  cases value <;> rfl

theorem isSet_of_values {given : Bool} (h : r.values name = flagged given) :
    r.isSet name = given := by
  rw [isSet, value?_eq_getLast?, h]
  cases given <;> rfl

theorem required_of_values {value : String} (h : r.values name = [value]) :
    r.required name = .ok value := by
  have hSome : r.value? name = some value := value?_of_values h
  rw [required, hSome]

end Reading

end Arguments
end LocaleKeys
