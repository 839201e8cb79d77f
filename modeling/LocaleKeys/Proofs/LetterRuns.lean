import LocaleKeys.Proofs.Spelling
import Mathlib.Data.List.DropRight

/-! Segments as a normal form. A text has one list of letter runs, which are told apart by
what is no letter between them. Squeezing what is no letter into single blanks, trimming the
ends and filling the blanks that are left writes these runs with underscores. A cut that is
made earlier leaves fewer runs or a shorter last one, so it only shortens the segment, and a
segment is its own segment under every limit that it keeps to. -/
namespace LocaleKeys.Label

/-- A list of runs is read off a text from the left: behind characters that are no letters
stands a run of letters, and the rest of the text does not go on with a letter. -/
inductive HasRuns : List Char → List (List Char) → Prop
  | done {gap : List Char} (hGap : ∀ c ∈ gap, c.isAlpha = false) : HasRuns gap []
  | next {gap run rest : List Char} {runs : List (List Char)}
      (hGap : ∀ c ∈ gap, c.isAlpha = false) (hSome : run ≠ [])
      (hRun : ∀ c ∈ run, c.isAlpha = true) (hEnd : ∀ c ∈ rest.head?, c.isAlpha = false)
      (hRest : HasRuns rest runs) : HasRuns (gap ++ (run ++ rest)) (run :: runs)

variable {c : Char} {text gap run rest : List Char} {runs longer : List (List Char)}

theorem letterRuns_cons_of_not_letter (h : c.isAlpha = false) (rest : List Char) :
    letterRuns (c :: rest) = letterRuns rest := by
  simp [letterRuns, List.splitOnP_cons_eq_if_modifyHead, h]

/-- What is no letter at the start of a text leaves no trace in its runs. -/
theorem letterRuns_gap_append (hGap : ∀ c ∈ gap, c.isAlpha = false) (rest : List Char) :
    letterRuns (gap ++ rest) = letterRuns rest := by
  induction gap with
  | nil => rfl
  | cons c gap ih =>
      obtain ⟨hFirst, hOthers⟩ := List.forall_mem_cons.mp hGap
      rw [List.cons_append, letterRuns_cons_of_not_letter hFirst, ih hOthers]

theorem letterRuns_gap (hGap : ∀ c ∈ gap, c.isAlpha = false) : letterRuns gap = [] := by
  rw [← List.append_nil gap, letterRuns_gap_append hGap]
  rfl

/-- A run of letters at the start of a text is its first run, if the text does not go on with
a letter. With the rule for gaps this reads a text from left to right. -/
theorem letterRuns_run_append (hSome : run ≠ []) (hRun : ∀ c ∈ run, c.isAlpha = true)
    (hEnd : ∀ c ∈ rest.head?, c.isAlpha = false) :
    letterRuns (run ++ rest) = run :: letterRuns rest := by
  have hWhole : run.splitOnP (fun c => !c.isAlpha) = [run] :=
    List.splitOnP_eq_singleton fun c hC => by simp [hRun c hC]
  cases rest with
  | nil =>
      rw [List.append_nil, letterRuns, hWhole]
      simp [hSome, letterRuns]
  | cons c rest =>
      have hStop : c.isAlpha = false := hEnd c (by simp)
      rw [letterRuns_cons_of_not_letter hStop, letterRuns,
        List.splitOnP_append_cons _ _ (by simp [hStop]), hWhole, List.filter_append]
      simp [hSome, letterRuns]

/-- Letters before a text go on with the letters that it starts with. -/
theorem letterRuns_letters_append (hSome : run ≠ []) (hRun : ∀ c ∈ run, c.isAlpha = true)
    (rest : List Char) :
    letterRuns (run ++ rest) =
      (run ++ rest.takeWhile Char.isAlpha) :: letterRuns (rest.dropWhile Char.isAlpha) := by
  have hTaken : ∀ c ∈ run ++ rest.takeWhile Char.isAlpha, c.isAlpha = true := by
    intro c hC
    rcases List.mem_append.mp hC with hC | hC
    · exact hRun c hC
    · exact List.mem_takeWhile_imp hC
  have hBehind : ∀ c ∈ (rest.dropWhile Char.isAlpha).head?, c.isAlpha = false := by
    intro c hC
    have hDropped := List.head?_dropWhile_not Char.isAlpha rest
    rwa [Option.mem_def.mp hC] at hDropped
  rw [← letterRuns_run_append (by simp [hSome]) hTaken hBehind, List.append_assoc,
    List.takeWhile_append_dropWhile]

/-- A text has no other runs than its letter runs. -/
theorem HasRuns.eq_letterRuns (h : HasRuns text runs) : runs = letterRuns text := by
  induction h with
  | done hGap => rw [letterRuns_gap hGap]
  | next hGap hSome hRun hEnd _ ih =>
      rw [letterRuns_gap_append hGap, letterRuns_run_append hSome hRun hEnd, ← ih]

theorem HasRuns.cons_of_not_letter (h : HasRuns text runs) (hC : c.isAlpha = false) :
    HasRuns (c :: text) runs := by
  cases h with
  | done hGap => exact .done (List.forall_mem_cons.mpr ⟨hC, hGap⟩)
  | next hGap hSome hRun hEnd hRest =>
      rw [← List.cons_append]
      exact .next (List.forall_mem_cons.mpr ⟨hC, hGap⟩) hSome hRun hEnd hRest

theorem HasRuns.run_append (hSome : run ≠ []) (hRun : ∀ c ∈ run, c.isAlpha = true)
    (hEnd : ∀ c ∈ rest.head?, c.isAlpha = false) (hRest : HasRuns rest runs) :
    HasRuns (run ++ rest) (run :: runs) :=
  .next (List.forall_mem_nil _) hSome hRun hEnd hRest

/-- A letter before a text lengthens its first run, or else is a run of its own. -/
theorem HasRuns.exists_cons_of_letter (h : HasRuns text runs) (hC : c.isAlpha = true) :
    ∃ more, HasRuns (c :: text) more := by
  by_cases hEnd : ∀ d ∈ text.head?, d.isAlpha = false
  · have hAlone : ∀ d ∈ [c], d.isAlpha = true := by simpa using hC
    exact ⟨[c] :: runs, HasRuns.run_append (List.cons_ne_nil c []) hAlone hEnd h⟩
  · cases h with
    | done hGap => exact absurd (fun d hD => hGap d (List.mem_of_mem_head? hD)) hEnd
    | @next gap run rest runs hGap hSome hRun hBehind hRest =>
        cases gap with
        | nil =>
            have hLonger : ∀ d ∈ c :: run, d.isAlpha = true := List.forall_mem_cons.mpr ⟨hC, hRun⟩
            exact ⟨(c :: run) :: runs,
              HasRuns.run_append (List.cons_ne_nil c run) hLonger hBehind hRest⟩
        | cons d gap => exact absurd (fun e hE => hGap e (by simp_all)) hEnd

/-- Every text has its letter runs, by induction on the text; a character before it lengthens
the first run, starts a run or is no letter. -/
theorem hasRuns_letterRuns (text : List Char) : HasRuns text (letterRuns text) := by
  have hSome : ∃ runs, HasRuns text runs := by
    induction text with
    | nil => exact ⟨[], .done (by simp)⟩
    | cons c text ih =>
        obtain ⟨runs, hRuns⟩ := ih
        cases hC : c.isAlpha with
        | true => exact hRuns.exists_cons_of_letter hC
        | false => exact ⟨runs, hRuns.cons_of_not_letter hC⟩
  obtain ⟨runs, hRuns⟩ := hSome
  exact hRuns.eq_letterRuns ▸ hRuns

/-! Cuts. -/

/-- What is left of a label, snake-cased, under a limit. -/
def cut (limit : Nat) (label : String) : List Char := (snakeCase label).toList.take limit

theorem toList_segment (limit : Nat) (label : String) :
    (segment limit label).toList = ['_'].intercalate (letterRuns (cut limit label)) :=
  String.toList_ofList

theorem cut_eq_append_drop {limit higher : Nat} (h : limit ≤ higher) (label : String) :
    cut higher label = cut limit label ++ (cut higher label).drop limit := by
  have hTwice := List.take_append_drop limit (cut higher label)
  rw [cut, List.take_take, Nat.min_eq_left h] at hTwice
  exact hTwice.symm

theorem prefix_intercalate_cons (first : List Char) (others : List (List Char)) :
    first <+: ['_'].intercalate (first :: others) := by
  cases others with
  | nil => rw [List.intercalate_singleton]
  | cons second others =>
      rw [List.intercalate_cons_cons, List.append_assoc]
      exact List.prefix_append _ _

/-- What is written with fewer runs stays a prefix when both lists get one more run in
front. -/
theorem intercalate_prefix_cons (hFilled : ∀ run ∈ runs, run ≠ [])
    (h : ['_'].intercalate runs <+: ['_'].intercalate longer) (run : List Char) :
    ['_'].intercalate (run :: runs) <+: ['_'].intercalate (run :: longer) := by
  cases runs with
  | nil =>
      rw [List.intercalate_singleton]
      exact prefix_intercalate_cons run longer
  | cons first others =>
      cases longer with
      | nil =>
          have hFirst := (prefix_intercalate_cons first others).trans h
          exact absurd (List.prefix_nil.mp hFirst) (hFilled first List.mem_cons_self)
      | cons next after =>
          rw [List.intercalate_cons_cons, List.intercalate_cons_cons]
          exact (List.prefix_append_right_inj _).mpr h

theorem HasRuns.ne_nil (h : HasRuns text runs) : ∀ run ∈ runs, run ≠ [] := by
  rw [h.eq_letterRuns]
  exact fun run hRun => by simpa using (List.mem_filter.mp hRun).2

/-- What is written behind a text leaves its runs as they are, but the last one may grow. -/
theorem HasRuns.intercalate_prefix_append (h : HasRuns text runs) (more : List Char) :
    ['_'].intercalate runs <+: ['_'].intercalate (letterRuns (text ++ more)) := by
  induction h with
  | done => exact List.nil_prefix
  | @next gap run rest runs hGap hSome hRun hEnd hRest ih =>
      rw [List.append_assoc, letterRuns_gap_append hGap, List.append_assoc]
      cases rest with
      -- The run ends where the text ends, so letters that follow belong to it.
      | nil =>
          have hLast : runs = [] := hRest.eq_letterRuns
          rw [hLast, List.intercalate_singleton, List.nil_append,
            letterRuns_letters_append hSome hRun]
          exact (List.prefix_append _ _).trans (prefix_intercalate_cons _ _)
      | cons c rest =>
          have hStop : ∀ d ∈ (c :: rest ++ more).head?, d.isAlpha = false := by simpa using hEnd
          rw [letterRuns_run_append hSome hRun hStop]
          exact intercalate_prefix_cons hRest.ne_nil ih run

/-- A lower limit cuts a segment short. -/
theorem segment_prefix_of_le {limit higher : Nat} (h : limit ≤ higher) (label : String) :
    (segment limit label).toList <+: (segment higher label).toList := by
  rw [toList_segment, toList_segment, cut_eq_append_drop h]
  exact (hasRuns_letterRuns _).intercalate_prefix_append _

/-! Squeezing. -/

/-- Every run of characters that are no letters gives way to one blank. -/
def squeezed : List Char → List Char
  | [] => []
  | c :: rest =>
      if c.isAlpha then c :: squeezed rest
      else ' ' :: squeezed (rest.dropWhile fun c => !c.isAlpha)
termination_by text => text.length
decreasing_by
  · simp
  · exact Nat.lt_succ_of_le (List.length_dropWhile_le _ _)

/-- A text without the white space at its ends. -/
def trimmed (text : List Char) : List Char :=
  (text.dropWhile Char.isWhitespace).rdropWhile Char.isWhitespace

theorem squeezed_letters_append (hRun : ∀ c ∈ run, c.isAlpha = true) (rest : List Char) :
    squeezed (run ++ rest) = run ++ squeezed rest := by
  induction run with
  | nil => rfl
  | cons c run ih =>
      obtain ⟨hFirst, hOthers⟩ := List.forall_mem_cons.mp hRun
      rw [List.cons_append, squeezed, if_pos hFirst, ih hOthers, List.cons_append]

/-- A gap before a letter or the end is squeezed into one blank. -/
theorem squeezed_gap_append (hSome : gap ≠ []) (hGap : ∀ c ∈ gap, c.isAlpha = false)
    (hEnd : ∀ c ∈ rest.head?, c.isAlpha = true) :
    squeezed (gap ++ rest) = ' ' :: squeezed rest := by
  obtain ⟨c, others, rfl⟩ := List.exists_cons_of_ne_nil hSome
  obtain ⟨hFirst, hOthers⟩ := List.forall_mem_cons.mp hGap
  have hStop : rest.dropWhile (fun c => !c.isAlpha) = rest := by
    cases rest with
    | nil => rfl
    | cons d rest => exact List.dropWhile_cons_of_neg (by simp [hEnd d (by simp)])
  rw [List.cons_append, squeezed, if_neg (by simp [hFirst]),
    List.dropWhile_append_of_pos fun d hD => by simp [hOthers d hD], hStop]

/-- Before a letter or the end, a gap leaves nothing but white space. -/
theorem exists_squeezed_gap_append (hGap : ∀ c ∈ gap, c.isAlpha = false)
    (hEnd : ∀ c ∈ rest.head?, c.isAlpha = true) : ∃ blanks,
      squeezed (gap ++ rest) = blanks ++ squeezed rest ∧ ∀ c ∈ blanks, c.isWhitespace = true := by
  by_cases hSome : gap = []
  · exact ⟨[], by rw [hSome]; rfl, by simp⟩
  · exact ⟨[' '], squeezed_gap_append hSome hGap hEnd, by simp [Char.isWhitespace]⟩

theorem isWhitespace_of_mem_squeezed (hGap : ∀ c ∈ gap, c.isAlpha = false) :
    ∀ c ∈ squeezed gap, c.isWhitespace = true := by
  have hNothing : ∀ c ∈ ([] : List Char).head?, c.isAlpha = true := by simp
  obtain ⟨blanks, hSqueezed, hBlanks⟩ := exists_squeezed_gap_append hGap hNothing
  have hAll : squeezed gap = blanks := by simpa [squeezed] using hSqueezed
  rwa [hAll]

theorem isAlpha_of_mem_head? (hSome : run ≠ []) (hRun : ∀ c ∈ run, c.isAlpha = true)
    (rest : List Char) : ∀ c ∈ (run ++ rest).head?, c.isAlpha = true := by
  obtain ⟨first, others, rfl⟩ := List.exists_cons_of_ne_nil hSome
  simpa using hRun first List.mem_cons_self

/-- Behind a letter every run has one blank before it, and white space may be left at the end. -/
theorem HasRuns.squeezed_eq (h : HasRuns text runs) (hStart : ∀ c ∈ text.head?, c.isAlpha = false) :
    ∃ blanks, squeezed text = runs.flatMap (' ' :: ·) ++ blanks ∧
      ∀ c ∈ blanks, c.isWhitespace = true := by
  induction h with
  | @done gap hGap => exact ⟨squeezed gap, rfl, isWhitespace_of_mem_squeezed hGap⟩
  | @next gap run rest runs hGap hSome hRun hEnd hRest ih =>
      obtain ⟨blanks, hRestSqueezed, hBlanks⟩ := ih hEnd
      have hLetter := isAlpha_of_mem_head? hSome hRun rest
      have hGapSome : gap ≠ [] := by
        rintro rfl
        obtain ⟨first, others, rfl⟩ := List.exists_cons_of_ne_nil hSome
        have hFirst := hStart first (by simp)
        simp [hRun first List.mem_cons_self] at hFirst
      refine ⟨blanks, ?_, hBlanks⟩
      rw [squeezed_gap_append hGapSome hGap hLetter, squeezed_letters_append hRun, hRestSqueezed]
      simp

theorem isWhitespace_of_isAlpha (h : c.isAlpha = true) : c.isWhitespace = false := by
  rw [Bool.eq_false_iff]
  intro hBlank
  simp only [Char.isWhitespace, Bool.or_eq_true, decide_eq_true_eq] at hBlank
  rcases hBlank with ((rfl | rfl) | rfl) | rfl <;> exact absurd h (by decide)

/-- Trimming takes away what is white space at both ends, up to a text that has none there. -/
theorem trimmed_eq {front back : List Char} (hFront : ∀ c ∈ front, c.isWhitespace = true)
    (hBack : ∀ c ∈ back, c.isWhitespace = true)
    (hHead : ∀ c ∈ text.head?, c.isWhitespace = false)
    (hLast : ∀ c ∈ text.getLast?, c.isWhitespace = false) :
    trimmed (front ++ (text ++ back)) = text := by
  rw [trimmed, List.dropWhile_append_of_pos hFront]
  cases text with
  | nil => simp [List.dropWhile_eq_nil_iff.mpr hBack]
  | cons c text =>
      have hReverse : ∀ d ∈ back.reverse, d.isWhitespace = true := by simpa using hBack
      rw [List.cons_append, List.dropWhile_cons_of_neg (by simp [hHead c (by simp)]),
        ← List.cons_append, List.rdropWhile, List.reverse_append,
        List.dropWhile_append_of_pos hReverse, ← List.rdropWhile, List.rdropWhile_eq_self_iff]
      intro hSome
      simp [hLast _ (List.getLast?_eq_some_getLast hSome)]

/-- Squeezed, trimmed, and with underscores for the blanks that are left. -/
def cleaned (text : List Char) : List Char := underscored (trimmed (squeezed text))

/-- A joined list as its first run, and every other run with a separator before it. Squeezing
leaves a text in this form. -/
theorem intercalate_cons_eq_append_flatMap (separator : Char) (run : List Char)
    (runs : List (List Char)) :
    [separator].intercalate (run :: runs) = run ++ runs.flatMap (separator :: ·) := by
  induction runs generalizing run with
  | nil => simp [List.intercalate_singleton]
  | cons next runs ih => simp [List.intercalate_cons_cons, ih]

theorem HasRuns.isAlpha (h : HasRuns text runs) : ∀ run ∈ runs, ∀ c ∈ run, c.isAlpha = true := by
  rw [h.eq_letterRuns]
  exact fun run hRun => isAlpha_of_mem_letterRuns hRun

/-- What is written with runs ends with the last letter of the last one. -/
theorem isAlpha_of_mem_getLast? (separator : Char) (hFilled : ∀ run ∈ runs, run ≠ [])
    (hLetters : ∀ run ∈ runs, ∀ c ∈ run, c.isAlpha = true) :
    ∀ c ∈ ([separator].intercalate runs).getLast?, c.isAlpha = true := by
  induction runs with
  | nil => simp
  | cons run runs ih =>
      obtain ⟨hRun, hRuns⟩ := List.forall_mem_cons.mp hLetters
      obtain ⟨hSome, hSomeOthers⟩ := List.forall_mem_cons.mp hFilled
      cases runs with
      | nil =>
          rw [List.intercalate_singleton]
          exact fun c hC => hRun c (List.mem_of_getLast? hC)
      | cons next others =>
          have hRest : [separator].intercalate (next :: others) ≠ [] := by
            rw [intercalate_cons_eq_append_flatMap]
            simp [hSomeOthers next List.mem_cons_self]
          rw [List.intercalate_cons_cons, List.getLast?_append_of_ne_nil _ hRest]
          exact ih hSomeOthers hRuns

theorem underscored_eq_self (h : ∀ c ∈ text, c.isAlpha = true ∨ c = '_') :
    underscored text = text := by
  have hSame : ∀ c ∈ text, (if c.isAlpha then c else '_') = c := by
    intro c hC
    rcases h c hC with hLetter | rfl
    · exact if_pos hLetter
    · rfl
  rw [underscored, List.map_congr_left hSame, List.map_id']

theorem underscored_append (front back : List Char) :
    underscored (front ++ back) = underscored front ++ underscored back := List.map_append

/-- Runs that were joined by blanks are joined by underscores in the end. -/
theorem underscored_intercalate (hLetters : ∀ run ∈ runs, ∀ c ∈ run, c.isAlpha = true) :
    underscored ([' '].intercalate runs) = ['_'].intercalate runs := by
  induction runs with
  | nil => rfl
  | cons run runs ih =>
      obtain ⟨hRun, hRuns⟩ := List.forall_mem_cons.mp hLetters
      have hSame : underscored run = run := underscored_eq_self fun c hC => .inl (hRun c hC)
      cases runs with
      | nil => rw [List.intercalate_singleton, List.intercalate_singleton, hSame]
      | cons next others =>
          have hBlank : underscored [' '] = ['_'] := by decide
          rw [List.intercalate_cons_cons, List.intercalate_cons_cons, ← ih hRuns,
            underscored_append, underscored_append, hSame, hBlank]

/-- Cleaning a text writes its runs. -/
theorem HasRuns.cleaned_eq (h : HasRuns text runs) : cleaned text = ['_'].intercalate runs := by
  have hLast : ∀ c ∈ ([' '].intercalate runs).getLast?, c.isWhitespace = false := fun c hC =>
    isWhitespace_of_isAlpha (isAlpha_of_mem_getLast? ' ' h.ne_nil h.isAlpha c hC)
  have hTrimmed : trimmed (squeezed text) = [' '].intercalate runs := by
    cases h with
    | done hGap =>
        have hBlanks := isWhitespace_of_mem_squeezed hGap
        have hParts : squeezed text ++ ([] ++ []) = squeezed text := by simp
        rw [← hParts, trimmed_eq hBlanks (by simp) (by simp) (by simp)]
        rfl
    | @next gap run rest runs hGap hSome hRun hEnd hRest =>
        have hLetter := isAlpha_of_mem_head? hSome hRun
        obtain ⟨front, hFront, hFrontBlank⟩ := exists_squeezed_gap_append hGap (hLetter rest)
        obtain ⟨back, hBack, hBackBlank⟩ := hRest.squeezed_eq hEnd
        rw [intercalate_cons_eq_append_flatMap] at hLast ⊢
        rw [hFront, squeezed_letters_append hRun, hBack, ← List.append_assoc run]
        exact trimmed_eq hFrontBlank hBackBlank
          (fun c hC => isWhitespace_of_isAlpha (hLetter _ c hC)) hLast
  rw [cleaned, hTrimmed, underscored_intercalate h.isAlpha]

/-! Texts that are segments already. -/

theorem snakeCase_eq_self {text : String} (h : ∀ c ∈ text.toList, c.isUpper = false) :
    snakeCase text = text := by
  have hSame : ∀ c ∈ text.toList, (if c.isUpper then ['_', c.toLower] else [c]) = [c] :=
    fun c hC => if_neg (by simp [h c hC])
  rw [snakeCase, List.flatMap_congr hSame, List.flatMap_singleton', String.ofList_toList]

/-- In a text of words the runs are what stands between the underscores. -/
theorem letterRuns_wordSegment {text : String} (h : Key.WordSegment text) :
    letterRuns text.toList = text.toList.splitOn '_' := by
  have hFilled : (text.toList.splitOn '_').filter (· ≠ []) = text.toList.splitOn '_' :=
    List.filter_eq_self.mpr fun word hWord => decide_eq_true (h word hWord).1
  have hSame : underscored text.toList = text.toList := underscored_eq_self fun c hC =>
    (h.forall_mem c hC).imp_left fun hLower => by rw [Char.isAlpha, hLower, Bool.or_true]
  rw [letterRuns, splitOnP_eq_splitOn_underscored, hSame, hFilled]

/-- The segments under a limit are the texts of words that keep to it, and the empty text. -/
theorem segment_eq_self_iff {limit : Nat} {text : String} :
    segment limit text = text ↔ text = "" ∨ (Key.WordSegment text ∧ text.length ≤ limit) := by
  constructor
  · intro hSame
    by_cases hEmpty : text = ""
    · exact .inl hEmpty
    · rw [← hSame] at hEmpty
      have hWords := wordSegment_segment hEmpty
      have hLength := length_segment_le limit text
      rw [hSame] at hWords hLength
      exact .inr ⟨hWords, hLength⟩
  · rintro (rfl | ⟨hWords, hLength⟩)
    · simp [segment, snakeCase, letterRuns]
    · have hSnake : snakeCase text = text := snakeCase_eq_self fun c hC => by
        rcases hWords.forall_mem c hC with hLower | rfl
        · exact Bool.eq_false_iff.mpr (Char.not_isUpper_of_isLower hLower)
        · rfl
      rw [segment, hSnake, List.take_of_length_le (by rwa [String.length_toList]),
        letterRuns_wordSegment hWords, List.intercalate_splitOn, String.ofList_toList]

/-- A segment is its own segment under every limit that is no lower than its own, because it
is a text of words that keeps to it. -/
theorem segment_segment {limit higher : Nat} (h : limit ≤ higher) (label : String) :
    segment higher (segment limit label) = segment limit label := by
  by_cases hEmpty : segment limit label = ""
  · exact segment_eq_self_iff.mpr (.inl hEmpty)
  · exact segment_eq_self_iff.mpr
      (.inr ⟨wordSegment_segment hEmpty, (length_segment_le limit label).trans h⟩)

/-- A segment is written with the runs of letters of the cut label, of which there is one
list, and cleaning the cut label step by step gives the same. A lower limit cuts the segment
short and changes nothing before the cut, and a segment is its own segment under every limit
that is no lower than its own. -/
theorem segment_normal_form (label : String) (limit : Nat) :
    (∃! runs, HasRuns (cut limit label) runs) ∧
    (∀ runs, HasRuns (cut limit label) runs →
      (segment limit label).toList = ['_'].intercalate runs) ∧
    (segment limit label).toList = cleaned (cut limit label) ∧
    (∀ lower, lower ≤ limit → (segment lower label).toList <+: (segment limit label).toList) ∧
    ∀ higher, limit ≤ higher → segment higher (segment limit label) = segment limit label := by
  have hRuns := hasRuns_letterRuns (cut limit label)
  refine ⟨⟨_, hRuns, fun runs hOther => hOther.eq_letterRuns⟩, fun runs hOther => ?_, ?_,
    fun lower hLower => segment_prefix_of_le hLower label,
    fun higher hHigher => segment_segment hHigher label⟩
  · rw [toList_segment, hOther.eq_letterRuns]
  · rw [toList_segment, hRuns.cleaned_eq]

/-- The limit cuts behind a digit and two separators, and the lower one behind the underscore
that a capital gets. -/
theorem segment_of_user_name :
    HasRuns (cut 12 "userName2__Card") ["user".toList, "name".toList] ∧
      segment 12 "userName2__Card" = "user_name" ∧
      cleaned (cut 12 "userName2__Card") = "user_name".toList ∧
      segment 5 "userName2__Card" = "user" ∧ "user".toList <+: "user_name".toList ∧
      segment 40 "user_name" = "user_name" := by
  have hLetters : letterRuns (cut 12 "userName2__Card") = ["user".toList, "name".toList] := by
    decide +kernel
  have hRuns := hasRuns_letterRuns (cut 12 "userName2__Card")
  rw [hLetters] at hRuns
  obtain ⟨_, hWritten, hCleaned, hLower, hHigher⟩ := segment_normal_form "userName2__Card" 12
  have hSegment : segment 12 "userName2__Card" = "user_name" :=
    String.toList_inj.mp (hWritten _ hRuns)
  have hShort : segment 5 "userName2__Card" = "user" := by decide +kernel
  have hPrefix := hLower 5 (by decide)
  have hAgain := hHigher 40 (by decide)
  rw [hSegment] at hCleaned hPrefix hAgain
  rw [hShort] at hPrefix
  exact ⟨hRuns, hSegment, hCleaned.symm, hShort, hPrefix, hAgain⟩

end LocaleKeys.Label
