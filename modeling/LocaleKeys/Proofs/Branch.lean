import LocaleKeys.Proofs.Candidate
import LocaleKeys.Proofs.Growth
import LocaleKeys.Proofs.Progress

/-! Branches of keys. All probes of a search stand on one branch: behind some
qualifiers they begin with the first segment of the candidate, numbered or not.
Two branches touch nowhere, so what a search finds depends on the stored keys
around its own branch alone. -/
namespace LocaleKeys

namespace Key

/-- What stands before the first dot of a key. -/
def firstSegment (key : String) : String := String.ofList ((key.toList.splitOn '.').headD [])

/-- A key lies within its first segment. Requests are told apart by that segment. -/
theorem within_firstSegment (key : String) : Within key (firstSegment key) := by
  have hSpelled : ['.'].intercalate (key.toList.splitOn '.') = key.toList :=
    List.intercalate_splitOn '.'
  rw [firstSegment]
  cases hSplit : key.toList.splitOn '.' with
  | nil => exact absurd hSplit (List.splitOn_ne_nil _ _)
  | cons first rest =>
      rw [hSplit] at hSpelled
      cases rest with
      | nil =>
          rw [List.intercalate_singleton] at hSpelled
          exact .inl (by rw [List.headD_cons, hSpelled, String.ofList_toList])
      | cons second rest =>
          rw [List.intercalate_cons_cons] at hSpelled
          exact .inr ⟨_, by rw [List.headD_cons, String.toList_ofList, hSpelled]⟩

theorem firstSegment_ofSegments {first : String} {rest : List String}
    (h : ∀ segment ∈ first :: rest, IsSegment segment) :
    firstSegment (ofSegments (first :: rest)) = first := by
  rw [firstSegment, splitOn_ofSegments (List.cons_ne_nil _ _) h, List.map_cons, List.headD_cons,
    String.ofList_toList]

theorem Within.trans {key middle stem : String} (hLower : Within key middle)
    (hUpper : Within middle stem) : Within key stem := by
  rcases hLower with rfl | hUnder
  · exact hUpper
  · exact .of_under hUnder hUpper

/-- One of two keys stands at or under the other. -/
def Touches (a b : String) : Prop := Within a b ∨ Within b a

theorem Related.touches {a b : String} (h : Related a b) : Touches a b := h.imp .inr .inr

/-- A key stands on the branch of a name when it begins with the name behind
qualifiers. Digits may stand between the name and the next dot. -/
def OnBranch (name key : String) : Prop :=
  ∃ count digits, (∀ c ∈ digits, c.isDigit = true) ∧
    Within key (String.ofList (qualifiers count ++ name.toList ++ digits))

/-- A name that a branch can have. -/
structure BranchName (name : String) : Prop extends PlainSegment name where
  ne_qualifier : name ≠ Probe.qualifier

theorem qualifiers_zero : qualifiers 0 = [] := rfl

/-- Of two texts that begin alike the parts before the first dot are the same. -/
theorem eq_of_prefix_before_dot {a b x y : List Char} (hA : '.' ∉ a) (hB : '.' ∉ b)
    (h : a ++ '.' :: x <+: b ++ '.' :: y) : a = b ∧ x <+: y := by
  induction a generalizing b with
  | nil =>
      cases b with
      | nil => exact ⟨rfl, (List.cons_prefix_cons.mp h).2⟩
      | cons d b =>
          obtain rfl : '.' = d := (List.cons_prefix_cons.mp h).1
          exact absurd List.mem_cons_self hB
  | cons c a ih =>
      cases b with
      | nil =>
          obtain rfl : c = '.' := (List.cons_prefix_cons.mp h).1
          exact absurd List.mem_cons_self hA
      | cons d b =>
          obtain ⟨rfl, hTail⟩ := List.cons_prefix_cons.mp h
          obtain ⟨rfl, hRest⟩ :=
            ih (List.not_mem_of_not_mem_cons hA) (List.not_mem_of_not_mem_cons hB) hTail
          exact ⟨rfl, hRest⟩

/-- Names without digits are told apart also where digits follow them. -/
theorem eq_of_append_digits {a b d e : List Char} (hA : ∀ c ∈ a, c.isDigit = false)
    (hB : ∀ c ∈ b, c.isDigit = false) (hD : ∀ c ∈ d, c.isDigit = true)
    (hE : ∀ c ∈ e, c.isDigit = true) (h : a ++ d = b ++ e) : a = b := by
  have hName (name digits : List Char) (hName : ∀ c ∈ name, c.isDigit = false)
      (hDigits : ∀ c ∈ digits, c.isDigit = true) :
      (name ++ digits).filter (fun c => !c.isDigit) = name := by
    rw [List.filter_append, List.filter_eq_self.mpr (by simpa using hName),
      List.filter_eq_nil_iff.mpr (by simpa using hDigits), List.append_nil]
  rw [← hName a d hA hD, h, hName b e hB hE]

/-- Two branches can be told apart behind any number of qualifiers and before any number. So a
rewritten probe never leaves its branch. -/
theorem BranchName.eq_of_prefix {a b : String} (hA : BranchName a) (hB : BranchName b)
    {m n : Nat} {d e : List Char} (hD : ∀ c ∈ d, c.isDigit = true)
    (hE : ∀ c ∈ e, c.isDigit = true)
    (h : qualifiers m ++ a.toList ++ d ++ ['.'] <+: qualifiers n ++ b.toList ++ e ++ ['.']) :
    a = b := by
  have hDot {name : String} {digits : List Char} (hName : BranchName name)
      (hDigits : ∀ c ∈ digits, c.isDigit = true) : '.' ∉ name.toList ++ digits := by
    rw [List.mem_append, not_or]
    exact ⟨hName.dot_not_mem, fun hIn => absurd (hDigits '.' hIn) (by decide)⟩
  -- A qualifier is no name, with or without digits behind it.
  have hApart {name : String} {digits : List Char} (hName : BranchName name)
      (hDigits : ∀ c ∈ digits, c.isDigit = true) : name.toList ++ digits ≠ Probe.qualifier.toList := by
    intro hSame
    have hEq := eq_of_append_digits hName.not_isDigit (b := Probe.qualifier.toList) (e := [])
      (by simp [Probe.qualifier, Char.isDigit]) hDigits (by simp) (by simpa using hSame)
    exact hName.ne_qualifier (String.toList_inj.mp hEq)
  induction m generalizing n with
  | zero =>
      cases n with
      | zero =>
          have hSame := (eq_of_prefix_before_dot (hDot hA hD) (hDot hB hE) h).1
          exact String.toList_inj.mp (eq_of_append_digits hA.not_isDigit hB.not_isDigit hD hE hSame)
      | succ n =>
          have hSame := (eq_of_prefix_before_dot (b := Probe.qualifier.toList) (hDot hA hD)
            (by decide) (by simpa [qualifiers_succ, qualifiers_zero, Probe.qualifier] using h)).1
          exact absurd hSame (hApart hA hD)
  | succ m ih =>
      cases n with
      | zero =>
          have hSame := (eq_of_prefix_before_dot (a := Probe.qualifier.toList) (by decide)
            (hDot hB hE) (by simpa [qualifiers_succ, qualifiers_zero, Probe.qualifier] using h)).1
          exact absurd hSame.symm (hApart hB hE)
      | succ n =>
          refine ih (n := n) ?_
          simpa [qualifiers_succ] using h

/-- Keys of two branches do not touch. -/
theorem OnBranch.eq_of_touches {a b key other : String} (hKey : OnBranch a key)
    (hOther : OnBranch b other) (hA : BranchName a) (hB : BranchName b)
    (h : Touches key other) : a = b := by
  obtain ⟨m, d, hD, hKey⟩ := hKey
  obtain ⟨n, e, hE, hOther⟩ := hOther
  -- The lower of the two keys stands at or under both stems.
  obtain ⟨lower, hLeft, hRight⟩ : ∃ lower,
      Within lower (String.ofList (qualifiers m ++ a.toList ++ d)) ∧
      Within lower (String.ofList (qualifiers n ++ b.toList ++ e)) := by
    rcases h with hWithin | hWithin
    · exact ⟨key, hKey, hWithin.trans hOther⟩
    · exact ⟨other, hWithin.trans hKey, hOther⟩
  rw [within_iff, String.toList_ofList] at hLeft hRight
  rcases List.prefix_or_prefix_of_prefix hLeft hRight with hPrefix | hPrefix
  · exact hA.eq_of_prefix hB hD hE hPrefix
  · exact (hB.eq_of_prefix hA hE hD hPrefix).symm

theorem isDigit_of_mem_number (number : Nat) :
    ∀ c ∈ (toString number).toList, c.isDigit = true := by
  intro c hC
  rw [Nat.toString_eq_ofList_toDigits, String.toList_ofList] at hC
  exact Nat.isDigit_of_mem_toDigits (by decide) (by decide) hC

end Key

namespace Probe

open Key (Within)

/-- The base of a probe begins with the name behind qualifiers. -/
def OnBranch (name : String) (p : Probe) : Prop :=
  ∃ count, Within p.base (String.ofList (Key.qualifiers count ++ name.toList))

theorem onBranch_candidate (candidate : String) :
    OnBranch (Key.firstSegment candidate) ⟨candidate, 0⟩ :=
  ⟨0, by simpa [Key.qualifiers_zero] using Key.within_firstSegment candidate⟩

variable {name : String} {p : Probe}

/-- The next probe stays on the branch of the one before it, whichever verdict led to it. -/
theorem OnBranch.next (h : OnBranch name p) (verdict : Verdict) :
    OnBranch name (p.next verdict) := by
  obtain ⟨count, hBase⟩ := h
  rcases p.base_next verdict with hSame | hFront | hBehind
  · exact ⟨count, hSame ▸ hBase⟩
  · refine ⟨count + 1, ?_⟩
    rw [Key.within_iff, String.toList_ofList] at hBase ⊢
    simpa [hFront, Key.qualifiers_succ, qualifier] using hBase
  · refine ⟨count, .of_under ⟨valueSegment.toList, ?_⟩ hBase⟩
    simp [hBehind]

/-- A probe on a branch tries keys of this branch only. -/
theorem OnBranch.key (h : OnBranch name p) (suffix : String) :
    Key.OnBranch name (p.key suffix) := by
  obtain ⟨count, hBase⟩ := h
  have hStem : Key.OnBranch name p.stem := by
    rw [stem]
    split
    · exact ⟨count, [], by simp, by simpa using hBase⟩
    · rcases hBase with hSame | hUnder
      · refine ⟨count, (toString p.number).toList, Key.isDigit_of_mem_number _, .inl ?_⟩
        apply String.toList_inj.mp
        simp [hSame]
      · refine ⟨count, [], by simp, .inr ?_⟩
        rw [List.append_nil]
        refine List.IsPrefix.trans hUnder ?_
        rw [String.toList_append]
        exact List.prefix_append _ _
  obtain ⟨count, digits, hDigits, hWithin⟩ := hStem
  exact ⟨count, digits, hDigits, (Key.extend_within p.stem suffix).trans hWithin⟩

end Probe

namespace Table

open Key (Related Touches Under)

variable {t other : Table} {text suffix name key : String}

theorem ancestorFrom_congr {read : String} {rest : List Char}
    (h : ∀ more, more ++ ['.'] <+: rest →
      t.contains (String.ofList (read.toList ++ more)) =
        other.contains (String.ofList (read.toList ++ more))) :
    t.ancestorFrom read rest = other.ancestorFrom read rest := by
  induction rest generalizing read with
  | nil => rfl
  | cons c rest ih =>
      rw [ancestorFrom, ancestorFrom]
      have hRest : t.ancestorFrom (read.push c) rest = other.ancestorFrom (read.push c) rest := by
        apply ih
        intro more hMore
        have hRead := h (c :: more) (List.cons_prefix_cons.mpr ⟨rfl, hMore⟩)
        simpa [String.toList_push] using hRead
      by_cases hDot : c = '.'
      · have hHere := h [] (by simp [hDot])
        rw [List.append_nil, String.ofList_toList] at hHere
        rw [hHere, hRest]
      · simp [hDot, hRest]

/-- Tables that store the same keys around a probe find the same overlap. -/
theorem overlapping_congr
    (h : ∀ near, Related key near → t.contains near = other.contains near) :
    t.overlapping key = other.overlapping key := by
  have hAncestor : t.ancestorOf key = other.ancestorOf key := by
    apply ancestorFrom_congr
    intro more hMore
    apply h
    exact .inl (by simpa [Under] using hMore)
  have hDescendants : t.descendants key = other.descendants key := by
    refine eq_of_mem_iff_of_pairwise (fun _ _ => String.lt_asymm) (t.descendants_ascending key)
      (other.descendants_ascending key) ?_
    intro stored
    rw [mem_descendants_iff, mem_descendants_iff]
    refine and_congr_left fun hUnder => ?_
    rw [← contains_iff_mem_keys, ← contains_iff_mem_keys, h stored (.inr hUnder)]
  rw [overlapping, overlapping, hAncestor, descendantOf, descendantOf, hDescendants]

/-- A verdict on a key depends on the entries that touch the key alone. -/
theorem judge_congr (text : String)
    (h : ∀ near, Touches key near → t.lookup near = other.lookup near) :
    t.judge text key = other.judge text key := by
  have hOverlap : t.overlapping key = other.overlapping key :=
    overlapping_congr fun near hRelated => by rw [contains, contains, h near hRelated.touches]
  rw [judge, judge, h key (.inl (.inl rfl)), hOverlap]

/-- Two tables hold the same entries around the keys of a branch. -/
def AgreeOn (name : String) (t other : Table) : Prop :=
  ∀ key, Key.OnBranch name key → ∀ near, Touches key near → t.lookup near = other.lookup near

theorem AgreeOn.refl (name : String) (t : Table) : AgreeOn name t t := fun _ _ _ _ => rfl

theorem AgreeOn.insert (h : AgreeOn name t other) (key text : String) :
    AgreeOn name (t.insert key text) (other.insert key text) := by
  intro found hFound near hNear
  rw [lookup_insert, lookup_insert, h found hFound near hNear]

/-- An entry on another branch is out of sight. -/
theorem AgreeOn.insert_left (h : AgreeOn name t other) {away : String}
    (hKey : Key.OnBranch away key) (hAway : Key.BranchName away) (hName : Key.BranchName name)
    (hNe : away ≠ name) (text : String) : AgreeOn name (t.insert key text) other := by
  intro found hFound near hNear
  have hOther : near ≠ key := by
    rintro rfl
    exact hNe (hFound.eq_of_touches hKey hName hAway hNear).symm
  rw [lookup_insert, if_neg hOther, h found hFound near hNear]

/-- A search on a branch runs alike in tables that agree there. -/
theorem AgreeOn.search_eq (h : AgreeOn name t other) {p : Probe} (hProbe : p.OnBranch name)
    (attempts : Nat) : t.search text suffix attempts p = other.search text suffix attempts p := by
  induction attempts generalizing p with
  | zero => rfl
  | succ attempts ih =>
      have hJudge : t.judge text (p.key suffix) = other.judge text (p.key suffix) :=
        judge_congr text (h _ (hProbe.key suffix))
      rw [search, search, hJudge]
      cases other.judge text (p.key suffix) with
      | matched | free => rfl
      | taken | under | above => exact ih (hProbe.next _)

/-- Tables that agree on a branch place a candidate of that branch alike, whatever they hold
on other branches. -/
theorem AgreeOn.place_eq (h : AgreeOn name t other) {candidate : String}
    (hCandidate : Key.firstSegment candidate = name) (limit : Nat) (text suffix : String) :
    t.place limit text candidate suffix = other.place limit text candidate suffix := by
  rw [place, place, h.search_eq (hCandidate ▸ Probe.onBranch_candidate candidate)]

/-- A search finds its key on its own branch. -/
theorem onBranch_of_search {attempts : Nat} {p : Probe} {outcome : Outcome}
    (hProbe : p.OnBranch name) (h : t.search text suffix attempts p = some outcome) :
    Key.OnBranch name outcome.key := by
  obtain ⟨stop, hStop, hKey⟩ :=
    exists_probe_of_search (Probe.OnBranch name) (fun _ verdict hOn => hOn.next verdict) hProbe h
  exact hKey ▸ hStop.key suffix

end Table
end LocaleKeys
