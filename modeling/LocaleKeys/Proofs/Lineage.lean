import LocaleKeys.Proofs.Path

/-! The paths above a path. A parent is shorter than its path, so going up from parent to
parent ends, and the lineage of a path holds every step of the way: its length is enough fuel. -/
namespace LocaleKeys.Path

variable {path above : String} {listed front back chain : List String}

theorem ofPieces_pieces (path : String) : ofPieces (pieces path) = path := by
  have hList : (path.toList.splitOn '/').map (String.toList ∘ String.ofList) =
      path.toList.splitOn '/' := by simp [Function.comp_def]
  rw [ofPieces, pieces, List.map_map, hList, List.intercalate_splitOn, String.ofList_toList]

/-- A path is cut at a slash wherever its pieces are. -/
theorem eq_append_slash (h : pieces path = front ++ back) (hFront : front ≠ [])
    (hBack : back ≠ []) :
    path = ofPieces front ++ "/" ++ ofPieces back := by
  have hPiece (piece : String) (hMem : piece ∈ front ++ back) : '/' ∉ piece.toList :=
    slash_not_mem_of_mem_pieces (h ▸ hMem)
  have hFrontPieces := pieces_ofPieces hFront fun piece hMem =>
    hPiece piece (List.mem_append_left _ hMem)
  have hBackPieces := pieces_ofPieces hBack fun piece hMem =>
    hPiece piece (List.mem_append_right _ hMem)
  rw [← ofPieces_pieces path, h, ← ofPieces_pieces (ofPieces front ++ "/" ++ ofPieces back),
    pieces_append_slash, hFrontPieces, hBackPieces]

/-- The length of a path from the two parts into which its pieces are cut, with one slash
between them. -/
theorem length_eq_of_pieces (h : pieces path = front ++ back) (hFront : front ≠ [])
    (hBack : back ≠ []) : path.length = (ofPieces front).length + 1 + (ofPieces back).length := by
  have hSlash : "/".length = 1 := by decide
  rw [eq_append_slash h hFront hBack, String.length_append, String.length_append, hSlash]

/-- Pieces of which one is not idle are written with something. -/
theorem ofPieces_ne_empty (h : trimIdle listed ≠ [])
    (hPiece : ∀ piece ∈ listed, '/' ∉ piece.toList) : ofPieces listed ≠ "" := by
  have hListed : listed ≠ [] := by
    rintro rfl
    exact h rfl
  intro hEmpty
  have hRead := pieces_ofPieces hListed hPiece
  rw [hEmpty, pieces_empty] at hRead
  rw [← hRead] at h
  exact h (by decide)

theorem trimIdle_prefix_self (listed : List String) : trimIdle listed <+: listed := by
  have hSuffix := List.dropWhile_suffix isIdle (l := listed.reverse)
  rw [← List.reverse_prefix, List.reverse_reverse] at hSuffix
  exact hSuffix

/-- Without the component at its end, and what is idle before it, a list lacks its end. -/
theorem exists_eq_trimIdle_dropLast_append (h : trimIdle listed ≠ []) :
    ∃ more, more ≠ [] ∧ listed = trimIdle (trimIdle listed).dropLast ++ more := by
  have hKept := trimIdle_prefix_self (trimIdle listed).dropLast
  have hFront : (trimIdle listed).dropLast <+: trimIdle listed := List.dropLast_prefix _
  obtain ⟨more, hMore⟩ := (hKept.trans hFront).trans (trimIdle_prefix_self listed)
  refine ⟨more, ?_, hMore.symm⟩
  rintro rfl
  have hShorter := hKept.length_le
  have hLonger := (trimIdle_prefix_self listed).length_le
  have hSome := List.length_pos_of_ne_nil h
  rw [List.append_nil] at hMore
  rw [hMore, List.length_dropLast] at hShorter
  omega

/-- A parent is shorter than its path. Going up ends for this reason, and the length of a path
is enough fuel for its lineage. -/
theorem length_lt_of_parent? (h : parent? path = some above) : above.length < path.length := by
  rw [parent?] at h
  split at h
  · cases h
  next first others hPieces =>
    split at h
    next =>
      split at h
      · cases h
      next hName =>
        obtain rfl := Option.some.inj h
        refine Nat.pos_of_ne_zero fun hZero => ?_
        rw [String.length_eq_zero_iff.mp hZero, pieces_empty] at hPieces
        exact hName (List.cons.inj hPieces).1.symm
    next hBehind =>
      have hOthers : others ≠ [] := by
        rintro rfl
        exact hBehind rfl
      have hCut : pieces path = [first] ++ others := hPieces
      have hLength := length_eq_of_pieces hCut (List.cons_ne_nil first []) hOthers
      split at h
      next =>
        obtain rfl := Option.some.inj h
        split
        -- Behind the root stands a piece that is not idle, so the path goes on behind its slash.
        · have hPiece (piece : String) (hMem : piece ∈ others) : '/' ∉ piece.toList :=
            slash_not_mem_of_mem_pieces (hPieces ▸ List.mem_cons_of_mem first hMem)
          have hSome : (ofPieces others).length ≠ 0 :=
            mt String.length_eq_zero_iff.mp (ofPieces_ne_empty hBehind hPiece)
          have hSlash : "/".length = 1 := by decide
          omega
        · have hFirst : ofPieces [first] = first := by simp [ofPieces]
          rw [hFirst] at hLength
          omega
      next =>
        obtain rfl := Option.some.inj h
        obtain ⟨more, hMore, hKept⟩ := exists_eq_trimIdle_dropLast_append hBehind
        rw [hKept, ← List.cons_append] at hPieces
        have hLength := length_eq_of_pieces hPieces (List.cons_ne_nil _ _) hMore
        omega

/-- More fuel than the length of a path makes no difference to its lineage, by induction on
the fuel. -/
theorem go_eq_of_length_le {fuel other : Nat} (h : path.length ≤ fuel)
    (hOther : path.length ≤ other) :
    lineage.go fuel path = lineage.go other path := by
  have hEmpty (fuel : Nat) : lineage.go fuel "" = [""] := by
    cases fuel <;> rfl
  induction fuel generalizing path other with
  | zero =>
      rw [String.length_eq_zero_iff.mp (Nat.le_zero.mp h), hEmpty, hEmpty]
  | succ fuel ih =>
      cases other with
      | zero => rw [String.length_eq_zero_iff.mp (Nat.le_zero.mp hOther), hEmpty, hEmpty]
      | succ other =>
          rw [lineage.go, lineage.go]
          cases hParent : parent? path with
          | none => rfl
          | some above =>
              have hShorter := length_lt_of_parent? hParent
              exact congrArg (path :: ·) (ih (by omega) (by omega))

/-- The way up from a path, from parent to parent until a path has none. -/
inductive Climbs : String → List String → Prop
  | top {path : String} (hTop : parent? path = none) : Climbs path [path]
  | step {path above : String} {chain : List String} (hAbove : parent? path = some above)
      (hChain : Climbs above chain) : Climbs path (path :: chain)

/-- There is one way up, since a path has one parent at most. -/
theorem Climbs.unique (h : Climbs path chain) {other : List String} (hOther : Climbs path other) :
    other = chain := by
  induction h generalizing other with
  | top hTop =>
      cases hOther with
      | top => rfl
      | step hAbove => rw [hTop] at hAbove; cases hAbove
  | step hAbove _ ih =>
      cases hOther with
      | top hTop => rw [hTop] at hAbove; cases hAbove
      | step hOtherAbove hChain =>
          obtain rfl := Option.some.inj (hAbove.symm.trans hOtherAbove)
          rw [ih hChain]

/-- The lineage of a path is the whole way up. -/
theorem climbs_lineage (path : String) : Climbs path (lineage path) := by
  rw [lineage]
  generalize hFuel : path.length = fuel
  induction fuel using Nat.strong_induction_on generalizing path with
  | h fuel ih =>
      cases hParent : parent? path with
      | none =>
          have hOnly : lineage.go fuel path = [path] := by
            cases fuel <;> simp [lineage.go, hParent]
          exact hOnly ▸ .top hParent
      | some above =>
          have hShorter := length_lt_of_parent? hParent
          obtain ⟨fuel, rfl⟩ := Nat.exists_eq_succ_of_ne_zero (n := fuel) (by omega)
          have hNext : lineage.go (fuel + 1) path = path :: lineage.go above.length above := by
            rw [lineage.go, hParent]
            exact congrArg (path :: ·) (go_eq_of_length_le (by omega) (le_refl _))
          exact hNext ▸ .step hParent (ih above.length (by omega) above rfl)

end LocaleKeys.Path
