import LocaleKeys.Json.Reader
import LocaleKeys.Json.Writer
import LocaleKeys.Proofs.Members
import Mathlib.Data.List.Induction

/-! Texts of trees are read back. Reading undoes writing layer by layer: escaped
characters, strings, members, groups. Each layer is read up to its own end,
whatever follows it there. Only the limit on open groups keeps a tree of texts
from being read. -/
namespace LocaleKeys.Json

variable {c : Char} {input rest text : List Char} {raw : Raw}

namespace Raw

theorem characters?_char (c : Char) (h : raw.characters? = some text) :
    characters? (.char c :: raw) = some (c :: text) := by
  rw [characters?, h]
  rfl

/-- A code unit of a control character stands for that character. -/
theorem characters?_unit (hControl : c.toNat < 0x20) (h : raw.characters? = some text) :
    characters? (.unit c.toNat :: raw) = some (c :: text) := by
  have hLeading : isLeading c.toNat = false := by
    rw [isLeading, Bool.and_eq_false_iff]
    exact .inl (decide_eq_false (by omega))
  have hTrailing : isTrailing c.toNat = false := by
    rw [isTrailing, Bool.and_eq_false_iff]
    exact .inl (decide_eq_false (by omega))
  have hAlone : characters? (.unit c.toNat :: raw) =
      (characters? raw).map (Char.ofNat c.toNat :: ·) := by
    cases raw with
    | nil => simp [characters?, hLeading, hTrailing]
    | cons piece rest => cases piece <;> simp [characters?, hLeading, hTrailing]
  rw [hAlone, h, Char.ofNat_toNat]
  rfl

end Raw

/-- How a character is written: behind a backslash, by its code, or as it is. -/
theorem escape_cases (c : Char) :
    (∃ name, escape c = ['\\', name] ∧ Reader.escaped? name = some c) ∨
    (c.toNat < 0x20 ∧ escape c =
      ['\\', 'u', '0', '0', hexDigit (c.toNat / 16), hexDigit (c.toNat % 16)]) ∨
    (c ≠ '"' ∧ c ≠ '\\' ∧ ¬ c.toNat < 0x20 ∧ escape c = [c]) := by
  by_cases hShort : c ∈ ['"', '\\', '\x08', '\t', '\n', '\x0c', '\r']
  · left
    simp only [List.mem_cons, List.not_mem_nil, or_false] at hShort
    rcases hShort with rfl | rfl | rfl | rfl | rfl | rfl | rfl <;> exact ⟨_, rfl, rfl⟩
  · right
    simp only [List.mem_cons, List.not_mem_nil, or_false, not_or] at hShort
    by_cases hControl : c.toNat < 0x20
    · exact .inl ⟨hControl, by simp [escape, hShort, hControl]⟩
    · exact .inr ⟨hShort.1, hShort.2.1, hControl, by simp [escape, hShort, hControl]⟩

namespace Reader

theorem hexDigit?_hexDigit : ∀ n, n < 16 → hexDigit? (hexDigit n) = some n := by decide

theorem string_plain (hQuote : c ≠ '"') (hBackslash : c ≠ '\\') (hShown : ¬ c.toNat < 0x20)
    (h : string input = some (raw, rest)) :
    string (c :: input) = some (.char c :: raw, rest) := by
  rw [string.eq_def]
  split <;> simp_all

theorem string_escaped {name : Char} (hName : escaped? name = some c)
    (h : string input = some (raw, rest)) :
    string ('\\' :: name :: input) = some (.char c :: raw, rest) := by
  have hUnit : name ≠ 'u' := by
    rintro rfl
    cases hName
  simp [string, hUnit, hName, h]

/-- A control character is read back from its escape with four hexadecimal digits. -/
theorem string_control (hControl : c.toNat < 0x20) (h : string input = some (raw, rest)) :
    string ('\\' :: 'u' :: '0' :: '0' :: hexDigit (c.toNat / 16) :: hexDigit (c.toNat % 16) ::
      input) = some (.unit c.toNat :: raw, rest) := by
  have hHigh := hexDigit?_hexDigit (c.toNat / 16) (by omega)
  have hLow := hexDigit?_hexDigit (c.toNat % 16) (by omega)
  have hZero : hexDigit? '0' = some 0 := by decide
  have hUnit : unit? '0' '0' (hexDigit (c.toNat / 16)) (hexDigit (c.toNat % 16)) = some c.toNat := by
    simp only [unit?, hZero, hHigh, hLow, Option.bind_eq_bind, Option.bind_some, Option.pure_def,
      Option.some.injEq]
    omega
  simp [string, hUnit, h]

/-- A written character is read as a piece that stands for it. -/
theorem string_escape (c : Char) (h : string input = some (raw, rest))
    (hText : raw.characters? = some text) :
    ∃ more : Raw, string (escape c ++ input) = some (more, rest) ∧
      more.characters? = some (c :: text) := by
  rcases escape_cases c with ⟨name, hWritten, hName⟩ | ⟨hControl, hWritten⟩ |
    ⟨hQuote, hBackslash, hShown, hWritten⟩
  · exact ⟨_, hWritten ▸ string_escaped hName h, raw.characters?_char c hText⟩
  · exact ⟨_, hWritten ▸ string_control hControl h, raw.characters?_unit hControl hText⟩
  · exact ⟨_, hWritten ▸ string_plain hQuote hBackslash hShown h, raw.characters?_char c hText⟩

/-- A string is read up to its closing quote. -/
theorem string_written (text rest : List Char) :
    ∃ raw : Raw, string (text.flatMap escape ++ '"' :: rest) = some (raw, rest) ∧
      raw.characters? = some text := by
  induction text with
  | nil => exact ⟨[], by simp [string], rfl⟩
  | cons c text ih =>
      obtain ⟨raw, hRead, hText⟩ := ih
      rw [List.flatMap_cons, List.append_assoc]
      exact string_escape c hRead hText

theorem skipBlanks_of_not_blank (h : isBlank c = false) : skipBlanks (c :: rest) = c :: rest :=
  List.dropWhile_cons_of_neg (by simp [h])

@[simp] theorem skipBlanks_quote : skipBlanks ('"' :: rest) = '"' :: rest :=
  skipBlanks_of_not_blank rfl

@[simp] theorem skipBlanks_colon : skipBlanks (':' :: rest) = ':' :: rest :=
  skipBlanks_of_not_blank rfl

@[simp] theorem skipBlanks_comma : skipBlanks (',' :: rest) = ',' :: rest :=
  skipBlanks_of_not_blank rfl

@[simp] theorem skipBlanks_brace : skipBlanks ('\x7b' :: rest) = '\x7b' :: rest :=
  skipBlanks_of_not_blank rfl

@[simp] theorem skipBlanks_line (level : Nat) (input : List Char) :
    skipBlanks (line level ++ input) = skipBlanks input := by
  have hBlank : ∀ c ∈ line level, isBlank c = true := by
    intro c hC
    rcases List.mem_cons.mp hC with rfl | hSpace
    · rfl
    · rw [List.eq_of_mem_replicate hSpace]
      rfl
  rw [skipBlanks, List.dropWhile_append_of_pos hBlank]
  rfl

/-- Blanks before a document say nothing. -/
theorem document_congr {other : List Char} (h : skipBlanks input = skipBlanks other) (fuel : Nat) :
    document fuel input = document fuel other := by
  cases fuel with
  | zero => rfl
  | succ fuel => rw [document, document, h]

/-- White space before the members of an object makes no difference to how they are read. -/
theorem members_congr {other : List Char} (h : skipBlanks input = skipBlanks other) (fuel : Nat) :
    members fuel input = members fuel other := by
  cases fuel with
  | zero => rfl
  | succ fuel => rw [members, members, h]

end Reader

namespace Members

variable {name : String} {value : Json} {members : Members}

/-- Members of distinct names stay as they are written. -/
theorem ofList_of_nodup (h : (members.map Prod.fst).Nodup) : ofList members = members := by
  induction members using List.reverseRecOn with
  | nil => rfl
  | append_singleton members member ih =>
      rw [List.map_append, List.nodup_append] at h
      have hNew : member.1 ∉ members.map Prod.fst := fun hOld =>
        h.2.2 member.1 hOld member.1 (by simp) rfl
      rw [ofList_concat, ih h.1, put_of_not_mem member.2 hNew]

end Members

mutual

/-- How many containers are open at once within a value, itself among them. -/
def nesting : Json → Nat
  | .array items => nestingOfItems items + 1
  | .object members => nestingOfMembers members + 1
  | _ => 0

def nestingOfItems : List Json → Nat
  | [] => 0
  | item :: rest => max (nesting item) (nestingOfItems rest)

def nestingOfMembers : Members → Nat
  | [] => 0
  | (_, value) :: rest => max (nesting value) (nestingOfMembers rest)

end

/-- A member as it is written at a level. -/
def memberText (level : Nat) (member : String × Json) : List Char :=
  quoted member.1 ++ ':' :: ' ' :: pretty level member.2

/-- The members of a group as they are written, with a comma and a new line between
neighbours. -/
def membersText (level : Nat) (members : Members) : List Char :=
  (',' :: line level).intercalate (members.map (memberText level))

variable {level fuel : Nat} {member : String × Json} {members : Members}

theorem prettyMembers_eq (level : Nat) (members : Members) :
    prettyMembers level members = members.map (memberText level) := by
  induction members with
  | nil => rfl
  | cons member rest ih => rw [prettyMembers, ih, List.map_cons, memberText]

theorem pretty_object (level : Nat) (hSome : members ≠ []) :
    pretty level (.object members) = '\x7b' :: (line (level + 1) ++
      (membersText (level + 1) members ++ (line level ++ ['\x7d']))) := by
  obtain ⟨member, others, rfl⟩ := List.exists_cons_of_ne_nil hSome
  simp [pretty, prettyMembers_eq, encloseLines, membersText]

theorem membersText_cons_cons (level : Nat) (member second : String × Json) (others : Members) :
    membersText level (member :: second :: others) =
      memberText level member ++ ',' :: (line level ++ membersText level (second :: others)) := by
  simp [membersText, List.intercalate_cons_cons]

theorem exists_membersText_eq (level : Nat) (hSome : members ≠ []) :
    ∃ behind, membersText level members = '"' :: behind := by
  obtain ⟨member, others, rfl⟩ := List.exists_cons_of_ne_nil hSome
  cases others with
  | nil => exact ⟨_, by simp [membersText, memberText, quoted]; rfl⟩
  | cons second others => exact ⟨_, by rw [membersText_cons_cons, memberText, quoted]; rfl⟩

/-- Written at a level, the value is read back up to its end. As many steps suffice
as characters are read. -/
def Readable (level : Nat) (value : Json) : Prop :=
  ∀ fuel rest, (pretty level value).length ≤ fuel →
    ∃ d : Document, Reader.document fuel (pretty level value ++ rest) = some (d, rest) ∧
      ∀ depth, nesting value ≤ depth → d.valueWithin depth = some value

/-- The text of a string is read back, whatever characters it holds. -/
theorem readable_string (level : Nat) (text : String) : Readable level (.string text) := by
  intro fuel rest hFuel
  cases fuel with
  | zero => simp [pretty, quoted] at hFuel
  | succ fuel =>
      obtain ⟨raw, hRead, hText⟩ := Reader.string_written text.toList rest
      refine ⟨.string raw, ?_, fun depth _ => ?_⟩
      · simp [pretty, quoted, Reader.document, hRead]
      · simp [Document.valueWithin, Raw.text?, hText]

/-- A member is read up to its end; what stands there decides whether it is the last. -/
theorem Readable.read_member (h : Readable level member.2)
    (hFuel : (memberText level member).length ≤ fuel + 1) (rest : List Char) :
    ∃ (raw : Raw) (d : Document), raw.text? = some member.1 ∧
      (∀ depth, nesting member.2 ≤ depth → d.valueWithin depth = some member.2) ∧
      (∀ left, Reader.skipBlanks rest = '\x7d' :: left →
        Reader.members (fuel + 1) (memberText level member ++ rest) = some ([(raw, d)], left)) ∧
      ∀ next more left, Reader.skipBlanks rest = ',' :: next →
        Reader.members fuel next = some (more, left) →
        Reader.members (fuel + 1) (memberText level member ++ rest) =
          some ((raw, d) :: more, left) := by
  obtain ⟨raw, hName, hText⟩ :=
    Reader.string_written member.1.toList (':' :: ' ' :: (pretty level member.2 ++ rest))
  have hLength : (pretty level member.2).length ≤ fuel := by
    simp only [memberText, quoted, List.length_append, List.length_cons] at hFuel
    omega
  obtain ⟨d, hRead, hValue⟩ := h fuel rest hLength
  have hBlank : Reader.skipBlanks (' ' :: (pretty level member.2 ++ rest)) =
      Reader.skipBlanks (pretty level member.2 ++ rest) := rfl
  rw [← Reader.document_congr hBlank] at hRead
  have hWritten : memberText level member ++ rest = '"' :: (member.1.toList.flatMap escape ++
      '"' :: ':' :: ' ' :: (pretty level member.2 ++ rest)) := by
    simp [memberText, quoted]
  refine ⟨raw, d, by simp [Raw.text?, hText], hValue, ?_, ?_⟩
  · intro left hRest
    simp [hWritten, Reader.members, hName, hRead, hRest]
  · intro next more left hRest hMore
    simp [hWritten, Reader.members, hName, hRead, hRest, hMore]

/-- The members of a group are read up to its closing brace. -/
theorem read_members (hSome : members ≠ []) (h : ∀ member ∈ members, Readable level member.2)
    (hFuel : (membersText level members).length ≤ fuel) (outer : Nat) (rest : List Char) :
    ∃ written : List (Raw × Document),
      Reader.members fuel (membersText level members ++ (line outer ++ '\x7d' :: rest)) =
        some (written, rest) ∧
      ∀ depth, nestingOfMembers members ≤ depth →
        Document.membersWithin depth written = some members := by
  induction members generalizing fuel with
  | nil => exact absurd rfl hSome
  | cons member others ih =>
      obtain ⟨hFirst, hOthers⟩ := List.forall_mem_cons.mp h
      cases others with
      | nil =>
          have hEnd : Reader.skipBlanks (line outer ++ '\x7d' :: rest) = '\x7d' :: rest :=
            Reader.skipBlanks_line outer _
          obtain _ | fuel := fuel
          · simp [membersText, memberText] at hFuel
          obtain ⟨raw, d, hName, hValue, hLast, -⟩ :=
            hFirst.read_member (by simpa [membersText] using hFuel) (line outer ++ '\x7d' :: rest)
          refine ⟨[(raw, d)], by simpa [membersText] using hLast rest hEnd, fun depth hDepth => ?_⟩
          rw [nestingOfMembers, Nat.max_le] at hDepth
          simp [Document.membersWithin, hName, hValue depth hDepth.1]
      | cons second others =>
          rw [membersText_cons_cons, List.length_append, List.length_cons, List.length_append] at hFuel
          obtain _ | fuel := fuel
          · omega
          have hHere : (memberText level member).length ≤ fuel + 1 := by omega
          have hThere : (membersText level (second :: others)).length ≤ fuel := by omega
          obtain ⟨more, hMore, hMembers⟩ := ih (by simp) hOthers hThere
          rw [← Reader.members_congr (Reader.skipBlanks_line level _)] at hMore
          obtain ⟨raw, d, hName, hValue, -, hComma⟩ := hFirst.read_member hHere
            (',' :: (line level ++ (membersText level (second :: others) ++
              (line outer ++ '\x7d' :: rest))))
          refine ⟨(raw, d) :: more, ?_, fun depth hDepth => ?_⟩
          · rw [membersText_cons_cons]
            simpa using hComma _ more rest Reader.skipBlanks_comma hMore
          · rw [nestingOfMembers, Nat.max_le] at hDepth
            simp [Document.membersWithin, hName, hValue depth hDepth.1, hMembers depth hDepth.2]

theorem readable_empty (level : Nat) : Readable level (.object []) := by
  intro fuel rest hFuel
  obtain _ | fuel := fuel
  · simp [pretty, prettyMembers, encloseLines] at hFuel
  refine ⟨.object [], rfl, fun depth hDepth => ?_⟩
  obtain _ | depth := depth
  · simp [nesting] at hDepth
  rfl

/-- An object is read back if the values of its members are, one level deeper. Names must be
distinct, since a name that is given twice is settled while it is read. -/
theorem readable_object (hNames : (members.map Prod.fst).Nodup)
    (h : ∀ member ∈ members, Readable (level + 1) member.2) : Readable level (.object members) := by
  by_cases hSome : members = []
  · exact hSome ▸ readable_empty level
  intro fuel rest hFuel
  rw [pretty_object level hSome, List.length_cons, List.length_append, List.length_append] at hFuel
  obtain _ | fuel := fuel
  · omega
  have hInner : (membersText (level + 1) members).length ≤ fuel := by omega
  obtain ⟨written, hRead, hMembers⟩ := read_members hSome h hInner level rest
  refine ⟨.object written, ?_, fun depth hDepth => ?_⟩
  · -- The first member starts with a quote, so the group is not taken for an empty one.
    obtain ⟨behind, hFirst⟩ := exists_membersText_eq (level + 1) hSome
    rw [hFirst, List.cons_append] at hRead
    simp [pretty_object level hSome, hFirst, Reader.document, hRead]
  · obtain _ | depth := depth
    · simp [nesting] at hDepth
    have hWritten := hMembers depth (Nat.le_of_succ_le_succ (by rwa [nesting] at hDepth))
    simp [Document.valueWithin, hWritten, Members.ofList_of_nodup hNames]

variable {named : String → Prop} {value : Json}

/-- A tree of texts is read back from its text, by induction on the tree. -/
theorem TextTree.readable (h : TextTree named value) (level : Nat) : Readable level value := by
  induction h generalizing level with
  | text text => exact readable_string level text
  | group hNames _ _ ih =>
      exact readable_object hNames fun member hMember => ih member hMember (level + 1)

/-- The text of a tree of texts holds a document, with blanks behind it or without. Its
value is the tree wherever so many groups may be open at once. -/
theorem TextTree.exists_document (h : TextTree named value) {blanks : String}
    (hBlanks : Reader.skipBlanks blanks.toList = []) :
    ∃ d, Document.ofText? (value.prettyText ++ blanks) = some d ∧
      ∀ depth, nesting value ≤ depth → d.valueWithin depth = some value := by
  have hText : (value.prettyText ++ blanks).toList = pretty 0 value ++ blanks.toList := by
    simp [prettyText]
  have hLength : (pretty 0 value).length ≤ (value.prettyText ++ blanks).length + 1 := by
    rw [← String.length_toList, hText, List.length_append]
    omega
  obtain ⟨d, hRead, hValue⟩ := h.readable 0 _ blanks.toList hLength
  refine ⟨d, ?_, hValue⟩
  rw [Document.ofText?, hText, hRead]
  exact if_pos hBlanks

/-- A tree of texts is read back from its text, with blanks behind it or without, when
no more groups are open at once than a value may have. -/
theorem TextTree.ofText?_prettyText (h : TextTree named value)
    (hDepth : nesting value ≤ Document.depthLimit) {blanks : String}
    (hBlanks : Reader.skipBlanks blanks.toList = []) :
    ofText? (value.prettyText ++ blanks) = some value := by
  obtain ⟨d, hDocument, hValue⟩ := h.exists_document hBlanks
  rw [ofText?, hDocument]
  exact hValue _ hDepth

end LocaleKeys.Json
