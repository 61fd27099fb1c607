import KairosFlux.Lib.Decimal
import KairosFlux.Lib.Utf8

/-! The import of a registry of experiments, one JSON object a line
(`internal/jobctl/registry_import.go`). -/

namespace KairosFlux.Jobctl

open Lib List

def indexKeyHead : Bytes := ascii "strategy:index:".toList

def registryFingerprintKey (fingerprint : Bytes) : Bytes := indexKeyHead ++ fingerprint

def engineSource : Bytes := ascii "jobctl".toList

/-- What the import asks of a store; a call may fail with a cause. -/
structure ImportStore (σ : Type) where
  getLatest : σ → Bytes → Except Bytes (Option Bytes)
  putVersioned : σ → (key payload source : Bytes) → Except Bytes Unit × σ

structure ImportError where
  line : Nat
  reason : Bytes
  deriving DecidableEq

structure ImportResult where
  totalLines : Nat
  imported : Nat
  unchanged : Nat
  errors : List ImportError
  deriving DecidableEq

/-- The lines of a text, the last one also without its newline. -/
def linesFrom (current : Bytes) : Bytes → List Bytes
  | [] => if current = [] then [] else [current]
  | byte :: rest =>
    if byte = 10 then current :: linesFrom [] rest else linesFrom (current ++ [byte]) rest

def dropCarriageReturn (line : Bytes) : Bytes :=
  if line.getLast? = some 13 then line.dropLast else line

/-- The buffer of the scanner, which a line without its newline must not fill. -/
def maxTokenSize : Nat := 8 * 2 ^ 20

/-- The lines up to the first one that is too long, and whether there is one. -/
def scanLines (data : Bytes) : List Bytes × Bool :=
  let lines := linesFrom [] data
  let fits := lines.takeWhile fun line => line.length < maxTokenSize
  (fits.map dropCarriageReturn, decide (fits.length < lines.length))

/-- How many bytes a white space character at the front takes, zero if there is none. -/
def spaceLength : Bytes → Nat
  | 0xC2 :: second :: _ => if second = 0x85 ∨ second = 0xA0 then 2 else 0
  | 0xE1 :: 0x9A :: 0x80 :: _ => 3
  | 0xE2 :: 0x80 :: third :: _ =>
    if 0x80 ≤ third ∧ third ≤ 0x8A ∨ third = 0xA8 ∨ third = 0xA9 ∨ third = 0xAF then 3 else 0
  | 0xE2 :: 0x81 :: 0x9F :: _ => 3
  | 0xE3 :: 0x80 :: 0x80 :: _ => 3
  | byte :: _ => if 9 ≤ byte ∧ byte ≤ 13 ∨ byte = 32 then 1 else 0
  | [] => 0

def blankWithin : Nat → Bytes → Bool
  | _, [] => true
  | 0, _ => false
  | fuel + 1, line => spaceLength line ≠ 0 && blankWithin fuel (line.drop (spaceLength line))

/-- Nothing is left of the line when its white space is trimmed. -/
def blank (line : Bytes) : Bool := blankWithin line.length line

section Import

variable {σ : Type} (store : ImportStore σ) (parse : Bytes → Except Bytes Bytes)

/-- One line, by its number. The JSON decoder gives the fingerprint of the verdict, empty if the line
has none, or an error text. -/
def importLine (state : σ × ImportResult) (numbered : Nat × Bytes) : σ × ImportResult :=
  let (content, result) := state
  let (lineNo, raw) := numbered
  let failed (counted : ImportResult) (reason : Bytes) : ImportResult :=
    { counted with errors := counted.errors ++ [⟨lineNo, reason⟩] }
  if blank raw then (content, result)
  else
    let counted := { result with totalLines := result.totalLines + 1 }
    match parse raw with
    | .error cause => (content, failed counted (utf8 "JSON 解析失败: " ++ cause))
    | .ok [] => (content, failed counted (utf8 "verdict.fingerprint 为空，无法定位对象索引键"))
    | .ok fingerprint =>
      match store.getLatest content (registryFingerprintKey fingerprint) with
      | .error cause => (content, failed counted (utf8 "读现有索引失败: " ++ cause))
      | .ok existing =>
        if existing = some raw then
          (content, { counted with unchanged := counted.unchanged + 1 })
        else
          match store.putVersioned content (registryFingerprintKey fingerprint) raw engineSource with
          | (.error cause, after) => (after, failed counted (utf8 "写入索引失败: " ++ cause))
          | (.ok (), after) => (after, { counted with imported := counted.imported + 1 })

/-- The content and the result, and the error of the scanner if a line is too long. -/
def importReader (content : σ) (data : Bytes) : (σ × ImportResult) × Option Bytes :=
  let (lines, tooLong) := scanLines data
  (((lines.zipIdx 1).map Prod.swap).foldl (importLine store parse) (content, ⟨0, 0, 0, []⟩),
    if tooLong then some (utf8 "读取 registry 失败: bufio.Scanner: token too long") else none)

end Import

abbrev Versions := Bytes → List Bytes

/-- A store that does not fail: a write adds a version, and the last one is read. -/
def versionStore : ImportStore Versions where
  getLatest content key := .ok (content key).getLast?
  putVersioned content key payload _ := (.ok (), Function.update content key (content key ++ [payload]))

/-- A second import of the same file writes no version and reports none. -/
def ReimportAddsNothing (parse : Bytes → Except Bytes Bytes) (content : Versions) (data : Bytes) : Prop :=
  let first := (importReader versionStore parse content data).1.1
  let second := (importReader versionStore parse first data).1
  second.1 = first ∧ second.2.imported = 0

/-- The lines of a file that can be imported, with their fingerprints. -/
def entryOf (parse : Bytes → Except Bytes Bytes) (line : Bytes) : Option (Bytes × Bytes) :=
  if blank line then none
  else
    match parse line with
    | .error _ | .ok [] => none
    | .ok fingerprint => some (fingerprint, line)

def entries (parse : Bytes → Except Bytes Bytes) (data : Bytes) : List (Bytes × Bytes) :=
  (scanLines data).1.filterMap (entryOf parse)

def Current (content : Versions) (entry : Bytes × Bytes) : Prop :=
  (content (registryFingerprintKey entry.1)).getLast? = some entry.2
deriving Decidable

def writeEntry (content : Versions) (entry : Bytes × Bytes) : Versions :=
  if Current content entry then content
  else Function.update content (registryFingerprintKey entry.1)
    (content (registryFingerprintKey entry.1) ++ [entry.2])

def countWrites : Versions → List (Bytes × Bytes) → Nat
  | _, [] => 0
  | content, entry :: rest =>
    (if Current content entry then 0 else 1) + countWrites (writeEntry content entry) rest

section Entries

variable (parse : Bytes → Except Bytes Bytes)

variable (content : Versions)

theorem importLine_versionStore (result : ImportResult) (lineNo : Nat) (raw : Bytes) :
    (importLine versionStore parse (content, result) (lineNo, raw)).1 =
        (entryOf parse raw).toList.foldl writeEntry content ∧
      (importLine versionStore parse (content, result) (lineNo, raw)).2.imported =
        result.imported + countWrites content (entryOf parse raw).toList := by
  simp only [importLine, entryOf]
  split_ifs with empty
  · exact ⟨rfl, rfl⟩
  cases parse raw with
  | error cause => exact ⟨rfl, rfl⟩
  | ok fingerprint =>
    cases fingerprint with
    | nil => exact ⟨rfl, rfl⟩
    | cons byte rest =>
      by_cases current : Current content (byte :: rest, raw)
      · have latest : (content (registryFingerprintKey (byte :: rest))).getLast? = some raw := current
        simp [versionStore, latest, writeEntry, countWrites, current]
      · have latest : (content (registryFingerprintKey (byte :: rest))).getLast? ≠ some raw := current
        simp [versionStore, latest, writeEntry, countWrites, current]

theorem countWrites_append (first second : List (Bytes × Bytes)) :
    countWrites content (first ++ second) =
      countWrites content first + countWrites (first.foldl writeEntry content) second := by
  induction first generalizing content with
  | nil => simp [countWrites]
  | cons entry rest ih => simp [countWrites, ih, Nat.add_assoc]

theorem importLines_versionStore (lines : List (Nat × Bytes)) (content : Versions) (result : ImportResult) :
    (lines.foldl (importLine versionStore parse) (content, result)).1 =
        (lines.filterMap fun numbered => entryOf parse numbered.2).foldl writeEntry content ∧
      (lines.foldl (importLine versionStore parse) (content, result)).2.imported = result.imported +
        countWrites content (lines.filterMap fun numbered => entryOf parse numbered.2) := by
  induction lines generalizing content result with
  | nil => exact ⟨rfl, rfl⟩
  | cons line rest ih =>
    rcases line with ⟨lineNo, raw⟩
    rcases importLine_versionStore parse content result lineNo raw with ⟨written, counted⟩
    rcases step : importLine versionStore parse (content, result) (lineNo, raw) with ⟨after, more⟩
    rw [step] at written counted
    rcases ih after more with ⟨writtenRest, countedRest⟩
    have split : ((lineNo, raw) :: rest).filterMap (fun numbered => entryOf parse numbered.2) =
        (entryOf parse raw).toList ++ rest.filterMap fun numbered => entryOf parse numbered.2 := by
      cases is : entryOf parse raw <;> simp [is]
    rw [foldl_cons, step, split, foldl_append, countWrites_append, ← written]
    exact ⟨writtenRest, by rw [countedRest, counted, Nat.add_assoc]⟩

theorem importReader_versionStore (data : Bytes) :
    (importReader versionStore parse content data).1.1 = (entries parse data).foldl writeEntry content ∧
      (importReader versionStore parse content data).1.2.imported =
        countWrites content (entries parse data) := by
  have same : (((scanLines data).1.zipIdx 1).map Prod.swap).filterMap
      (fun numbered => entryOf parse numbered.2) = entries parse data := by
    rw [filterMap_map, entries]
    conv_rhs => rw [← List.zipIdx_map_fst 1 (scanLines data).1, filterMap_map]
    rfl
  have both := importLines_versionStore parse (((scanLines data).1.zipIdx 1).map Prod.swap) content
    ⟨0, 0, 0, []⟩
  rw [same] at both
  exact ⟨both.1, both.2.trans (Nat.zero_add _)⟩

end Entries

variable (content : Versions)

theorem writeEntry_current (entry : Bytes × Bytes) : Current (writeEntry content entry) entry := by
  rw [writeEntry]
  split_ifs with current
  · exact current
  · simp [Current]

theorem writeEntry_other {content : Versions} {entry other : Bytes × Bytes} (differ : other.1 ≠ entry.1) :
    Current (writeEntry content entry) other ↔ Current content other := by
  rw [writeEntry]
  split_ifs
  · exact Iff.rfl
  · simp [Current, Function.update_of_ne, registryFingerprintKey, differ]

theorem countWrites_eq_zero_iff (written : List (Bytes × Bytes)) :
    written.foldl writeEntry content = content ∧ countWrites content written = 0 ↔
      ∀ entry ∈ written, Current content entry := by
  induction written with
  | nil => simp [countWrites]
  | cons entry rest ih =>
    rw [forall_mem_cons, ← ih, foldl_cons, countWrites]
    by_cases current : Current content entry
    · simp [writeEntry, current]
    · simp [current]

theorem exists_current (written : List (Bytes × Bytes)) :
    ∀ entry ∈ written, ∃ last ∈ written, last.1 = entry.1 ∧
      Current (written.foldl writeEntry content) last := by
  induction written using List.reverseRecOn with
  | nil => simp
  | append_singleton earlier newest ih =>
    intro entry member
    rw [foldl_append, foldl_cons, foldl_nil]
    by_cases same : entry.1 = newest.1
    · exact ⟨newest, by simp, same.symm, writeEntry_current _ _⟩
    · have old : entry ∈ earlier := by
        rcases mem_append.mp member with old | new
        · exact old
        · exact absurd (congrArg Prod.fst (mem_singleton.mp new)) same
      rcases ih entry old with ⟨last, is, key, current⟩
      exact ⟨last, mem_append_left _ is, key, (writeEntry_other (key ▸ same)).mpr current⟩

/-- Two lines with one fingerprint and a different note. -/
def twoNotes : Bytes :=
  ascii "\x7b\"verdict\":\x7b\"fingerprint\":\"f\"\x7d,\"note\":1\x7d\n\x7b\"verdict\":\x7b\"fingerprint\":\"f\"\x7d,\"note\":2\x7d\n".toList

/-- The decoder on these lines. -/
def fingerprintF (line : Bytes) : Except Bytes Bytes :=
  if (ascii "\x7b\"verdict\":\x7b\"fingerprint\":\"f\"\x7d".toList).isPrefixOf line then .ok [102]
  else .error []

end KairosFlux.Jobctl
