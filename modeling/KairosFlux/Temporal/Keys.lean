import KairosFlux.Lib.Decimal

/-! Storage keys of versioned records (`internal/temporal/temporal.go`).

A logical key is stored under one version key per sequence number and one `:current` pointer key.
All three kinds of key live in one key space and logical keys are arbitrary byte strings. -/

namespace KairosFlux.Temporal

open Lib List Option

def versionSep : Bytes := ascii [':', 'v']

def versionSeqWidth : Nat := 20

def currentSuffix : Bytes := ascii [':', 'c', 'u', 'r', 'r', 'e', 'n', 't']

/-- `strings.LastIndex`. -/
def lastIndex (sep : Bytes) : Bytes → Option Nat
  | [] => if sep = [] then some 0 else none
  | byte :: rest =>
    match lastIndex sep rest with
    | some i => some (i + 1)
    | none => if sep <+: byte :: rest then some 0 else none

/-- `strconv.ParseUint(s, 10, 64)`: digits only, and a value past 64 bits is an error. -/
def parseUint (text : Bytes) : Option UInt64 :=
  if text = [] then none
  else
    match decimalValue 0 text with
    | some value => if value < 2 ^ 64 then some (UInt64.ofNat value) else none
    | none => none

-- A 64-bit number has at most twenty digits, so the padding of %020d never overflows its width.
def versionStorageKey (logical : Bytes) (seq : UInt64) : Bytes :=
  logical ++ versionSep ++ decimalFixed versionSeqWidth seq.toNat

def parseVersionStorageKey (storageKey : Bytes) : Option (Bytes × UInt64) :=
  match lastIndex versionSep storageKey with
  | none => none
  | some i =>
    let seqStr := storageKey.drop (i + versionSep.length)
    if seqStr.length ≠ versionSeqWidth then none
    else
      match parseUint seqStr with
      | none => none
      | some seq => some (storageKey.take i, seq)

def currentStorageKey (logical : Bytes) : Bytes := logical ++ currentSuffix

def isCurrentStorageKey (storageKey : Bytes) : Bool :=
  currentSuffix <:+ storageKey ∧ currentSuffix.length < storageKey.length

def versionStorageKeyLowerBound (logical : Bytes) : Bytes := versionStorageKey logical 0

def versionStorageKeyUpperBound (logical : Bytes) : Bytes :=
  versionStorageKey logical (UInt64.ofNat (2 ^ 64 - 1))

theorem lastIndex_absent (first : UInt8) (rest text : Bytes) (absent : first ∉ text) :
    lastIndex (first :: rest) text = none := by
  induction text with
  | nil => simp [lastIndex]
  | cons byte tail ih =>
    have tailAbsent : first ∉ tail := fun member => absent (.tail _ member)
    have headDifferent : ¬ first :: rest <+: byte :: tail := by
      intro isPrefix
      have same := (cons_prefix_cons.mp isPrefix).1
      exact absent (same ▸ (.head _))
    simp [lastIndex, ih tailAbsent, headDifferent]

variable (first logical : Bytes) (seq : UInt64) (second : Bytes)

theorem lastIndex_append (first : UInt8) (rest tail : Bytes) (absent : first ∉ rest ++ tail) :
    lastIndex (first :: rest) (logical ++ (first :: rest) ++ tail) = some logical.length := by
  induction logical with
  | nil =>
    have inner := lastIndex_absent first rest (rest ++ tail) absent
    simp [lastIndex, inner]
  | cons byte logical ih =>
    simp only [cons_append, lastIndex] at ih ⊢
    rw [ih, length_cons]

theorem prefix_drop_of_lastIndex (sep text : Bytes) (i : Nat)
    (found : lastIndex sep text = some i) : sep <+: text.drop i := by
  induction text generalizing i with
  | nil =>
    rw [lastIndex] at found
    split at found
    · next empty => exact empty ▸ nil_prefix
    · exact absurd found (by simp)
  | cons byte rest ih =>
    rw [lastIndex] at found
    split at found
    · next j inner =>
        rw [some.injEq] at found
        subst found
        exact ih j inner
    · split at found
      · next starts =>
          rw [some.injEq] at found
          subst found
          exact starts
      · exact absurd found (by simp)

theorem seq_lt_pow : seq.toNat < 10 ^ versionSeqWidth := by
  have bound := seq.toNat_lt
  have wide : 2 ^ 64 < 10 ^ versionSeqWidth := by decide
  omega

theorem seqDigits : ∀ byte ∈ decimalFixed versionSeqWidth seq.toNat, IsDigit byte :=
  decimalFixed_digits _ _ (seq_lt_pow seq)

theorem parseUint_seqDigits : parseUint (decimalFixed versionSeqWidth seq.toNat) = some seq := by
  have nonempty : decimalFixed versionSeqWidth seq.toNat ≠ [] := by
    intro empty
    have length := decimalFixed_length versionSeqWidth seq.toNat
    rw [empty] at length
    exact absurd length (by decide)
  rw [parseUint, if_neg nonempty, decimalValue_decimalFixed _ _ _ (seq_lt_pow seq)]
  simp [seq.toNat_lt]

theorem eq_seqDigits_of_parseUint (text : Bytes) (seq : UInt64)
    (width : text.length = versionSeqWidth) (parsed : parseUint text = some seq) :
    text = decimalFixed versionSeqWidth seq.toNat := by
  rw [parseUint] at parsed
  split at parsed
  · exact absurd parsed (by simp)
  · split at parsed
    · next value accepted =>
        split at parsed
        · next bound =>
            obtain ⟨digits, _, total, shape⟩ := eq_decimalFixed_of_decimalValue 0 value text accepted
            rw [Nat.zero_mul, Nat.zero_add] at total
            rw [some.injEq] at parsed
            have toNat : seq.toNat = digits := by
              rw [← parsed, total, UInt64.toNat_ofNat', Nat.mod_eq_of_lt (total ▸ bound)]
            rw [toNat, ← width]
            exact shape
        · exact absurd parsed (by simp)
    · exact absurd parsed (by simp)

theorem parseVersionStorageKey_versionStorageKey :
    parseVersionStorageKey (versionStorageKey logical seq) = some (logical, seq) := by
  have noColon : (58 : UInt8) ∉ [118] ++ decimalFixed versionSeqWidth seq.toNat := by
    intro member
    rcases mem_append.mp member with member | member
    · exact absurd member (by decide)
    · exact absurd (seqDigits seq 58 member) (by decide)
  have index : lastIndex versionSep (versionStorageKey logical seq) = some logical.length :=
    lastIndex_append logical 58 [118] _ noColon
  have seqStr : (versionStorageKey logical seq).drop (logical.length + versionSep.length) =
      decimalFixed versionSeqWidth seq.toNat := by
    rw [versionStorageKey, ← length_append, drop_left]
  have front : (versionStorageKey logical seq).take logical.length = logical := by
    rw [versionStorageKey, append_assoc, take_left]
  rw [parseVersionStorageKey, index]
  simp only [seqStr, decimalFixed_length, ne_eq, not_true_eq_false, if_false,
    parseUint_seqDigits, front]

theorem eq_versionStorageKey_of_parse (storageKey logical : Bytes) (seq : UInt64)
    (parsed : parseVersionStorageKey storageKey = some (logical, seq)) :
    storageKey = versionStorageKey logical seq := by
  rw [parseVersionStorageKey] at parsed
  split at parsed
  · exact absurd parsed (by simp)
  · next i index =>
      simp only at parsed
      split at parsed
      · exact absurd parsed (by simp)
      · next width =>
          split at parsed
          · exact absurd parsed (by simp)
          · next found accepted =>
              rw [some.injEq, Prod.mk.injEq] at parsed
              obtain ⟨rfl, rfl⟩ := parsed
              obtain ⟨rest, split⟩ := prefix_drop_of_lastIndex versionSep storageKey i index
              have digits := eq_seqDigits_of_parseUint _ _ (not_not.mp width) accepted
              have restIs : rest = storageKey.drop (i + versionSep.length) := by
                rw [← drop_drop, ← split, drop_left]
              calc
                storageKey = storageKey.take i ++ storageKey.drop i :=
                  (take_append_drop i storageKey).symm
                _ = storageKey.take i ++ (versionSep ++ rest) := by rw [split]
                _ = versionStorageKey (storageKey.take i) found := by
                  rw [restIs, digits, versionStorageKey, append_assoc]

theorem versionStorageKey_inj (seq other : UInt64) :
    versionStorageKey first seq = versionStorageKey second other ↔
      first = second ∧ seq = other := by
  constructor
  · intro same
    have parsed := parseVersionStorageKey_versionStorageKey first seq
    rw [same, parseVersionStorageKey_versionStorageKey] at parsed
    simpa [eq_comm] using parsed
  · intro same
    rw [same.1, same.2]

theorem currentStorageKey_inj :
    currentStorageKey first = currentStorageKey second ↔ first = second :=
  append_left_inj currentSuffix

theorem getLast?_versionStorageKey :
    ∃ byte, (versionStorageKey logical seq).getLast? = some byte ∧ IsDigit byte := by
  have length := decimalFixed_length versionSeqWidth seq.toNat
  cases shape : (decimalFixed versionSeqWidth seq.toNat).getLast? with
  | none =>
    rw [List.getLast?_eq_none_iff.mp shape] at length
    exact absurd length (by decide)
  | some byte =>
    refine ⟨byte, ?_, seqDigits seq byte (mem_of_getLast? shape)⟩
    rw [versionStorageKey, List.getLast?_append, shape, some_or]

/-- A version key ends in a digit and a pointer key in a letter. -/
theorem versionStorageKey_ne_currentStorageKey (seq : UInt64) :
    versionStorageKey first seq ≠ currentStorageKey second := by
  intro same
  obtain ⟨byte, last, isDigit⟩ := getLast?_versionStorageKey first seq
  rw [same, currentStorageKey, List.getLast?_append] at last
  have letter : byte = 116 := by simpa [currentSuffix, ascii] using last.symm
  subst letter
  exact absurd isDigit (by decide)

theorem isCurrentStorageKey_iff (storageKey : Bytes) : isCurrentStorageKey storageKey = true ↔
      ∃ logical, logical ≠ [] ∧ storageKey = currentStorageKey logical := by
  rw [isCurrentStorageKey, decide_eq_true_eq]
  constructor
  · intro recognised
    obtain ⟨⟨logical, rfl⟩, longer⟩ := recognised
    refine ⟨logical, ?_, rfl⟩
    intro empty
    rw [empty, nil_append] at longer
    exact lt_irrefl _ longer
  · intro shape
    obtain ⟨logical, nonempty, rfl⟩ := shape
    refine ⟨suffix_append logical currentSuffix, ?_⟩
    have positive := length_pos_iff.mpr nonempty
    rw [currentStorageKey, length_append]
    omega

theorem versionStorageKey_lt_iff (other : UInt64) :
    versionStorageKey logical seq < versionStorageKey logical other ↔ seq < other := by
  rw [versionStorageKey, versionStorageKey, append_lt_append,
    decimalFixed_lt_iff _ _ _ (seq_lt_pow seq) (seq_lt_pow other), UInt64.lt_iff_toNat_lt]

theorem versionStorageKey_between :
    versionStorageKeyLowerBound logical ≤ versionStorageKey logical seq ∧
      versionStorageKey logical seq ≤ versionStorageKeyUpperBound logical := by
  have bound := seq.toNat_lt
  constructor
  · rw [← not_lt, versionStorageKeyLowerBound, versionStorageKey_lt_iff, UInt64.lt_iff_toNat_lt]
    simp
  · rw [← not_lt, versionStorageKeyUpperBound, versionStorageKey_lt_iff, UInt64.lt_iff_toNat_lt,
      UInt64.toNat_ofNat']
    omega

/-- The version keys are the keys that parse, in the order of their numbers within a logical key, and no
pointer key is among them. -/
theorem versionStorageKey_layout (other : Bytes) (seq otherSeq : UInt64) :
    parseVersionStorageKey (versionStorageKey logical seq) = some (logical, seq) ∧
      (∀ storageKey parsed number, parseVersionStorageKey storageKey = some (parsed, number) →
        versionStorageKey parsed number = storageKey) ∧
      (versionStorageKey logical seq < versionStorageKey logical otherSeq ↔ seq < otherSeq) ∧
      (versionStorageKey logical seq = versionStorageKey other otherSeq →
        logical = other ∧ seq = otherSeq) ∧
      versionStorageKey logical seq ≠ currentStorageKey other ∧
      ∀ physical number, versionStorageKeyLowerBound logical ≤ physical →
        physical ≤ versionStorageKeyUpperBound logical →
        parseVersionStorageKey physical = some (logical, number) →
        physical = versionStorageKey logical number := by
  refine ⟨parseVersionStorageKey_versionStorageKey logical seq, ?_,
    versionStorageKey_lt_iff logical seq otherSeq,
    (versionStorageKey_inj logical other seq otherSeq).mp,
    versionStorageKey_ne_currentStorageKey logical other seq, ?_⟩
  · intro storageKey parsed number accepted
    exact (eq_versionStorageKey_of_parse storageKey parsed number accepted).symm
  · intro physical number _ _ accepted
    exact eq_versionStorageKey_of_parse physical logical number accepted

end KairosFlux.Temporal
