import KairosFlux.Lib.Sha256

/-! Version records, the `:current` pointer and their stored bytes
(`internal/temporal/temporal.go`). -/

namespace KairosFlux.Temporal

open Lib List

structure Version where
  logicalKey : Bytes
  seq : UInt64
  writeNanos : Int64
  payload : Bytes
  source : Bytes
  schemaVer : UInt32
  persistedHash : Bytes
  deriving DecidableEq

structure CurrentValue where
  seq : UInt64
  payloadHash : Bytes
  deriving DecidableEq

def hashPayload (payload : Bytes) : Bytes := hexEncode (sha256 payload)

def Version.payloadHash (v : Version) : Bytes := hashPayload v.payload

def latestFrom (best : Version) : List Version → Version
  | [] => best
  | v :: rest => latestFrom (if best.seq < v.seq then v else best) rest

def latest : List Version → Option Version
  | [] => none
  | v :: rest => some (latestFrom v rest)

def asOfFrom (asOfNanos : Int64) (best : Option Version) : List Version → Option Version
  | [] => best
  | v :: rest =>
    let newer := match best with
      | none => true
      | some b => decide (b.seq < v.seq)
    if v.writeNanos ≤ asOfNanos ∧ newer = true then asOfFrom asOfNanos (some v) rest
    else asOfFrom asOfNanos best rest

def asOf (versions : List Version) (asOfNanos : Int64) : Option Version :=
  asOfFrom asOfNanos none versions

def envelopeMarkerBit : Nat := 2 ^ 63

def envelopeVersion1 : Nat := 1

def encodeVersionValue (writeNanos : Int64) (payload : Bytes) : Bytes :=
  leBytes 8 writeNanos.toUInt64.toNat ++ payload

def decodeVersionValue (raw : Bytes) : Option (Int64 × Bytes) :=
  if raw.length < 8 then none
  else some (Int64.ofUInt64 (UInt64.ofNat (leValue (slice raw 0 8))), raw.drop 8)

/-- `[marker u64][writeNanos i64][sourceLen u32][source][schemaVer u32][hashLen u16][hash][payload]`,
little-endian; a length keeps only the low bits its field has room for. -/
def encodeVersionRecord (v : Version) : Bytes :=
  leBytes 8 (envelopeMarkerBit ||| envelopeVersion1) ++
    (leBytes 8 v.writeNanos.toUInt64.toNat ++
      (leBytes 4 v.source.length ++
        (v.source ++
          (leBytes 4 v.schemaVer.toNat ++
            (leBytes 2 v.persistedHash.length ++ (v.persistedHash ++ v.payload))))))

-- `logicalKey` and `seq` are left zero here: callers fill them in from the storage key.
def decodeVersionRecord (raw : Bytes) : Option Version :=
  if raw.length < 8 then none
  else
    let marker := leValue (slice raw 0 8)
    if marker &&& envelopeMarkerBit = 0 then
      match decodeVersionValue raw with
      | none => none
      | some (writeNanos, payload) => some ⟨[], 0, writeNanos, payload, [], 0, []⟩
    else if raw.length < 16 + 4 then none
    else
      let writeNanos := Int64.ofUInt64 (UInt64.ofNat (leValue (slice raw 8 16)))
      let sourceLen := leValue (slice raw 16 20)
      if 20 + sourceLen + 4 + 2 > raw.length then none
      else
        let source := slice raw 20 (20 + sourceLen)
        let off := 20 + sourceLen
        let schemaVer := UInt32.ofNat (leValue (slice raw off (off + 4)))
        let hashLen := leValue (slice raw (off + 4) (off + 6))
        if off + 6 + hashLen > raw.length then none
        else
          let hash := slice raw (off + 6) (off + 6 + hashLen)
          some ⟨[], 0, writeNanos, raw.drop (off + 6 + hashLen), source, schemaVer, hash⟩

def encodeCurrentValue (cv : CurrentValue) : Bytes :=
  leBytes 8 cv.seq.toNat ++ (leBytes 2 cv.payloadHash.length ++ cv.payloadHash)

def decodeCurrentValue (raw : Bytes) : Option CurrentValue :=
  if raw.length < 10 then none
  else
    let seq := UInt64.ofNat (leValue (slice raw 0 8))
    let n := leValue (slice raw 8 10)
    if raw.length < 10 + n then none else some ⟨seq, slice raw 10 (10 + n)⟩

theorem hashPayload_length (payload : Bytes) : (hashPayload payload).length = 64 := by
  rw [hashPayload, hexEncode_length, sha256_length]

theorem leValue_uint64 (value : UInt64) :
    UInt64.ofNat (leValue (leBytes 8 value.toNat)) = value := by
  rw [leValue_leBytes, Nat.mod_eq_of_lt (show value.toNat < 256 ^ 8 from value.toNat_lt)]
  exact UInt64.ofNat_toNat

theorem leValue_uint32 (value : UInt32) :
    UInt32.ofNat (leValue (leBytes 4 value.toNat)) = value := by
  rw [leValue_leBytes, Nat.mod_eq_of_lt (show value.toNat < 256 ^ 4 from value.toNat_lt)]
  exact UInt32.ofNat_toNat

/-- What a stored record reads back as: its own fields, with the two key fields zero. -/
def Version.stored (v : Version) : Version := { v with logicalKey := [], seq := 0 }

theorem decodeVersionRecord_envelope (marker nanos sourceLen source schema hashLen hash
    payload : Bytes) (markerWidth : marker.length = 8) (nanosWidth : nanos.length = 8)
    (sourceLenWidth : sourceLen.length = 4) (schemaWidth : schema.length = 4)
    (hashLenWidth : hashLen.length = 2) (marked : leValue marker &&& envelopeMarkerBit ≠ 0)
    (sourceFits : leValue sourceLen = source.length) (hashFits : leValue hashLen = hash.length) :
    decodeVersionRecord (marker ++ (nanos ++ (sourceLen ++ (source ++ (schema ++
        (hashLen ++ (hash ++ payload))))))) =
      some ⟨[], 0, Int64.ofUInt64 (UInt64.ofNat (leValue nanos)), payload, source,
        UInt32.ofNat (leValue schema), hash⟩ := by
  generalize shape : marker ++ (nanos ++ (sourceLen ++ (source ++ (schema ++
    (hashLen ++ (hash ++ payload)))))) = raw
  have total : raw.length = 26 + source.length + hash.length + payload.length := by
    rw [← shape]
    simp only [length_append]
    omega
  obtain ⟨at0, left⟩ := slice_drop (show raw.drop 0 = _ from shape.symm) (by omega : _ = 8)
  obtain ⟨at8, left⟩ := slice_drop left (by omega : _ = 16)
  obtain ⟨at16, left⟩ := slice_drop left (by omega : _ = 20)
  obtain ⟨at20, left⟩ := slice_drop left rfl
  obtain ⟨atSchema, left⟩ := slice_drop left (by omega : _ = 20 + source.length + 4)
  obtain ⟨atHashLen, left⟩ := slice_drop left (by omega : _ = 20 + source.length + 6)
  obtain ⟨atHash, atPayload⟩ := slice_drop left rfl
  have long : ¬ raw.length < 8 := by omega
  have longer : ¬ raw.length < 16 + 4 := by omega
  have sourceInside : ¬ 20 + source.length + 4 + 2 > raw.length := by omega
  have hashInside : ¬ 20 + source.length + 6 + hash.length > raw.length := by omega
  simp only [decodeVersionRecord, at0, at8, at16, sourceFits, at20, atSchema, atHashLen, hashFits,
    atHash, atPayload, if_neg long, if_neg marked, if_neg longer, if_neg sourceInside,
    if_neg hashInside]

theorem decodeVersionRecord_encodeVersionRecord (v : Version)
    (sourceFits : v.source.length < 2 ^ 32) (hashFits : v.persistedHash.length < 2 ^ 16) :
    decodeVersionRecord (encodeVersionRecord v) = some v.stored := by
  rw [encodeVersionRecord, decodeVersionRecord_envelope]
  · rw [leValue_uint64, leValue_uint32]
    rfl
  · rfl
  · rfl
  · rfl
  · rfl
  · rfl
  · decide
  · rw [leValue_leBytes, Nat.mod_eq_of_lt (by omega)]
  · rw [leValue_leBytes, Nat.mod_eq_of_lt (by omega)]

theorem decodeCurrentValue_encodeCurrentValue (cv : CurrentValue)
    (hashFits : cv.payloadHash.length < 2 ^ 16) :
    decodeCurrentValue (encodeCurrentValue cv) = some cv := by
  have hashLen : leValue (leBytes 2 cv.payloadHash.length) = cv.payloadHash.length := by
    rw [leValue_leBytes, Nat.mod_eq_of_lt (by omega)]
  have total : (encodeCurrentValue cv).length = 10 + cv.payloadHash.length := by
    simp only [encodeCurrentValue, length_append, leBytes_length]
    omega
  obtain ⟨atSeq, left⟩ := slice_drop (show (encodeCurrentValue cv).drop 0 = _ from rfl)
    (by simp : _ = 8)
  obtain ⟨atLen, left⟩ := slice_drop left (by simp : _ = 10)
  have atHash := slice_drop_last left rfl
  have long : ¬ (encodeCurrentValue cv).length < 10 := by omega
  have inside : ¬ (encodeCurrentValue cv).length < 10 + cv.payloadHash.length := by omega
  simp only [decodeCurrentValue, if_neg long, atSeq, atLen, hashLen, if_neg inside, atHash,
    leValue_uint64]

/-- `best` is visible at `asOfNanos` and no visible version of the list has a larger number. -/
def NewestVisible (asOfNanos : Int64) (versions : List Version) (best : Version) : Prop :=
  best ∈ versions ∧ best.writeNanos ≤ asOfNanos ∧
    ∀ v ∈ versions, v.writeNanos ≤ asOfNanos → v.seq ≤ best.seq

-- The loop's accumulator is the answer for the part of the list already read.
theorem asOfFrom_newest (asOfNanos : Int64) (best : Option Version) (before rest : List Version)
    (absent : best = none → ∀ v ∈ before, ¬ v.writeNanos ≤ asOfNanos)
    (newest : ∀ b, best = some b → NewestVisible asOfNanos before b) :
    (asOfFrom asOfNanos best rest = none → ∀ v ∈ before ++ rest, ¬ v.writeNanos ≤ asOfNanos) ∧
      ∀ b, asOfFrom asOfNanos best rest = some b → NewestVisible asOfNanos (before ++ rest) b := by
  induction rest generalizing best before with
  | nil =>
    rw [append_nil]
    exact ⟨absent, newest⟩
  | cons v rest ih =>
    rw [append_cons, show asOfFrom asOfNanos best (v :: rest) = if v.writeNanos ≤ asOfNanos ∧
        best.all (fun b => b.seq < v.seq) = true then asOfFrom asOfNanos (some v) rest
        else asOfFrom asOfNanos best rest by cases best <;> rfl]
    split_ifs with taken
    · apply ih
      · intro none
        exact absurd none (by simp)
      · intro b same
        rw [Option.some.injEq] at same
        subst same
        refine ⟨by simp, taken.1, ?_⟩
        intro w member visible
        rcases mem_append.mp member with member | member
        · cases best with
          | none => exact absurd visible (absent rfl w member)
          | some b =>
            have below := (newest b rfl).2.2 w member visible
            exact le_of_lt (lt_of_le_of_lt below (by simpa using taken.2))
        · rw [mem_singleton.mp member]
    · apply ih
      · intro none w member
        subst none
        rcases mem_append.mp member with member | member
        · exact absent rfl w member
        · rw [mem_singleton.mp member]
          simpa using taken
      · intro b same
        subst same
        obtain ⟨member, visible, largest⟩ := newest b rfl
        refine ⟨mem_append_left _ member, visible, ?_⟩
        intro w inside seen
        rcases mem_append.mp inside with inside | inside
        · exact largest w inside seen
        · rw [mem_singleton.mp inside] at seen ⊢
          simpa [seen] using taken

theorem asOf_eq_none (versions : List Version) (asOfNanos : Int64)
    (absent : asOf versions asOfNanos = none) : ∀ v ∈ versions, ¬ v.writeNanos ≤ asOfNanos :=
  (asOfFrom_newest asOfNanos none [] versions (by simp) (by simp)).1 absent

theorem asOf_newest (versions : List Version) (asOfNanos : Int64) (v : Version)
    (found : asOf versions asOfNanos = some v) : NewestVisible asOfNanos versions v :=
  (asOfFrom_newest asOfNanos none [] versions (by simp) (by simp)).2 v found

theorem latestFrom_largest (best : Version) (rest : List Version) :
    latestFrom best rest ∈ best :: rest ∧ ∀ v ∈ best :: rest, v.seq ≤ (latestFrom best rest).seq := by
  induction rest generalizing best with
  | nil => simp [latestFrom]
  | cons v rest ih =>
    rw [latestFrom]
    split_ifs with larger
    · obtain ⟨member, largest⟩ := ih v
      refine ⟨.tail _ member, ?_⟩
      intro w inside
      rcases mem_cons.mp inside with rfl | inside
      · exact le_trans (le_of_lt larger) (largest v (.head _))
      · exact largest w inside
    · obtain ⟨member, largest⟩ := ih best
      constructor
      · rcases mem_cons.mp member with same | member
        · rw [same]
          exact .head _
        · exact .tail _ (.tail _ member)
      · intro w inside
        rcases mem_cons.mp inside with rfl | inside
        · exact largest w (.head _)
        · rcases mem_cons.mp inside with rfl | inside
          · exact le_trans (not_lt.mp larger) (largest best (.head _))
          · exact largest w (.tail _ inside)

end KairosFlux.Temporal
