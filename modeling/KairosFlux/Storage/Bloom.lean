import KairosFlux.Lib.BitSet
import KairosFlux.Lib.Bytes
import KairosFlux.Lib.SortedMap

/-! Bloom filters of the sorted tables (`storage/bloom.go`, `storage/partitioned_bloom.go`).

The number of bits and of hash functions comes out of a floating-point formula, and the partitions
are written in the order in which a Go map is walked. Both are left open here. -/

namespace KairosFlux.Storage

open Lib List SortedMap

structure BloomFilter where
  bits : List UInt64
  m : UInt64
  k : UInt64
  deriving DecidableEq

def fnvOffset64 : UInt64 := 14695981039346656037

def fnvPrime64 : UInt64 := 1099511628211

def bloomSeed2 : UInt64 := 0x9e3779b97f4a7c15

def fnv1a (data : Bytes) (seed : UInt64) : UInt64 :=
  data.foldl (fun h c => (h ^^^ c.toUInt64) * fnvPrime64) (fnvOffset64 ^^^ seed)

def hashPair (key : Bytes) : UInt64 × UInt64 := (fnv1a key 0, fnv1a key bloomSeed2)

namespace BloomFilter

def positions (b : BloomFilter) (key : Bytes) : List UInt64 :=
  (List.range b.k.toNat).map fun i =>
    ((hashPair key).1 + UInt64.ofNat i * (hashPair key).2) % b.m

def add (b : BloomFilter) (key : Bytes) : BloomFilter :=
  { b with bits := setAll b.bits (b.positions key) }

/-- No answer stands for an index out of range. -/
def mayContain (b : BloomFilter) (key : Bytes) : Option Bool := testAll b.bits (b.positions key)

/-- `[m u64][k u64][bits...]`, big-endian. -/
def encode (b : BloomFilter) : Bytes :=
  beBytes 8 b.m.toNat ++ (beBytes 8 b.k.toNat ++ (b.bits.map fun word => beBytes 8 word.toNat).flatten)

structure Sized (b : BloomFilter) : Prop where
  bits : b.m ≠ 0
  hashes : b.k ≠ 0
  words : b.bits.length = ((b.m + 63) / 64).toNat
  bounded : b.m.toNat + 63 < 2 ^ 64

end BloomFilter

/-- What the sizing formula gives for a number of keys. -/
structure BloomSizing where
  m : Nat → UInt64
  k : Nat → UInt64
  m_pos : ∀ n, m n ≠ 0
  k_pos : ∀ n, k n ≠ 0
  m_bounded : ∀ n, (m n).toNat + 63 < 2 ^ 64
  m_le : ∀ n, (m n).toNat ≤ 64 + 10 * n

def newBloomFilter (sizing : BloomSizing) (n : Nat) : BloomFilter :=
  ⟨List.replicate ((sizing.m n + 63) / 64).toNat 0, sizing.m n, sizing.k n⟩

def readWords : Nat → Bytes → List UInt64
  | 0, _ => []
  | n + 1, data => UInt64.ofNat (beValue (data.take 8)) :: readWords n (data.drop 8)

def decodeBloomFilter (data : Bytes) : Option BloomFilter :=
  if data.length < 16 then none
  else
    let m := UInt64.ofNat (beValue (slice data 0 8))
    let k := UInt64.ofNat (beValue (slice data 8 16))
    let words := (m + 63) / 64
    if k = 0 ∨ m = 0 ∨ UInt64.ofNat (data.length - 16) ≠ words * 8 then none
    else some ⟨readWords words.toNat (data.drop 16), m, k⟩

namespace BloomFilter

variable (b : BloomFilter)

theorem positions_inside (sized : b.Sized) (key : Bytes) :
    ∀ pos ∈ b.positions key, (pos / 64).toNat < b.bits.length := by
  intro pos member
  obtain ⟨i, _, rfl⟩ := mem_map.mp member
  have positive : 0 < b.m.toNat := by
    rw [Nat.pos_iff_ne_zero]
    exact fun zero => sized.bits (UInt64.toNat_inj.mp zero)
  rw [sized.words, UInt64.toNat_div, UInt64.toNat_div, UInt64.toNat_add, UInt64.toNat_mod]
  have below := Nat.mod_lt
    ((hashPair key).1 + UInt64.ofNat i * (hashPair key).2).toNat positive
  have bounded := sized.bounded
  change _ / 64 < (b.m.toNat + 63) % 2 ^ 64 / 64
  omega

theorem mayContain_add_self (sized : b.Sized) (key : Bytes) :
    (b.add key).mayContain key = some true :=
  testAll_setAll_self b.bits (b.positions key) (b.positions_inside sized key)

theorem mayContain_add (added key : Bytes)
    (held : b.mayContain key = some true) : (b.add added).mayContain key = some true := by
  rw [mayContain, testAll_eq_true] at held ⊢
  exact fun pos member => testBit_setAll b.bits (b.positions added) pos (held pos member)

theorem Sized.add {b : BloomFilter} (sized : b.Sized) (key : Bytes) : (b.add key).Sized where
  __ := sized
  words := (length_setAll _ _).trans sized.words

theorem Sized.new (sizing : BloomSizing) (n : Nat) : (newBloomFilter sizing n).Sized where
  bits := sizing.m_pos n
  hashes := sizing.k_pos n
  words := length_replicate
  bounded := sizing.m_bounded n

theorem length_words (words : List UInt64) :
    ((words.map fun word => beBytes 8 word.toNat).flatten).length = 8 * words.length := by
  induction words with
  | nil => rfl
  | cons word rest ih =>
    rw [map_cons, flatten_cons, length_append, beBytes_length, ih, length_cons]
    ring

theorem readWords_encoded (words : List UInt64) :
    readWords words.length ((words.map fun word => beBytes 8 word.toNat).flatten) = words := by
  induction words with
  | nil => rfl
  | cons word rest ih =>
    have front : (beBytes 8 word.toNat).length = 8 := beBytes_length 8 _
    rw [map_cons, flatten_cons, length_cons, readWords, take_left' front,
      drop_left' front, ih, beValue_beBytes, Nat.mod_eq_of_lt (by exact word.toNat_lt),
      UInt64.ofNat_toNat]

theorem decode_encode (sized : b.Sized) : decodeBloomFilter b.encode = some b := by
  have total : b.encode.length = 16 + 8 * b.bits.length := by
    rw [encode, length_append, length_append, beBytes_length, beBytes_length, length_words]
    ring
  obtain ⟨atM, left⟩ := slice_drop (show b.encode.drop 0 = _ from rfl) (by simp : _ = 8)
  obtain ⟨atK, atBits⟩ := slice_drop left (by simp : _ = 16)
  have readM : UInt64.ofNat (beValue (slice b.encode 0 8)) = b.m := by
    rw [atM, beValue_beBytes, Nat.mod_eq_of_lt (by exact b.m.toNat_lt), UInt64.ofNat_toNat]
  have readK : UInt64.ofNat (beValue (slice b.encode 8 16)) = b.k := by
    rw [atK, beValue_beBytes, Nat.mod_eq_of_lt (by exact b.k.toNat_lt), UInt64.ofNat_toNat]
  have length : UInt64.ofNat (b.encode.length - 16) = (b.m + 63) / 64 * 8 := by
    apply UInt64.toNat_inj.mp
    rw [total, sized.words, UInt64.toNat_mul, UInt64.toNat_ofNat', UInt64.toNat_div,
      UInt64.toNat_add]
    change (16 + 8 * ((b.m.toNat + 63) % 2 ^ 64 / 64) - 16) % 2 ^ 64 =
      (b.m.toNat + 63) % 2 ^ 64 / 64 * 8 % 2 ^ 64
    omega
  have long : ¬ b.encode.length < 16 := by omega
  have fine : ¬ (b.k = 0 ∨ b.m = 0 ∨
      UInt64.ofNat (b.encode.length - 16) ≠ (b.m + 63) / 64 * 8) := by
    rintro (zero | zero | differs)
    · exact sized.hashes zero
    · exact sized.bits zero
    · exact differs length
  rw [decodeBloomFilter, if_neg long]
  simp only [readM, readK, if_neg fine, atBits, ← sized.words, readWords_encoded]

end BloomFilter

def defaultNamespaceSep : UInt8 := 58

/-- The part before the first separator and the part behind it; without one, no namespace. -/
def splitNamespace (key : Bytes) (sep : UInt8) : Bytes × Bytes :=
  if sep ∈ key then (key.takeWhile (· ≠ sep), (key.dropWhile (· ≠ sep)).tail) else ([], key)

structure PartitionedBloom where
  sep : UInt8
  partitions : SortedMap Bytes BloomFilter

namespace PartitionedBloom

/-- An empty filter for each namespace, sized for its `count` of keys. -/
def newPartitions (sizing : BloomSizing) (sep : UInt8) (count : Bytes → Nat) (keys : List Bytes) :
    SortedMap Bytes BloomFilter :=
  keys.foldl (fun parts key =>
    parts.insert (splitNamespace key sep).1
      (newBloomFilter sizing (count (splitNamespace key sep).1))) SortedMap.empty

def addKey (sep : UInt8) (parts : SortedMap Bytes BloomFilter) (key : Bytes) :
    SortedMap Bytes BloomFilter :=
  match parts.lookup (splitNamespace key sep).1 with
  | none => parts
  | some bf => parts.insert (splitNamespace key sep).1 (bf.add (splitNamespace key sep).2)

/-- `BuildPartitionedBloom`. -/
def build (sizing : BloomSizing) (sep : UInt8) (keys : List Bytes) : PartitionedBloom :=
  let count := fun ns => keys.countP fun key => (splitNamespace key sep).1 = ns
  ⟨sep, keys.foldl (addKey sep) (newPartitions sizing sep count keys)⟩

def mayContain (pb : PartitionedBloom) (key : Bytes) : Option Bool :=
  match pb.partitions.lookup (splitNamespace key pb.sep).1 with
  | none => some false
  | some bf => bf.mayContain (splitNamespace key pb.sep).2

def encodePartition (part : Bytes × BloomFilter) : Bytes :=
  beBytes 4 part.1.length ++ (part.1 ++ (beBytes 4 part.2.encode.length ++ part.2.encode))

/-- `[sep][partCount u32]` and then the partitions, big-endian. -/
def encode (sep : UInt8) (parts : List (Bytes × BloomFilter)) : Bytes :=
  sep :: (beBytes 4 parts.length ++ (parts.map encodePartition).flatten)

def readPartition (data : Bytes) : Option ((Bytes × BloomFilter) × Bytes) :=
  (readUint 4 data).bind fun nsLen =>
    (readExact nsLen.1 nsLen.2).bind fun ns =>
      (readUint 4 ns.2).bind fun bloomLen =>
        (readExact bloomLen.1 bloomLen.2).bind fun blob =>
          (decodeBloomFilter blob.1).map fun bf => ((ns.1, bf), blob.2)

def ofParts (parts : List (Bytes × BloomFilter)) : SortedMap Bytes BloomFilter :=
  parts.foldl (fun done part => done.insert part.1 part.2) SortedMap.empty

/-- `DecodePartitionedBloom`. -/
def decode (data : Bytes) : Option PartitionedBloom :=
  if data.length < 5 then none
  else
    (readUint 4 (data.drop 1)).bind fun partCount =>
      (readMany readPartition partCount.1 partCount.2).map fun parts =>
        ⟨data.headD 0, ofParts parts.1⟩

def Each (P : Bytes → BloomFilter → Prop) (parts : SortedMap Bytes BloomFilter) : Prop :=
  ∀ ns bf, parts.lookup ns = some bf → P ns bf

section Each

variable {P : Bytes → BloomFilter → Prop} {parts : SortedMap Bytes BloomFilter}

theorem Each.insert (each : Each P parts) (ns : Bytes) (bf : BloomFilter) (new : P ns bf) :
    Each P (parts.insert ns bf) := by
  intro other found lookup
  rw [lookup_insert] at lookup
  split_ifs at lookup with same
  · rw [← Option.some.inj lookup, same]
    exact new
  · exact each other found lookup

theorem Each.addKey (each : Each P parts) (added : ∀ ns bf suffix, P ns bf → P ns (bf.add suffix))
    (sep : UInt8) (key : Bytes) : Each P (addKey sep parts key) := by
  rw [PartitionedBloom.addKey]
  cases found : parts.lookup (splitNamespace key sep).1 with
  | none => exact each
  | some bf => exact each.insert _ _ (added _ bf _ (each _ bf found))

end Each

def AllSized : SortedMap Bytes BloomFilter → Prop := Each fun _ bf => bf.Sized

variable (sizing : BloomSizing) (part : Bytes × BloomFilter) (sep : UInt8) (keys : List Bytes)

theorem newPartitions_each {P : Bytes → BloomFilter → Prop}
    (count : Bytes → Nat) (keys : List Bytes)
    (new : ∀ key ∈ keys, P (splitNamespace key sep).1
      (newBloomFilter sizing (count (splitNamespace key sep).1))) :
    Each P (newPartitions sizing sep count keys) := by
  rw [newPartitions]
  induction keys using List.reverseRecOn with
  | nil =>
    intro ns bf found
    cases found
  | append_singleton keys key ih =>
    rw [foldl_append, foldl_cons, foldl_nil]
    exact (ih fun other member => new other (mem_append_left _ member)).insert _ _
      (new key (mem_append_right _ (.head _)))

theorem newPartitions_present (count : Bytes → Nat)
    (keys : List Bytes) (key : Bytes) (member : key ∈ keys) :
    (newPartitions sizing sep count keys).lookup (splitNamespace key sep).1 ≠ none := by
  rw [newPartitions]
  induction keys using List.reverseRecOn with
  | nil => cases member
  | append_singleton keys last ih =>
    rw [foldl_append, foldl_cons, foldl_nil, lookup_insert]
    split_ifs with same
    · nofun
    · rcases mem_append.mp member with earlier | here
      · exact ih earlier
      · exact absurd (by rw [mem_singleton.mp here]) same

/-- The keys added so far pass, and no namespace is lost. -/
structure Passes (sep : UInt8) (added : List Bytes) (parts : SortedMap Bytes BloomFilter) : Prop where
  sized : AllSized parts
  pass : ∀ key ∈ added, mayContain ⟨sep, parts⟩ key = some true

theorem Passes.addKey {sep : UInt8} {added : List Bytes} {parts : SortedMap Bytes BloomFilter}
    (passes : Passes sep added parts) (key : Bytes) (bf : BloomFilter)
    (found : parts.lookup (splitNamespace key sep).1 = some bf) :
    Passes sep (added ++ [key]) (addKey sep parts key) := by
  refine ⟨passes.sized.addKey (fun _ _ suffix sized => sized.add suffix) sep key,
    fun other member => ?_⟩
  simp only [mayContain, PartitionedBloom.addKey, found, lookup_insert]
  split_ifs with same
  · rcases mem_append.mp member with earlier | here
    · have before := passes.pass other earlier
      simp only [mayContain, same, found] at before
      exact bf.mayContain_add _ _ before
    · rw [mem_singleton.mp here]
      exact bf.mayContain_add_self (passes.sized _ bf found) _
  · rcases mem_append.mp member with earlier | here
    · exact passes.pass other earlier
    · exact absurd (by rw [mem_singleton.mp here]) same

theorem addKey_present (parts : SortedMap Bytes BloomFilter) (key ns : Bytes)
    (present : parts.lookup ns ≠ none) : (addKey sep parts key).lookup ns ≠ none := by
  rw [addKey]
  cases parts.lookup (splitNamespace key sep).1 with
  | none => exact present
  | some bf =>
    simp only [lookup_insert]
    split_ifs
    · simp
    · exact present

theorem foldl_addKey (added : List Bytes) (parts : SortedMap Bytes BloomFilter)
    (passes : Passes sep added parts)
    (present : ∀ key ∈ keys, parts.lookup (splitNamespace key sep).1 ≠ none) :
    Passes sep (added ++ keys) (keys.foldl (addKey sep) parts) := by
  induction keys generalizing added parts with
  | nil => simpa using passes
  | cons key keys ih =>
    obtain ⟨bf, found⟩ := Option.ne_none_iff_exists'.mp (present key (.head _))
    have next := ih (added ++ [key]) (addKey sep parts key) (passes.addKey key bf found)
      fun other member =>
        addKey_present sep parts key _ (present other (.tail _ member))
    rw [append_assoc] at next
    exact next

theorem build_passes : Passes sep keys (build sizing sep keys).partitions :=
  foldl_addKey sep keys [] _
    ⟨newPartitions_each sizing sep _ keys fun _ _ => BloomFilter.Sized.new sizing _,
      nofun⟩
    (newPartitions_present sizing sep _ keys)

theorem readPartition_encoded (rest : Bytes)
    (nsFits : part.1.length < 2 ^ 32) (bloomFits : part.2.encode.length < 2 ^ 32)
    (sized : part.2.Sized) : readPartition (encodePartition part ++ rest) = some (part, rest) := by
  rw [encodePartition, readPartition]
  simp only [append_assoc]
  rw [readUint_append 4 _ _ (by omega), Option.bind_some, readExact_append, Option.bind_some,
    readUint_append 4 _ _ (by omega), Option.bind_some, readExact_append, Option.bind_some,
    BloomFilter.decode_encode part.2 sized, Option.map_some]

theorem lookup_ofParts (parts : List (Bytes × BloomFilter))
    (distinct : parts.Pairwise fun left right => left.1 ≠ right.1) (ns : Bytes) (bf : BloomFilter) :
    (ofParts parts).lookup ns = some bf ↔ (ns, bf) ∈ parts := by
  rw [ofParts]
  induction parts using List.reverseRecOn with
  | nil => simp
  | append_singleton parts last ih =>
    obtain ⟨earlier, _, apart⟩ := pairwise_append.mp distinct
    rw [foldl_append, foldl_cons, foldl_nil, lookup_insert, mem_append, mem_singleton]
    split_ifs with same
    · constructor
      · intro found
        exact .inr (Prod.ext same (Option.some.inj found).symm)
      · rintro (member | here)
        · exact absurd same (apart _ member last (.head _))
        · rw [← here]
    · rw [ih earlier]
      exact ⟨.inl, fun either => either.resolve_right fun here => same (by rw [← here])⟩

theorem length_encodePartition_pos :
    part.1.length + part.2.encode.length + 8 = (encodePartition part).length := by
  rw [encodePartition]
  simp only [length_append, beBytes_length]
  omega

theorem decode_encode (parts : List (Bytes × BloomFilter))
    (small : (encode sep parts).length ≤ 2 ^ 30) (sized : ∀ part ∈ parts, part.2.Sized) :
    decode (encode sep parts) = some ⟨sep, ofParts parts⟩ := by
  have total : (encode sep parts).length = 5 + ((parts.map encodePartition).flatten).length := by
    rw [encode, length_cons, length_append, beBytes_length]
    omega
  have reads : ∀ part ∈ parts, ∀ rest,
      readPartition (encodePartition part ++ rest) = some (part, rest) := by
    intro part member rest
    have inside := le_sum_of_mem (mem_map_of_mem (f := List.length) (mem_map_of_mem (f := encodePartition) member))
    rw [← length_flatten] at inside
    have split := length_encodePartition_pos part
    exact readPartition_encoded part rest (by omega) (by omega) (sized part member)
  have count : parts.length ≤ ((parts.map encodePartition).flatten).length := by
    have each : ∀ n ∈ parts.map (List.length ∘ encodePartition), 1 ≤ n := by
      intro n member
      obtain ⟨part, _, rfl⟩ := mem_map.mp member
      have split := length_encodePartition_pos part
      simp only [Function.comp_apply]
      omega
    simpa using card_nsmul_le_sum _ 1 each
  have whole := readMany_encoded readPartition encodePartition id parts [] reads
  rw [append_nil, map_id] at whole
  rw [decode, if_neg (by omega), encode, drop_one, tail_cons,
    readUint_append 4 _ _ (by omega), Option.bind_some, whole]
  rfl

end PartitionedBloom

open PartitionedBloom

/-- The order in which the partitions of the file named `ts` are walked. -/
structure BloomChoice where
  sizing : BloomSizing
  order : Nat → List (Bytes × BloomFilter) → List (Bytes × BloomFilter)
  perm : ∀ ts parts, (order ts parts).Perm parts

namespace BloomChoice

variable (choice : BloomChoice) (ts : Nat) (keys : List Bytes)

def parts : List (Bytes × BloomFilter) :=
  choice.order ts (build choice.sizing defaultNamespaceSep keys).partitions.entries

def blob : Bytes := encode defaultNamespaceSep (choice.parts ts keys)

theorem mem_parts (part : Bytes × BloomFilter) : part ∈ choice.parts ts keys ↔
    (build choice.sizing defaultNamespaceSep keys).partitions.lookup part.1 =
      some part.2 := by
  rw [parts, (choice.perm ts _).mem_iff]
  exact mem_entries_iff _ part.1 part.2

theorem parts_distinct : (choice.parts ts keys).Pairwise fun left right => left.1 ≠ right.1 := by
  apply ((choice.perm ts _).pairwise_iff fun different => different.symm).mpr
  exact (sorted _).imp fun less => less.ne

theorem built_bloom :
    let pb := build choice.sizing defaultNamespaceSep keys
    (∀ key ∈ keys, pb.mayContain key = some true) ∧ ∀ key, pb.mayContain key ≠ none := by
  have built := build_passes choice.sizing defaultNamespaceSep keys
  refine ⟨built.pass, fun key => ?_⟩
  rw [mayContain]
  split
  case h_1 => nofun
  case h_2 bf found => exact testAll_ne_none _ _ (bf.positions_inside (built.sized _ bf found) _)

theorem decode_blob (small : (choice.blob ts keys).length ≤ 2 ^ 30) :
    ∃ pb, decode (choice.blob ts keys) = some pb ∧
      (∀ key ∈ keys, pb.mayContain key = some true) ∧ ∀ key, pb.mayContain key ≠ none := by
  have built := build_passes choice.sizing defaultNamespaceSep keys
  have same : ∀ ns, (ofParts (choice.parts ts keys)).lookup ns =
      (build choice.sizing defaultNamespaceSep keys).partitions.lookup ns := by
    intro ns
    ext bf
    rw [lookup_ofParts _ (choice.parts_distinct ts keys), mem_parts]
  refine ⟨_, decode_encode defaultNamespaceSep _ small fun part member =>
    built.sized _ _ ((choice.mem_parts ts keys part).mp member), ?_⟩
  simp only [mayContain, same]
  exact choice.built_bloom keys

def namespaces : List Bytes := keys.map fun key => (splitNamespace key defaultNamespaceSep).1

/-- What a partition is, as far as its size goes. -/
def Fitted (ns : Bytes) (bf : BloomFilter) : Prop :=
  ns ∈ namespaces keys ∧ bf.Sized ∧ bf.m = choice.sizing.m ((namespaces keys).count ns)

theorem fitted_parts : ∀ part ∈ choice.parts ts keys, choice.Fitted keys part.1 part.2 := by
  have counts : ∀ ns, keys.countP (fun key => (splitNamespace key defaultNamespaceSep).1 = ns) =
      (namespaces keys).count ns := by
    intro ns
    rw [namespaces, List.count, countP_map]
    exact countP_congr fun key _ => by simp
  have start := newPartitions_each (P := choice.Fitted keys) choice.sizing
    defaultNamespaceSep (fun ns => keys.countP fun key =>
      (splitNamespace key defaultNamespaceSep).1 = ns) keys fun key member =>
    ⟨mem_map_of_mem member, BloomFilter.Sized.new choice.sizing _,
      congrArg choice.sizing.m (counts _)⟩
  have kept : ∀ (added : List Bytes) parts, PartitionedBloom.Each (choice.Fitted keys) parts →
      PartitionedBloom.Each (choice.Fitted keys)
        (added.foldl (addKey defaultNamespaceSep) parts) := by
    intro added
    induction added with
    | nil => exact fun parts each => each
    | cons key added ih =>
      intro parts each
      exact ih _ (each.addKey (fun _ _ suffix fitted =>
        ⟨fitted.1, fitted.2.1.add suffix, fitted.2.2⟩) defaultNamespaceSep key)
  intro part member
  exact kept keys _ start part.1 part.2 ((choice.mem_parts ts keys part).mp member)

theorem length_fitted (part : Bytes × BloomFilter) (fitted : choice.Fitted keys part.1 part.2) :
    (encodePartition part).length ≤
      (namespaces keys).count part.1 * (48 + part.1.length) := by
  obtain ⟨inside, sized, m⟩ := fitted
  have positive : 0 < (namespaces keys).count part.1 := List.count_pos_iff.mpr inside
  have bits := choice.sizing.m_le ((namespaces keys).count part.1)
  have encoded : part.2.encode.length = 16 + 8 * part.2.bits.length := by
    rw [BloomFilter.encode, length_append, length_append, beBytes_length, beBytes_length,
      BloomFilter.length_words]
    omega
  have words : part.2.bits.length ≤ 2 + (namespaces keys).count part.1 := by
    have bounded := sized.bounded
    rw [sized.words, UInt64.toNat_div, UInt64.toNat_add]
    change (part.2.m.toNat + 63) % 2 ^ 64 / 64 ≤ _
    rw [m] at bounded ⊢
    omega
  have split := length_encodePartition_pos part
  have grows : part.1.length ≤ (namespaces keys).count part.1 * part.1.length :=
    Nat.le_mul_of_pos_left _ positive
  rw [Nat.mul_add]
  omega

theorem length_namespace_le (key : Bytes) :
    (splitNamespace key defaultNamespaceSep).1.length ≤ key.length := by
  rw [splitNamespace]
  split_ifs
  · exact (takeWhile_sublist _).length_le
  · exact Nat.zero_le _

theorem length_blob_le :
    (choice.blob ts keys).length ≤ 5 + (keys.map fun key => 48 + key.length).sum := by
  have distinct : ((choice.parts ts keys).map Prod.fst).Nodup := by
    rw [List.Nodup, pairwise_map]
    exact choice.parts_distinct ts keys
  have subset : ((choice.parts ts keys).map Prod.fst).toFinset ⊆ (namespaces keys).toFinset := by
    intro ns member
    obtain ⟨part, inside, rfl⟩ := mem_map.mp (mem_toFinset.mp member)
    exact mem_toFinset.mpr (choice.fitted_parts ts keys part inside).1
  have sections : (((choice.parts ts keys).map encodePartition).flatten).length ≤
      (keys.map fun key => 48 + key.length).sum := by
    calc (((choice.parts ts keys).map encodePartition).flatten).length
        = ((choice.parts ts keys).map fun part =>
            (encodePartition part).length).sum := by
          rw [length_flatten, map_map]
          rfl
      _ ≤ ((choice.parts ts keys).map fun part =>
            (namespaces keys).count part.1 * (48 + part.1.length)).sum :=
          sum_le_sum fun part member =>
            choice.length_fitted keys part (choice.fitted_parts ts keys part member)
      _ = ∑ ns ∈ ((choice.parts ts keys).map Prod.fst).toFinset,
            (namespaces keys).count ns * (48 + ns.length) := by
          rw [sum_toFinset _ distinct, map_map]
          rfl
      _ ≤ ∑ ns ∈ (namespaces keys).toFinset, (namespaces keys).count ns * (48 + ns.length) :=
          Finset.sum_le_sum_of_subset subset
      _ = ((namespaces keys).map fun ns => 48 + ns.length).sum := by
          -- The two sides count with different instances of the same decision.
          simp only [Finset.sum_list_map_count, smul_eq_mul]
          congr!
      _ ≤ (keys.map fun key => 48 + key.length).sum := by
          rw [namespaces, map_map]
          exact sum_le_sum fun key _ => Nat.add_le_add_left (length_namespace_le key) 48
  rw [blob, encode, length_cons, length_append, beBytes_length]
  omega

end BloomChoice

end KairosFlux.Storage
