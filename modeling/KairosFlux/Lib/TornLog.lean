import KairosFlux.Lib.Bytes

/-! Logs of self-delimiting records that may end in the middle of one.

Reading goes record by record from the front and stops at the first place where no whole record can
be read. -/

namespace KairosFlux.Lib

open List

/-- A record format. A record that fits is read back, as `readBack` of it, from any bytes that start
with its encoding, and nothing can be read from a part of its encoding. -/
structure Framing (Rec : Type) where
  encode : Rec → Bytes
  read : Bytes → Option (Rec × Bytes)
  fits : Rec → Prop
  readBack : Rec → Rec
  encode_pos : ∀ r, 0 < (encode r).length
  read_nil : read [] = none
  read_encode : ∀ r rest, fits r → read (encode r ++ rest) = some (readBack r, rest)
  read_cut : ∀ r n, fits r → n < (encode r).length → read ((encode r).take n) = none

namespace Framing

variable {Rec : Type} (format : Framing Rec)

def scan : Nat → Bytes → List Rec × Bytes
  | 0, bytes => ([], bytes)
  | fuel + 1, bytes =>
    match format.read bytes with
    | none => ([], bytes)
    | some (r, rest) => (r :: (scan fuel rest).1, (scan fuel rest).2)

-- A record takes at least one byte, so as many rounds as there are bytes are enough.
def records (log : Bytes) : List Rec := (format.scan log.length log).1

def tornTail (log : Bytes) : Bytes := (format.scan log.length log).2

theorem records_cons (log : Bytes) (r : Rec) (rest : Bytes)
    (read : format.read log = some (r, rest)) : ∃ more, format.records log = r :: more := by
  cases log with
  | nil =>
    rw [format.read_nil] at read
    cases read
  | cons byte bytes =>
    refine ⟨(format.scan bytes.length rest).1, ?_⟩
    rw [records, length_cons, scan, read]

theorem records_all (P : Rec → Prop)
    (holds : ∀ bytes r rest, format.read bytes = some (r, rest) → P r) (log : Bytes) :
    ∀ r ∈ format.records log, P r := by
  rw [records]
  generalize log.length = fuel
  induction fuel generalizing log with
  | zero => simp [scan]
  | succ fuel ih =>
    rw [scan]
    cases read : format.read log with
    | none => simp
    | some found =>
      obtain ⟨r, rest⟩ := found
      exact forall_mem_cons.mpr ⟨holds log r rest read, ih rest⟩

def encodeAll (rs : List Rec) : Bytes := (rs.map format.encode).flatten

theorem encodeAll_cons (r : Rec) (rs : List Rec) :
    format.encodeAll (r :: rs) = format.encode r ++ format.encodeAll rs :=
  rfl

theorem encodeAll_append (first second : List Rec) :
    format.encodeAll (first ++ second) = format.encodeAll first ++ format.encodeAll second := by
  rw [encodeAll, map_append, flatten_append]
  rfl

variable (rs : List Rec)

theorem length_le_encodeAll : rs.length ≤ (format.encodeAll rs).length := by
  induction rs with
  | nil => simp
  | cons r rs ih =>
    have positive := format.encode_pos r
    rw [encodeAll_cons, length_append, length_cons]
    omega

theorem length_encodeAll :
    (format.encodeAll rs).length = (rs.map fun r => (format.encode r).length).sum := by
  rw [encodeAll, length_flatten, map_map]
  rfl

/-- Distinct records of a log take no more room than the log. -/
theorem length_encodeAll_le_of_subset (whole : List Rec) (distinct : rs.Nodup)
    (subset : ∀ r ∈ rs, r ∈ whole) :
    (format.encodeAll rs).length ≤ (format.encodeAll whole).length := by
  obtain ⟨chosen, same, inside⟩ := subperm_of_subset distinct subset
  rw [length_encodeAll, length_encodeAll, ← (same.map fun r => (format.encode r).length).sum_eq]
  exact (inside.map _).sum_le_sum fun _ _ => Nat.zero_le _

theorem scan_encodeAll (tail : Bytes) (fuel : Nat) (fit : ∀ r ∈ rs, format.fits r)
    (stops : format.read tail = none) (enough : rs.length ≤ fuel) :
    format.scan fuel (format.encodeAll rs ++ tail) = (rs.map format.readBack, tail) := by
  induction rs generalizing fuel with
  | nil =>
    cases fuel with
    | zero => rfl
    | succ fuel =>
      rw [scan, show format.encodeAll [] ++ tail = tail from rfl, stops]
      rfl
  | cons r rs ih =>
    obtain ⟨less, rfl⟩ : ∃ less, fuel = less + 1 := ⟨fuel - 1, by simp at enough; omega⟩
    have rest := ih less (fun other member => fit other (.tail _ member))
      (by simpa using enough)
    rw [scan, encodeAll_cons, append_assoc, format.read_encode r _ (fit r (.head _))]
    simp only [rest, map_cons]

theorem records_append (bytes rest : Bytes) (r : Rec)
    (fit : ∀ r ∈ rs, format.fits r) (read : format.read bytes = some (r, rest)) :
    ∃ more, format.records (format.encodeAll rs ++ bytes) = rs.map format.readBack ++ r :: more := by
  have scanned : ∀ fuel, rs.length < fuel →
      ∃ more, (format.scan fuel (format.encodeAll rs ++ bytes)).1 = rs.map format.readBack ++ r :: more := by
    induction rs with
    | nil =>
      intro fuel enough
      cases fuel with
      | zero => simp at enough
      | succ fuel =>
        refine ⟨(format.scan fuel rest).1, ?_⟩
        rw [scan, show format.encodeAll [] ++ bytes = bytes from rfl, read]
        rfl
    | cons first others ih =>
      intro fuel enough
      cases fuel with
      | zero => simp at enough
      | succ fuel =>
        rcases ih (fun other member => fit other (.tail _ member)) fuel
          (by simpa using enough) with ⟨more, shape⟩
        refine ⟨more, ?_⟩
        rw [scan, encodeAll_cons, append_assoc, format.read_encode first _ (fit first (.head _))]
        simp [shape]
  apply scanned
  have whole := format.length_le_encodeAll rs
  have some : 0 < bytes.length := by
    apply length_pos_of_ne_nil
    rintro rfl
    rw [format.read_nil] at read
    cases read
  rw [length_append]
  omega

theorem records_encodeAll (tail : Bytes) (fit : ∀ r ∈ rs, format.fits r)
    (stops : format.read tail = none) :
    format.records (format.encodeAll rs ++ tail) = rs.map format.readBack ∧
      format.tornTail (format.encodeAll rs ++ tail) = tail := by
  have enough : rs.length ≤ (format.encodeAll rs ++ tail).length := by
    have whole := format.length_le_encodeAll rs
    rw [length_append]
    omega
  have scanned := format.scan_encodeAll rs tail _ fit stops enough
  rw [records, tornTail, scanned]
  exact ⟨rfl, rfl⟩

theorem take_encodeAll_cut (n : Nat) :
    ∃ whole torn, whole <+: rs ∧ (format.encodeAll rs).take n = format.encodeAll whole ++ torn ∧
      (torn = [] ∨ ∃ r ∈ rs, ∃ m < (format.encode r).length, torn = (format.encode r).take m) := by
  induction rs generalizing n with
  | nil => exact ⟨[], [], prefix_rfl, by simp [encodeAll], .inl rfl⟩
  | cons r rs ih =>
    by_cases inside : n < (format.encode r).length
    · refine ⟨[], (format.encode r).take n, nil_prefix, ?_,
        .inr ⟨r, .head _, n, inside, rfl⟩⟩
      rw [encodeAll_cons, take_append_of_le_length (le_of_lt inside)]
      rfl
    · obtain ⟨whole, torn, front, cut, part⟩ := ih (n - (format.encode r).length)
      refine ⟨r :: whole, torn, cons_prefix_cons.mpr ⟨rfl, front⟩, ?_, part.imp_right ?_⟩
      · rw [encodeAll_cons, take_append, take_of_length_le (by omega), cut,
          encodeAll_cons, append_assoc]
      · rintro ⟨other, member, cutAt⟩
        exact ⟨other, .tail _ member, cutAt⟩

theorem take_encodeAll (n : Nat) (fit : ∀ r ∈ rs, format.fits r) :
    ∃ whole torn, whole <+: rs ∧ (format.encodeAll rs).take n = format.encodeAll whole ++ torn ∧
      format.read torn = none := by
  obtain ⟨whole, torn, front, cut, part⟩ := format.take_encodeAll_cut rs n
  refine ⟨whole, torn, front, cut, ?_⟩
  rcases part with rfl | ⟨r, member, m, less, rfl⟩
  · exact format.read_nil
  · exact format.read_cut r m (fit r member) less

end Framing

def newline : UInt8 := 10

def readLine : Bytes → Option (Bytes × Bytes)
  | [] => none
  | byte :: rest =>
    if byte = newline then some ([], rest)
    else (readLine rest).map fun found => (byte :: found.1, found.2)

theorem readLine_append (text rest : Bytes) (plain : newline ∉ text) :
    readLine (text ++ newline :: rest) = some (text, rest) := by
  induction text with
  | nil => simp [readLine]
  | cons byte text ih =>
    rcases not_or.mp (mt mem_cons.mpr plain) with ⟨other, later⟩
    rw [cons_append, readLine, if_neg (Ne.symm other), ih later]
    rfl

theorem readLine_eq_none (text : Bytes) (plain : newline ∉ text) : readLine text = none := by
  induction text with
  | nil => rfl
  | cons byte text ih =>
    rcases not_or.mp (mt mem_cons.mpr plain) with ⟨other, later⟩
    rw [readLine, if_neg (Ne.symm other), ih later]
    rfl

def lineFraming : Framing Bytes where
  encode text := text ++ [newline]
  read := readLine
  fits text := newline ∉ text
  readBack := id
  encode_pos text := by simp
  read_nil := rfl
  read_encode text rest plain := by
    rw [append_assoc]
    exact readLine_append text rest plain
  read_cut text n plain cut := by
    apply readLine_eq_none
    rw [length_append, length_singleton] at cut
    rw [take_append_of_le_length (by omega)]
    exact fun member => plain (mem_of_mem_take member)

end KairosFlux.Lib
