import Mathlib.Data.List.Sort
import Mathlib.Data.List.Lex
import Mathlib.Tactic

/-! Byte strings, their lexicographic order, and fixed-width integers in both byte orders. -/

namespace KairosFlux.Lib

open List

abbrev Bytes := List UInt8

instance instLawfulBEqUInt8 : LawfulBEq UInt8 := inferInstance

instance instLawfulBEqBytes : LawfulBEq Bytes := inferInstance

instance instLinearOrderUInt8 : LinearOrder UInt8 where
  le_refl := UInt8.le_refl
  le_trans _ _ _ := UInt8.le_trans
  le_antisymm _ _ := UInt8.le_antisymm
  le_total := UInt8.le_total
  lt_iff_le_not_ge left right := by
    rw [UInt8.le_iff_toNat_le, UInt8.le_iff_toNat_le, UInt8.lt_iff_toNat_lt]
    omega
  toDecidableLE := inferInstance
  toDecidableEq := inferInstance
  toDecidableLT := inferInstance

instance instLinearOrderUInt64 : LinearOrder UInt64 where
  le_refl := UInt64.le_refl
  le_trans _ _ _ := UInt64.le_trans
  le_antisymm _ _ := UInt64.le_antisymm
  le_total := UInt64.le_total
  lt_iff_le_not_ge left right := by
    rw [UInt64.le_iff_toNat_le, UInt64.le_iff_toNat_le, UInt64.lt_iff_toNat_lt]
    omega
  toDecidableLE := inferInstance
  toDecidableEq := inferInstance
  toDecidableLT := inferInstance

/-- The bytes of an ASCII literal. -/
def ascii (text : List Char) : Bytes := text.map (fun c => UInt8.ofNat c.toNat)

theorem append_lt_append (common left right : Bytes) :
    common ++ left < common ++ right ↔ left < right := by
  induction common with
  | nil => simp
  | cons byte tail ih => simp [ih]

theorem append_le_append (common left right : Bytes) :
    common ++ left ≤ common ++ right ↔ left ≤ right := by
  rw [← not_lt, ← not_lt, append_lt_append]

theorem cons_le_cons (first second : UInt8) (left right : Bytes) :
    first :: left ≤ second :: right ↔ first < second ∨ first = second ∧ left ≤ right := by
  rw [← not_lt, cons_lt_cons_iff, not_or, not_lt, not_and, not_lt, le_iff_lt_or_eq]
  constructor
  · rintro ⟨less | same, tails⟩
    · exact .inl less
    · exact .inr ⟨same, tails same.symm⟩
  · rintro (less | ⟨same, tails⟩)
    · exact ⟨.inl less, fun same => absurd same less.ne'⟩
    · exact ⟨.inr same, fun _ => tails⟩

theorem lt_append_zero_iff (key text : Bytes) : text < key ++ [0] ↔ text ≤ key := by
  induction key generalizing text with
  | nil =>
    cases text with
    | nil => simp
    | cons byte rest =>
      have least : ¬ byte < 0 := not_lt.mpr (UInt8.le_iff_toNat_le.mpr (Nat.zero_le _))
      rw [nil_append, cons_lt_cons_iff, ← not_lt]
      simp [least]
  | cons first key ih =>
    cases text with
    | nil =>
      rw [← not_lt]
      simp
    | cons byte rest => rw [cons_append, cons_lt_cons_iff, ih rest, cons_le_cons]

variable (width : Nat) (lower : Bytes) (value : Nat) (text rest : Bytes)

/-- Between a string and the same string closed by the byte `0xFF` lie only extensions of it. -/
theorem prefix_of_between (above : lower ≤ text)
    (below : text ≤ lower ++ [255]) : lower <+: text := by
  induction lower generalizing text with
  | nil => exact nil_prefix
  | cons byte tail ih =>
    cases text with
    | nil => exact absurd (nil_lt_cons byte tail) above.not_gt
    | cons first rest =>
      rw [cons_le_cons] at above
      rw [cons_append, cons_le_cons] at below
      rcases above with less | ⟨rfl, above⟩
      · rcases below with more | ⟨same, _⟩
        · exact absurd (less.trans more) (lt_irrefl _)
        · exact absurd same less.ne'
      · rcases below with more | ⟨_, below⟩
        · exact absurd more (lt_irrefl _)
        · exact (prefix_cons_inj byte).mpr (ih rest above below)

theorem le_append : lower ≤ lower ++ rest := by
  nth_rewrite 1 [← append_nil lower]
  rw [append_le_append]
  exact not_lt.mp (not_lt_nil _)

theorem le_top_of_low (low : ∀ byte ∈ rest, byte < 255) : rest ≤ [255] := by
  cases rest with
  | nil => exact not_lt.mp (not_lt_nil _)
  | cons byte rest =>
    rw [cons_le_cons]
    exact .inl (low byte (.head _))

/-- A string with a tail of bytes below `0xFF` lies between a lower one and the same closed by `0xFF`
if it is an extension of it, unless the string itself goes on with `0xFF`. -/
theorem between_suffixed_iff (tail : Bytes) (low : ∀ byte ∈ tail, byte < 255) (some : tail ≠ []) :
    (lower ≤ text ++ tail ∧ text ++ tail ≤ lower ++ [255]) ↔
      lower <+: text ++ tail ∧ ¬ lower ++ [255] <+: text := by
  constructor
  · rintro ⟨above, below⟩
    refine ⟨prefix_of_between lower _ above below, ?_⟩
    rintro ⟨rest, rfl⟩
    rw [append_assoc, append_assoc, append_le_append, singleton_append, cons_le_cons] at below
    rcases below with less | ⟨_, short⟩
    · exact absurd less (lt_irrefl _)
    · rcases exists_cons_of_ne_nil (append_ne_nil_of_right_ne_nil rest some) with
        ⟨byte, more, shape⟩
      rw [shape] at short
      exact absurd (nil_lt_cons byte more) (not_lt.mpr short)
  · rintro ⟨⟨rest, whole⟩, notTop⟩
    rw [← whole]
    refine ⟨le_append lower rest, ?_⟩
    rw [append_le_append]
    rcases prefix_or_prefix_of_prefix ⟨rest, whole⟩ (prefix_append text tail) with
      ⟨more, rfl⟩ | ⟨more, rfl⟩
    · -- The string extends the lower one.
      rw [append_assoc, append_cancel_left_eq] at whole
      rw [whole]
      cases more with
      | nil => exact le_top_of_low tail low
      | cons byte more =>
        have different : byte ≠ 255 := by
          rintro rfl
          apply notTop
          rw [prefix_append_right_inj]
          exact ⟨more, rfl⟩
        have bound := byte.toNat_lt
        have notMax : byte.toNat ≠ 255 := fun same => different (UInt8.toNat_inj.mp same)
        have less : byte < 255 := UInt8.lt_iff_toNat_lt.mpr (show byte.toNat < 255 by omega)
        rw [cons_append, cons_le_cons]
        exact .inl less
    · -- The lower one reaches into the tail.
      rw [append_assoc, append_cancel_left_eq] at whole
      apply le_top_of_low
      intro byte member
      apply low
      rw [← whole]
      exact mem_append_right _ member

/-- A separator that neither side contains cuts a string in one way only. -/
theorem append_separator_inj (sep : UInt8) (left right before after : Bytes)
    (leftFree : sep ∉ left) (rightFree : sep ∉ right)
    (same : left ++ sep :: before = right ++ sep :: after) : left = right ∧ before = after := by
  induction left generalizing right with
  | nil =>
    cases right with
    | nil => exact ⟨rfl, (List.cons.inj same).2⟩
    | cons byte tail => exact absurd ((List.cons.inj same).1 ▸ (.head _)) rightFree
  | cons byte tail ih =>
    cases right with
    | nil => exact absurd ((List.cons.inj same).1 ▸ (.head _)) leftFree
    | cons first rest =>
      obtain ⟨heads, tails⟩ := List.cons.inj same
      have inner := ih rest (fun member => leftFree (.tail _ member))
        (fun member => rightFree (.tail _ member)) tails
      exact ⟨by rw [heads, inner.1], inner.2⟩

/-! Fixed-width integers. Both encoders keep the low `8 * width` bits, as a Go conversion does. -/

def leBytes : Nat → Nat → Bytes
  | 0, _ => []
  | width + 1, value => UInt8.ofNat (value % 256) :: leBytes width (value / 256)

def leValue : Bytes → Nat
  | [] => 0
  | byte :: rest => byte.toNat + leValue rest * 256

def beBytes (width value : Nat) : Bytes := (leBytes width value).reverse

def beValue (bytes : Bytes) : Nat := leValue bytes.reverse

@[simp] theorem leBytes_length : (leBytes width value).length = width := by
  induction width generalizing value with
  | zero => rfl
  | succ width ih => rw [leBytes, length_cons, ih]

@[simp] theorem beBytes_length : (beBytes width value).length = width := by
  rw [beBytes, length_reverse, leBytes_length]

theorem leValue_leBytes : leValue (leBytes width value) = value % 256 ^ width := by
  induction width generalizing value with
  | zero => simp [leBytes, leValue, Nat.mod_one]
  | succ width ih =>
    have byte : (UInt8.ofNat (value % 256)).toNat = value % 256 := by
      simp [UInt8.toNat_ofNat']
    rw [leBytes, leValue, byte, ih, Nat.pow_succ', Nat.mod_mul]
    ring

theorem leValue_lt (bytes : Bytes) : leValue bytes < 256 ^ bytes.length := by
  induction bytes with
  | nil => simp [leValue]
  | cons byte rest ih =>
    have small : byte.toNat < 256 := byte.toNat_lt
    rw [leValue, length_cons, Nat.pow_succ]
    omega

theorem beValue_beBytes : beValue (beBytes width value) = value % 256 ^ width := by
  rw [beValue, beBytes, reverse_reverse, leValue_leBytes]

theorem beValue_u32 (small : value < 2 ^ 32) : beValue (beBytes 4 value) = value := by
  rw [beValue_beBytes, Nat.mod_eq_of_lt (by omega)]

theorem beValue_u64 (small : value < 2 ^ 64) : beValue (beBytes 8 value) = value := by
  rw [beValue_beBytes, Nat.mod_eq_of_lt (by omega)]

def int64Bytes (value : Int) : Bytes := beBytes 8 (value % 2 ^ 64).toNat

def int64Value (bytes : Bytes) : Int :=
  if beValue bytes < 2 ^ 63 then beValue bytes else beValue bytes - 2 ^ 64

def Int64Range (value : Int) : Prop := -2 ^ 63 ≤ value ∧ value < 2 ^ 63
deriving Decidable

@[simp] theorem int64Bytes_length (value : Int) : (int64Bytes value).length = 8 := beBytes_length 8 _

theorem int64Value_int64Bytes (value : Int) (range : Int64Range value) :
    int64Value (int64Bytes value) = value := by
  rw [Int64Range] at range
  rw [int64Value, int64Bytes, beValue_u64 _ (by omega)]
  split_ifs <;> omega

/-- `raw[low:high]`. -/
def slice (raw : Bytes) (low high : Nat) : Bytes := (raw.take high).drop low

theorem beValue_slice_lt (raw : Bytes) (low high : Nat) :
    beValue (slice raw low high) < 256 ^ (high - low) := by
  have width : (slice raw low high).reverse.length ≤ high - low := by
    rw [length_reverse, slice, length_drop, length_take]
    omega
  exact lt_of_lt_of_le (leValue_lt _) (Nat.pow_le_pow_right (by decide) width)

theorem slice_middle (front middle back : Bytes) (low high : Nat)
    (start : front.length = low) (stop : front.length + middle.length = high) :
    slice (front ++ (middle ++ back)) low high = middle := by
  subst start stop
  rw [slice, take_length_add_append, take_left, drop_left]

/-- A field that starts at the offset, and what comes behind it. -/
theorem slice_drop {raw field rest : Bytes} {low high : Nat} (left : raw.drop low = field ++ rest)
    (stop : low + field.length = high) : slice raw low high = field ∧ raw.drop high = rest := by
  subst stop
  rw [slice, drop_take, Nat.add_sub_cancel_left, ← drop_drop, left, take_left, drop_left]
  exact ⟨rfl, rfl⟩

theorem slice_drop_last {raw field : Bytes} {low high : Nat} (left : raw.drop low = field)
    (stop : low + field.length = high) : slice raw low high = field :=
  (slice_drop (left.trans (append_nil field).symm) stop).1

/-! Readers that take bytes off the front, or fail when there are too few. -/

def readExact (count : Nat) (bytes : Bytes) : Option (Bytes × Bytes) :=
  if bytes.length < count then none else some (bytes.take count, bytes.drop count)

def readUint (width : Nat) (bytes : Bytes) : Option (Nat × Bytes) :=
  (readExact width bytes).map fun taken => (beValue taken.1, taken.2)

@[simp] theorem readExact_append (front rest : Bytes) :
    readExact front.length (front ++ rest) = some (front, rest) := by
  have long : ¬ (front ++ rest).length < front.length := by
    rw [length_append]
    omega
  rw [readExact, if_neg long, take_left, drop_left]

theorem readUint_append (small : value < 256 ^ width) :
    readUint width (beBytes width value ++ rest) = some (value, rest) := by
  have front := readExact_append (beBytes width value) rest
  rw [beBytes_length] at front
  rw [readUint, front, Option.map_some, beValue_beBytes, Nat.mod_eq_of_lt small]

/-- A counted sequence. -/
def readMany {Item : Type} (read : Bytes → Option (Item × Bytes)) :
    Nat → Bytes → Option (List Item × Bytes)
  | 0, bytes => some ([], bytes)
  | count + 1, bytes =>
    (read bytes).bind fun first =>
      (readMany read count first.2).map fun rest => (first.1 :: rest.1, rest.2)

theorem readMany_encoded {Item Written : Type} (read : Bytes → Option (Item × Bytes))
    (encode : Written → Bytes) (readBack : Written → Item) (items : List Written) (rest : Bytes)
    (reads : ∀ item ∈ items, ∀ rest, read (encode item ++ rest) = some (readBack item, rest)) :
    readMany read items.length ((items.map encode).flatten ++ rest) =
      some (items.map readBack, rest) := by
  induction items with
  | nil => rfl
  | cons item items ih =>
    have inner := ih fun other member => reads other (.tail _ member)
    rw [map_cons, flatten_cons, append_assoc, length_cons, readMany,
      reads item (.head _), Option.bind_some, inner, Option.map_some, map_cons]

end KairosFlux.Lib
