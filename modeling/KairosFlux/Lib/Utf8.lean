import KairosFlux.Lib.Bytes

/-! UTF-8: which byte strings are valid, and the valid one that stands for any other. -/

namespace KairosFlux.Lib

open List

def utf8 (text : String) : Bytes := text.toUTF8.data.toList

namespace Utf8

/-- How many bytes follow a first byte, and between which bounds the next one lies. -/
def shape (first : UInt8) : Option (Nat × UInt8 × UInt8) :=
  if first < 0x80 then some (0, 0, 0)
  else if first < 0xC2 then none
  else if first < 0xE0 then some (1, 0x80, 0xBF)
  else if first = 0xE0 then some (2, 0xA0, 0xBF)
  else if first = 0xED then some (2, 0x80, 0x9F)
  else if first < 0xF0 then some (2, 0x80, 0xBF)
  else if first = 0xF0 then some (3, 0x90, 0xBF)
  else if first < 0xF4 then some (3, 0x80, 0xBF)
  else if first = 0xF4 then some (3, 0x80, 0x8F)
  else none

def Follows (low high : UInt8) (following : Bytes) : Prop :=
  (∀ byte ∈ following.head?, low ≤ byte ∧ byte ≤ high) ∧
    ∀ byte ∈ following.tail, 0x80 ≤ byte ∧ byte ≤ 0xBF
deriving Decidable

/-- The length of the character at the front, if a valid one stands there. -/
def runeLength : Bytes → Option Nat
  | [] => none
  | first :: rest =>
    match shape first with
    | none => none
    | some (more, low, high) =>
      if more ≤ rest.length ∧ Follows low high (rest.take more) then some (more + 1) else none

def IsRune (rune : Bytes) : Prop := runeLength rune = some rune.length

inductive Valid : Bytes → Prop
  | nil : Valid []
  | rune {rune rest : Bytes} : IsRune rune → Valid rest → Valid (rune ++ rest)

/-- U+FFFD. -/
def replacement : Bytes := [0xEF, 0xBF, 0xBD]

def toValidWithin : Nat → Bytes → Bytes
  | 0, _ => []
  | _, [] => []
  | fuel + 1, first :: rest =>
    match runeLength (first :: rest) with
    | none => replacement ++ toValidWithin fuel rest
    | some length =>
      (first :: rest).take length ++ toValidWithin fuel ((first :: rest).drop length)

/-- Every byte that belongs to no valid character is replaced by U+FFFD. -/
def toValid (bytes : Bytes) : Bytes := toValidWithin bytes.length bytes

theorem runeLength_cons (first : UInt8) (rest : Bytes) (length : Nat) :
    runeLength (first :: rest) = some length ↔ ∃ more low high, shape first = some (more, low, high) ∧
      more ≤ rest.length ∧ Follows low high (rest.take more) ∧ length = more + 1 := by
  rw [runeLength]
  split
  next none => simp [none]
  next more low high known =>
    simp only [known, Option.some.injEq, Prod.mk.injEq]
    constructor
    · intro found
      split_ifs at found with fits
      exact ⟨more, low, high, ⟨rfl, rfl, rfl⟩, fits.1, fits.2, (Option.some.inj found).symm⟩
    · rintro ⟨_, _, _, ⟨rfl, rfl, rfl⟩, enough, follows, rfl⟩
      rw [if_pos ⟨enough, follows⟩]

theorem IsRune.ne_nil {rune : Bytes} (is : IsRune rune) : rune ≠ [] := by
  rintro rfl
  cases is

theorem IsRune.runeLength_append {rune : Bytes} (is : IsRune rune) (rest : Bytes) :
    runeLength (rune ++ rest) = some rune.length := by
  cases rune with
  | nil => cases is
  | cons first following =>
    rcases (runeLength_cons first following _).mp is with ⟨more, low, high, known, _, follows, length⟩
    have whole : more = following.length := by simpa using length.symm
    subst whole
    rw [cons_append, runeLength_cons]
    refine ⟨following.length, low, high, known, by simp, ?_, rfl⟩
    rw [take_left]
    rwa [take_length] at follows

theorem isRune_take {bytes : Bytes} {length : Nat} (found : runeLength bytes = some length) :
    IsRune (bytes.take length) := by
  cases bytes with
  | nil => cases found
  | cons first rest =>
    rcases (runeLength_cons first rest length).mp found with
      ⟨more, low, high, known, enough, follows, rfl⟩
    rw [take_succ_cons, IsRune, runeLength_cons]
    refine ⟨more, low, high, known, by simp [enough], ?_, by simp [enough]⟩
    rwa [take_take, min_self]

theorem isRune_replacement : IsRune replacement := by
  rw [IsRune]
  decide +kernel

theorem toValidWithin_valid (fuel : Nat) (bytes : Bytes) : Valid (toValidWithin fuel bytes) := by
  induction fuel generalizing bytes with
  | zero => exact .nil
  | succ fuel ih =>
    cases bytes with
    | nil => exact .nil
    | cons first rest =>
      rw [toValidWithin]
      split
      next => exact .rune isRune_replacement (ih rest)
      next length found => exact .rune (isRune_take found) (ih _)

theorem toValidWithin_of_valid {bytes : Bytes} (valid : Valid bytes) (fuel : Nat)
    (enough : bytes.length ≤ fuel) : toValidWithin fuel bytes = bytes := by
  induction valid generalizing fuel with
  | nil => cases fuel <;> rfl
  | @rune rune rest is _ ih =>
    rw [length_append] at enough
    cases fuel with
    | zero => exact absurd (length_eq_zero_iff.mp (by omega)) is.ne_nil
    | succ fuel =>
      have found := is.runeLength_append rest
      have positive : 0 < rune.length := length_pos_iff.mpr is.ne_nil
      cases whole : rune ++ rest with
      | nil => exact absurd (append_eq_nil_iff.mp whole).1 is.ne_nil
      | cons first others =>
        rw [toValidWithin, ← whole, found]
        simp only [take_left, drop_left]
        rw [ih fuel (by omega)]

@[simp] theorem toValid_of_valid {bytes : Bytes} (valid : Valid bytes) : toValid bytes = bytes :=
  toValidWithin_of_valid valid _ le_rfl

@[simp] theorem toValid_toValid (bytes : Bytes) : toValid (toValid bytes) = toValid bytes :=
  toValid_of_valid (toValidWithin_valid _ _)

@[simp] theorem toValid_eq_nil (bytes : Bytes) : toValid bytes = [] ↔ bytes = [] := by
  refine ⟨fun empty => ?_, fun empty => by rw [empty]; rfl⟩
  cases bytes with
  | nil => rfl
  | cons first rest =>
    rw [toValid, length_cons, toValidWithin] at empty
    split at empty
    next => simp [replacement] at empty
    next length found => exact absurd (append_eq_nil_iff.mp empty).1 (isRune_take found).ne_nil

theorem valid_of_ascii (bytes : Bytes) (low : ∀ byte ∈ bytes, byte < 0x80) : Valid bytes := by
  induction bytes with
  | nil => exact .nil
  | cons first rest ih =>
    rcases forall_mem_cons.mp low with ⟨firstLow, restLow⟩
    have single : IsRune [first] := by
      rw [IsRune, runeLength_cons]
      refine ⟨0, 0, 0, ?_, Nat.zero_le _, ?_, rfl⟩
      · rw [shape, if_pos firstLow]
      · simp [Follows]
    exact .rune single (ih restLow)

end Utf8

end KairosFlux.Lib
