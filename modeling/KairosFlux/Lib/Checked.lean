import KairosFlux.Lib.Bytes

/-! Readers of a byte slice that check their own bounds: a read outside the slice is a panic, which is
not the same as an input the reader gives up on. -/

namespace KairosFlux.Lib

open List

inductive Checked (α : Type) where
  | panic
  | rejected
  | ok (value : α)
  deriving DecidableEq

namespace Checked

variable {α β : Type}

def bind (x : Checked α) (next : α → Checked β) : Checked β :=
  match x with
  | panic => panic
  | rejected => rejected
  | ok value => next value

instance : Monad Checked where
  pure := ok
  bind := bind

@[simp] theorem pure_eq_ok (value : α) : (pure value : Checked α) = ok value := rfl

section

variable (next : α → Checked β)
include next

@[simp] theorem ok_bind (value : α) : (ok value >>= next) = next value := rfl

@[simp] theorem rejected_bind : (rejected >>= next) = rejected := rfl

@[simp] theorem panic_bind : (panic >>= next) = panic := rfl

theorem bind_assoc {γ : Type} (x : Checked α) (last : β → Checked γ) :
    (x >>= next >>= last) = x >>= fun value => next value >>= last := by
  cases x with
  | panic | rejected | ok => rfl

theorem bind_eq_ok_iff (x : Checked α) (result : β) :
    (x >>= next) = ok result ↔ ∃ value, x = ok value ∧ next value = ok result := by
  cases x with
  | panic | rejected | ok => simp

end

/-- It does not panic, and what it returns meets the postcondition. -/
def Safe (x : Checked α) (post : α → Prop) : Prop :=
  match x with
  | panic => False
  | rejected => True
  | ok value => post value

theorem Safe.pure {post : α → Prop} {value : α} (holds : post value) : Safe (pure value) post := holds

theorem Safe.bind {x : Checked α} {next : α → Checked β} {mid : α → Prop} {post : β → Prop}
    (first : Safe x mid) (rest : ∀ value, mid value → Safe (next value) post) :
    Safe (x >>= next) post := by
  cases x with
  | panic => exact first
  | rejected => trivial
  | ok value => exact rest value first

theorem Safe.ne_panic {x : Checked α} {post : α → Prop} (safe : Safe x post) : x ≠ panic := by
  intro same
  rw [same] at safe
  exact safe

def Total (read : Bytes → Checked α) : Prop := ∀ data, read data ≠ panic

/-- The test before a read. -/
def require (condition : Prop) [Decidable condition] : Checked Unit :=
  if condition then ok () else rejected

variable {data : Bytes} {off : Nat} {rest : Bytes} {width : Nat} {condition : Prop} {count : Nat} {field : Bytes} {value : Nat}

@[simp] theorem require_pos [Decidable condition] (holds : condition) :
    require condition = ok () := if_pos holds

@[simp] theorem require_neg [Decidable condition] (fails : ¬ condition) :
    require condition = rejected := if_neg fails

theorem require_eq_ok_iff (condition : Prop) [Decidable condition] :
    require condition = ok () ↔ condition := by
  by_cases holds : condition
  · simp [holds]
  · simp [holds]

theorem require_bind_congr [Decidable condition] {next other : Unit → Checked β}
    (same : condition → next () = other ()) :
    (require condition >>= next) = require condition >>= other := by
  by_cases holds : condition
  · simp [holds, same]
  · simp [holds]

theorem Safe.require (condition : Prop) [Decidable condition] :
    Safe (require condition) fun _ => condition := by
  by_cases holds : condition
  · rw [require_pos holds]
    exact holds
  · rw [require_neg holds]
    trivial

/-- `data[off : off+count]`. -/
def bytesAt (data : Bytes) (off count : Nat) : Checked Bytes :=
  if off + count ≤ data.length then ok ((data.drop off).take count) else panic

/-- `data[off:]`. -/
def bytesFrom (data : Bytes) (off : Nat) : Checked Bytes :=
  if off ≤ data.length then ok (data.drop off) else panic

/-- A little-endian integer of `width` bytes. -/
def uintAt (data : Bytes) (off width : Nat) : Checked Nat := do
  let field ← bytesAt data off width
  pure (leValue field)

theorem bytesAt_inside (inside : off + count ≤ data.length) :
    bytesAt data off count = ok ((data.drop off).take count) := if_pos inside

theorem uintAt_inside (inside : off + width ≤ data.length) :
    uintAt data off width = ok (leValue ((data.drop off).take width)) := by
  rw [uintAt, bytesAt_inside inside, ok_bind, pure_eq_ok]

theorem Safe.bytesAt (inside : off + count ≤ data.length) :
    Safe (bytesAt data off count) fun _ => True := by
  rw [bytesAt_inside inside]
  trivial

theorem Safe.bytesFrom (inside : off ≤ data.length) :
    Safe (bytesFrom data off) fun rest => rest.length + off = data.length := by
  rw [Checked.bytesFrom, if_pos inside]
  show (data.drop off).length + off = data.length
  rw [length_drop]
  omega

theorem Safe.uintAt (inside : off + width ≤ data.length) :
    Safe (uintAt data off width) fun value => value < 256 ^ width := by
  rw [uintAt_inside inside]
  have short : ((data.drop off).take width).length ≤ width := length_take_le _ _
  exact lt_of_lt_of_le (leValue_lt _) (Nat.pow_le_pow_right (by decide) short)

def Remains (data : Bytes) (off : Nat) (rest : Bytes) : Prop :=
  ∃ front : Bytes, data = front ++ rest ∧ front.length = off

theorem Remains.start (data : Bytes) : Remains data 0 data := ⟨[], rfl, rfl⟩

theorem Remains.length (left : Remains data off rest) : data.length = off + rest.length := by
  rcases left with ⟨front, rfl, rfl⟩
  exact length_append

theorem Remains.next (left : Remains data off (field ++ rest)) :
    Remains data (off + field.length) rest := by
  rcases left with ⟨front, rfl, rfl⟩
  exact ⟨front ++ field, by rw [append_assoc], length_append⟩

theorem Remains.bytesFrom (left : Remains data off rest) : bytesFrom data off = ok rest := by
  have size := left.length
  rcases left with ⟨front, rfl, rfl⟩
  rw [Checked.bytesFrom, if_pos (by omega), drop_left]

theorem Remains.bytesAt
    (left : Remains data off (field ++ rest)) : bytesAt data off field.length = ok field := by
  have size := left.length
  rw [length_append] at size
  rcases left with ⟨front, rfl, rfl⟩
  rw [bytesAt_inside (by omega), drop_left, take_left]

theorem Remains.next_uint
    (left : Remains data off (leBytes width value ++ rest)) : Remains data (off + width) rest := by
  have next := left.next
  rw [leBytes_length] at next
  exact next

theorem Remains.uintAt
    (left : Remains data off (leBytes width value ++ rest)) (small : value < 256 ^ width) :
    uintAt data off width = ok value := by
  have field := left.bytesAt
  rw [leBytes_length] at field
  rw [Checked.uintAt, field, ok_bind, pure_eq_ok, leValue_leBytes, Nat.mod_eq_of_lt small]

def ofOption : Option α → Checked α
  | none => rejected
  | some value => ok value

@[simp] theorem ofOption_none : (ofOption none : Checked α) = rejected := rfl

@[simp] theorem ofOption_some (found : α) : ofOption (some found) = ok found := rfl

theorem Total.of_eq {read : Bytes → Checked α} {answer : Bytes → Option α}
    (same : ∀ data, read data = ofOption (answer data)) : Total read := by
  intro data
  rw [same]
  cases answer data with
  | none | some => exact nofun

/-- A test before a read, against the same test of a reader that cannot panic. -/
theorem require_bind_ofOption [Decidable condition] {fails : Prop} [Decidable fails]
    {next : Unit → Checked α} {answer : Option α} (opposite : fails ↔ ¬ condition)
    (same : condition → next () = ofOption answer) :
    (require condition >>= next) = ofOption (if fails then none else answer) := by
  by_cases holds : condition
  · rw [require_pos holds, ok_bind, if_neg (fun bad => opposite.mp bad holds), same holds]
  · rw [require_neg holds, rejected_bind, if_pos (opposite.mpr holds), ofOption_none]

theorem bytesAt_slice (inside : off + count ≤ data.length) :
    bytesAt data off count = ok (slice data off (off + count)) := by
  rw [bytesAt_inside inside, slice, drop_take, Nat.add_sub_cancel_left]

theorem uintAt_slice (inside : off + width ≤ data.length) :
    uintAt data off width = ok (leValue (slice data off (off + width))) := by
  rw [uintAt, bytesAt_slice inside, ok_bind, pure_eq_ok]

theorem bytesFrom_inside (inside : off ≤ data.length) : bytesFrom data off = ok (data.drop off) :=
  if_pos inside

theorem Remains.bytesAt_last (left : Remains data off field) :
    Checked.bytesAt data off field.length = ok field := by
  rw [← append_nil field] at left
  exact left.bytesAt

theorem Remains.uintAt_last
    (left : Remains data off (leBytes width value)) (small : value < 256 ^ width) :
    Checked.uintAt data off width = ok value := by
  rw [← append_nil (leBytes width value)] at left
  exact left.uintAt small

/-- `make([]T, 0, count)`: a capacity beyond the address space of the runtime is a panic. -/
def reserve (elemSize count : Nat) : Checked Unit :=
  if elemSize * count ≤ 2 ^ 48 then ok () else panic

theorem reserve_inside {elemSize : Nat} (inside : elemSize * count ≤ 2 ^ 48) :
    reserve elemSize count = ok () := if_pos inside

theorem Safe.reserve {elemSize : Nat} (inside : elemSize * count ≤ 2 ^ 48) :
    Safe (reserve elemSize count) fun _ => True := by
  rw [reserve_inside inside]
  trivial

/-! A counted sequence: each item is read where the one before it stops. -/

def readCounted (read : Nat → Checked (α × Nat)) : Nat → Nat → Checked (List α × Nat)
  | 0, off => pure ([], off)
  | count + 1, off => do
      let first ← read off
      let rest ← readCounted read count first.2
      pure (first.1 :: rest.1, rest.2)

/-- The same walk by a reader that only finds where an item stops. -/
def skipCounted (skip : Nat → Checked Nat) : Nat → Nat → Checked Nat
  | 0, off => pure off
  | count + 1, off => do
      let stop ← skip off
      skipCounted skip count stop

theorem Safe.readCounted {read : Nat → Checked (α × Nat)} {bound : Nat}
    (step : ∀ off, off ≤ bound → Safe (read off) fun item => item.2 ≤ bound) (count : Nat) :
    ∀ off, off ≤ bound → Safe (readCounted read count off) fun items => items.2 ≤ bound := by
  induction count with
  | zero =>
    intro off inside
    exact Safe.pure inside
  | succ count ih =>
    intro off inside
    apply Safe.bind (step off inside)
    intro first stop
    apply Safe.bind (ih first.2 stop)
    intro rest last
    exact Safe.pure last

theorem readCounted_all {read : Nat → Checked (α × Nat)} {P : α → Prop}
    (each : ∀ off item stop, read off = ok (item, stop) → P item) (count : Nat) :
    ∀ off items stop, readCounted read count off = ok (items, stop) →
      items.length = count ∧ ∀ item ∈ items, P item := by
  induction count with
  | zero =>
    intro off items stop done
    cases done
    exact ⟨rfl, nofun⟩
  | succ count ih =>
    intro off items stop done
    rw [Checked.readCounted, bind_eq_ok_iff] at done
    rcases done with ⟨first, one, done⟩
    rw [bind_eq_ok_iff] at done
    rcases done with ⟨rest, more, done⟩
    cases done
    rcases ih first.2 rest.1 rest.2 more with ⟨size, others⟩
    refine ⟨by rw [length_cons, size], ?_⟩
    exact forall_mem_cons.mpr ⟨each off first.1 first.2 one, others⟩

theorem skipCounted_of_readCounted {read : Nat → Checked (α × Nat)} {skip : Nat → Checked Nat}
    (agree : ∀ off item stop, read off = ok (item, stop) → skip off = ok stop) (count : Nat) :
    ∀ off items stop, readCounted read count off = ok (items, stop) →
      items.length = count ∧ skipCounted skip count off = ok stop := by
  induction count with
  | zero =>
    intro off items stop done
    cases done
    exact ⟨rfl, rfl⟩
  | succ count ih =>
    intro off items stop done
    rw [Checked.readCounted, bind_eq_ok_iff] at done
    rcases done with ⟨first, one, done⟩
    rw [bind_eq_ok_iff] at done
    rcases done with ⟨rest, more, done⟩
    cases done
    rcases ih first.2 rest.1 rest.2 more with ⟨size, walk⟩
    refine ⟨by rw [length_cons, size], ?_⟩
    rw [skipCounted, agree off first.1 first.2 one, ok_bind, walk]

theorem Remains.readCounted {read : Nat → Checked (α × Nat)} {encode : α → Bytes} (items : List α)
    (back : ∀ item ∈ items, ∀ off rest, Remains data off (encode item ++ rest) →
      read off = ok (item, off + (encode item).length)) :
    ∀ off rest, Remains data off ((items.map encode).flatten ++ rest) →
      readCounted read items.length off = ok (items, off + (items.map encode).flatten.length) := by
  induction items with
  | nil =>
    intro off rest left
    rfl
  | cons item items ih =>
    intro off rest left
    rw [map_cons, flatten_cons, append_assoc] at left
    have first := back item (.head _) off _ left
    have others := ih (fun other member => back other (.tail _ member)) _ rest left.next
    rw [length_cons, Checked.readCounted, first, ok_bind, others, ok_bind, pure_eq_ok,
      map_cons, flatten_cons, length_append, Nat.add_assoc]

end Checked

end KairosFlux.Lib
