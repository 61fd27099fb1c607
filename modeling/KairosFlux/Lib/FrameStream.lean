import KairosFlux.Lib.Bytes

/-! Streams of frames. A decoder takes one message off the front of a stream, or fails; it is called
until it fails. -/

namespace KairosFlux.Lib

open List

/-- What `io.ReadFull` reports about a stream that is too short. -/
inductive ReadError
  | eof
  | unexpectedEOF
  deriving DecidableEq

/-- A stream that is too short is read to its end. -/
def readFull (count : Nat) (r : Bytes) : Except ReadError Bytes × Bytes :=
  if count ≤ r.length then (.ok (r.take count), r.drop count)
  else (.error (if r = [] then .eof else .unexpectedEOF), [])

theorem readFull_append {front : Bytes} {count : Nat} (width : front.length = count) (rest : Bytes) :
    readFull count (front ++ rest) = (.ok front, rest) := by
  subst width
  rw [readFull, if_pos (by simp), take_left, drop_left]

theorem readFull_short {count : Nat} {r : Bytes} (short : r.length < count) :
    ∃ cause, readFull count r = (.error cause, []) := by
  rw [readFull, if_neg (not_le.mpr short)]
  exact ⟨_, rfl⟩

section

variable {Msg Err : Type} (decode : Bytes → Except Err Msg × Bytes)

/-- The messages before the first error, and the error if one was met. -/
def decodeUpTo : Nat → Bytes → List Msg × Option Err
  | 0, _ => ([], none)
  | fuel + 1, r =>
    match decode r with
    | (.error err, _) => ([], some err)
    | (.ok msg, rest) => (msg :: (decodeUpTo fuel rest).1, (decodeUpTo fuel rest).2)

/-- A frame takes at least one byte. -/
def decodeStream (r : Bytes) : List Msg × Option Err := decodeUpTo decode (r.length + 1) r

/-- How many frames lie completely in the first bytes of their concatenation. -/
def wholeFrames : List Bytes → Nat → Nat
  | [], _ => 0
  | frame :: frames, n => if frame.length ≤ n then wholeFrames frames (n - frame.length) + 1 else 0

/-- The frame is read as the message whatever follows it, and a part of it is not. -/
structure Frames (frame : Bytes) (msg : Msg) : Prop where
  nonempty : 0 < frame.length
  whole : ∀ rest, decode (frame ++ rest) = (.ok msg, rest)
  cut : ∀ n < frame.length, ∃ err rest, decode (frame.take n) = (.error err, rest)

/-- The reader takes the bytes off the front and goes on with `next`, and it fails on a part of them. -/
structure Takes (read : Bytes → Except Err Msg × Bytes) (part : Bytes)
    (next : Bytes → Except Err Msg × Bytes) : Prop where
  whole : ∀ rest, read (part ++ rest) = next rest
  cut : ∀ n < part.length, ∃ err rest, read (part.take n) = (.error err, rest)

section

variable {read next last : Bytes → Except Err Msg × Bytes} {part more : Bytes}

theorem Takes.trans (first : Takes read part next) (second : Takes next more last) :
    Takes read (part ++ more) last where
  whole rest := by rw [append_assoc, first.whole, second.whole]
  cut n short := by
    by_cases inside : n < part.length
    · rw [take_append_of_le_length inside.le]
      exact first.cut n inside
    · rw [length_append] at short
      rw [take_append, take_of_length_le (not_lt.mp inside), first.whole]
      exact second.cut _ (by omega)

theorem Takes.field (whole : ∀ rest, read (part ++ rest) = next rest)
    (fails : 0 < part.length → ∀ r cause, readFull part.length r = (.error cause, []) →
      ∃ err rest, read r = (.error err, rest)) : Takes read part next := by
  refine ⟨whole, fun n short => ?_⟩
  have shorter : (part.take n).length < part.length := by
    rw [length_take]
    omega
  rcases readFull_short shorter with ⟨cause, failed⟩
  exact fails (Nat.zero_lt_of_lt short) _ cause failed

end

/-- Decoding the frames gives the messages and the error of the end, and decoding a part of them
gives the messages whose frames are whole, and an error. -/
def Delivers (ended : Err) (frames : List Bytes) (msgs : List Msg) : Prop :=
  decodeStream decode frames.flatten = (msgs, some ended) ∧
    ∀ n < frames.flatten.length, ∃ err,
      decodeStream decode (frames.flatten.take n) = (msgs.take (wholeFrames frames n), some err)

variable {decode} {ended : Err} {frames : List Bytes} {msgs : List Msg}

theorem decodeUpTo_ok {r rest : Bytes} {msg : Msg} (read : decode r = (.ok msg, rest)) (fuel : Nat) :
    decodeUpTo decode (fuel + 1) r =
      (msg :: (decodeUpTo decode fuel rest).1, (decodeUpTo decode fuel rest).2) := by
  rw [decodeUpTo, read]

theorem decodeUpTo_error {r rest : Bytes} {err : Err} (fails : decode r = (.error err, rest))
    (fuel : Nat) : decodeUpTo decode (fuel + 1) r = ([], some err) := by
  rw [decodeUpTo, fails]

section

variable (framed : List.Forall₂ (Frames decode) frames msgs)
include framed

theorem length_le_flatten : frames.length ≤ frames.flatten.length := by
  induction framed with
  | nil => exact le_rfl
  | cons first _ ih =>
    have nonempty := first.nonempty
    rw [flatten_cons, length_append, length_cons]
    omega

theorem decodeUpTo_frames {rest : Bytes}
    (empty : decode [] = (.error ended, rest)) {fuel : Nat} (enough : frames.length < fuel) :
    decodeUpTo decode fuel frames.flatten = (msgs, some ended) := by
  induction framed generalizing fuel with
  | nil =>
    cases fuel with
    | zero => cases enough
    | succ fuel => exact decodeUpTo_error empty fuel
  | cons first others ih =>
    cases fuel with
    | zero => cases enough
    | succ fuel =>
      rw [flatten_cons, decodeUpTo_ok (first.whole _), ih (Nat.lt_of_succ_lt_succ enough)]

theorem decodeUpTo_take {n fuel : Nat} (cut : n < frames.flatten.length) (enough : n < fuel) :
    ∃ err, decodeUpTo decode fuel (frames.flatten.take n) =
      (msgs.take (wholeFrames frames n), some err) := by
  induction framed generalizing n fuel with
  | nil => cases cut
  | @cons frame msg frames msgs first others ih =>
    rw [flatten_cons, length_append] at cut
    cases fuel with
    | zero => cases enough
    | succ fuel =>
      rw [flatten_cons, wholeFrames]
      split_ifs with whole
      · have nonempty := first.nonempty
        rcases @ih (n - frame.length) fuel (by omega) (by omega) with ⟨err, later⟩
        refine ⟨err, ?_⟩
        rw [take_append, take_of_length_le whole, decodeUpTo_ok (first.whole _), later,
          take_succ_cons]
      · rcases first.cut n (not_le.mp whole) with ⟨err, rest, fails⟩
        refine ⟨err, ?_⟩
        rw [take_append_of_le_length (not_le.mp whole).le, decodeUpTo_error fails, take_zero]

theorem delivers_frames {rest : Bytes}
    (empty : decode [] = (.error ended, rest)) : Delivers decode ended frames msgs := by
  constructor
  · exact decodeUpTo_frames framed empty (Nat.lt_succ_of_le (length_le_flatten framed))
  · intro n cut
    apply decodeUpTo_take framed cut
    rw [length_take]
    omega

end

end

end KairosFlux.Lib
