import KairosFlux.Lib.Bytes

/-! A text of a byte string that says where it ends. -/

namespace KairosFlux.Lib

def delimit : Bytes → Bytes
  | [] => [0]
  | byte :: bytes => 1 :: byte :: delimit bytes

def readDelimited : Bytes → Option (Bytes × Bytes)
  | 0 :: rest => some ([], rest)
  | 1 :: byte :: rest => (readDelimited rest).map fun read => (byte :: read.1, read.2)
  | _ => none

theorem readDelimited_append (bytes rest : Bytes) :
    readDelimited (delimit bytes ++ rest) = some (bytes, rest) := by
  induction bytes with
  | nil => rfl
  | cons byte bytes ih =>
    rw [delimit, List.cons_append, List.cons_append, readDelimited, ih, Option.map_some]

def readDelimitedPair (text : Bytes) : Option (Bytes × Bytes) :=
  (readDelimited text).bind fun first => (readDelimited first.2).map fun second => (first.1, second.1)

theorem readDelimitedPair_append (first second : Bytes) :
    readDelimitedPair (delimit first ++ delimit second) = some (first, second) := by
  have last := readDelimited_append second []
  rw [List.append_nil] at last
  rw [readDelimitedPair, readDelimited_append, Option.bind_some, last, Option.map_some]

end KairosFlux.Lib
