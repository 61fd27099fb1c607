import KairosFlux.Lib.Bytes

/-! SHA-256 (FIPS 180-4) on byte strings, and its hexadecimal digest. -/

namespace KairosFlux.Lib

namespace Sha256

structure Words where
  a : UInt32
  b : UInt32
  c : UInt32
  d : UInt32
  e : UInt32
  f : UInt32
  g : UInt32
  h : UInt32

def initial : Words :=
  ⟨0x6a09e667, 0xbb67ae85, 0x3c6ef372, 0xa54ff53a, 0x510e527f, 0x9b05688c, 0x1f83d9ab, 0x5be0cd19⟩

def constants : List UInt32 :=
  [0x428a2f98, 0x71374491, 0xb5c0fbcf, 0xe9b5dba5, 0x3956c25b, 0x59f111f1, 0x923f82a4, 0xab1c5ed5,
   0xd807aa98, 0x12835b01, 0x243185be, 0x550c7dc3, 0x72be5d74, 0x80deb1fe, 0x9bdc06a7, 0xc19bf174,
   0xe49b69c1, 0xefbe4786, 0x0fc19dc6, 0x240ca1cc, 0x2de92c6f, 0x4a7484aa, 0x5cb0a9dc, 0x76f988da,
   0x983e5152, 0xa831c66d, 0xb00327c8, 0xbf597fc7, 0xc6e00bf3, 0xd5a79147, 0x06ca6351, 0x14292967,
   0x27b70a85, 0x2e1b2138, 0x4d2c6dfc, 0x53380d13, 0x650a7354, 0x766a0abb, 0x81c2c92e, 0x92722c85,
   0xa2bfe8a1, 0xa81a664b, 0xc24b8b70, 0xc76c51a3, 0xd192e819, 0xd6990624, 0xf40e3585, 0x106aa070,
   0x19a4c116, 0x1e376c08, 0x2748774c, 0x34b0bcb5, 0x391c0cb3, 0x4ed8aa4a, 0x5b9cca4f, 0x682e6ff3,
   0x748f82ee, 0x78a5636f, 0x84c87814, 0x8cc70208, 0x90befffa, 0xa4506ceb, 0xbef9a3f7, 0xc67178f2]

def rotr (word count : UInt32) : UInt32 := (word >>> count) ||| (word <<< (32 - count))

def smallSigma0 (x : UInt32) : UInt32 := rotr x 7 ^^^ rotr x 18 ^^^ (x >>> 3)

def smallSigma1 (x : UInt32) : UInt32 := rotr x 17 ^^^ rotr x 19 ^^^ (x >>> 10)

def bigSigma0 (x : UInt32) : UInt32 := rotr x 2 ^^^ rotr x 13 ^^^ rotr x 22

def bigSigma1 (x : UInt32) : UInt32 := rotr x 6 ^^^ rotr x 11 ^^^ rotr x 25

def choose (x y z : UInt32) : UInt32 := (x &&& y) ^^^ (~~~x &&& z)

def majority (x y z : UInt32) : UInt32 := (x &&& y) ^^^ (x &&& z) ^^^ (y &&& z)

def wordsOf : Nat → Bytes → List UInt32
  | 0, _ => []
  | count + 1, bytes => UInt32.ofNat (beValue (bytes.take 4)) :: wordsOf count (bytes.drop 4)

-- The schedule is kept newest word first, so the four taps sit at fixed positions.
def extend : Nat → List UInt32 → List UInt32
  | 0, words => words
  | count + 1, words =>
    extend count
      ((smallSigma1 (words.getD 1 0) + words.getD 6 0 + smallSigma0 (words.getD 14 0) +
        words.getD 15 0) :: words)

def schedule (block : Bytes) : List UInt32 := (extend 48 (wordsOf 16 block).reverse).reverse

def round (s : Words) (input : UInt32 × UInt32) : Words :=
  let t1 := s.h + bigSigma1 s.e + choose s.e s.f s.g + input.1 + input.2
  let t2 := bigSigma0 s.a + majority s.a s.b s.c
  ⟨t1 + t2, s.a, s.b, s.c, s.d + t1, s.e, s.f, s.g⟩

def compress (s : Words) (block : Bytes) : Words :=
  let r := (constants.zip (schedule block)).foldl round s
  ⟨s.a + r.a, s.b + r.b, s.c + r.c, s.d + r.d, s.e + r.e, s.f + r.f, s.g + r.g, s.h + r.h⟩

def pad (message : Bytes) : Bytes :=
  message ++ [0x80] ++ List.replicate ((119 - message.length % 64) % 64) 0 ++
    beBytes 8 (8 * message.length)

def blocks : Nat → Bytes → List Bytes
  | 0, _ => []
  | count + 1, bytes => bytes.take 64 :: blocks count (bytes.drop 64)

def digest (s : Words) : Bytes :=
  [s.a, s.b, s.c, s.d, s.e, s.f, s.g, s.h].flatMap (fun word => beBytes 4 word.toNat)

def hexDigit (value : Nat) : UInt8 := UInt8.ofNat (if value < 10 then 48 + value else 87 + value)

end Sha256

def sha256 (message : Bytes) : Bytes :=
  let padded := Sha256.pad message
  Sha256.digest ((Sha256.blocks (padded.length / 64) padded).foldl Sha256.compress Sha256.initial)

/-- `hex.EncodeToString`: two lower-case digits for each byte. -/
def hexEncode (bytes : Bytes) : Bytes :=
  bytes.flatMap (fun byte => [Sha256.hexDigit (byte.toNat / 16), Sha256.hexDigit (byte.toNat % 16)])

theorem sha256_length (message : Bytes) : (sha256 message).length = 32 := by
  simp [sha256, Sha256.digest]

example : (sha256 (ascii ['a', 'b', 'c'])).take 4 = [0xba, 0x78, 0x16, 0xbf] := by decide +kernel

theorem hexEncode_length (bytes : Bytes) : (hexEncode bytes).length = 2 * bytes.length := by
  induction bytes with
  | nil => rfl
  | cons byte rest ih =>
    rw [hexEncode, List.flatMap_cons, List.length_append, ← hexEncode, ih]
    simp
    omega

theorem hexEncode_lt (bytes : Bytes) : ∀ byte ∈ hexEncode bytes, byte < 0x80 := by
  have digits : ∀ value < 16, Sha256.hexDigit value < 0x80 := by decide
  intro byte member
  simp only [hexEncode, List.mem_flatMap, List.mem_cons, List.not_mem_nil, or_false] at member
  rcases member with ⟨source, -, rfl | rfl⟩
  · exact digits _ (Nat.div_lt_of_lt_mul source.toNat_lt)
  · exact digits _ (Nat.mod_lt _ (by decide))

end KairosFlux.Lib
