/-!
# Ids of exported parts

The id of an exported part is derived from the ids of its nodes, so that the same part always gets
the same id. The parts of an identity are hashed as lines. The hash function is SHA-256, the one of
FIPS 180-4 with 256-bit digests, over lists of bytes.
-/

namespace CueFlow

/-! ### SHA-256 -/

namespace Sha256

/-- The round constants: fractional parts of the cube roots of the first sixty-four primes. -/
def roundConstants : List UInt32 := [
  0x428a2f98, 0x71374491, 0xb5c0fbcf, 0xe9b5dba5, 0x3956c25b, 0x59f111f1, 0x923f82a4, 0xab1c5ed5,
  0xd807aa98, 0x12835b01, 0x243185be, 0x550c7dc3, 0x72be5d74, 0x80deb1fe, 0x9bdc06a7, 0xc19bf174,
  0xe49b69c1, 0xefbe4786, 0x0fc19dc6, 0x240ca1cc, 0x2de92c6f, 0x4a7484aa, 0x5cb0a9dc, 0x76f988da,
  0x983e5152, 0xa831c66d, 0xb00327c8, 0xbf597fc7, 0xc6e00bf3, 0xd5a79147, 0x06ca6351, 0x14292967,
  0x27b70a85, 0x2e1b2138, 0x4d2c6dfc, 0x53380d13, 0x650a7354, 0x766a0abb, 0x81c2c92e, 0x92722c85,
  0xa2bfe8a1, 0xa81a664b, 0xc24b8b70, 0xc76c51a3, 0xd192e819, 0xd6990624, 0xf40e3585, 0x106aa070,
  0x19a4c116, 0x1e376c08, 0x2748774c, 0x34b0bcb5, 0x391c0cb3, 0x4ed8aa4a, 0x5b9cca4f, 0x682e6ff3,
  0x748f82ee, 0x78a5636f, 0x84c87814, 0x8cc70208, 0x90befffa, 0xa4506ceb, 0xbef9a3f7, 0xc67178f2]

/-- The chaining state: eight words. -/
structure State where
  a : UInt32
  b : UInt32
  c : UInt32
  d : UInt32
  e : UInt32
  f : UInt32
  g : UInt32
  h : UInt32

/-- The initial state: fractional parts of the square roots of the first eight primes. -/
def initial : State :=
  ⟨0x6a09e667, 0xbb67ae85, 0x3c6ef372, 0xa54ff53a, 0x510e527f, 0x9b05688c, 0x1f83d9ab, 0x5be0cd19⟩

/-- Rotate a word to the right. -/
def rotr (x : UInt32) (n : UInt32) : UInt32 := (x >>> n) ||| (x <<< (32 - n))

/-- One round, with its constant and its word of the message schedule. -/
def round (s : State) (constant word : UInt32) : State :=
  let s1 := rotr s.e 6 ^^^ rotr s.e 11 ^^^ rotr s.e 25
  let choice := (s.e &&& s.f) ^^^ (~~~s.e &&& s.g)
  let t1 := s.h + s1 + choice + constant + word
  let s0 := rotr s.a 2 ^^^ rotr s.a 13 ^^^ rotr s.a 22
  let majority := (s.a &&& s.b) ^^^ (s.a &&& s.c) ^^^ (s.b &&& s.c)
  ⟨t1 + s0 + majority, s.a, s.b, s.c, s.d + t1, s.e, s.f, s.g⟩

/-- The next word of a message schedule from the sixteen before it, oldest first. -/
def nextWord (window : List UInt32) : UInt32 :=
  let w := fun i ↦ window.getD i 0
  let s0 := rotr (w 1) 7 ^^^ rotr (w 1) 18 ^^^ (w 1 >>> 3)
  let s1 := rotr (w 14) 17 ^^^ rotr (w 14) 19 ^^^ (w 14 >>> 10)
  w 0 + s0 + w 9 + s1

/-- Run the rounds for the remaining constants; the window holds the sixteen coming words. -/
def rounds (s : State) (window : List UInt32) : List UInt32 → State
  | [] => s
  | constant :: rest =>
    rounds (round s constant (window.getD 0 0)) (window.drop 1 ++ [nextWord window]) rest

/-- The big-endian words of a list of bytes; bytes that are missing count as zero. -/
def words : List UInt8 → List UInt32
  | [] => []
  | [a] => [a.toUInt32 <<< 24]
  | [a, b] => [(a.toUInt32 <<< 24) ||| (b.toUInt32 <<< 16)]
  | [a, b, c] => [(a.toUInt32 <<< 24) ||| (b.toUInt32 <<< 16) ||| (c.toUInt32 <<< 8)]
  | a :: b :: c :: d :: rest =>
    ((a.toUInt32 <<< 24) ||| (b.toUInt32 <<< 16) ||| (c.toUInt32 <<< 8) ||| d.toUInt32) ::
      words rest

/-- Take one block of sixteen words into the state. -/
def compress (s : State) (block : List UInt32) : State :=
  let r := rounds s block roundConstants
  ⟨s.a + r.a, s.b + r.b, s.c + r.c, s.d + r.d, s.e + r.e, s.f + r.f, s.g + r.g, s.h + r.h⟩

/-- The bytes of a word, most significant first. -/
def wordBytes (w : UInt32) : List UInt8 :=
  [(w >>> 24).toUInt8, (w >>> 16).toUInt8, (w >>> 8).toUInt8, w.toUInt8]

/-- A message followed by a single bit, by zeros up to eight bytes short of a full block, and by its
length in bits. -/
def pad (message : List UInt8) : List UInt8 :=
  let zeros := (119 - message.length % 64) % 64
  let bits := message.length * 8
  message ++ 0x80 :: List.replicate zeros 0 ++
    wordBytes (bits / UInt32.size).toUInt32 ++ wordBytes bits.toUInt32

/-- Take blocks into the state as long as there are words. -/
def absorb (s : State) (blocks : Nat) (message : List UInt32) : State :=
  match blocks with
  | 0 => s
  | blocks + 1 => absorb (compress s (message.take 16)) blocks (message.drop 16)

/-- The digest of a message. -/
def digest (message : List UInt8) : List UInt8 :=
  let padded := pad message
  let s := absorb initial (padded.length / 64) (words padded)
  [s.a, s.b, s.c, s.d, s.e, s.f, s.g, s.h].flatMap wordBytes

/-- The hexadecimal digits of a byte, in lower case. -/
def hexByte (b : UInt8) : List Char :=
  [Nat.digitChar (b.toNat / 16), Nat.digitChar (b.toNat % 16)]

/-- The digest of a message as hexadecimal digits. -/
def hexDigest (message : List UInt8) : List Char := (digest message).flatMap hexByte

end Sha256

/-! ### Identities -/

/-- The text that is hashed: every part ends its line. -/
def identityText (parts : List String) : String := String.join (parts.map (· ++ "\n"))

/-- The first twelve hexadecimal digits of the SHA-256 digest of the parts. -/
def shortHash (parts : List String) : String :=
  String.ofList ((Sha256.hexDigest (identityText parts).toUTF8.toList).take 12)

/-- Texts in the order of code points. -/
def sortTexts (texts : List String) : List String := texts.mergeSort fun a b ↦ decide (a ≤ b)

/-- Texts in the order of code points, each once. -/
def distinctTexts (texts : List String) : List String := sortTexts texts.eraseDups

end CueFlow
