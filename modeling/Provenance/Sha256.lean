import Provenance.Digest

/-!
SHA-256, the hash behind every digest of the library.
The message is padded to whole blocks of sixteen words, each block is expanded to
sixty-four words, and every word is mixed into eight chaining words.
-/
namespace Provenance.Sha256

structure State where
  a : UInt32
  b : UInt32
  c : UInt32
  d : UInt32
  e : UInt32
  f : UInt32
  g : UInt32
  h : UInt32

def start : State :=
  ⟨0x6a09e667, 0xbb67ae85, 0x3c6ef372, 0xa54ff53a, 0x510e527f, 0x9b05688c, 0x1f83d9ab, 0x5be0cd19⟩

def roundConstants : List UInt32 :=
  [0x428a2f98, 0x71374491, 0xb5c0fbcf, 0xe9b5dba5, 0x3956c25b, 0x59f111f1, 0x923f82a4, 0xab1c5ed5,
   0xd807aa98, 0x12835b01, 0x243185be, 0x550c7dc3, 0x72be5d74, 0x80deb1fe, 0x9bdc06a7, 0xc19bf174,
   0xe49b69c1, 0xefbe4786, 0x0fc19dc6, 0x240ca1cc, 0x2de92c6f, 0x4a7484aa, 0x5cb0a9dc, 0x76f988da,
   0x983e5152, 0xa831c66d, 0xb00327c8, 0xbf597fc7, 0xc6e00bf3, 0xd5a79147, 0x06ca6351, 0x14292967,
   0x27b70a85, 0x2e1b2138, 0x4d2c6dfc, 0x53380d13, 0x650a7354, 0x766a0abb, 0x81c2c92e, 0x92722c85,
   0xa2bfe8a1, 0xa81a664b, 0xc24b8b70, 0xc76c51a3, 0xd192e819, 0xd6990624, 0xf40e3585, 0x106aa070,
   0x19a4c116, 0x1e376c08, 0x2748774c, 0x34b0bcb5, 0x391c0cb3, 0x4ed8aa4a, 0x5b9cca4f, 0x682e6ff3,
   0x748f82ee, 0x78a5636f, 0x84c87814, 0x8cc70208, 0x90befffa, 0xa4506ceb, 0xbef9a3f7, 0xc67178f2]

@[inline]
def rotateRight (x n : UInt32) : UInt32 := (x >>> n) ||| (x <<< (32 - n))

@[inline]
def byteAt (message : ByteArray) (i : Nat) : UInt32 :=
  if h : i < message.size then message[i].toUInt32 else 0

/-- The four bytes from `i` on, the highest first. -/
@[inline]
def wordAt (message : ByteArray) (i : Nat) : UInt32 :=
  (byteAt message i <<< 24) ||| (byteAt message (i + 1) <<< 16) |||
    (byteAt message (i + 2) <<< 8) ||| byteAt message (i + 3)

def wordsAt (message : ByteArray) (offset : Nat) : (count : Nat) → Array UInt32
  | 0 => .emptyWithCapacity 64
  | n + 1 => (wordsAt message offset n).push (wordAt message (offset + 4 * n))

/-- Adds words to a block, each from four of the sixteen before it. -/
def expand : (count : Nat) → Array UInt32 → Array UInt32
  | 0, w => w
  | n + 1, w =>
    let i := w.size
    let x := w.getD (i - 15) 0
    let y := w.getD (i - 2) 0
    let s0 := rotateRight x 7 ^^^ rotateRight x 18 ^^^ (x >>> 3)
    let s1 := rotateRight y 17 ^^^ rotateRight y 19 ^^^ (y >>> 10)
    expand n (w.push (w.getD (i - 16) 0 + s0 + w.getD (i - 7) 0 + s1))

@[inline]
def round (s : State) (k w : UInt32) : State :=
  let s1 := rotateRight s.e 6 ^^^ rotateRight s.e 11 ^^^ rotateRight s.e 25
  let choice := (s.e &&& s.f) ^^^ (~~~s.e &&& s.g)
  let t1 := s.h + s1 + choice + k + w
  let s0 := rotateRight s.a 2 ^^^ rotateRight s.a 13 ^^^ rotateRight s.a 22
  let majority := (s.a &&& s.b) ^^^ (s.a &&& s.c) ^^^ (s.b &&& s.c)
  ⟨t1 + (s0 + majority), s.a, s.b, s.c, s.d + t1, s.e, s.f, s.g⟩

/-- One round for each constant, with the words from position `i` on. -/
def rounds (w : Array UInt32) : (i : Nat) → List UInt32 → State → State
  | _, [], s => s
  | i, k :: ks, s => rounds w (i + 1) ks (round s k (w.getD i 0))

def compress (s : State) (w : Array UInt32) : State :=
  let t := rounds w 0 roundConstants s
  ⟨s.a + t.a, s.b + t.b, s.c + t.c, s.d + t.d, s.e + t.e, s.f + t.f, s.g + t.g, s.h + t.h⟩

def absorb (message : ByteArray) : (blocks offset : Nat) → State → State
  | 0, _, s => s
  | n + 1, offset, s =>
    absorb message n (offset + 64) (compress s (expand 48 (wordsAt message offset 16)))

/-- The message, a one bit, zeros up to eight bytes below a block, and the length in bits. -/
def pad (message : ByteArray) : ByteArray :=
  let length := message.size
  let bits := UInt64.ofNat (8 * length)
  let tail := [56, 48, 40, 32, 24, 16, 8, 0].map fun shift : UInt64 => (bits >>> shift).toUInt8
  (0x80 :: (List.replicate ((119 - length % 64) % 64) 0 ++ tail)).foldl .push message

def wordBytes (w : UInt32) : List UInt8 :=
  [(w >>> 24).toUInt8, (w >>> 16).toUInt8, (w >>> 8).toUInt8, w.toUInt8]

def State.digest (s : State) : Digest :=
  ⟨[s.a, s.b, s.c, s.d, s.e, s.f, s.g, s.h].flatMap wordBytes, rfl⟩

def digest (message : ByteArray) : Digest :=
  let padded := pad message
  (absorb padded (padded.size / 64) 0 start).digest

def hash : Hash := fun bytes => digest ⟨bytes.toArray⟩

end Provenance.Sha256
