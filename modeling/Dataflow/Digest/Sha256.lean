/-! The SHA-256 hash. -/

namespace Dataflow.Sha256

/-- The constant of each round: the first bits of the cube roots of the first 64 primes. -/
def roundConstants : List UInt32 :=
  [0x428a2f98, 0x71374491, 0xb5c0fbcf, 0xe9b5dba5, 0x3956c25b, 0x59f111f1, 0x923f82a4, 0xab1c5ed5,
   0xd807aa98, 0x12835b01, 0x243185be, 0x550c7dc3, 0x72be5d74, 0x80deb1fe, 0x9bdc06a7, 0xc19bf174,
   0xe49b69c1, 0xefbe4786, 0x0fc19dc6, 0x240ca1cc, 0x2de92c6f, 0x4a7484aa, 0x5cb0a9dc, 0x76f988da,
   0x983e5152, 0xa831c66d, 0xb00327c8, 0xbf597fc7, 0xc6e00bf3, 0xd5a79147, 0x06ca6351, 0x14292967,
   0x27b70a85, 0x2e1b2138, 0x4d2c6dfc, 0x53380d13, 0x650a7354, 0x766a0abb, 0x81c2c92e, 0x92722c85,
   0xa2bfe8a1, 0xa81a664b, 0xc24b8b70, 0xc76c51a3, 0xd192e819, 0xd6990624, 0xf40e3585, 0x106aa070,
   0x19a4c116, 0x1e376c08, 0x2748774c, 0x34b0bcb5, 0x391c0cb3, 0x4ed8aa4a, 0x5b9cca4f, 0x682e6ff3,
   0x748f82ee, 0x78a5636f, 0x84c87814, 0x8cc70208, 0x90befffa, 0xa4506ceb, 0xbef9a3f7, 0xc67178f2]

/-- The eight words that a hash is computed in. -/
structure Registers where
  a : UInt32
  b : UInt32
  c : UInt32
  d : UInt32
  e : UInt32
  f : UInt32
  g : UInt32
  h : UInt32

namespace Registers

/-- The words to start with: the first bits of the square roots of the first eight primes. -/
def initial : Registers :=
  ⟨0x6a09e667, 0xbb67ae85, 0x3c6ef372, 0xa54ff53a, 0x510e527f, 0x9b05688c, 0x1f83d9ab, 0x5be0cd19⟩

def add (x y : Registers) : Registers :=
  ⟨x.a + y.a, x.b + y.b, x.c + y.c, x.d + y.d, x.e + y.e, x.f + y.f, x.g + y.g, x.h + y.h⟩

def toList (x : Registers) : List UInt32 :=
  [x.a, x.b, x.c, x.d, x.e, x.f, x.g, x.h]

end Registers

def rotateRight (word : UInt32) (count : UInt32) : UInt32 :=
  (word >>> count) ||| (word <<< (32 - count))

/-- One round with its constant and its word of the message. -/
def round (x : Registers) (constant word : UInt32) : Registers :=
  let sum1 := rotateRight x.e 6 ^^^ rotateRight x.e 11 ^^^ rotateRight x.e 25
  let choice := (x.e &&& x.f) ^^^ (~~~x.e &&& x.g)
  let first := x.h + sum1 + choice + constant + word
  let sum0 := rotateRight x.a 2 ^^^ rotateRight x.a 13 ^^^ rotateRight x.a 22
  let majority := (x.a &&& x.b) ^^^ (x.a &&& x.c) ^^^ (x.b &&& x.c)
  ⟨first + (sum0 + majority), x.a, x.b, x.c, x.d + first, x.e, x.f, x.g⟩

/-- The word that follows sixteen words of the schedule. -/
def nextWord : List UInt32 → UInt32
  | [w0, w1, _, _, _, _, _, _, _, w9, _, _, _, _, w14, _] =>
    let small0 := rotateRight w1 7 ^^^ rotateRight w1 18 ^^^ (w1 >>> 3)
    let small1 := rotateRight w14 17 ^^^ rotateRight w14 19 ^^^ (w14 >>> 10)
    w0 + small0 + w9 + small1
  | _ => 0

/-- Goes through the rounds, where `window` holds the next sixteen words of the schedule. -/
def rounds : List UInt32 → List UInt32 → Registers → Registers
  | constant :: constants, word :: window, x =>
    rounds constants (window ++ [nextWord (word :: window)]) (round x constant word)
  | _, _, x => x

/-- Takes a block of sixteen words into the hash. -/
def compress (x : Registers) (block : List UInt32) : Registers :=
  x.add (rounds roundConstants block x)

/-- The bytes of a number, the most significant one first. -/
def bigEndian (count value : Nat) : List UInt8 :=
  (List.range count).reverse.map fun index => UInt8.ofNat (value >>> (8 * index))

/-- The padding behind a message: one bit, zeros, and the length in bits. -/
def padding (length : Nat) : List UInt8 :=
  -- With the marker and the eight bytes of the length the message fills whole blocks of 64 bytes.
  0x80 :: List.replicate ((119 - length % 64) % 64) 0 ++ bigEndian 8 (8 * length)

def toWords : List UInt8 → List UInt32
  | a :: b :: c :: d :: rest =>
    ((a.toUInt32 <<< 24) ||| (b.toUInt32 <<< 16) ||| (c.toUInt32 <<< 8) ||| d.toUInt32) ::
      toWords rest
  | _ => []

/-- Takes the given number of blocks into the hash. -/
def absorb : Nat → Registers → List UInt32 → Registers
  | 0, x, _ => x
  | count + 1, x, words => absorb count (compress x (words.take 16)) (words.drop 16)

def digest (message : List UInt8) : List UInt8 :=
  let words := toWords (message ++ padding message.length)
  let x := absorb (words.length / 16) .initial words
  x.toList.flatMap fun word => bigEndian 4 word.toNat

/-- Two hexadecimal digits in lower case. -/
def hexByte (byte : UInt8) : List Char :=
  [Nat.digitChar (byte.toNat / 16), Nat.digitChar (byte.toNat % 16)]

/-- The hash of a text in UTF-8, in hexadecimal. -/
def hexDigest (text : String) : String :=
  String.ofList ((digest text.toUTF8.toList).flatMap hexByte)

end Dataflow.Sha256
