set_option autoImplicit false

/-! # SHA-256

The hash behind frame checksums. A message is padded to whole blocks of 64 bytes; every block is spread
into a schedule of 64 words and mixed into eight working words. -/

namespace BitcoinCrawl.Sha256

/-! ## Constants -/

/-- The 64 round constants. -/
def roundConstants : Array UInt32 := #[
  0x428a2f98, 0x71374491, 0xb5c0fbcf, 0xe9b5dba5, 0x3956c25b, 0x59f111f1, 0x923f82a4, 0xab1c5ed5,
  0xd807aa98, 0x12835b01, 0x243185be, 0x550c7dc3, 0x72be5d74, 0x80deb1fe, 0x9bdc06a7, 0xc19bf174,
  0xe49b69c1, 0xefbe4786, 0x0fc19dc6, 0x240ca1cc, 0x2de92c6f, 0x4a7484aa, 0x5cb0a9dc, 0x76f988da,
  0x983e5152, 0xa831c66d, 0xb00327c8, 0xbf597fc7, 0xc6e00bf3, 0xd5a79147, 0x06ca6351, 0x14292967,
  0x27b70a85, 0x2e1b2138, 0x4d2c6dfc, 0x53380d13, 0x650a7354, 0x766a0abb, 0x81c2c92e, 0x92722c85,
  0xa2bfe8a1, 0xa81a664b, 0xc24b8b70, 0xc76c51a3, 0xd192e819, 0xd6990624, 0xf40e3585, 0x106aa070,
  0x19a4c116, 0x1e376c08, 0x2748774c, 0x34b0bcb5, 0x391c0cb3, 0x4ed8aa4a, 0x5b9cca4f, 0x682e6ff3,
  0x748f82ee, 0x78a5636f, 0x84c87814, 0x8cc70208, 0x90befffa, 0xa4506ceb, 0xbef9a3f7, 0xc67178f2]

/-- The eight working words. -/
structure Words where
  a : UInt32
  b : UInt32
  c : UInt32
  d : UInt32
  e : UInt32
  f : UInt32
  g : UInt32
  h : UInt32

/-- The working words before the first block. -/
def start : Words :=
  ⟨0x6a09e667, 0xbb67ae85, 0x3c6ef372, 0xa54ff53a, 0x510e527f, 0x9b05688c, 0x1f83d9ab, 0x5be0cd19⟩

/-! ## Padding -/

/-- The length of a message in bits as eight bytes, most significant first. -/
def bitLength (bytes : Nat) : List UInt8 :=
  (List.range 8).map fun i => UInt8.ofNat ((bytes * 8) >>> (8 * (7 - i)))

/-- What is appended to a message of the given length: a one bit, zeros, and the length. -/
def padding (bytes : Nat) : List UInt8 :=
  let zeros := (119 - bytes % 64) % 64
  0x80 :: List.replicate zeros 0 ++ bitLength bytes

/-! ## One block -/

@[inline] def rotr (x : UInt32) (n : UInt32) : UInt32 := (x >>> n) ||| (x <<< (32 - n))

/-- The word of four bytes, most significant first. -/
@[inline] def word (a b c d : UInt8) : UInt32 :=
  (a.toUInt32 <<< 24) ||| (b.toUInt32 <<< 16) ||| (c.toUInt32 <<< 8) ||| d.toUInt32

/-- Append `n` words to a schedule, each from four earlier ones. -/
def extend : Nat → Array UInt32 → Array UInt32
  | 0, w => w
  | n + 1, w =>
    let i := w.size
    let x := w.getD (i - 15) 0
    let y := w.getD (i - 2) 0
    let s0 := rotr x 7 ^^^ rotr x 18 ^^^ (x >>> 3)
    let s1 := rotr y 17 ^^^ rotr y 19 ^^^ (y >>> 10)
    extend n (w.push (w.getD (i - 16) 0 + s0 + w.getD (i - 7) 0 + s1))

/-- Run the last `n` of the 64 rounds. -/
def rounds (w : Array UInt32) : Nat → (a b c d e f g h : UInt32) → Words
  | 0, a, b, c, d, e, f, g, h => ⟨a, b, c, d, e, f, g, h⟩
  | n + 1, a, b, c, d, e, f, g, h =>
    let i := 63 - n
    let s1 := rotr e 6 ^^^ rotr e 11 ^^^ rotr e 25
    let choice := (e &&& f) ^^^ (~~~e &&& g)
    let t1 := h + s1 + choice + roundConstants.getD i 0 + w.getD i 0
    let s0 := rotr a 2 ^^^ rotr a 13 ^^^ rotr a 22
    let majority := (a &&& b) ^^^ (a &&& c) ^^^ (b &&& c)
    rounds w n (t1 + (s0 + majority)) a b c (d + t1) e f g

/-- Mix the sixteen words of a block into the working words. -/
def mixBlock (s : Words) (block : Array UInt32) : Words :=
  let w := extend 48 block
  let r := rounds w 64 s.a s.b s.c s.d s.e s.f s.g s.h
  ⟨s.a + r.a, s.b + r.b, s.c + r.c, s.d + r.d, s.e + r.e, s.f + r.f, s.g + r.g, s.h + r.h⟩

/-! ## Whole messages -/

/-- Mix in all blocks of a padded message. `block` holds the words of the block read so far. -/
def mix (s : Words) (block : Array UInt32) : List UInt8 → Words
  | a :: b :: c :: d :: rest =>
    let block := block.push (word a b c d)
    if block.size = 16 then mix (mixBlock s block) (Array.emptyWithCapacity 64) rest
    else mix s block rest
  | _ => s

/-- The bytes of a word, most significant first. -/
def wordBytes (x : UInt32) : List UInt8 :=
  [(x >>> 24).toUInt8, (x >>> 16).toUInt8, (x >>> 8).toUInt8, x.toUInt8]

/-- The 32 bytes of the hash of a message. -/
def hash (message : List UInt8) : List UInt8 :=
  let s := mix start #[] (message ++ padding message.length)
  [s.a, s.b, s.c, s.d, s.e, s.f, s.g, s.h].flatMap wordBytes

/-- The hash of the hash. -/
def hashTwice (message : List UInt8) : List UInt8 := hash (hash message)

end BitcoinCrawl.Sha256
