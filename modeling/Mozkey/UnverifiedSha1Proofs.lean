import Mozkey.ByteStringProofs

/-! # UnverifiedSHA1 — the digest of a file

    The iterator hands out a message of 64 bytes at a time: the source, a marker, zeros, and
    the length of the source in the last eight bytes. -/

namespace MozkeySha1

open ByteString

/-! ## The functions and the constants -/

/-- The function of a round. -/
def f (t : Nat) (x y z : UInt32) : UInt32 :=
  if t < 20 then (x &&& y) ^^^ (~~~x &&& z)
  else if t < 40 then x ^^^ y ^^^ z
  else if t < 60 then (x &&& y) ^^^ (x &&& z) ^^^ (y &&& z)
  else x ^^^ y ^^^ z

/-- A rotation to the left. -/
def rotl (n x : UInt32) : UInt32 := (x <<< n) ||| (x >>> (32 - n))

/-- The constant of a round. -/
def k (t : Nat) : UInt32 :=
  if t < 20 then 0x5a827999
  else if t < 40 then 0x6ed9eba1
  else if t < 60 then 0x8f1bbcdc
  else 0xca62c1d6

/-- The bytes of a word, the highest first. -/
def storeUint32 (x : UInt32) : Bytes :=
  [(x >>> 24).toUInt8, (x >>> 16).toUInt8, (x >>> 8).toUInt8, x.toUInt8]

/-- The bytes of a double word, the highest first. -/
def storeUint64 (x : UInt64) : Bytes :=
  storeUint32 (x >>> 32).toUInt32 ++ storeUint32 x.toUInt32

/-- The words that a message holds. -/
def loadUint32s : Bytes → List UInt32
  | a :: b :: c :: d :: bytes =>
    (a.toUInt32 <<< 24 ||| b.toUInt32 <<< 16 ||| c.toUInt32 <<< 8 ||| d.toUInt32)
      :: loadUint32s bytes
  | _ => []

/-! ## The messages -/

/-- The bytes of a block. -/
abbrev kMessageBlockBytes : Nat := 64

/-- Where the size of the message starts in the last block. -/
abbrev kMessageBlockZeroFillLimit : Nat := kMessageBlockBytes - 8

/-- `GetTotalMessageCount`: with the padding. -/
def getTotalMessageCount (originalMessageSize : Nat) : Nat :=
  (originalMessageSize + 1 + 8 + kMessageBlockBytes - 1) / kMessageBlockBytes

/-- `FillNextMessage`: a block with its padding. -/
def fillNextMessage (source : Bytes) (messageIndex : Nat) : Bytes :=
  let baseIndex := messageIndex * kMessageBlockBytes
  let rest := source.drop baseIndex
  if kMessageBlockBytes ≤ rest.length then rest.take kMessageBlockBytes
  else
    -- the marker stands in the message where the source ends
    let dest := if baseIndex + rest.length = source.length then rest ++ [0x80] else rest
    if kMessageBlockZeroFillLimit < dest.length then
      dest ++ List.replicate (kMessageBlockBytes - dest.length) 0
    else
      dest ++ List.replicate (kMessageBlockZeroFillLimit - dest.length) 0
        ++ storeUint64 (UInt64.ofNat (source.length * 8))

/-! ## The digest -/

/-- The words of the digest. -/
structure Hash where
  a : UInt32
  b : UInt32
  c : UInt32
  d : UInt32
  e : UInt32

/-- The message schedule, the latest word first. -/
def schedule : Nat → List UInt32 → List UInt32
  | 0, w => w
  | n + 1, w =>
    schedule n (rotl 1 (w.getD 2 0 ^^^ w.getD 7 0 ^^^ w.getD 13 0 ^^^ w.getD 15 0) :: w)

/-- A step with a word of the schedule. -/
def round (t : Nat) (h : Hash) (word : UInt32) : Hash :=
  { a := rotl 5 h.a + f t h.b h.c h.d + h.e + word + k t
    b := h.a
    c := rotl 30 h.b
    d := h.c
    e := h.d }

/-- The steps of a message. -/
def rounds : Nat → Hash → List UInt32 → Hash
  | _, h, [] => h
  | t, h, word :: words => rounds (t + 1) (round t h word) words

/-- The hash behind a message. -/
def process (h : Hash) (message : Bytes) : Hash :=
  let h' := rounds 0 h (schedule 64 (loadUint32s message).reverse).reverse
  { a := h.a + h'.a, b := h.b + h'.b, c := h.c + h'.c, d := h.d + h'.d, e := h.e + h'.e }

/-- `AsByteStream`. -/
def asByteStream (h : Hash) : Bytes :=
  storeUint32 h.a ++ storeUint32 h.b ++ storeUint32 h.c ++ storeUint32 h.d ++ storeUint32 h.e

/-- `UnverifiedSHA1::MakeDigest`. -/
def makeDigest (source : Bytes) : Bytes :=
  asByteStream (((List.range (getTotalMessageCount source.length)).map
      (fillNextMessage source)).foldl process
    { a := 0x67452301, b := 0xefcdab89, c := 0x98badcfe, d := 0x10325476, e := 0xc3d2e1f0 })

/-- **A DIGEST HAS TWENTY BYTES.** -/
@[simp] theorem length_makeDigest (source : Bytes) : (makeDigest source).length = 20 := rfl

example : makeDigest [0x61, 0x62, 0x63]
    = [0xa9, 0x99, 0x3e, 0x36, 0x47, 0x06, 0x81, 0x6a, 0xba, 0x3e,
      0x25, 0x71, 0x78, 0x50, 0xc2, 0x6c, 0x9c, 0xd0, 0xd8, 0x9d] := by decide +kernel

end MozkeySha1
