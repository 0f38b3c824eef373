import KeyedStore.Hash.Accumulator
/-!
The general mixer: a running word to which words are added one at a time. A run of bytes is first
condensed to a single word by two lanes that read it from both ends, sixteen bytes at a time while
more than sixteen are left. Nothing is seeded, so equal inputs give equal words in every run.
-/
namespace KeyedStore

/-- The running word. -/
structure Mixer where
  word : UInt64 := 0
  deriving DecidableEq

/-- The value of some bytes, the least significant one first. -/
def littleEndian (bytes : List UInt8) : Nat :=
  bytes.foldr (fun byte value => byte.toNat + 256 * value) 0

namespace Mixer

/-- The number in a window of the bytes. -/
def window (width offset : Nat) (bytes : List UInt8) : UInt64 :=
  UInt64.ofNat (littleEndian ((bytes.drop offset).take width))

/-- The lower and the upper half of a full product, one entered into the other. -/
def foldProduct (x y : UInt64) : UInt64 :=
  let product := x.toNat * y.toNat
  UInt64.ofNat product ^^^ UInt64.ofNat (product >>> 64)

/-- Two words that a run of bytes is read into. -/
structure Lanes where
  first : UInt64 := 0x243f6a8885a308d3
  second : UInt64 := 0x13198a2e03707344
  deriving DecidableEq

namespace Lanes

def enter (lanes : Lanes) (first second : UInt64) : Lanes :=
  ⟨lanes.first ^^^ first, lanes.second ^^^ second⟩

/-- Sixteen bytes read in the middle of a run. -/
def absorb (lanes : Lanes) (offset : Nat) (bytes : List UInt8) : Lanes :=
  ⟨lanes.second, foldProduct (lanes.first ^^^ window 8 offset bytes)
    (0xa4093822299f31d0 ^^^ window 8 (offset + 8) bytes)⟩

/-- Every whole chunk of sixteen that leaves at least one byte behind it. -/
def absorbChunks (bytes : List UInt8) : Lanes :=
  (List.range ((bytes.length - 1) / 16)).foldl (fun lanes chunk => lanes.absorb (16 * chunk) bytes) {}

/-- A whole run. Its last sixteen bytes close a long one; a short one is read from both ends, and the
two readings may overlap. -/
def read (bytes : List UInt8) : Lanes :=
  let length := bytes.length
  if 16 < length then
    (absorbChunks bytes).enter (window 8 (length - 16) bytes) (window 8 (length - 8) bytes)
  else if 8 ≤ length then
    enter {} (window 8 0 bytes) (window 8 (length - 8) bytes)
  else if 4 ≤ length then
    enter {} (window 4 0 bytes) (window 4 (length - 4) bytes)
  else if 1 ≤ length then
    enter {} (window 1 0 bytes) (window 1 (length - 1) bytes <<< 8 ||| window 1 (length / 2) bytes)
  else {}

end Lanes

/-- A run of bytes as one word. Its length enters last. -/
def condense (bytes : List UInt8) : UInt64 :=
  let lanes := Lanes.read bytes
  foldProduct lanes.first lanes.second ^^^ UInt64.ofNat bytes.length

/-- One more word. -/
def addWord (mixer : Mixer) (word : UInt64) : Mixer :=
  ⟨(mixer.word + word) * 0xf1357aea2e62a9c5⟩

/-- One more run of bytes. -/
def addBytes (mixer : Mixer) (bytes : List UInt8) : Mixer :=
  mixer.addWord (condense bytes)

/-- The word turned left by twenty-six bits, which brings its strongest bits down. -/
def result (mixer : Mixer) : UInt64 :=
  mixer.word <<< 26 ||| mixer.word >>> 38

/-- The hash of a single run of bytes (`hash_bytes`). -/
def ofBytes (bytes : List UInt8) : UInt64 :=
  (addBytes {} bytes).result

end Mixer

end KeyedStore
