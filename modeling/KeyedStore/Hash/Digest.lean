import KeyedStore.Hash.Mixer
/-!
How values of the usual types are fed to the mixer. A number is added at its own width, a signed one
by its two's complement; a text is a run of bytes closed by a byte that no text contains; a list says
its length first, and elements of fixed width follow as one run.
-/
namespace KeyedStore

/-- Values that the mixer can read. -/
class Digest (α : Type) where
  feed : Mixer → α → Mixer

/-- The general hash of a value (`hash_opaque`). -/
def digest {α : Type} [Digest α] (value : α) : UInt64 :=
  (Digest.feed {} value).result

/-- Elements that lie side by side in a list, each with its least significant byte first. -/
class FixedWidth (α : Type) where
  bytes : α → List UInt8

instance : FixedWidth UInt8 := ⟨fun value => [value]⟩

instance : FixedWidth UInt32 :=
  ⟨fun value => [value.toUInt8, (value >>> 8).toUInt8, (value >>> 16).toUInt8, (value >>> 24).toUInt8]⟩

instance : Digest UInt8 := ⟨fun mixer value => mixer.addWord value.toUInt64⟩
instance : Digest UInt16 := ⟨fun mixer value => mixer.addWord value.toUInt64⟩
instance : Digest UInt32 := ⟨fun mixer value => mixer.addWord value.toUInt64⟩
instance : Digest UInt64 := ⟨fun mixer value => mixer.addWord value⟩

instance : Digest Int8 := ⟨fun mixer value => mixer.addWord value.toUInt8.toUInt64⟩
instance : Digest Int16 := ⟨fun mixer value => mixer.addWord value.toUInt16.toUInt64⟩
instance : Digest Int32 := ⟨fun mixer value => mixer.addWord value.toUInt32.toUInt64⟩
instance : Digest Int64 := ⟨fun mixer value => mixer.addWord value.toUInt64⟩

/-- A double word: its lower half, then its upper half. -/
instance : Digest (BitVec 128) :=
  ⟨fun mixer value =>
    (mixer.addWord (UInt64.ofNat value.toNat)).addWord (UInt64.ofNat (value.toNat >>> 64))⟩

instance : Digest Bool := ⟨fun mixer value => mixer.addWord value.toUInt64⟩

instance : Digest Char := ⟨fun mixer value => mixer.addWord value.val.toUInt64⟩

instance : Digest Unit := ⟨fun mixer _ => mixer⟩

instance {α β : Type} [Digest α] [Digest β] : Digest (α × β) :=
  ⟨fun mixer value => Digest.feed (Digest.feed mixer value.1) value.2⟩

/-- A text is closed, so that the end of one is not taken for the start of the next. -/
instance : Digest String := ⟨fun mixer value => (mixer.addBytes (utf8 value)).addWord 0xff⟩

instance {α : Type} [FixedWidth α] : Digest (List α) :=
  ⟨fun mixer values =>
    (mixer.addWord (UInt64.ofNat values.length)).addBytes (values.flatMap FixedWidth.bytes)⟩

instance : Digest (List String) :=
  ⟨fun mixer values => values.foldl Digest.feed (mixer.addWord (UInt64.ofNat values.length))⟩

end KeyedStore
