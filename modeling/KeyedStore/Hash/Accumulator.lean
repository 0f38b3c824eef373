/-!
The string hash: a running word that each byte multiplies by thirty-three and then enters by
exclusive or, wrapping at sixty-four bits.
-/
namespace KeyedStore

/-- The bytes of a text in UTF-8. -/
def utf8 (text : String) : List UInt8 := text.toUTF8.data.toList

namespace Accumulator

/-- The word before any byte. -/
def start : UInt64 := 5381

/-- One more byte. -/
def step (word : UInt64) (byte : UInt8) : UInt64 := word * 33 ^^^ byte.toUInt64

/-- Continues a running word through some bytes. -/
def resume (word : UInt64) (bytes : List UInt8) : UInt64 := bytes.foldl step word

def ofBytes (bytes : List UInt8) : UInt64 := resume start bytes

/-- The string hash of a text (`hash_str`). -/
def ofString (text : String) : UInt64 := ofBytes (utf8 text)

theorem ofBytes_append (before after : List UInt8) :
    ofBytes (before ++ after) = resume (ofBytes before) after :=
  List.foldl_append

end Accumulator

end KeyedStore
