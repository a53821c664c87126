import StackScript.Codec.TypeTag

-- Encoding of values: the type's byte, then the payload. Numbers are written with their most significant byte
-- first; counts and lengths take four bytes and stand before what they count.
namespace StackScript

def putCount (out : Array UInt8) (what : String) (count : Nat) : Except CodecError (Array UInt8) :=
  if count < byteRange 4 then .ok (out ++ bigEndian 4 count) else .error (.lengthOverflow what count)

namespace Key

def encodeOnto (out : Array UInt8) : Key → Except CodecError (Array UInt8)
  | integer n => .ok (out.push TypeTag.integer.byte ++ bigEndian 4 n.toUInt32.toNat)
  | boolean b => .ok ((out.push TypeTag.boolean.byte).push (if b then 1 else 0))
  | string s => do
    let out ← putCount (out.push TypeTag.string.byte) "string length" s.utf8ByteSize
    return out ++ s.toUTF8.data

end Key

namespace Value

mutual

-- Adds the encoding of a value. The pairs of a hash are written in the order of their keys.
def encodeOnto (out : Array UInt8) : Value → Except CodecError (Array UInt8)
  | null => .ok (out.push TypeTag.null.byte)
  | integer n => Key.encodeOnto out (.integer n)
  | float x => .ok (out.push TypeTag.float.byte ++ bigEndian 8 x.bits.toNat)
  | boolean b => Key.encodeOnto out (.boolean b)
  | string s => Key.encodeOnto out (.string s)
  | array items =>
    match putCount (out.push TypeTag.array.byte) "array length" items.length with
    | .ok out => encodeItems out items
    | .error e => .error e
  | hash pairs =>
    match putCount (out.push TypeTag.hash.byte) "hash size" pairs.length with
    | .ok out => encodePairs out pairs
    | .error e => .error e
  | function r => do
    let out ← putCount (out.push TypeTag.function.byte) "parameter count" r.parameters
    let out ← putCount out "local count" r.locals
    let out ← putCount out "instruction length" r.code.size
    return out ++ r.code
  | closure r captured => .error (.notEncodable (closure r captured).typeName)
  | builtin b => .error (.notEncodable (builtin b).typeName)

def encodeItems (out : Array UInt8) : List Value → Except CodecError (Array UInt8)
  | [] => .ok out
  | x :: xs =>
    match x.encodeOnto out with
    | .ok out => encodeItems out xs
    | .error e => .error e

def encodePairs (out : Array UInt8) : List (Key × Value) → Except CodecError (Array UInt8)
  | [] => .ok out
  | (k, x) :: ps =>
    match k.encodeOnto out with
    | .ok out =>
      match x.encodeOnto out with
      | .ok out => encodePairs out ps
      | .error e => .error e
    | .error e => .error e

end

def encode (v : Value) : Except CodecError (Array UInt8) := v.encodeOnto #[]

end Value
end StackScript
