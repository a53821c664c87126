import StackScript.Codec.TypeTag

-- Decoding of values from the front of some bytes. What follows a value is left unread.
namespace StackScript

-- Takes bytes from the front of those that are left, or finds them malformed.
abbrev Reading := StateT (List UInt8) (Except CodecError)

namespace Decode

def maxNesting : Nat := 512

def take (tag : TypeTag) (n : Nat) : Reading (List UInt8) := fun bytes =>
  let front := bytes.take n
  if front.length = n then .ok (front, bytes.drop n) else .error (.malformed tag "unexpected end of input")

-- A number of `width` bytes, the most significant first.
def number (tag : TypeTag) (width : Nat) : Reading Nat := do return ofBigEndian (← take tag width)

-- `n` values in a row, after those already read, which stand in reverse.
def items (element : Reading Value) : (n : Nat) → List Value → Reading (List Value)
  | 0, read => return read.reverse
  | n + 1, read => do
    let v ← element
    items element n (v :: read)

-- `n` pairs in a row, put in with those already read. The last value of a key stays.
def pairs (element : Reading Value) : (n : Nat) → List (Key × Value) → Reading (List (Key × Value))
  | 0, read => return read
  | n + 1, read => do
    match (← element).key? with
    | none => throw (.malformed .hash "hash key is not hashable")
    | some k =>
      let v ← element
      pairs element n (Value.insert k v read)

-- What follows the type's byte. `element` reads a value inside an array or a hash.
def payload (element : Reading Value) (tag : TypeTag) : Reading Value := do
  match tag with
  | .null => return .null
  | .integer => return .integer (← number tag 4).toUInt32.toInt32
  | .float => return .float ⟨(← number tag 8).toUInt64⟩
  | .boolean =>
    match ← number tag 1 with
    | 0 => return .boolean false
    | 1 => return .boolean true
    | _ => throw (.malformed tag "boolean byte is not 0 or 1")
  | .string =>
    let text ← take tag (← number tag 4)
    match String.fromUTF8? ⟨text.toArray⟩ with
    | some s => return .string s
    | none => throw (.malformed tag "invalid UTF-8")
  | .array => return .array (← items element (← number tag 4) [])
  | .hash => return .hash (← pairs element (← number tag 4) [])
  | .function =>
    let parameters ← number tag 4
    let locals ← number tag 4
    let code ← take tag (← number tag 4)
    return .function ⟨code.toArray, parameters, locals⟩

-- A value that at most `levels` more arrays and hashes may enclose.
def nested : (levels : Nat) → Reading Value
  | levels, bytes =>
    match bytes with
    | [] => .error (.malformed .null "empty input")
    | b :: bytes =>
      match TypeTag.ofByte b with
      | .error e => .error e
      | .ok tag =>
        let element : Reading Value := match levels with
          | 0 => throw (.malformed tag "nesting too deep")
          | levels + 1 => nested levels
        payload element tag bytes

def value : Reading Value := nested maxNesting

def ofType (tag : TypeTag) : Reading Value
  | [] => .error (.malformed tag "unexpected end of input")
  | b :: bytes => if b = tag.byte then value (b :: bytes) else .error (.unknownType b)

-- Values until nothing is left, after those already read. Each takes a byte, so `fuel` bytes last.
def valuesFrom : (fuel : Nat) → List Value → List UInt8 → Except CodecError (List Value)
  | 0, read, _ => .ok read.reverse
  | fuel + 1, read, bytes =>
    if bytes.isEmpty then .ok read.reverse
    else
      match value bytes with
      | .ok (v, bytes) => valuesFrom fuel (v :: read) bytes
      | .error e => .error e

def values (bytes : List UInt8) : Except CodecError (List Value) := valuesFrom bytes.length [] bytes

end Decode
end StackScript
