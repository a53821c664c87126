import StackScript.Value.Basic

namespace StackScript

-- The first byte of an encoding. Closures and native functions have none.
inductive TypeTag where
  | null
  | integer
  | float
  | boolean
  | string
  | array
  | hash
  | function
deriving DecidableEq

inductive CodecError where
  | unknownType (byte : UInt8)
  | malformed (expected : TypeTag) (reason : String)
  | notEncodable (typeName : String)
  | lengthOverflow (what : String) (length : Nat)
deriving DecidableEq

namespace TypeTag

def all : Array TypeTag := #[null, integer, float, boolean, string, array, hash, function]

def byte (tag : TypeTag) : UInt8 := tag.ctorIdx.toUInt8

def ofByte (b : UInt8) : Except CodecError TypeTag :=
  match all[b.toNat]? with
  | some tag => .ok tag
  | none => .error (.unknownType b)

theorem ofByte_byte (tag : TypeTag) : ofByte tag.byte = .ok tag := by cases tag <;> rfl

def of? : Value → Option TypeTag
  | .null => some null
  | .integer _ => some integer
  | .float _ => some float
  | .boolean _ => some boolean
  | .string _ => some string
  | .array _ => some array
  | .hash _ => some hash
  | .function _ => some function
  | .closure .. | .builtin _ => none

def name : TypeTag → String
  | null => "Null"
  | integer => "Integer"
  | float => "Float"
  | boolean => "Boolean"
  | string => "String"
  | array => "Array"
  | hash => "Hash"
  | function => "CompiledFunction"

end TypeTag

def CodecError.message : CodecError → String
  | unknownType byte => s!"unknown value type: 0x{Text.hex 2 byte.toNat}"
  | malformed expected reason => s!"can't decompile {expected.name}: {reason}"
  | notEncodable typeName => s!"value is not compilable: {typeName}"
  | lengthOverflow what length => s!"{what} of {length} does not fit in 32 bits"

end StackScript
