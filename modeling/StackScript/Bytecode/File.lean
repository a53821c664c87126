import StackScript.Bytecode.Basic
import StackScript.Codec.Decode
import StackScript.Codec.Encode

-- Program files: four bytes of magic, four of a signature that names the language, a version of three two-byte
-- numbers, the counted constants, the counted code, and nothing after it.
namespace StackScript

structure Version where
  major : Nat
  minor : Nat
  patch : Nat
deriving DecidableEq

namespace Version

def text (v : Version) : String := s!"{v.major}.{v.minor}.{v.patch}"

-- A reader knows the files of its own major version up to its own minor one.
def canRead (reader file : Version) : Bool := file.major = reader.major && file.minor ≤ reader.minor

end Version

inductive Damage where
  | noMagic
  | endOfFile (offset wanted : Nat)
  | constant (number : Nat) (error : CodecError)
  | trailing (count : Nat)
deriving DecidableEq

inductive LoadError where
  | damaged (damage : Damage)
  | otherLanguage (expected found : Nat)
  | otherVersion (expected found : Version)
  | notEncodable (error : CodecError)
  | unavailable (reason : String)
deriving DecidableEq

def Damage.message : Damage → String
  | noMagic => "missing HRMS header"
  | endOfFile offset wanted => s!"unexpected end of file at byte {offset} (wanted {wanted} more)"
  | constant number error => s!"constant {number}: {error.message}"
  | trailing count => s!"{count} trailing bytes"

def LoadError.message : LoadError → String
  | damaged damage => s!"invalid binary file: {damage.message}"
  | otherLanguage expected found =>
    s!"program was compiled for another language (signature 0x{Text.hex 8 found}, expected 0x{Text.hex 8 expected})"
  | otherVersion expected found => s!"unsupported bytecode version {found.text}, this build reads {expected.text}"
  | notEncodable error => s!"cannot encode program: {error.message}"
  | unavailable reason => reason

namespace Bytecode

-- "HRMS"
def magic : List UInt8 := [0x48, 0x52, 0x4d, 0x53]

-- The version that is written, and up to which files are read.
def formatVersion : Version := ⟨1, 0, 0⟩

-- "MKEY"
def languageSignature : Nat := 0x4d4b4559

-- The file of a program. It fails only where a constant or a count has no encoding.
def toFile (signature : Nat) (b : Bytecode) : Except CodecError (Array UInt8) := do
  let version := [formatVersion.major, formatVersion.minor, formatVersion.patch]
  let header := magic ++ bigEndian 4 signature ++ version.flatMap (bigEndian 2)
  let out ← putCount header.toArray "constant count" b.constants.size
  let out ← Value.encodeItems out b.constants.toList
  let out ← putCount out "code length" b.code.size
  return out ++ b.code

namespace File

-- Takes bytes from the front of those that are left, or finds the file to be no program.
abbrev Reading := StateT (List UInt8) (Except LoadError)

def take (size n : Nat) : Reading (List UInt8) := fun bytes =>
  let front := bytes.take n
  if front.length = n then .ok (front, bytes.drop n)
  else .error (.damaged (.endOfFile (size - bytes.length) n))

def number (size width : Nat) : Reading Nat := do return ofBigEndian (← take size width)

def constant (number : Nat) : Reading Value := fun bytes =>
  match Decode.value bytes with
  | .ok read => .ok read
  | .error e => .error (.damaged (.constant number e))

def constants : (n : Nat) → Array Value → Reading (Array Value)
  | 0, read => return read
  | n + 1, read => do
    let v ← constant read.size
    constants n (read.push v)

def program (signature size : Nat) : Reading Bytecode := do
  if (← take size 4) ≠ magic then throw (.damaged .noMagic)
  let found ← number size 4
  if found ≠ signature then throw (.otherLanguage signature found)
  let version : Version := ⟨← number size 2, ← number size 2, ← number size 2⟩
  if !formatVersion.canRead version then throw (.otherVersion formatVersion version)
  let constants ← constants (← number size 4) #[]
  let code ← take size (← number size 4)
  let rest ← get
  if !rest.isEmpty then throw (.damaged (.trailing rest.length))
  return ⟨code.toArray, constants⟩

end File

def ofFile (signature : Nat) (bytes : List UInt8) : Except LoadError Bytecode :=
  (File.program signature bytes.length).run' bytes

end Bytecode
end StackScript
