import StackScript.Command.Obstacle

-- A working directory held in memory: its files, by the names on the way to each. Of the directories around it
-- only that they exist is known.
namespace StackScript

structure Directory where
  files : List (List String × List UInt8)

namespace Path

def steps (path : String) : List String := (path.splitOn "/").filter (· ≠ "")

-- The greatest sizes, in bytes, of a name and of a whole path.
def maxName : Nat := 255
def maxBytes : Nat := 4095

end Path

inductive Spot where
  | inside (names : List String)
  | outside
deriving DecidableEq

namespace Spot

def parent : Spot → Spot
  | inside [] | outside => outside
  | inside names => inside names.dropLast

end Spot

namespace Directory

inductive Entry where
  | file (content : List UInt8)
  | directory (spot : Spot)
  | absent

def find? (d : Directory) (names : List String) : Option (List UInt8) :=
  (d.files.find? fun (other, _) => other = names).map Prod.snd

def isDirectory (d : Directory) (names : List String) : Bool :=
  d.files.any fun (other, _) => names.length < other.length && names.isPrefixOf other

def entry (d : Directory) (spot : Spot) (name : String) : Except Obstacle Entry :=
  if Path.maxName < name.utf8ByteSize then .error .nameTooLong
  else match spot with
    | .outside => .ok .absent
    | .inside names =>
      let here := names ++ [name]
      match d.find? here with
      | some content => .ok (.file content)
      | none => .ok (if d.isDirectory here then .directory (.inside here) else .absent)

-- Follows steps from a directory, up to a last one that names an entry. Steps that stay or go up lead to
-- directories only.
def follow (d : Directory) (last : Spot → String → Except Obstacle α) : Spot → List String → Except Obstacle α
  | _, [] => .error .isADirectory
  | spot, "." :: steps => follow d last spot steps
  | spot, ".." :: steps => follow d last spot.parent steps
  | spot, [name] => last spot name
  | spot, name :: steps =>
    match d.entry spot name with
    | .ok (.directory spot) => follow d last spot steps
    | .ok (.file _) => .error .notADirectory
    | .ok .absent => .error .noSuchFile
    | .error o => .error o

def followPath (d : Directory) (path : String) (last : Spot → String → Except Obstacle α) : Except Obstacle α :=
  if path.isEmpty then .error .noSuchFile
  else if Path.maxBytes < path.utf8ByteSize then .error .nameTooLong
  else d.follow last (if path.startsWith "/" then .outside else .inside []) (Path.steps path)

-- A slash behind the name asks for a directory.
def read (d : Directory) (path : String) : Except Obstacle (List UInt8) :=
  d.followPath path fun spot name =>
    match d.entry spot name with
    | .ok (.file content) => if path.endsWith "/" then .error .notADirectory else .ok content
    | .ok (.directory _) => .error .isADirectory
    | .ok .absent => .error .noSuchFile
    | .error o => .error o

-- The directory with a file written, which may be new. What is written outside is not kept.
def write (d : Directory) (path : String) (content : List UInt8) : Except Obstacle Directory :=
  d.followPath path fun spot name =>
    if path.endsWith "/" then .error .isADirectory
    else
      match d.entry spot name, spot with
      | .ok (.directory _), _ => .error .isADirectory
      | .ok _, .inside names =>
        let here := names ++ [name]
        .ok ⟨(here, content) :: d.files.filter fun (other, _) => other ≠ here⟩
      | .ok _, .outside => .ok d
      | .error o, _ => .error o

end Directory
end StackScript
