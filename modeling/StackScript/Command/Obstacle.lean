namespace StackScript

inductive Obstacle where
  | noSuchFile
  | noPermission
  | notADirectory
  | isADirectory
  | nameTooLong
deriving DecidableEq

namespace Obstacle

def code : Obstacle → Nat
  | noSuchFile => 2
  | noPermission => 13
  | notADirectory => 20
  | isADirectory => 21
  | nameTooLong => 36

def all : List Obstacle := [noSuchFile, noPermission, notADirectory, isADirectory, nameTooLong]

def ofCode? (n : Nat) : Option Obstacle := all.find? (·.code = n)

theorem ofCode?_code (o : Obstacle) : ofCode? o.code = some o := by cases o <;> rfl

def text : Obstacle → String
  | noSuchFile => "No such file or directory"
  | noPermission => "Permission denied"
  | notADirectory => "Not a directory"
  | isADirectory => "Is a directory"
  | nameTooLong => "File name too long"

def message (o : Obstacle) : String := s!"{o.text} (os error {o.code})"

end Obstacle
end StackScript
