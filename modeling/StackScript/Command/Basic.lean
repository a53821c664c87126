namespace StackScript

inductive Command where
  | run (file : String)
  | build (file : String) (out : Option String)
  | exec (file : String)
  | disassemble (file : String)
  | tree (file : String)
  | interact
  | help
  | version
deriving DecidableEq

namespace Command

structure Form where
  takesFile : Bool
  takesOut : Bool

structure Arguments where
  file : Option String
  out : Option String

inductive Understood (α : Type) where
  | done (x : α)
  | command (c : Command) -- one that needs nothing more
  | misuse

-- A value for the output option, which is given once and is not empty.
def Arguments.withOut? (a : Arguments) (path : String) : Option Arguments :=
  if a.out.isSome || path.isEmpty then none else some { a with out := some path }

-- What a cluster of one-letter options comes to. The output option takes what is behind it as its value; without
-- that it is pending.
inductive Cluster where
  | flags
  | pending
  | out (path : String)
  | help
  | version
  | misuse

def cluster (takesOut takesVersion : Bool) : List Char → Cluster
  | [] => .flags
  | 'v' :: rest => cluster takesOut takesVersion rest
  | 'h' :: _ => .help
  | 'V' :: _ => if takesVersion then .version else .misuse
  | 'o' :: rest =>
    if !takesOut then .misuse
    else match rest with
      | [] => .pending
      | '=' :: path => .out (String.ofList path)
      | path => .out (String.ofList path)
  | _ => .misuse

-- Whether an argument stands for itself rather than for options. A lone dash does.
def isPlain (argument : String) : Bool := !argument.startsWith "-" || argument = "-"

-- The arguments of a command, after those already read. Behind two dashes everything is a file.
def readArguments (form : Form) (onlyFiles : Bool) (read : Arguments) : List String → Understood Arguments
  | [] => .done read
  | argument :: rest =>
    if onlyFiles || isPlain argument then
      if form.takesFile && read.file.isNone && !argument.isEmpty then
        readArguments form onlyFiles { read with file := some argument } rest
      else .misuse
    else if argument = "--" then readArguments form true read rest
    else if argument = "--help" then .command .help
    else if argument = "--verbose" then readArguments form false read rest
    else if form.takesOut && argument = "--out" then outValue read rest
    else if form.takesOut && argument.startsWith "--out=" then
      match read.withOut? (argument.drop 6).toString with
      | some read => readArguments form false read rest
      | none => .misuse
    else
      match cluster form.takesOut false (argument.toList.drop 1) with
      | .flags => readArguments form false read rest
      | .pending => outValue read rest
      | .out path =>
        match read.withOut? path with
        | some read => readArguments form false read rest
        | none => .misuse
      | .help => .command .help
      | .version | .misuse => .misuse
termination_by arguments => arguments.length
where
  -- The output option's value is the next argument.
  outValue (read : Arguments) : List String → Understood Arguments
    | path :: rest =>
      if isPlain path then
        match read.withOut? path with
        | some read => readArguments form false read rest
        | none => .misuse
      else .misuse
    | [] => .misuse
  termination_by arguments => arguments.length

def names : List String := ["run", "build", "exec", "disasm", "ast", "repl", "help"]

def onFile (arguments : List String) (command : String → Command) : Option Command :=
  match readArguments ⟨true, false⟩ false ⟨none, none⟩ arguments with
  | .done ⟨some file, _⟩ => some (command file)
  | .command c => some c
  | _ => none

def ofName (name : String) (arguments : List String) : Option Command :=
  match name with
  | "run" => onFile arguments .run
  | "exec" => onFile arguments .exec
  | "disasm" => onFile arguments .disassemble
  | "ast" => onFile arguments .tree
  | "build" =>
    match readArguments ⟨true, true⟩ false ⟨none, none⟩ arguments with
    | .done ⟨some file, out⟩ => some (.build file out)
    | .command c => some c
    | _ => none
  | "repl" =>
    match readArguments ⟨false, false⟩ false ⟨none, none⟩ arguments with
    | .done _ => some .interact
    | .command c => some c
    | .misuse => none
  | "help" => if arguments.length ≤ 1 && arguments.all names.contains then some .help else none
  | _ => none

def ofArguments : List String → Option Command
  | [] => none
  | "--verbose" :: rest => ofArguments rest
  | "--help" :: _ => some .help
  | "--version" :: _ => some .version
  | argument :: rest =>
    if isPlain argument then ofName argument rest
    else if argument.startsWith "--" then none
    else
      match cluster false true (argument.toList.drop 1) with
      | .flags => ofArguments rest
      | .help => some .help
      | .version => some .version
      | _ => none

end Command
end StackScript
