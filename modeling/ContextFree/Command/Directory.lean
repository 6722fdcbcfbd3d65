import ContextFree.Command.Run

namespace ContextFree.Command

structure Directory where
  files : List (String × List UInt8)

namespace Directory

def noSuchFile : FileFault := .system "No such file or directory" 2
def notDirectory : FileFault := .system "Not a directory" 20
def isDirectory : FileFault := .system "Is a directory" 21

inductive Target where
  | folder
  | file (name : String)
  | slashed (name : String)
  | beneath (name : String)
  | outside

/-- What a path leads to; a single dot stays where it is. Above the directory, only the directories that
it lies in are known. -/
def resolve (path : String) : Target :=
  let parts := (Text.pieces '/' path.toList).map String.ofList
  let named := parts.filter (!·.isEmpty)
  let steps := named.filter (· != ".")
  if steps.all (· == "..") then .folder
  else if path.toList.head? = some '/' || steps.head? = some ".." then .outside
  else
    match steps with
    | [] => .folder
    | [name] =>
      if parts.getLast? = some name then .file name
      else if named.getLast? = some name then .slashed name
      else .beneath name
    | name :: _ => .beneath name

def missing (d : Directory) (name : String) : FileFault :=
  if (d.files.lookup name).isSome then notDirectory else noSuchFile

/-- A directory can be opened like a file, but not read. -/
def opens (d : Directory) (path : String) : Except FileFault Opened :=
  match resolve path with
  | .folder => .ok (.failing isDirectory)
  | .file name =>
    match d.files.lookup name with
    | some content => .ok (.bytes content)
    | none => .error noSuchFile
  | .slashed name | .beneath name => .error (d.missing name)
  | .outside => .error noSuchFile

def refuses (d : Directory) (path : String) : Option FileFault :=
  match resolve path with
  | .folder | .slashed _ => some isDirectory
  | .file _ => none
  | .beneath name => some (d.missing name)
  | .outside => some noSuchFile

def disk (d : Directory) : Disk := ⟨d.opens, d.refuses⟩

def changed (d : Directory) (report : Report) : Option (String × String) :=
  match report.written with
  | some (path, text) =>
    match resolve path with
    | .file name =>
      if d.files.lookup name = some text.toUTF8.toList then none else some (name, text)
    | _ => none
  | none => none

end Directory

end ContextFree.Command
