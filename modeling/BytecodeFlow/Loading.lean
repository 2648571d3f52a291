import BytecodeFlow.ClassFile
import BytecodeFlow.Text.Basic

namespace BytecodeFlow

structure ArchiveFile where
  name : String
  data : String
  deriving DecidableEq, Repr

structure Archive where
  comment : String := ""
  files : List ArchiveFile := []
  deriving DecidableEq, Repr

namespace Archive

def linesOf (cs : List Char) : List (List Char) :=
  (Text.splitLines cs).map fun (line, ended) => if ended then line ++ ['\n'] else line

def content (line : List Char) : List Char :=
  if line.getLast? == some '\n' then
    let line := line.dropLast
    if line.getLast? == some '\r' then line.dropLast else line
  else line

def name? (line : List Char) : Option String :=
  let line := content line
  let name := String.ofList (Text.trimChars ((line.drop 3).take (line.length - 6)))
  if "-- ".toList.isPrefixOf line && " --".toList.isSuffixOf line && 6 ≤ line.length && name != ""
  then some name else none

def textOf (lines : List (List Char)) : String :=
  let cs := lines.flatten
  String.ofList (if cs.isEmpty || cs.getLast? == some '\n' then cs else cs ++ ['\n'])

def split : List (List Char) → List (List Char) × List ArchiveFile
  | [] => ([], [])
  | l :: rest =>
    let (before, files) := split rest
    match name? l with
    | some name => ([], ⟨name, textOf before⟩ :: files)
    | none => (l :: before, files)

def parse (text : String) : Archive :=
  let (before, files) := split (linesOf text.toList)
  ⟨textOf before, files⟩

end Archive

inductive Unreadable
  | missing
  | notDirectory
  | directory
  | malformed
  | tooLong
  deriving DecidableEq, Repr

def Unreadable.message (path : String) : Unreadable → String
  | missing => "open " ++ path ++ ": no such file or directory"
  | notDirectory => "open " ++ path ++ ": not a directory"
  | directory => "read " ++ path ++ ": is a directory"
  | malformed => "open " ++ path ++ ": invalid argument"
  | tooLong => "open " ++ path ++ ": file name too long"

structure Directory where
  files : List (String × String)

namespace Directory

def file? (d : Directory) (name : String) : Option String :=
  (d.files.reverse.find? (·.1 == name)).map Prod.snd

def hasDirectory (d : Directory) (name : String) : Bool :=
  d.files.any fun f => (name ++ "/").isPrefixOf f.1

inductive Place
  | file (text : String)
  | directory (above : Nat) (parts : List String)

def partLimit : Nat := 255

def pathLimit : Nat := 4095

def step (d : Directory) (part : String) : Place → Except Unreadable Place
  | .file _ => .error .notDirectory
  | .directory above parts =>
    if part = "" ∨ part = "." then .ok (.directory above parts)
    else if part = ".." then
      match parts with
      | _ :: outer => .ok (.directory above outer)
      | [] => .ok (.directory (above + 1) [])
    else if partLimit < part.utf8ByteSize then .error .tooLong
    -- what lies above the directory is not known
    else if 0 < above then .error .missing
    else
      let name := "/".intercalate (part :: parts).reverse
      match d.file? name with
      | some text => .ok (.file text)
      | none =>
        if d.hasDirectory name then .ok (.directory 0 (part :: parts)) else .error .missing

def read (d : Directory) (path : String) : Except Unreadable String := do
  if path.toList.contains '\x00' then .error .malformed
  else if path = "" then .error .missing
  else if pathLimit < path.utf8ByteSize then .error .tooLong
  else
    -- a leading slash leads outside at once
    let start := Place.directory (if path.toList.head? = some '/' then 1 else 0) []
    match ← (path.splitOn "/").foldlM (fun place part => d.step part place) start with
    | .file text => return text
    | .directory _ _ => .error .directory

end Directory

namespace Loading

def expectedFile : String := "expected.yaml"

inductive Cause
  | unreadable (cause : Unreadable)
  | classFile (cause : ClassSource.Error)
  | member (name : String) (cause : ClassSource.Error)
  | emptyArchive
  | fileType (extension : String)

structure FileError where
  file : String
  cause : Cause

def FileError.message (e : FileError) : String :=
  match e.cause with
  | .unreadable c => c.message e.file
  | .classFile c => e.file ++ ": " ++ c.message
  | .member name c => e.file ++ ": " ++ name ++ ": " ++ c.message
  | .emptyArchive => e.file ++ ": no class files in archive"
  | .fileType ext => e.file ++ ": unsupported file type " ++ Text.Quoted.write ext

def FileError.isYaml (e : FileError) : Bool :=
  match e.cause with
  | .classFile (.yaml _) => true
  | .member _ (.yaml _) => true
  | _ => false

def extension (file : String) : String :=
  let rev := file.toList.reverse
  let ext := rev.takeWhile fun c => c != '.' && c != '/'
  match rev.drop ext.length with
  | '.' :: _ => String.ofList ('.' :: ext.reverse)
  | _ => ""

def isClassFile (name : String) : Bool :=
  ".yaml".toList.isSuffixOf name.toList || ".yml".toList.isSuffixOf name.toList

def archiveClasses (a : Archive) (file : String) : Except FileError (List Class) := do
  let members := a.files.filter fun f => f.name != expectedFile && isClassFile f.name
  let classes ← members.mapM fun f =>
    (ClassSource.readFile f.data).mapError fun e => ⟨file, .member f.name e⟩
  if classes.isEmpty then .error ⟨file, .emptyArchive⟩ else return classes

def fileClasses (read : String → Except Unreadable String) (file : String) : Except FileError (List Class) :=
  match read file with
  | .error e => .error ⟨file, .unreadable e⟩
  | .ok text =>
    let ext := extension file
    if ext = ".yaml" ∨ ext = ".yml" then
      match ClassSource.readFile text with
      | .ok c => .ok [c]
      | .error e => .error ⟨file, .classFile e⟩
    else if ext = ".txtar" then archiveClasses (Archive.parse text) file
    else .error ⟨file, .fileType ext⟩

inductive Error
  | noFiles
  | file (cause : FileError)

def Error.message : Error → String
  | noFiles => "no files provided"
  | file e => "loading classes: " ++ e.message

def load (read : String → Except Unreadable String) (files : List String) : Except Error (List Class) := do
  if files.isEmpty then .error .noFiles
  else return (← (files.mapM (fileClasses read)).mapError .file).flatten

structure Selector where
  className : String := ""
  name : String
  descriptor : String := ""

namespace Selector

def splitClass (s : String) : String × String :=
  match Text.cutAtLast (· == '.') s.toList with
  | some (before, after) =>
    -- a dot behind a parenthesis belongs to the descriptor
    if before.contains '(' then ("", s) else (String.ofList before, String.ofList after)
  | none => ("", s)

def parse (s : String) : Selector :=
  let (className, method) := splitClass s
  let name := method.toList.takeWhile (· != '(')
  ⟨className, String.ofList name, String.ofList (method.toList.drop name.length)⟩

def method (s : Selector) : String := s.name ++ s.descriptor

def selects (s : Selector) (c : Class) (m : Method) : Bool :=
  (s.className == "" || c.name == s.className) && m.name == s.name &&
    (s.descriptor == "" || m.descriptor == s.descriptor)

inductive Error
  | notFound (method : String)
  | ambiguous (method : String) (candidates : List Method)

def Error.message : Error → String
  | notFound s => "method " ++ Text.Quoted.write s ++ " not found"
  | ambiguous s ms =>
    "method " ++ Text.Quoted.write s ++ " is ambiguous: " ++
      ", ".intercalate (ms.map Method.render)

def find (s : Selector) (cs : List Class) : Except Error Method :=
  match cs.flatMap fun c => c.methods.filter (s.selects c) with
  | [] => .error (.notFound s.method)
  | [m] => .ok m
  | ms => .error (.ambiguous s.method ms)

end Selector

end Loading

end BytecodeFlow
