import Jack.Compiled
import Jack.FileSystem
import Jack.Path

namespace Jack.CommandLine

def usage : String := "Usage: jack-compiler [--xml] [filename.jack | directory]"

inductive ReadFault where
  | system (fault : SystemFault)
  | notText
deriving DecidableEq

def ReadFault.message : ReadFault → String
  | .system fault => fault.message
  | .notText => "stream did not contain valid UTF-8"

inductive Failure where
  | unknownOption (option : String)
  | notOneInput
  | unlisted (directory : String) (cause : SystemFault)
  | noSources (directory : String)
  | unread (path : String) (cause : ReadFault)
  | uncompiled (path : String) (cause : Error)
  | unwritten (path : String) (cause : SystemFault)

namespace Failure

def message : Failure → String
  | .unknownOption option => "Unknown option '" ++ option ++ "'.\n" ++ usage
  | .notOneInput => "Expected one input path.\n" ++ usage
  | .unlisted directory _ => "Failed to read directory '" ++ directory ++ "'"
  | .noSources directory => "No .jack files in '" ++ directory ++ "'"
  | .unread path _ => "Failed to open input file '" ++ path ++ "'"
  | .uncompiled path _ => "Failed to compile '" ++ path ++ "'"
  | .unwritten path _ => "Failed to write '" ++ path ++ "'"

def cause? : Failure → Option String
  | .unknownOption _ | .notOneInput | .noSources _ => none
  | .unlisted _ cause => some cause.message
  | .unread _ cause => some cause.message
  | .uncompiled _ cause => some cause.message
  | .unwritten _ cause => some cause.message

def report (f : Failure) : String :=
  "Error: " ++ f.message ++ "\n" ++
    match f.cause? with
    | none => ""
    | some cause =>
      "\nCaused by:\n" ++ String.join ((Text.split '\n' cause).map fun line => "    " ++ line ++ "\n")

end Failure

structure Options where
  input : String
  xml : Bool

/-- Reads arguments behind those that have given `input?` and `xml`. -/
def Options.readFrom (input? : Option String) (xml : Bool) : List String → Except Failure Options
  | [] =>
    match input? with
    | some input => .ok ⟨input, xml⟩
    | none => .error .notOneInput
  | argument :: rest =>
    if argument = "--xml" then readFrom input? true rest
    else if argument.startsWith "-" then .error (.unknownOption argument)
    else if input?.isSome then .error .notOneInput
    else readFrom (some argument) xml rest

def Options.ofArguments (arguments : List String) : Except Failure Options :=
  readFrom none false arguments

variable {m : Type → Type} [Monad m] [FileSystem m]

/-- The sources that a path stands for: itself, or the sources in a directory, in the order of their
names. -/
def sources (input : String) : ExceptT Failure m (List String) := do
  if ← (FileSystem.isDirectory input : m Bool) then
    match ← (FileSystem.list input : m _) with
    | .error fault => throw (.unlisted input fault)
    | .ok names =>
      let names := (names.filter (Path.extension? · = some "jack")).mergeSort (· ≤ ·)
      if names.isEmpty then throw (.noSources input)
      return names.map (Path.join input)
  else
    return [input]

def readText (path : String) : ExceptT Failure m String := do
  match ← (FileSystem.read path : m _) with
  | .error fault => throw (.unread path (.system fault))
  | .ok content =>
    match String.fromUTF8? content with
    | some text => return text
    | none => throw (.unread path .notText)

def writeText (path text : String) : ExceptT Failure m Unit := do
  match ← (FileSystem.write path text.toUTF8 : m _) with
  | .error fault => throw (.unwritten path fault)
  | .ok () => return

def compileFile (xml : Bool) (path : String) : ExceptT Failure m Unit := do
  let source ← readText path
  match compile xml source with
  | .error e => throw (.uncompiled path e)
  | .ok program =>
    writeText (Path.withExtension path "vm") program.vmText
    if xml then writeText (Path.withExtension path "xml") program.xmlText

def run (arguments : List String) : ExceptT Failure m Unit := do
  let options ← Options.ofArguments arguments
  (← sources options.input).forM (compileFile options.xml)

def exitStatus : Except Failure Unit → UInt32
  | .ok () => 0
  | .error _ => 1

end Jack.CommandLine
