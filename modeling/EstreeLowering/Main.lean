import EstreeLowering.CommandLine.Grammar
import EstreeLowering.Run.Basic

namespace EstreeLowering

def usage : String :=
  "Usage: estree-lowering [INPUT] [-o|--output FILE] [-c|--config FILE] [--stage STAGE]..." ++
    " [--disable TRANSFORMER]... [--max-depth DEPTH] [--pretty]"

def UsageError.message : UsageError → String
  | .unknownArgument => "unexpected argument"
  | .invalidValue => "a value is required"
  | .valueValidation => "invalid value"
  | .argumentConflict => "an argument cannot be used multiple times"
  | .tooManyValues => "unexpected value"
  | .displayHelp => usage
  | .displayVersion => "estree-lowering 0.1.0"

/-- The message of a failure below what was being done. -/
def RunFailure.report (failure : RunFailure) : String :=
  "Error: " ++ String.intercalate "\n\nCaused by:\n    "
    (failure.context ++ [failure.failure.message])

namespace ProcessHost

def faultOf : IO.Error → FileFault
  | .noFileOrDirectory .. => .notFound
  | .inappropriateType .. => .isDirectory
  | _ => .other

def attempt (action : IO α) : IO (Except FileFault α) := do
  match ← action.toBaseIO with
  | .ok value => return .ok value
  | .error failure => return .error (faultOf failure)

def decode (bytes : ByteArray) : Except FileFault String :=
  match String.fromUTF8? bytes with
  | some text => .ok text
  | none => .error .notText

/-- The surroundings of a process. Its events are not logged. -/
def host : Host IO where
  readFile path := return (← attempt (IO.FS.readBinFile path)) >>= decode
  readInput := do
    let stdin ← IO.getStdin
    return (← attempt stdin.readBinToEnd) >>= decode
  writeFile path text := attempt (IO.FS.writeFile path text)
  writeOutput text := attempt (IO.print text)
  report _ := return ()

end ProcessHost

/-- The exit code of a command line: zero for a run that succeeded or a text asked for. -/
def runCommandLine (words : List String) : IO UInt32 := do
  match Arguments.ofWords words with
  | .error .displayHelp =>
      IO.println usage
      return 0
  | .error .displayVersion =>
      IO.println UsageError.displayVersion.message
      return 0
  | .error failure =>
      IO.eprintln ("error: " ++ failure.message ++ "\n\n" ++ usage)
      return 2
  | .ok arguments =>
      match ← run ProcessHost.host arguments with
      | .ok _ => return 0
      | .error failure =>
          IO.eprintln failure.report
          return 1

end EstreeLowering

def main (words : List String) : IO UInt32 :=
  EstreeLowering.runCommandLine words
