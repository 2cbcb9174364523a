import EstreeLowering.Json.Basic

namespace EstreeLowering

inductive FileFault where
  | notFound
  | isDirectory
  | notDirectory
  | notText
  | nameTooLong
  | badName
  | other
deriving DecidableEq, Repr

inductive Failure where
  | unreadable (path : String) (fault : FileFault)
  | unwritable (path : String) (fault : FileFault)
  | badJson (origin : String) (fault : Fault)
  | unknownStage (name : String)
  | unknownRule (name : String)
deriving DecidableEq, Repr

def Failure.message : Failure → String
  | .unreadable path _ => "failed to read " ++ path
  | .unwritable path _ => "failed to write " ++ path
  | .badJson origin _ => "invalid JSON in " ++ origin
  | .unknownStage name => "unknown stage `" ++ name ++ "`"
  | .unknownRule name => "unknown transformer `" ++ name ++ "`"

/-- Names the text in which a fault was found. -/
def Failure.ofFault (origin : String) : Except Fault α → Except Failure α
  | .ok value => .ok value
  | .error fault => .error (.badJson origin fault)

end EstreeLowering
