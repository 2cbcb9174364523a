import EstreeLowering.Config.Settings

namespace EstreeLowering

structure Arguments where
  input : Option String
  output : Option String
  config : Option String
  stages : List String
  disable : List String
  maxDepth : Option UInt32
  pretty : Bool
deriving DecidableEq

namespace Arguments

def empty : Arguments :=
  ⟨none, none, none, [], [], none, false⟩

/-- No stage on the command line leaves the stages as they are. -/
def adjustment (arguments : Arguments) : Adjustment :=
  ⟨if arguments.stages.isEmpty then none else some arguments.stages, arguments.disable,
    arguments.maxDepth⟩

def layout (arguments : Arguments) : Json.Layout :=
  if arguments.pretty then .pretty else .compact

end Arguments

end EstreeLowering
