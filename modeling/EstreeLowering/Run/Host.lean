import EstreeLowering.Event
import EstreeLowering.Run.FileStore

namespace EstreeLowering

/-- The operations that a run performs besides computing. -/
structure Host (m : Type → Type) where
  readFile : String → m (Except FileFault String)
  readInput : m (Except FileFault String)
  writeFile : String → String → m (Except FileFault Unit)
  writeOutput : String → m (Except FileFault Unit)
  report : Event → m Unit

/-- Surroundings as a value: files, the standard input, what was written to the standard output, and
the events reported. -/
structure World where
  files : FileStore
  input : ByteArray
  output : String
  events : Array Event

namespace World

def ofFiles (files : FileStore) (input : ByteArray) : World :=
  ⟨files, input, "", #[]⟩

/-- A host whose operations read and change a world. A file that cannot be written leaves the world
as it is. -/
def host : Host (StateM World) where
  readFile path := return (← get).files.readText path
  readInput := do
    match String.fromUTF8? (← get).input with
    | some text => return .ok text
    | none => return .error .notText
  writeFile path text := do
    let world ← get
    match world.files.writeText path text with
    | .ok files =>
        set { world with files }
        return .ok ()
    | .error fault => return .error fault
  writeOutput text := do
    modify fun world => { world with output := world.output ++ text }
    return .ok ()
  report event := modify fun world => { world with events := world.events.push event }

end World

end EstreeLowering
