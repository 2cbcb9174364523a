import EstreeLowering.CommandLine.Arguments

/-!
Reading a command line, word by word.

The value of an option, and the input, are checked once the next option or input begins or the line
ends; a value attached to its option is checked at once. Of two things wrong, the one checked first
is reported.
-/

namespace EstreeLowering

/-- Why a command line is no request for a run. -/
inductive UsageError where
  | unknownArgument
  | invalidValue
  | valueValidation
  | argumentConflict
  | tooManyValues
  | displayHelp
  | displayVersion
deriving DecidableEq, Repr

/-- The options that take a value. -/
inductive ValueOption where
  | output
  | config
  | stage
  | disable
  | maxDepth
deriving DecidableEq

/-- The options that take none. -/
inductive FlagOption where
  | pretty
  | help
  | version
deriving DecidableEq

inductive CommandOption where
  | valued (option : ValueOption)
  | flag (option : FlagOption)
deriving DecidableEq

namespace CommandOption

def longNames : List (String × CommandOption) :=
  [("output", .valued .output), ("config", .valued .config), ("stage", .valued .stage),
    ("disable", .valued .disable), ("max-depth", .valued .maxDepth),
    ("maxDepth", .valued .maxDepth), ("pretty", .flag .pretty), ("help", .flag .help),
    ("version", .flag .version)]

def shortNames : List (Char × CommandOption) :=
  [('o', .valued .output), ('c', .valued .config), ('h', .flag .help), ('V', .flag .version)]

end CommandOption

/-- What a word is: the end of the options, an option with what is attached to it, or plain. -/
inductive Word where
  | endOfOptions
  | long (name : String) (attached : Option String)
  | short (letter : Char) (attached : Option String)
  | plain (text : String)
deriving DecidableEq

namespace Word

/-- What stands before the first equals sign, and what behind it. -/
def splitAtEquals (cs : List Char) : String × Option String :=
  match cs.dropWhile (· != '=') with
  | [] => (.ofList cs, none)
  | _ :: value => (.ofList (cs.takeWhile (· != '=')), some (.ofList value))

/-- A value may be attached to a letter as it is or behind an equals sign. -/
def attachedToLetter : List Char → Option String
  | [] => none
  | '=' :: value => some (.ofList value)
  | value => some (.ofList value)

/-- A lone dash is plain. -/
def ofText (text : String) : Word :=
  match text.toList with
  | ['-', '-'] => .endOfOptions
  | '-' :: '-' :: rest =>
      let (name, attached) := splitAtEquals rest
      .long name attached
  | '-' :: letter :: rest => .short letter (attachedToLetter rest)
  | _ => .plain text

end Word

/-- A decimal integer with or without a sign, if it is a number of 32 bits. -/
def depthOfText? (text : String) : Option UInt32 :=
  let (negative, digits) := match text.toList with
    | '-' :: digits => (true, digits)
    | '+' :: digits => (false, digits)
    | digits => (false, digits)
  if digits.isEmpty || !digits.all Char.isDigit then none
  else
    let magnitude := Nat.ofDigitChars 10 digits 0
    if magnitude < UInt32.size ∧ (negative → magnitude = 0) then some (.ofNat magnitude)
    else none

/-- What has been read but not checked: an option whose value is due, one with its value, or the
input. -/
inductive Pending where
  | nothing
  | awaiting (option : ValueOption)
  | value (option : ValueOption) (text : String)
  | input (path : String)
deriving DecidableEq

/-- A path that is set once and is not empty. -/
def setPath (current : Option String) (path : String) : Except UsageError (Option String) :=
  if current.isSome then .error .argumentConflict
  else if path.isEmpty then .error .invalidValue
  else .ok (some path)

namespace Arguments

/-- Takes the value of an option. Only stages and rules to disable may be given repeatedly. -/
def setValue (arguments : Arguments) (option : ValueOption) (text : String) :
    Except UsageError Arguments :=
  match option with
  | .output => do return { arguments with output := ← setPath arguments.output text }
  | .config => do return { arguments with config := ← setPath arguments.config text }
  | .stage => .ok { arguments with stages := arguments.stages ++ [text] }
  | .disable => .ok { arguments with disable := arguments.disable ++ [text] }
  | .maxDepth =>
      if arguments.maxDepth.isSome then .error .argumentConflict
      else match depthOfText? text with
        | some depth => .ok { arguments with maxDepth := some depth }
        | none => .error .valueValidation

def settle (arguments : Arguments) : Pending → Except UsageError Arguments
  | .nothing => .ok arguments
  | .awaiting _ => .error .invalidValue
  | .value option text => arguments.setValue option text
  | .input path => do return { arguments with input := ← setPath arguments.input path }

def setFlag (arguments : Arguments) : FlagOption → Except UsageError Arguments
  | .pretty =>
      if arguments.pretty then .error .argumentConflict else .ok { arguments with pretty := true }
  | .help => .error .displayHelp
  | .version => .error .displayVersion

end Arguments

/-- How far a command line has been read. -/
structure LineProgress where
  arguments : Arguments
  pending : Pending
  /-- An input has been given. -/
  inputSeen : Bool
  /-- Every further word is plain. -/
  optionsEnded : Bool

namespace LineProgress

def start : LineProgress :=
  ⟨.empty, .nothing, false, false⟩

/-- An option that takes a value, with the value attached to it if there is one. -/
def takeValued (progress : LineProgress) (option : ValueOption) (attached : Option String) :
    Except UsageError LineProgress := do
  let arguments ← progress.arguments.settle progress.pending
  match attached with
  | none => return { progress with arguments, pending := .awaiting option }
  | some text =>
      let arguments ← arguments.setValue option text
      return { progress with arguments, pending := .nothing }

def takeFlag (progress : LineProgress) (option : FlagOption) : Except UsageError LineProgress := do
  let arguments ← progress.arguments.settle progress.pending
  return { progress with arguments := ← arguments.setFlag option, pending := .nothing }

/-- A plain word is the input unless one was given before. -/
def takeInput (progress : LineProgress) (path : String) : Except UsageError LineProgress :=
  if progress.inputSeen then .error .unknownArgument
  else do
    let arguments ← progress.arguments.settle progress.pending
    return { progress with arguments, pending := .input path, inputSeen := true }

/-- A plain word is the value of an option that awaits one, else the input. -/
def takePlain (progress : LineProgress) (text : String) : Except UsageError LineProgress :=
  match progress.pending with
  | .awaiting option => .ok { progress with pending := .value option text }
  | _ => progress.takeInput text

/-- Takes the next word. A flag known by a letter may have others behind it in the same word, but
both such flags end the reading. -/
def step (progress : LineProgress) (text : String) : Except UsageError LineProgress :=
  if progress.optionsEnded then progress.takeInput text
  else match Word.ofText text with
    | .endOfOptions => .ok { progress with optionsEnded := true }
    | .plain text => progress.takePlain text
    | .long name attached =>
        match CommandOption.longNames.lookup name with
        | none => .error .unknownArgument
        | some (.valued option) => progress.takeValued option attached
        | some (.flag option) =>
            if attached.isSome then .error .tooManyValues else progress.takeFlag option
    | .short letter attached =>
        match CommandOption.shortNames.lookup letter with
        | none => .error .unknownArgument
        | some (.valued option) => progress.takeValued option attached
        | some (.flag option) => progress.takeFlag option

end LineProgress

/-- The arguments that the words of a command line give. -/
def Arguments.ofWords (words : List String) : Except UsageError Arguments := do
  let progress ← words.foldlM LineProgress.step .start
  progress.arguments.settle progress.pending

end EstreeLowering
