import EstreeLowering.Failure

/-!
Files by path, as a value.

A path is a walk through directories, one step for each name between its slashes. Every step starts
from a directory, also the steps `.` and `..`, so `missing/.` leads nowhere. Only what the last step
leads to may be missing, and may be a file.
-/

namespace EstreeLowering

namespace Path

/-- The steps of a path. Slashes that follow each other count as one. -/
def steps (path : String) : List String :=
  (path.splitOn "/").filter (· != "")

/-- A path that begins with a slash starts from the root. -/
def isAbsolute (path : String) : Bool :=
  path.startsWith "/"

/-- A path that ends in a slash names a directory. -/
def namesDirectory (path : String) : Bool :=
  path.endsWith "/"

/-- The input of that name is the standard one. A leading `.` makes it a file. -/
def isDash (path : String) : Bool :=
  match path.splitOn "/" with
  | "-" :: rest => rest.all fun part => part == "" || part == "."
  | _ => false

/-- The most bytes that one step may have. -/
def maxStep : Nat := 255

/-- The most bytes that a whole path may have. -/
def maxSize : Nat := 4095

end Path

inductive FileContent where
  | directory
  | file (bytes : ByteArray)

instance : DecidableEq FileContent
  | .directory, .directory => isTrue rfl
  | .directory, .file _ => isFalse nofun
  | .file _, .directory => isFalse nofun
  | .file a, .file b =>
      match ByteArray.instDecidableEq a b with
      | isTrue same => isTrue (congrArg FileContent.file same)
      | isFalse different => isFalse fun same => different (FileContent.file.inj same)

/-- Files and directories by their places, and the directory that relative paths start from. A place
is the names that lead to it from the root. Whatever something lies in is a directory. -/
structure FileStore where
  home : List String
  entries : List (List String × FileContent)

namespace FileStore

/-- The store with those files and directories, named from `home`. -/
def ofFiles (home : List String) (files : List (String × FileContent)) : FileStore :=
  ⟨home, files.map fun (name, content) => (home ++ Path.steps name, content)⟩

def isAbove (store : FileStore) (place : List String) : Bool :=
  place.isPrefixOf store.home || store.entries.any fun entry => place.isPrefixOf entry.1

def contentAt (store : FileStore) (place : List String) : Option FileContent :=
  match store.entries.lookup place with
  | some content => some content
  | none => if place.isEmpty || store.isAbove place then some .directory else none

/-- Looks a place up. A name that is too long is refused whether or not something could be there. -/
def look (store : FileStore) (place : List String) : Except FileFault FileContent :=
  if (place.getLast?.getD "").utf8ByteSize > Path.maxStep then .error .nameTooLong
  else match store.contentAt place with
    | some content => .ok content
    | none => .error .notFound

/-- Goes one step from a place, which has to be a directory. Above the root is the root. -/
def enter (store : FileStore) (here : List String) (step : String) :
    Except FileFault (List String) :=
  match store.look here with
  | .error fault => .error fault
  | .ok (.file _) => .error .notDirectory
  | .ok .directory =>
      .ok (if step = "." then here else if step = ".." then here.dropLast else here ++ [step])

/-- The place that a path leads to, and where there may be nothing yet. -/
def locate (store : FileStore) (path : String) : Except FileFault (List String) :=
  if path.contains '\x00' then .error .badName
  else if path.utf8ByteSize > Path.maxSize then .error .nameTooLong
  else (Path.steps path).foldlM store.enter (if Path.isAbsolute path then [] else store.home)

def readText (store : FileStore) (path : String) : Except FileFault String :=
  match store.locate path with
  | .error fault => .error fault
  | .ok place =>
      match store.look place with
      | .error fault => .error fault
      | .ok .directory => .error .isDirectory
      | .ok (.file bytes) =>
          if Path.namesDirectory path then .error .notDirectory
          else match String.fromUTF8? bytes with
            | some text => .ok text
            | none => .error .notText

/-- The store with a file of that text at a place. -/
def put (store : FileStore) (place : List String) (text : String) : FileStore :=
  { store with entries := (place, .file text.toUTF8) :: store.entries.filter (·.1 != place) }

/-- The store with the text in the file at a path. A path that names a directory is refused whatever
stands there, as a file would be made under a directory's name. -/
def writeText (store : FileStore) (path : String) (text : String) : Except FileFault FileStore :=
  match store.locate path with
  | .error fault => .error fault
  | .ok place =>
      if Path.namesDirectory path then .error .isDirectory
      else match store.look place with
        | .ok .directory => .error .isDirectory
        | .ok (.file _) | .error .notFound => .ok (store.put place text)
        | .error fault => .error fault

/-- The files below the directory that paths start from, named from there, that are not in `store`
with the same content. -/
def changes (store later : FileStore) : List (List String × ByteArray) :=
  later.entries.filterMap fun (place, content) =>
    match content with
    | .directory => none
    | .file bytes =>
        if later.home.isPrefixOf place && store.entries.lookup place ≠ some content
        then some (place.drop later.home.length, bytes) else none

end FileStore

end EstreeLowering
