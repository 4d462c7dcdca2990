import LuaRestyle.Command.Run

/-!
# A directory in memory

Command lines can be carried out without touching any files.  An entry is
found by the names on the way to it, and a session collects what is printed.
-/

namespace LuaRestyle

inductive Entry where
  | file (content : ByteArray)
  | directory

/-- The entries of a directory by their paths, none of which occurs twice. -/
structure Directory where
  entries : List (List String × Entry) := []

namespace Directory

/-- The entry that a way leads to.  A way that only leads outwards, or nowhere, ends
in a directory. -/
def get? (dir : Directory) (way : List String) : Option Entry :=
  if way.all (· == "..") then some .directory else dir.entries.lookup way

def put (dir : Directory) (way : List String) (entry : Entry) : Directory :=
  ⟨dir.entries.filter (·.1 != way) ++ [(way, entry)]⟩

/-- One step of a path, which may lead back or, from the outermost place, outwards. -/
def step (way : List String) (part : String) : List String :=
  if part = "" ∨ part = "." then way
  else if part = ".." ∧ !way.all (· == "..") then way.dropLast
  else way ++ [part]

/-- Put a directory where nothing is. -/
def ensure (dir : Directory) (way : List String) : Directory :=
  if (dir.get? way).isNone then dir.put way .directory else dir

/-- Put an entry where a path leads to, with the directories on the way. -/
def add (dir : Directory) (path : String) (entry : Entry) : Directory :=
  let way := (path.splitOn "/").foldl step []
  ((List.range way.length).foldl (fun d n => d.ensure (way.take n)) dir).put way entry

/-- Follow the parts of a path.  Every step starts from a directory. -/
def follow (dir : Directory) (way : List String) : List String → Except FileError (List String)
  | [] => .ok way
  | part :: rest =>
      match dir.get? way with
      | none => .error .missing
      | some (.file _) => .error .notADirectory
      | some .directory => dir.follow (step way part) rest

/-- Where a path leads to.  Only relative paths lead anywhere. -/
def locate (dir : Directory) (path : String) : Except FileError (List String) :=
  match path.toList with
  | [] | '/' :: _ => .error .missing
  | _ => dir.follow [] (path.splitOn "/")

def read (dir : Directory) (path : String) : Except FileError String := do
  match dir.get? (← dir.locate path) with
  | none => .error .missing
  | some .directory => .error .isDirectory
  | some (.file content) =>
      match String.fromUTF8? content with
      | some text => .ok text
      | none => .error .notText

def withoutSlash (path : String) : String :=
  String.ofList (path.toList.reverse.dropWhile (· == '/')).reverse

/-- Put a text into a file.  A slash at the end of a path asks for a directory, so no
file is put there, whether there is one or not. -/
def write (dir : Directory) (path text : String) : Except FileError Directory := do
  let way ← dir.locate (withoutSlash path)
  match dir.get? way with
  | some .directory => .error .isDirectory
  | _ =>
      if path.toList.getLast? = some '/' then .error .isDirectory
      else .ok (dir.put way (.file text.toUTF8))

/-- The files directly in the directory that hold text, with their names. -/
def texts (dir : Directory) : List (String × String) :=
  dir.entries.filterMap fun (way, entry) =>
    match way, entry with
    | [name], .file content => (String.fromUTF8? content).map (name, ·)
    | _, _ => none

end Directory

structure Session where
  directory : Directory
  printed : String := ""
  reported : String := ""

namespace Session

def surroundings : Surroundings (StateM Session) where
  read path := return (← get).directory.read path
  write path text := do
    match (← get).directory.write path text with
    | .ok directory =>
        modify fun s => { s with directory }
        return .ok ()
    | .error e => return .error e
  print text := modify fun s => { s with printed := s.printed ++ text }
  report text := modify fun s => { s with reported := s.reported ++ text }

def run (directory : Directory) (inv : Invocation) : UInt32 × Session :=
  (inv.run surroundings).run { directory }

end Session

end LuaRestyle
