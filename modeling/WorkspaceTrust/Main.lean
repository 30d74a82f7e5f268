import WorkspaceTrust.CommandLine.Run

/-!
# The program

Reads the command line and, of the file system, what the command can
reach: the entries along the paths that it names and all that is below
its trust store. A link is recorded as a link to the place where it
leads; one that leads nowhere is left out. The command is then run on
what has been recorded.
-/

namespace WorkspaceTrust.Main

/-- What has been recorded, and the directories whose entries have been. -/
structure Record where
  files : FileSystem
  listed : List Place

abbrev Recorder := StateT Record IO

def pathText (place : Place) : Option String :=
  (place.mapM textOfBytes).map fun names => "/" ++ "/".intercalate names

/-- Reads the entry with an absolute path. -/
def readEntry (text : String) : IO (Option Entry) := do
  try
    let path := System.mkFilePath [text]
    match (← path.symlinkMetadata).type with
    | .dir => return some .directory
    | .file => return some (.file (← IO.FS.readBinFile path).data.toList)
    | .symlink => return some (.link (.ofString (← IO.FS.realPath path).toString))
    | .other => return some .device
  catch _ => return none

/-- Records the entry at a place. -/
def recordEntry (place : Place) : Recorder (Option Entry) := do
  let known := (← get).files.entryAt place
  if known.isSome then return known
  match pathText place with
  | none => return none
  | some text =>
      let entry ← readEntry text
      if let some e := entry then
        modify fun r =>
          { r with files := { r.files with entries := r.files.entries.insert place e } }
      return entry

/-- Records the entries along some names from a place, and finds where they lead. -/
def recordAlong (links : Nat) (place : Place) : List FileName → Recorder (Option Place)
  | [] => return some place
  | name :: names => do
      if name = Path.here then recordAlong links place names
      else if name = Path.up then recordAlong links place.dropLast names
      else match ← recordEntry (place ++ [name]) with
        | none => return none
        | some (.link target) =>
            match links with
            | 0 => return none
            | links + 1 =>
                recordAlong links (if target.isAbsolute then [] else place)
                  (target.steps ++ names)
        | some _ => recordAlong links (place ++ [name]) names
termination_by names => (links, names.length)

def recordPath (p : Path) : Recorder (Option Place) := do
  recordAlong FileSystem.maxLinks ((← get).files.base p) p.steps

/-- The names of the entries of a directory. -/
def readNames (place : Place) : IO (List FileName) := do
  match pathText place with
  | none => return []
  | some text =>
      try
        return ((← (System.mkFilePath [text]).readDir).map fun e => utf8 e.fileName).toList
      catch _ => return []

/-- Records all that is below a directory, also behind links. -/
partial def recordBelow (place : Place) : Recorder Unit := do
  if (← get).listed.contains place then return
  modify fun r => { r with listed := place :: r.listed }
  for name in ← readNames place do
    match ← recordAlong FileSystem.maxLinks place [name] with
    | none => pure ()
    | some next =>
        if (← get).files.entryAt next = some .directory then recordBelow next

/-- Records a trust store. -/
def recordStore (p : Path) : Recorder Unit := do
  match ← recordPath p with
  | some place => if (← get).files.entryAt place = some .directory then recordBelow place
  | none => pure ()

/-- Records what a command can reach. -/
def recordFor : Command → Recorder Unit
  | .provision a => do
      let _ ← recordPath a.descriptor
      a.certsPath.forM recordStore
  | .gitConfig certsPath => certsPath.forM recordStore

/-- The rest of a stream. -/
partial def readToEnd (stream : IO.FS.Stream) (before : List UInt8) : IO (List UInt8) := do
  let bytes ← stream.read 65536
  if bytes.isEmpty then return before else readToEnd stream (before ++ bytes.data.toList)

/-- The surroundings in which a command runs. -/
def surroundings (command : Command) : IO Surroundings := do
  let here := Path.ofString (← IO.currentDir).toString
  let recorder : Recorder Unit := do
    let _ ← recordPath here
    recordFor command
  let (_, record) ← recorder.run ⟨⟨.empty, here.names⟩, []⟩
  let standardInput ← match command with
    | .provision a =>
        if Command.isStandardInput a.descriptor then readToEnd (← IO.getStdin) [] else pure []
    | .gitConfig _ => pure []
  return ⟨record.files, standardInput⟩

/-- Requests are answered on the output, errors are not. -/
def answer (e : UsageError) : IO UInt32 := do
  if e.exitCode = 0 then IO.print e.message else IO.eprint e.message
  return e.exitCode.toUInt32

/-- Prints what a command leaves, and names its error beside it. -/
def emit (result : Except CommandError String) : IO UInt32 := do
  let left := Command.printed result
  IO.print left.output
  if let .error e := result then IO.eprintln e.message
  return left.exitCode.toUInt32

end WorkspaceTrust.Main

open WorkspaceTrust in
def main (words : List String) : IO UInt32 := do
  match Invocation.ofWords (← IO.getEnv certsPathVariable) words with
  | .error e => Main.answer e
  | .ok invocation =>
      Main.emit (invocation.command.run (← Main.surroundings invocation.command))
