import WorkspaceTrust.CommandLine.Setting

/-!
# Command lines

A command line names a command with its settings. The log format may be
given before or after the command, and the latter counts. The path of the
trust store may also come from a variable of the environment.

What is wrong behind the name of the command is reported before what is
wrong in front of it.
-/

namespace WorkspaceTrust

/-- The variable that holds the path of the trust store. -/
def certsPathVariable : String := "CHE_GIT_CERTS_PATH"

structure ProvisionArguments where
  descriptor : Path
  workspaceId : String
  space : Option String
  certsPath : Option Path
  output : OutputFormat
deriving DecidableEq, Repr

inductive Command where
  | provision (arguments : ProvisionArguments)
  | gitConfig (certsPath : Option Path)
deriving DecidableEq, Repr

structure Invocation where
  logFormat : LogFormat
  command : Command
deriving DecidableEq, Repr

namespace Invocation

/-- A word that no setting or command accounts for. -/
def strayWord (l : Level) (afterSeparator : Bool) (word : String) : UsageError :=
  match l with
  | .program =>
      if afterSeparator ∧ ["provision", "git-config", "help"].contains word then .unknownArgument
      else .invalidSubcommand
  | .provision | .gitConfig => .unknownArgument

/-- Reads one word of a command's settings. -/
def readWord (l : Level) (word : String) (r : Reading) : Except UsageError Reading :=
  match Word.ofString word with
  | .long name value => r.readLong l name value
  | .short name rest => r.readShort l name rest
  | .separator | .plain _ =>
      if r.awaitsValue then .ok (r.takeValue word) else .error (strayWord l false word)

/-- Reads the settings of a command; nothing may follow the separator. -/
def readSettings (l : Level) : List String → Reading → Except UsageError Settings
  | [], r => r.settle
  | word :: words, r =>
      if Word.ofString word = .separator then
        match words with
        | [] => r.settle
        | next :: _ => .error (strayWord l true next)
      else do
        let r ← readWord l word r
        readSettings l words r

/-- The path of the trust store from the environment, unless it has been given. -/
def withVariable (certsVariable : Option String) (s : Settings) : Except UsageError Settings :=
  match s.certsPath, certsVariable with
  | none, some v => s.give .certsPath v
  | _, _ => .ok s

/-- What must be given. -/
def require {α : Type} : Option α → Except UsageError α
  | some a => .ok a
  | none => .error .missingRequiredArgument

/-- Reads a command behind its name, with the log format that is given there. -/
def readCommand (certsVariable : Option String) (l : Level) (words : List String) :
    Except UsageError (Option LogFormat × Command) := do
  let s ← readSettings l words .start
  let s ← withVariable certsVariable s
  match l with
  | .provision =>
      let descriptor ← require s.descriptor
      let workspaceId ← require s.workspaceId
      .ok (s.logFormat,
        .provision ⟨descriptor, workspaceId, s.space, s.certsPath, s.output.getD .yaml⟩)
  | .gitConfig | .program => .ok (s.logFormat, .gitConfig s.certsPath)

/-- Answers a request for help on the command that some words name. -/
def help : List String → UsageError
  | [] => .helpRequested
  | [command] =>
      if ["provision", "git-config", "help"].contains command then .helpRequested
      else .invalidSubcommand
  | _ => .invalidSubcommand

/-- The command that a word names. -/
def commandLevel? (word : String) : Option Level :=
  if word = "provision" then some .provision
  else if word = "git-config" then some .gitConfig
  else none

/-- The end of a command line that names no command. -/
def withoutCommand (r : Reading) : Except UsageError Invocation := do
  let s ← r.settle
  .error (if s.isEmpty then .nothingGiven else .missingSubcommand)

/-- Reads the words of a command line behind the name of the program. -/
def readWords (certsVariable : Option String) :
    List String → Reading → Except UsageError Invocation
  | [], r => withoutCommand r
  | word :: words, r =>
      if Word.ofString word = .separator then
        match words with
        | [] => withoutCommand r
        | next :: _ => .error (strayWord .program true next)
      else if !r.awaitsValue && word = "help" then .error (help words)
      else match if r.awaitsValue then none else commandLevel? word with
        | some l => do
            let (logFormat, command) ← readCommand certsVariable l words
            let s ← r.settle
            .ok ⟨(logFormat.or s.logFormat).getD default, command⟩
        | none => do
            let r ← readWord .program word r
            readWords certsVariable words r

/-- The command line with these words, where the variable may be set. -/
def ofWords (certsVariable : Option String) (words : List String) : Except UsageError Invocation :=
  readWords certsVariable words .start

end Invocation

end WorkspaceTrust
