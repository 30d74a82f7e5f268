import WorkspaceTrust.CommandLine.Usage
import WorkspaceTrust.Descriptor.Render
import WorkspaceTrust.FileSystem.Path
import WorkspaceTrust.Logging

/-!
# Settings on the command line

Each command has its settings, with long names and some with a short one.
The value of a setting is the rest of its word, behind an equals sign or
at once behind the short name, or else the next word, if that does not
start like a setting.

A value in a word of its own is only looked at when the next setting
comes or the words end, so that it may be an unknown setting that is
reported instead of a bad value before it.
-/

namespace WorkspaceTrust

/-- What a setting is given to: the program or one of its commands. -/
inductive Level where
  | program
  | provision
  | gitConfig
deriving DecidableEq, Repr

inductive Setting where
  | logFormat
  | descriptor
  | workspaceId
  | space
  | certsPath
  | output
  | help
  | version
deriving DecidableEq, Repr

namespace Setting

def longName : Setting → String
  | .logFormat => "log-format"
  | .descriptor => "descriptor"
  | .workspaceId => "workspace-id"
  | .space => "namespace"
  | .certsPath => "certs-path"
  | .output => "output"
  | .help => "help"
  | .version => "version"

def shortName? : Setting → Option Char
  | .descriptor => some 'f'
  | .output => some 'o'
  | .help => some 'h'
  | .version => some 'V'
  | .logFormat | .workspaceId | .space | .certsPath => none

/-- What a setting without a value asks for. -/
def request? : Setting → Option UsageError
  | .help => some .helpRequested
  | .version => some .versionRequested
  | _ => none

end Setting

def Level.settings : Level → List Setting
  | .program => [.logFormat, .help, .version]
  | .provision =>
      [.descriptor, .workspaceId, .space, .certsPath, .output, .logFormat, .help]
  | .gitConfig => [.certsPath, .logFormat, .help]

/-- The values that have been given. -/
structure Settings where
  logFormat : Option LogFormat
  descriptor : Option Path
  workspaceId : Option String
  space : Option String
  certsPath : Option Path
  output : Option OutputFormat
deriving DecidableEq, Repr

namespace Settings

def none : Settings := ⟨.none, .none, .none, .none, .none, .none⟩

def isEmpty (s : Settings) : Bool := s = none

/-- A path must have at least one character. -/
def readPath (v : String) : Except UsageError Path :=
  if v = "" then .error .invalidValue else .ok (.ofString v)

def readOutput (v : String) : Except UsageError OutputFormat :=
  if v = "yaml" then .ok .yaml
  else if v = "json" then .ok .json
  else .error .invalidValue

def readLogFormat (v : String) : Except UsageError LogFormat :=
  (LogFormat.ofName v).mapError fun _ => .valueValidation

/-- Reads a value, unless there is one already. -/
def once {α : Type} (old : Option α) (read : Except UsageError α) :
    Except UsageError (Option α) :=
  match old with
  | some _ => .error .argumentConflict
  | .none => read.map some

/-- Gives a value to a setting. No setting is given twice. -/
def give (x : Setting) (v : String) (s : Settings) : Except UsageError Settings :=
  match x with
  | .logFormat => (once s.logFormat (readLogFormat v)).map fun o => { s with logFormat := o }
  | .descriptor => (once s.descriptor (readPath v)).map fun o => { s with descriptor := o }
  | .workspaceId => (once s.workspaceId (.ok v)).map fun o => { s with workspaceId := o }
  | .space => (once s.space (.ok v)).map fun o => { s with space := o }
  | .certsPath => (once s.certsPath (readPath v)).map fun o => { s with certsPath := o }
  | .output => (once s.output (readOutput v)).map fun o => { s with output := o }
  | .help | .version => .ok s

end Settings

/-! ## Words -/

/-- What a word looks like. -/
inductive Word where
  /-- The word after which no setting stands. -/
  | separator
  | long (name : String) (value : Option String)
  /-- A short name with what stands behind it. -/
  | short (name : Char) (rest : List Char)
  | plain (text : String)
deriving DecidableEq, Repr

def Word.ofString (word : String) : Word :=
  match word.toList with
  | ['-', '-'] => .separator
  | '-' :: '-' :: cs =>
      let name := cs.takeWhile (· ≠ '=')
      match cs.dropWhile (· ≠ '=') with
      | [] => .long (String.ofList name) none
      | _ :: value => .long (String.ofList name) (some (String.ofList value))
  | '-' :: c :: cs => .short c cs
  | _ => .plain word

/-- The values given so far, and the setting that waits for a value or whose
value has not been looked at yet. -/
structure Reading where
  settings : Settings
  pending : Option (Setting × Option String)
deriving DecidableEq, Repr

namespace Reading

def start : Reading := ⟨.none, none⟩

/-- Whether the next word may be a value. -/
def awaitsValue (r : Reading) : Bool :=
  match r.pending with
  | some (_, none) => true
  | _ => false

/-- Looks at the value that is pending. -/
def settle (r : Reading) : Except UsageError Settings :=
  match r.pending with
  | none => .ok r.settings
  | some (_, none) => .error .invalidValue
  | some (x, some v) => r.settings.give x v

/-- Reads a setting with the value that is attached to it, if any. -/
def readSetting (x : Setting) (value : Option String) (r : Reading) :
    Except UsageError Reading :=
  match x.request?, value with
  | some request, none => do
      let _ ← r.settle
      .error request
  | some _, some _ => .error .tooManyValues
  | none, none => do .ok ⟨← r.settle, some (x, none)⟩
  | none, some v => do .ok ⟨← (← r.settle).give x v, none⟩

/-- The value behind a short name, with or without an equals sign. -/
def attached : List Char → Option String
  | [] => none
  | '=' :: cs => some (String.ofList cs)
  | cs => some (String.ofList cs)

def readLong (l : Level) (name : String) (value : Option String) (r : Reading) :
    Except UsageError Reading :=
  match l.settings.find? fun x => x.longName = name with
  | none => .error .unknownArgument
  | some x => r.readSetting x value

def readShort (l : Level) (name : Char) (rest : List Char) (r : Reading) :
    Except UsageError Reading :=
  match l.settings.find? fun x => x.shortName? = some name with
  | none => .error .unknownArgument
  | some x =>
      match x.request? with
      | some _ => r.readSetting x none
      | none => r.readSetting x (attached rest)

/-- Takes a word for the value of the setting that waits for one. -/
def takeValue (v : String) (r : Reading) : Reading :=
  match r.pending with
  | some (x, none) => { r with pending := some (x, some v) }
  | _ => r

end Reading

end WorkspaceTrust
