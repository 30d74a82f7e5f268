/-!
# Ways in which a command line is not run

A command line is wrong in one of several ways, or it asks for help or
for the version instead of a command. Only the latter succeed.
-/

namespace WorkspaceTrust

inductive UsageError where
  /-- A value is missing, is empty where it must not be, or is none of those allowed. -/
  | invalidValue
  /-- A value cannot be read. -/
  | valueValidation
  /-- A value is given to an option that takes none. -/
  | tooManyValues
  | unknownArgument
  /-- An option is given twice. -/
  | argumentConflict
  | missingRequiredArgument
  | invalidSubcommand
  | missingSubcommand
  /-- Nothing at all is given. -/
  | nothingGiven
  | helpRequested
  | versionRequested
deriving DecidableEq, Repr

namespace UsageError

/-- What `--version` prints. -/
def versionText : String := "devenv 0.1.0\n"

def exitCode : UsageError → Nat
  | .helpRequested | .versionRequested => 0
  | _ => 2

/-- What is told when a command is not run. -/
def message : UsageError → String
  | .invalidValue => "error: a value is missing or is not allowed\n"
  | .valueValidation => "error: a value cannot be read\n"
  | .tooManyValues => "error: an option takes no value\n"
  | .unknownArgument => "error: unknown argument\n"
  | .argumentConflict => "error: an option is given twice\n"
  | .missingRequiredArgument => "error: a required option is missing\n"
  | .invalidSubcommand => "error: unknown command\n"
  | .missingSubcommand => "error: no command is given\n"
  | .nothingGiven | .helpRequested =>
      "Usage: devenv [--log-format <text|json>] <provision|git-config> [options]\n\n"
        ++ "  provision   -f <file> --workspace-id <id> [--namespace <name>]\n"
        ++ "              [--certs-path <directory>] [-o <yaml|json>]\n"
        ++ "  git-config  [--certs-path <directory>]\n"
  | .versionRequested => versionText

end UsageError

end WorkspaceTrust
