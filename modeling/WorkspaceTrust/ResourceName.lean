/-!
# Names of cluster objects

The name of a config map is a DNS subdomain: at most 253 bytes, lower-case
ASCII letters, digits, hyphens and points, with a letter or digit at
either end. `ResourceName.check` reports the first rule that a name
breaks.
-/

namespace WorkspaceTrust.ResourceName

/-- The most bytes that a name may have. -/
def maxLength : Nat := 253

inductive Fault where
  | empty
  | tooLong (length : Nat)
  | invalidCharacter (c : Char)
  | invalidEnd
deriving DecidableEq, Repr

def Fault.message : Fault → String
  | .empty => "name must not be empty"
  | .tooLong length =>
      "name is " ++ toString length ++ " characters, maximum is " ++ toString maxLength
  | .invalidCharacter c => "invalid character '" ++ c.toString ++ "'"
  | .invalidEnd => "name must start and end with an alphanumeric character"

/-- A lower-case ASCII letter or a digit. -/
def isAlphanumeric (c : Char) : Bool := ('a' ≤ c ∧ c ≤ 'z') ∨ ('0' ≤ c ∧ c ≤ '9')

def isNameChar (c : Char) : Bool := isAlphanumeric c || c = '-' || c = '.'

/-- Whether a text is a name, and if not, why. -/
def check (name : String) : Except Fault Unit :=
  let cs := name.toList
  if cs = [] then .error .empty
  else if maxLength < name.utf8ByteSize then .error (.tooLong name.utf8ByteSize)
  else match cs.find? fun c => !isNameChar c with
    | some c => .error (.invalidCharacter c)
    | none =>
        if cs.head?.any isAlphanumeric && cs.getLast?.any isAlphanumeric then .ok ()
        else .error .invalidEnd

end WorkspaceTrust.ResourceName
