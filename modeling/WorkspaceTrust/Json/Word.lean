import WorkspaceTrust.Json.Describe
import WorkspaceTrust.Json.Reader

/-!
# Reading words of 32 bits

A text that is one whole number from zero up to but not including 2^32.
Any other value is refused as soon as its kind or its size is seen, so a
list or an object is refused at its first character.
-/

namespace WorkspaceTrust.Json

inductive WordError where
  | unreadable (e : ReadError)
  | wrongType (found : Json) (unread : List Char)
  | outOfRange (i : Int) (unread : List Char)
deriving DecidableEq, Repr

def WordError.message (text : String) : WordError → String
  | .unreadable e => e.message text.toList
  | .wrongType found unread =>
      "invalid type: " ++ found.describe ++ ", expected u32" ++ place unread
  | .outOfRange i unread =>
      "invalid value: " ++ (Number.int i).describe ++ ", expected u32" ++ place unread
where
  place (unread : List Char) : String :=
    let (line, column) := position text.toList unread
    " at line " ++ toString line ++ " column " ++ toString column

/-- The number that a value is, where `unread` follows the value. -/
def asWord (unread : List Char) : Json → Except WordError UInt32
  | .num (.int i) =>
      if 0 ≤ i ∧ i < Nat.pow 2 32 then .ok (UInt32.ofNat i.toNat) else .error (.outOfRange i unread)
  | v => .error (.wrongType v unread)

def readWord32 (text : String) : Except WordError UInt32 :=
  match skipBlanks text.toList with
  | '[' :: cs => .error (.wrongType (.arr []) ('[' :: cs))
  | '{' :: cs => .error (.wrongType (.obj []) ('{' :: cs))
  | cs => do
      let (v, rest) ← (readValue 1 cs).mapError .unreadable
      let n ← asWord rest v
      (finish rest).mapError .unreadable
      .ok n

end WorkspaceTrust.Json
