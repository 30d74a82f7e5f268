import WorkspaceTrust.Yaml.Token

/-!
# Documents as trees

`trees` reads a list of tokens as documents. A `Tree` is a document as it
is written: aliases are still names, scalars are still text, and a tag
has been given the meaning that the directives of its document assign to
its handle.

The grammar is read by recursive descent, one function for each kind of
collection. What is left out is read as the plain scalar `~`; a node
that is only an anchor or a tag is an empty scalar.
-/

namespace WorkspaceTrust.Yaml

/-- A tag after its handle has been looked up. -/
structure Tag where
  root : String
  name : String
deriving DecidableEq, Repr

structure Properties where
  anchor : Option String
  tag : Option Tag
deriving DecidableEq, Repr

namespace Properties

def none : Properties := ⟨.none, .none⟩

def isNone (p : Properties) : Bool := p.anchor.isNone && p.tag.isNone

end Properties

inductive Tree where
  | alias (name : String)
  | scalar (p : Properties) (style : ScalarStyle) (text : String)
  | sequence (p : Properties) (items : List Tree)
  | mapping (p : Properties) (pairs : List (Tree × Tree))
deriving Repr

namespace Tree

instance : Inhabited Tree := ⟨.alias ""⟩

/-- What stands for a node that is left out. -/
def omitted : Tree := .scalar .none .plain "~"

/-- The texts that tag handles stand for. -/
abbrev Handles := List (String × String)

/-- The root of the tags of the language itself. -/
def coreRoot : String := "tag:yaml.org,2002:"

/-- The meaning of a tag. Handles that were not declared stand for themselves,
except that a named one must be declared. -/
def resolveTag (handles : Handles) (handle name : String) : Except Fault Tag :=
  match handles.lookup handle with
  | some root => .ok ⟨root, name⟩
  | none =>
      if handle = "!!" then .ok ⟨coreRoot, name⟩
      else if isFullHandle handle.toList then .error .undeclaredTagHandle
      else .ok ⟨handle, name⟩

/-- The anchor and the tag in front of a node, in either order. -/
def properties (handles : Handles) : List Token → Except Fault (Properties × List Token)
  | .anchor a :: .tag h n :: ts => do .ok (⟨some a, some (← resolveTag handles h n)⟩, ts)
  | .tag h n :: .anchor a :: ts => do .ok (⟨some a, some (← resolveTag handles h n)⟩, ts)
  | .anchor a :: ts => .ok (⟨some a, none⟩, ts)
  | .tag h n :: ts => do .ok (⟨none, some (← resolveTag handles h n)⟩, ts)
  | ts => .ok (.none, ts)

/-- Whether the node before this token is left out, in a block mapping. -/
def endsBlockNode : List Token → Bool
  | .key :: _ | .value :: _ | .blockEnd :: _ => true
  | _ => false

mutual

/-- One node. Block collections are allowed if `block`, and a sequence without
indentation of its own if `indentless`. -/
def node (handles : Handles) : Nat → (block indentless : Bool) → List Token →
    Except Fault (Tree × List Token)
  | 0, _, _, _ => .error .nestingTooDeep
  | fuel + 1, block, indentless, ts =>
      match ts with
      | .alias name :: ts => .ok (.alias name, ts)
      | ts => do
          let (p, ts) ← properties handles ts
          match ts with
          | .scalar style text :: ts => .ok (.scalar p style text, ts)
          | .flowSequenceStart :: ts => do
              let (items, ts) ← flowItems handles fuel true ts
              .ok (.sequence p items, ts)
          | .flowMappingStart :: ts => do
              let (pairs, ts) ← flowPairs handles fuel true ts
              .ok (.mapping p pairs, ts)
          | ts =>
              match ts, block, indentless with
              | .blockEntry :: _, _, true => do
                  let (items, ts) ← indentlessItems handles fuel ts
                  .ok (.sequence p items, ts)
              | .blockSequenceStart :: ts, true, _ => do
                  let (items, ts) ← blockItems handles fuel ts
                  .ok (.sequence p items, ts)
              | .blockMappingStart :: ts, true, _ => do
                  let (pairs, ts) ← blockPairs handles fuel ts
                  .ok (.mapping p pairs, ts)
              | ts, _, _ =>
                  if p.isNone then .error .unexpectedToken else .ok (.scalar p .plain "", ts)

/-- The entries of a block sequence up to its end. -/
def blockItems (handles : Handles) : Nat → List Token → Except Fault (List Tree × List Token)
  | 0, _ => .error .nestingTooDeep
  | fuel + 1, ts =>
      match ts with
      | .blockEnd :: ts => .ok ([], ts)
      | .blockEntry :: ts => do
          let (item, ts) ← match ts with
            | .blockEntry :: _ | .blockEnd :: _ => .ok (omitted, ts)
            | ts => node handles fuel true false ts
          let (items, ts) ← blockItems handles fuel ts
          .ok (item :: items, ts)
      | _ => .error .unexpectedToken

/-- The entries of a sequence that ends where no entry follows. -/
def indentlessItems (handles : Handles) : Nat → List Token → Except Fault (List Tree × List Token)
  | 0, _ => .error .nestingTooDeep
  | fuel + 1, ts =>
      match ts with
      | .blockEntry :: ts => do
          let (item, ts) ←
            if endsBlockNode ts then .ok (omitted, ts)
            else match ts with
              | .blockEntry :: _ => .ok (omitted, ts)
              | ts => node handles fuel true false ts
          let (items, ts) ← indentlessItems handles fuel ts
          .ok (item :: items, ts)
      | ts => .ok ([], ts)

/-- The pairs of a block mapping up to its end. -/
def blockPairs (handles : Handles) : Nat → List Token →
    Except Fault (List (Tree × Tree) × List Token)
  | 0, _ => .error .nestingTooDeep
  | fuel + 1, ts =>
      match ts with
      | .blockEnd :: ts => .ok ([], ts)
      | .key :: ts => do
          let (key, ts) ←
            if endsBlockNode ts then .ok (omitted, ts) else node handles fuel true true ts
          let (value, ts) ← blockValue handles fuel ts
          let (pairs, ts) ← blockPairs handles fuel ts
          .ok ((key, value) :: pairs, ts)
      | .value :: _ => do
          let (value, ts) ← blockValue handles fuel ts
          let (pairs, ts) ← blockPairs handles fuel ts
          .ok ((omitted, value) :: pairs, ts)
      | _ => .error .unexpectedToken

/-- The value of a pair of a block mapping, if it has one. -/
def blockValue (handles : Handles) : Nat → List Token → Except Fault (Tree × List Token)
  | 0, _ => .error .nestingTooDeep
  | fuel + 1, ts =>
      match ts with
      | .value :: ts =>
          if endsBlockNode ts then .ok (omitted, ts) else node handles fuel true true ts
      | ts => .ok (omitted, ts)

/-- The items of a flow sequence up to its end; `first` before its first item. -/
def flowItems (handles : Handles) : Nat → (first : Bool) → List Token →
    Except Fault (List Tree × List Token)
  | 0, _, _ => .error .nestingTooDeep
  | fuel + 1, first, ts =>
      match ts, first with
      | .flowSequenceEnd :: ts, _ => .ok ([], ts)
      | .flowEntry :: ts, false => flowItem handles fuel ts
      | ts, true => flowItem handles fuel ts
      | _, false => .error .unexpectedToken

/-- An item of a flow sequence after its comma, and those after it. -/
def flowItem (handles : Handles) : Nat → List Token → Except Fault (List Tree × List Token)
  | 0, _ => .error .nestingTooDeep
  | fuel + 1, ts =>
      match ts with
      | .flowSequenceEnd :: ts => .ok ([], ts)
      | .key :: ts => do
          let (key, ts) ← match ts with
            | .value :: ts | .flowEntry :: ts | .flowSequenceEnd :: ts => .ok (omitted, ts)
            | ts => node handles fuel false false ts
          let (value, ts) ← match ts with
            | .value :: ts => match ts with
              | .flowEntry :: _ | .flowSequenceEnd :: _ => .ok (omitted, ts)
              | ts => node handles fuel false false ts
            | ts => .ok (omitted, ts)
          let (items, ts) ← flowItems handles fuel false ts
          .ok (.mapping .none [(key, value)] :: items, ts)
      | ts => do
          let (item, ts) ← node handles fuel false false ts
          let (items, ts) ← flowItems handles fuel false ts
          .ok (item :: items, ts)

/-- The pairs of a flow mapping up to its end; `first` before its first pair. -/
def flowPairs (handles : Handles) : Nat → (first : Bool) → List Token →
    Except Fault (List (Tree × Tree) × List Token)
  | 0, _, _ => .error .nestingTooDeep
  | fuel + 1, first, ts =>
      match ts, first with
      | .flowMappingEnd :: ts, _ => .ok ([], ts)
      | .flowEntry :: ts, false => flowPair handles fuel ts
      | ts, true => flowPair handles fuel ts
      | _, false => .error .unexpectedToken

/-- A pair of a flow mapping after its comma, and those after it. -/
def flowPair (handles : Handles) : Nat → List Token →
    Except Fault (List (Tree × Tree) × List Token)
  | 0, _ => .error .nestingTooDeep
  | fuel + 1, ts =>
      match ts with
      | .flowMappingEnd :: ts => .ok ([], ts)
      | .key :: ts => do
          let (key, ts) ← match ts with
            | .value :: _ | .flowEntry :: _ | .flowMappingEnd :: _ => .ok (omitted, ts)
            | ts => node handles fuel false false ts
          let (value, ts) ← flowValue handles fuel ts
          let (pairs, ts) ← flowPairs handles fuel false ts
          .ok ((key, value) :: pairs, ts)
      | .value :: _ => do
          let (value, ts) ← flowValue handles fuel ts
          let (pairs, ts) ← flowPairs handles fuel false ts
          .ok ((omitted, value) :: pairs, ts)
      | ts => do
          let (key, ts) ← node handles fuel false false ts
          let (pairs, ts) ← flowPairs handles fuel false ts
          .ok ((key, omitted) :: pairs, ts)

/-- The value of a pair of a flow mapping, if it has one. -/
def flowValue (handles : Handles) : Nat → List Token → Except Fault (Tree × List Token)
  | 0, _ => .error .nestingTooDeep
  | fuel + 1, ts =>
      match ts with
      | .value :: ts => match ts with
        | .flowEntry :: _ | .flowMappingEnd :: _ => .ok (omitted, ts)
        | ts => node handles fuel false false ts
      | ts => .ok (omitted, ts)

end

/-! ## Documents -/

/-- The directives before a document. There is at most one version, and of
several directives in a row only the last can declare a handle. -/
def directives : (version : Bool) → Handles → List Token → Except Fault (Handles × List Token)
  | version, _, .directive d :: ts =>
      match d with
      | .version =>
          if version then .error .directive else directives true [] ts
      | .tag handle root => directives version [(handle, root)] ts
      | .reserved => directives version [] ts
  | _, handles, ts => .ok (handles, ts)

/-- The content of a document after its start marker. -/
def content (handles : Handles) (fuel : Nat) (ts : List Token) : Except Fault (Tree × List Token) :=
  match ts with
  | .directive _ :: _ | .documentStart :: _ | .documentEnd :: _ | .streamEnd :: _ =>
      .ok (omitted, ts)
  | ts => node handles fuel true false ts

def startsWithDirective : List Token → Bool
  | .directive _ :: _ => true
  | _ => false

/-- The documents of a stream; `bare` where a document needs no start marker:
at the beginning and after an end marker. -/
def documents (limit : Nat) : Nat → (bare : Bool) → List Token → Except Fault (List Tree)
  | 0, _, _ => .error .nestingTooDeep
  | fuel + 1, bare, ts => do
      let ts := ts.dropWhile (· = .documentEnd)
      match ts with
      | .streamEnd :: _ => .ok []
      | ts =>
          let bare := bare && !startsWithDirective ts
          let (handles, ts) ← directives false [] ts
          let (tree, ts) ← match ts with
            | .documentStart :: ts => content handles limit ts
            | ts => if bare then node handles limit true false ts else .error .unexpectedToken
          match ts with
          | .documentEnd :: ts => do .ok (tree :: (← documents limit fuel true ts))
          | .directive _ :: _ => .error .misplacedDirective
          | ts => do .ok (tree :: (← documents limit fuel false ts))

end Tree

/-- The documents of a list of tokens. -/
def trees (ts : List Token) : Except Fault (List Tree) :=
  let limit := 3 * ts.length + 3
  Tree.documents limit limit true ts

end WorkspaceTrust.Yaml
