import WorkspaceTrust.Yaml.Tree
import WorkspaceTrust.Decimal.Literal

/-!
# Documents as values

`Node.ofTree` gives a document its meaning. A plain scalar is a null, a
boolean, a whole number, a real number or text, by its spelling or by a
tag of the language; quoted and block scalars are text. Real numbers keep
their spelling. An alias is the node that its anchor names.

Some trees have no value: a scalar that does not fit its tag, and an
alias inside the node it names. These become `unresolved`. A mapping in
which such a node stands in the place of a key takes the node after it
for the key.
-/

namespace WorkspaceTrust.Yaml

inductive Node where
  | unresolved
  | null
  | bool (b : Bool)
  | int (i : Int)
  | real (text : String)
  | str (text : String)
  | seq (items : List Node)
  | map (entries : List (Node × Node))
deriving Repr

namespace Node

instance : Inhabited Node := ⟨.unresolved⟩

mutual

/-- Equality of nodes. Mappings are equal if their entries are, in order. -/
def beq : Node → Node → Bool
  | .unresolved, .unresolved | .null, .null => true
  | .bool a, .bool b => a = b
  | .int a, .int b => a = b
  | .real a, .real b => a = b
  | .str a, .str b => a = b
  | .seq a, .seq b => beqItems a b
  | .map a, .map b => beqEntries a b
  | _, _ => false

def beqItems : List Node → List Node → Bool
  | [], [] => true
  | a :: as, b :: bs => beq a b && beqItems as bs
  | _, _ => false

def beqEntries : List (Node × Node) → List (Node × Node) → Bool
  | [], [] => true
  | (k, a) :: as, (l, b) :: bs => beq k l && beq a b && beqEntries as bs
  | _, _ => false

end

instance : BEq Node := ⟨beq⟩

def isUnresolved : Node → Bool
  | .unresolved => true
  | _ => false

/-! ## Scalars -/

/-- Whether a plain scalar is spelled like a real number: the words of the
language for infinity and not-a-number, or a decimal. -/
def isReal (text : String) : Bool :=
  [".inf", ".Inf", ".INF", "+.inf", "+.Inf", "+.INF", "-.inf", "-.Inf", "-.INF",
    ".nan", "NaN", ".NAN"].contains text
  || (Literal.readBinary64 text.toList).isSome

/-- A whole number in a base that its first two characters name, or with a plus sign
before its own sign. -/
def readMarkedInt : List Char → Option Int
  | '0' :: 'x' :: cs => Literal.readInt64 16 cs
  | '0' :: 'o' :: cs => Literal.readInt64 8 cs
  | '+' :: cs => Literal.readInt64 10 cs
  | _ => none

/-- The value of a plain scalar without a tag. -/
def ofPlain (text : String) : Node :=
  match readMarkedInt text.toList with
  | some i => .int i
  | none =>
      if text = "" ∨ text = "~" ∨ text = "null" then .null
      else if text = "true" then .bool true
      else if text = "false" then .bool false
      else match Literal.readInt64 10 text.toList with
        | some i => .int i
        | none => if isReal text then .real text else .str text

/-- The value of a plain scalar with a tag of the language; other names mean text. -/
def ofCoreTag (name text : String) : Node :=
  match name with
  | "bool" =>
      if text = "true" then .bool true
      else if text = "false" then .bool false
      else .unresolved
  | "int" => match Literal.readInt64 10 text.toList with
    | some i => .int i
    | none => .unresolved
  | "float" => if isReal text then .real text else .unresolved
  | "null" => if text = "~" ∨ text = "null" then .null else .unresolved
  | _ => .str text

def ofScalar (style : ScalarStyle) (tag : Option Tag) (text : String) : Node :=
  match style, tag with
  | .plain, none => ofPlain text
  | .plain, some t => if t.root = Tree.coreRoot then ofCoreTag t.name text else .str text
  | _, _ => .str text

/-! ## Collections and aliases -/

/-- The nodes that have been anchored: each name stands for a number, and each
number for a node once that node is complete. -/
structure Anchors where
  numbers : List (String × Nat)
  nodes : List (Nat × Node)
  next : Nat

namespace Anchors

def none : Anchors := ⟨[], [], 0⟩

/-- Names the node that begins here. -/
def announce (name? : Option String) (a : Anchors) : Option Nat × Anchors :=
  match name? with
  | .none => (.none, a)
  | some name => (some a.next, { a with numbers := (name, a.next) :: a.numbers, next := a.next + 1 })

/-- Completes the node with this number. -/
def complete (number? : Option Nat) (n : Node) (a : Anchors) : Anchors :=
  match number? with
  | .none => a
  | some i => { a with nodes := (i, n) :: a.nodes }

def find (name : String) (a : Anchors) : Except Fault Node :=
  match a.numbers.lookup name with
  | .none => .error .unknownAlias
  | some i => .ok ((a.nodes.lookup i).getD .unresolved)

end Anchors

/-- A mapping under construction: its entries, latest first, and the key whose
value comes next, `unresolved` if a key comes next. -/
structure Pairing where
  entries : List (Node × Node)
  key : Node

namespace Pairing

def none : Pairing := ⟨[], .unresolved⟩

/-- Takes the next node, as a key or as a value. No key occurs twice. -/
def add (n : Node) (p : Pairing) : Except Fault Pairing :=
  if p.key.isUnresolved then .ok { p with key := n }
  else if p.entries.any fun e => e.1 == p.key then .error .duplicateKey
  else .ok ⟨(p.key, n) :: p.entries, .unresolved⟩

end Pairing

mutual

/-- The value of a tree, among the anchors of its document. -/
def ofTree : Tree → Anchors → Except Fault (Node × Anchors)
  | .alias name, a => do .ok (← a.find name, a)
  | .scalar p style text, a =>
      let (number, a) := a.announce p.anchor
      let n := ofScalar style p.tag text
      .ok (n, a.complete number n)
  | .sequence p items, a => do
      let (number, a) := a.announce p.anchor
      let (nodes, a) ← ofItems items a
      .ok (.seq nodes, a.complete number (.seq nodes))
  | .mapping p pairs, a => do
      let (number, a) := a.announce p.anchor
      let (pairing, a) ← ofPairs pairs .none a
      let n := Node.map pairing.entries.reverse
      .ok (n, a.complete number n)

def ofItems : List Tree → Anchors → Except Fault (List Node × Anchors)
  | [], a => .ok ([], a)
  | t :: ts, a => do
      let (n, a) ← ofTree t a
      let (ns, a) ← ofItems ts a
      .ok (n :: ns, a)

def ofPairs : List (Tree × Tree) → Pairing → Anchors → Except Fault (Pairing × Anchors)
  | [], p, a => .ok (p, a)
  | (k, v) :: ts, p, a => do
      let (k, a) ← ofTree k a
      let p ← p.add k
      let (v, a) ← ofTree v a
      let p ← p.add v
      ofPairs ts p a

end

/-- The documents of a text. -/
def documents (text : List Char) : Except Fault (List Node) := do
  let ts ← trees (← tokens text)
  ts.mapM fun t => do .ok (← ofTree t .none).1

end Node

end WorkspaceTrust.Yaml
