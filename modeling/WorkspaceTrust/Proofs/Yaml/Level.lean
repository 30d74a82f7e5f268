import WorkspaceTrust.Proofs.Yaml.Cursor

/-!
# Levels of indentation

What a lexer knows about the block it is in is a `Level`: the column of
the innermost collection and the levels around it. A collection opens a
level (`nested`); behind a colon, content may stand one column deeper
without opening one (`loose`). A line at a smaller column closes levels
and so makes tokens (`unroll`).

`Lexer.InBlock` says that a lexer is outside all flow collections, at a
level, behind certain tokens. The operations on lexers are described by
what they make of these two.
-/

namespace WorkspaceTrust.Yaml

structure Level where
  indent : Int
  /-- The open levels, innermost first. -/
  around : List Indent

namespace Level

/-- Outside all collections. -/
def root : Level := ⟨-1, []⟩

/-- Inside a collection at a column. -/
def nested (column : Int) (L : Level) : Level := ⟨column, ⟨L.indent, true⟩ :: L.around⟩

/-- Behind an indicator, where content may stand deeper without a level of its own. -/
def loose (L : Level) : Level := ⟨L.indent + 1, ⟨L.indent, false⟩ :: L.around⟩

/-- The innermost level is that of a collection. -/
def Closes (L : Level) : Prop := ∃ i is, L.around = ⟨i, true⟩ :: is

theorem closes_nested (column : Int) (L : Level) : (L.nested column).Closes := ⟨_, _, rfl⟩

/-- The level and the tokens once the levels deeper than a column are closed. -/
def unroll (column : Int) (L : Level) (ts : List Token) : Level × List Token :=
  let (indent, around, ts, _) := Lexer.unrollTo column L.indent L.around ts ts.length
  (⟨indent, around⟩, ts)

theorem unrollTo_length (column : Int) (is : List Indent) : ∀ (indent : Int) (ts : List Token),
    (Lexer.unrollTo column indent is ts ts.length).2.2.2
      = (Lexer.unrollTo column indent is ts ts.length).2.2.1.length := by
  induction is with
  | nil =>
    intro indent ts
    rfl
  | cons i is ih =>
    intro indent ts
    rw [Lexer.unrollTo]
    split
    · split
      · exact ih i.outer (.blockEnd :: ts)
      · exact ih i.outer ts
    · rfl

theorem unroll_of_le {column : Int} {L : Level} (h : L.indent ≤ column) (ts : List Token) :
    L.unroll column ts = (L, ts) := by
  obtain ⟨indent, around⟩ := L
  cases around with
  | nil => rfl
  | cons i is =>
    rw [unroll, Lexer.unrollTo, if_neg (Int.not_lt.2 h)]

theorem unroll_nested {column c : Int} {L : Level} (h : column < c) (ts : List Token) :
    (L.nested c).unroll column ts = L.unroll column (.blockEnd :: ts) := by
  rw [unroll, nested, Lexer.unrollTo, if_pos h]
  rfl

theorem unroll_loose {column : Int} {L : Level} (h : column ≤ L.indent) (ts : List Token) :
    L.loose.unroll column ts = L.unroll column ts := by
  rw [unroll, loose, Lexer.unrollTo, if_pos (by simp only; omega)]
  rfl

/-- The level at which content stands that opens no collection: that of the collection
around it, or one column deeper. -/
def Holds (P L : Level) : Prop := P.Closes ∧ (L = P ∨ L = P.loose)

/-- The level at which content stands that may open a collection. -/
def Opens (P L : Level) : Prop := P.Holds L ∨ L = P ∧ P.around = []

theorem Holds.unroll {P L : Level} (h : P.Holds L) {column : Int} (hc : column ≤ P.indent)
    (ts : List Token) : L.unroll column ts = P.unroll column ts := by
  rcases h.2 with rfl | rfl
  · rfl
  · exact unroll_loose hc ts

theorem Holds.indent_le {P L : Level} (h : P.Holds L) {column : Int} (hc : P.indent < column) :
    L.indent ≤ column := by
  rcases h.2 with rfl | rfl
  · exact Int.le_of_lt hc
  · exact hc

end Level

namespace Lexer

def setLevel (L : Level) (s : Lexer) : Lexer := { s with indent := L.indent, indents := L.around }

/-- The lexer is in a block, at a level and behind some tokens, latest first. -/
structure InBlock (s : Lexer) (L : Level) (ts : List Token) : Prop where
  tokens : s.tokens = ts
  count : s.count = ts.length
  indent : s.indent = L.indent
  indents : s.indents = L.around
  flowLevel : s.flowLevel = 0
  inSinglePair : s.inSinglePair = false
  propertyAtMargin : s.propertyAtMargin = false

namespace InBlock

variable {s : Lexer} {L P : Level} {ts : List Token}

theorem inFlow (h : s.InBlock L ts) : s.inFlow = false := by simp [Lexer.inFlow, h.flowLevel]

theorem move (h : s.InBlock L ts) (c : Cursor) : (s.move c).InBlock L ts := { h with }

theorem allowKey (h : s.InBlock L ts) (b : Bool) : (s.allowKey b).InBlock L ts := { h with }

theorem setKeys (h : s.InBlock L ts) (ks : List PossibleKey) :
    InBlock { s with keys := ks } L ts := { h with }

theorem saveKey (h : s.InBlock L ts) : s.saveKey.InBlock L ts := by
  unfold Lexer.saveKey
  split
  · exact { h with }
  · exact h

theorem push (h : s.InBlock L ts) (t : Token) : (s.push t).InBlock L (t :: ts) where
  tokens := by simp [Lexer.push, h.tokens]
  count := by simp [Lexer.push, h.count]
  indent := h.indent
  indents := h.indents
  flowLevel := h.flowLevel
  inSinglePair := h.inSinglePair
  propertyAtMargin := rfl

/-- A token is put in behind the earliest ones. -/
theorem insertAt {later : List Token} (h : s.InBlock L (later ++ ts)) (t : Token) :
    (s.insertAt ts.length t).InBlock L (later ++ t :: ts) where
  tokens := by simp [Lexer.insertAt, h.tokens, h.count]
  count := by
    simp [Lexer.insertAt, h.count]
    omega
  indent := h.indent
  indents := h.indents
  flowLevel := h.flowLevel
  inSinglePair := h.inSinglePair
  propertyAtMargin := h.propertyAtMargin

theorem unroll (h : s.InBlock L ts) (column : Int) :
    (s.unroll column).InBlock (L.unroll column ts).1 (L.unroll column ts).2 := by
  rw [Lexer.unroll, if_neg (by simp [h.inFlow])]
  simp only [h.indent, h.indents, h.tokens, h.count]
  exact ⟨rfl, Level.unrollTo_length column L.around L.indent ts, rfl, rfl, h.flowLevel,
    h.inSinglePair, by simp [h.propertyAtMargin]⟩

theorem setLevel (h : s.InBlock L ts) (P : Level) : (s.setLevel P).InBlock P ts :=
  { h with indent := rfl, indents := rfl }

theorem setLevel_self (h : s.InBlock L ts) : s.setLevel L = s := by
  rw [Lexer.setLevel, ← h.indent, ← h.indents]

/-- Behind an indicator content may stand deeper. -/
theorem rollOne (h : s.InBlock L ts) (hP : P.Holds L) : s.rollOne = s.setLevel P.loose := by
  obtain ⟨⟨i, is, hclose⟩, rfl | rfl⟩ := hP
  · rw [Lexer.rollOne, if_pos (by simp [h.inFlow, h.indents, hclose]), h.indent, h.indents]
    rfl
  · rw [Lexer.rollOne, if_neg (by simp [h.indents, Level.loose]), h.setLevel_self]

theorem dropOpenEnded (h : s.InBlock L ts) (hP : P.Opens L) :
    s.dropOpenEnded = s.setLevel P := by
  rcases hP with ⟨⟨i, is, hclose⟩, rfl | rfl⟩ | ⟨rfl, hroot⟩
  · rw [h.setLevel_self, Lexer.dropOpenEnded]
    simp [h.indents, hclose]
  · rw [Lexer.dropOpenEnded]
    simp [h.indents, Level.loose, hclose, Lexer.setLevel]
  · rw [h.setLevel_self, Lexer.dropOpenEnded]
    simp [h.indents, hroot]

/-- A collection opens where content stands deeper than the collection around it. -/
theorem roll_of_lt (h : s.InBlock L ts) (hP : P.Opens L) {column : Int} (hc : P.indent < column)
    (at? : Option Nat) (t : Token) :
    s.roll column at? t = match at? with
      | some n => (s.setLevel (P.nested column)).insertAt n t
      | none => (s.setLevel (P.nested column)).push t := by
  rw [Lexer.roll, if_neg (by simp [h.inFlow])]
  rcases hP with ⟨⟨i, is, hclose⟩, rfl | rfl⟩ | ⟨rfl, hroot⟩
  · cases at? <;> simp only [h.indents, hclose, h.indent, Bool.not_true, Bool.and_false,
      Bool.false_eq_true, if_false, if_pos hc, Lexer.setLevel, Level.nested]
  · have hle : P.indent + 1 ≤ column := hc
    simp only [h.indents, h.indent, Level.loose, decide_eq_true hle, Bool.not_false, Bool.and_true,
      if_true, if_pos hc]
    rfl
  · cases at? <;> simp only [h.indents, hroot, h.indent, if_pos hc, Lexer.setLevel, Level.nested]

/-- No collection opens at the column of the collection around it. -/
theorem roll_of_eq (h : s.InBlock P ts) (hP : P.Closes) {column : Int} (hc : P.indent = column)
    (at? : Option Nat) (t : Token) : s.roll column at? t = s := by
  obtain ⟨i, is, hclose⟩ := hP
  rw [Lexer.roll, if_neg (by simp [h.inFlow])]
  simp only [h.indents, hclose, h.indent, Bool.not_true, Bool.and_false, Bool.false_eq_true,
    if_false]
  rw [if_neg (by omega)]

end InBlock

end Lexer

end WorkspaceTrust.Yaml
