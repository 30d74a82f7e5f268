import WorkspaceTrust.Proofs.Json.Leaf
import WorkspaceTrust.Proofs.Yaml.Empty
import WorkspaceTrust.Proofs.Yaml.Numeral

/-!
# The tokens of a written value

`nodeTokens` are the tokens that a value is read as. Apart from the
layout of texts they do not depend on how the value is laid out, except
that a list at the indentation of its key has no token at its beginning
and its end.

The three families of statements go together: a value in front of what
follows it (`YieldsNode`), the items of a list and the members of an
object after the first. What follows always starts on a line of its own,
at a column that is not deeper than the collection around the value.
-/

namespace WorkspaceTrust

open Yaml ScalarStyle

/-- What is needed of a leaf for the tokens that are read to be those that are written. -/
def Json.Leaf.Lays : Json.Leaf → Prop
  | .text s | .key s => Yaml.Lays s.toList
  | .number x => writeNumber x ≠ [] ∧ fitsPlain (writeNumber x) = true

namespace Yaml

theorem lays_number (x : Json.Number) : (Json.Leaf.number x).Lays :=
  ⟨(numeral_writeNumber x).ne_nil, fitsPlain_of_numeral (numeral_writeNumber x)⟩

def textToken (n : Nat) (s : String) : Token :=
  .scalar (ofText s.toList) (String.ofList (laidText n s.toList))

mutual

/-- The tokens of a value whose lines are indented by `n`, perhaps a list at the
indentation of its key. -/
def nodeTokens (n : Nat) (indentless : Bool) : Json → List Token
  | .null => [.scalar .plain "null"]
  | .bool b => [.scalar .plain (if b then "true" else "false")]
  | .num x => [.scalar .plain (String.ofList (writeNumber x))]
  | .str s => [textToken n s]
  | .arr [] => [.flowSequenceStart, .flowSequenceEnd]
  | .obj [] => [.flowMappingStart, .flowMappingEnd]
  | .arr (v :: vs) =>
      if indentless then itemTokens n (v :: vs)
      else .blockSequenceStart :: itemTokens n (v :: vs) ++ [.blockEnd]
  | .obj (m :: ms) => .blockMappingStart :: memberTokens n (m :: ms) ++ [.blockEnd]

def itemTokens (n : Nat) : List Json → List Token
  | [] => []
  | v :: vs => .blockEntry :: nodeTokens (n + 2) false v ++ itemTokens n vs

def memberTokens (n : Nat) : List (String × Json) → List Token
  | [] => []
  | (k, v) :: ms =>
      .key :: textToken (n + 2) k :: .value
        :: nodeTokens (placeValue n (isSimpleKey k.toList) v).1 (isSimpleKey k.toList) v
        ++ memberTokens n ms

end

/-! ## How written text starts -/

theorem starts_cons {c : Char} {tail : List Char} (h : isBlank c = false ∧ c ≠ '\n' ∧ c ≠ '#') :
    Starts (c :: tail) := by
  intro d rest heq
  obtain ⟨rfl, -⟩ := List.cons.inj heq
  exact h

theorem starts_plain {cs : List Char} (hne : cs ≠ []) (h : fitsPlain cs = true) (tail : List Char) :
    Starts (cs ++ tail) := by
  have htext := plainText_of_fitsPlain hne h
  obtain ⟨c, rest, rfl, hspace, hhash⟩ := htext.first
  have hvisible := htext.visible c (by simp)
  exact starts_cons ⟨by simp [isBlank, hspace, hvisible.2], hvisible.1, hhash⟩

theorem starts_writeInline (n : Nat) (cs tail : List Char) : Starts (writeInline n cs ++ tail) := by
  cases hstyle : ofText cs with
  | plain =>
    rw [writeInline_plain n hstyle]
    exact starts_plain (ne_nil_of_plain hstyle) (fitsPlain_of_ofText hstyle).1 tail
  | _ =>
    rw [writeInline, hstyle]
    exact starts_cons (by decide)

theorem starts_writeScalar (n : Nat) (cs tail : List Char) : Starts (writeScalar n cs ++ tail) := by
  by_cases hstyle : ofText cs = .literal
  · rw [writeScalar_literal n hstyle]
    exact starts_cons (by decide)
  · rw [writeScalar_inline n hstyle]
    exact starts_writeInline n cs _

theorem starts_writeKey (n : Nat) (key : String) (tail : List Char) :
    Starts (writeKey n key ++ tail) := by
  rw [writeKey]
  split
  · rw [List.append_assoc]
    exact starts_writeInline n _ _
  · exact starts_cons (by decide)

theorem starts_writeNode (n : Nat) (v : Json) (rest : List Char) : Starts (writeNode n v rest) := by
  cases v with
  | null => exact starts_cons (by decide)
  | bool b => cases b <;> exact starts_cons (by decide)
  | num x =>
    rw [writeNode]
    exact starts_plain (lays_number x).1 (lays_number x).2 _
  | str s => exact starts_writeScalar n _ _
  | arr vs => cases vs <;> exact starts_cons (by decide)
  | obj ms =>
    cases ms with
    | nil => exact starts_cons (by decide)
    | cons m ms =>
      show Starts (writeKey n m.1 ++ _ ++ _)
      rw [List.append_assoc]
      exact starts_writeKey n _ _

/-! ## Values -/

/-- A value may begin at a spot: behind its indicator, or where a collection may. -/
def Places (n : Nat) (indentless : Bool) (P : Level) (x : Spot) : Json → Prop
  | .arr (_ :: _) => x.column = n ∧ x.keyAllowed = true ∧ P.Enters n x.level ∧
      if indentless then P.indent = n else P.indent < n
  | .obj (_ :: _) => x.column = n ∧ x.keyAllowed = true ∧ P.Enters n x.level ∧ P.indent < n
  | _ => ∃ outer : Nat, P.indent = outer ∧ n = outer + 2 ∧ outer < x.column ∧ P.Holds x.level

/-- A value makes its tokens in front of a line that does not belong to it. -/
def YieldsNode (v : Json) : Prop :=
  ∀ {P : Level} {x : Spot} {n r : Nat} {indentless : Bool} {body : List Char} {result : Verdict},
    Places n indentless P x v → r ≤ P.indent → Starts body →
    x.body = writeNode n v (spaces r ++ body) →
    (Spot.ofLine r P ((nodeTokens n indentless v).reverse ++ x.tokens) body).Yields result →
    x.Yields result

/-- Items make their tokens on lines of their own. -/
def YieldsItems (vs : List Json) : Prop :=
  ∀ {Q : Level} {n r : Nat} {ts : List Token} {body : List Char} {result : Verdict},
    Q.Closes → Q.indent = n → r ≤ n → Starts body →
    (Spot.ofLine r Q ((itemTokens n vs).reverse ++ ts) body).Yields result →
    ∃ r' body', writeItems n vs (spaces r ++ body) = spaces r' ++ body' ∧ r' ≤ n ∧ Starts body' ∧
      (Spot.ofLine r' Q ts body').Yields result

def YieldsMembers (ms : List (String × Json)) : Prop :=
  ∀ {Q : Level} {n r : Nat} {ts : List Token} {body : List Char} {result : Verdict},
    Q.Closes → Q.indent = n → r ≤ n → Starts body →
    (Spot.ofLine r Q ((memberTokens n ms).reverse ++ ts) body).Yields result →
    ∃ r' body', writeMembers n ms (spaces r ++ body) = spaces r' ++ body' ∧ r' ≤ n ∧ Starts body' ∧
      (Spot.ofLine r' Q ts body').Yields result

theorem ofLine_of_le {r : Nat} {P : Level} (h : P.indent ≤ r) (ts : List Token) (body : List Char) :
    Spot.ofLine r P ts body = ⟨body, r, ts, true, P⟩ := by
  rw [Spot.ofLine, Level.unroll_of_le h]

/-- The line behind a collection closes its level, if it opened one. -/
theorem ofLine_enter {r n : Nat} {P : Level} {start : Token} {ts ts' : List Token}
    (h : P.indent < n) (hr : r ≤ P.indent) (body : List Char) :
    Spot.ofLine r (P.enter n start ts).1 ts' body = Spot.ofLine r P (.blockEnd :: ts') body := by
  rw [Level.enter, if_pos h, Spot.ofLine, Spot.ofLine, Level.unroll_nested (by omega)]

/-- A name or a number. -/
theorem yieldsNode_of_plain {v : Json} {cs : List Char}
    (hplace : ∀ {n indentless P x}, Places n indentless P x v →
      ∃ outer : Nat, P.indent = outer ∧ n = outer + 2 ∧ outer < x.column ∧ P.Holds x.level)
    (hwrite : ∀ n rest, writeNode n v rest = cs ++ '\n' :: rest)
    (htoken : ∀ n indentless, nodeTokens n indentless v = [.scalar .plain (String.ofList cs)])
    (hne : cs ≠ []) (hfit : fitsPlain cs = true) : YieldsNode v := by
  intro P x n r indentless body result hx hr hbody htext hy
  obtain ⟨outer, houter, rfl, hcolumn, hP⟩ := hplace hx
  rw [hwrite] at htext
  rw [htoken] at hy
  exact yields_plain hP houter hcolumn (by omega) hbody hne hfit htext hy

theorem yieldsNode_text {s : String} (h : Lays s.toList) : YieldsNode (.str s) := by
  intro P x n r indentless body result ⟨outer, houter, hn, hcolumn, hP⟩ hr hbody htext hy
  obtain ⟨text, column, ts, keyAllowed, L⟩ := x
  subst hn
  rw [writeNode] at htext
  obtain rfl : text = _ := htext
  exact yields_scalar hP houter hcolumn (by omega) hbody h hy

theorem yieldsNode_emptyList : YieldsNode (.arr []) := by
  intro P x n r indentless body result ⟨outer, houter, hn, hcolumn, hP⟩ hr hbody htext hy
  exact yields_empty hP (by omega) hr hbody (fun _ => rfl) (fun _ => rfl) (by decide) (by decide)
    (by decide) htext hy

theorem yieldsNode_emptyObject : YieldsNode (.obj []) := by
  intro P x n r indentless body result ⟨outer, houter, hn, hcolumn, hP⟩ hr hbody htext hy
  exact yields_empty hP (by omega) hr hbody (fun _ => rfl) (fun _ => rfl) (by decide) (by decide)
    (by decide) htext hy

/-- Any value may begin where a key may and nothing stands on the line but indicators. -/
theorem places_deeper {P : Level} {x : Spot} {outer : Nat} (hP : P.Holds x.level)
    (houter : P.indent = outer) (hcolumn : x.column = outer + 2) (hallowed : x.keyAllowed = true)
    (v : Json) : Places (outer + 2) false P x v := by
  have hlt : P.indent < (outer + 2 : Nat) := by omega
  unfold Places
  split
  · exact ⟨hcolumn, hallowed, ⟨.inl hP, .inl hlt⟩, hlt⟩
  · exact ⟨hcolumn, hallowed, ⟨.inl hP, .inl hlt⟩, hlt⟩
  · exact ⟨outer, houter, rfl, by omega, hP⟩

/-- A text goes on with a line that is not deeper than a column and yields the result. -/
def LineYields (n : Nat) (P : Level) (ts : List Token) (text : List Char) (result : Verdict) : Prop :=
  ∃ r body, text = spaces r ++ body ∧ r ≤ n ∧ Starts body ∧ (Spot.ofLine r P ts body).Yields result

/-- A value in front of such a line. -/
theorem YieldsNode.of_line {v : Json} (hv : YieldsNode v) {P : Level} {x : Spot} {n m : Nat}
    {indentless : Bool} {text : List Char} {result : Verdict} (hplace : Places n indentless P x v)
    (hm : P.indent = m) (htext : x.body = writeNode n v text)
    (hline : LineYields m P ((nodeTokens n indentless v).reverse ++ x.tokens) text result) :
    x.Yields result := by
  obtain ⟨r, body, rfl, hr, hbody, hy⟩ := hline
  exact hv hplace (by omega) hbody htext hy

/-! ## Items -/

/-- The first item of a list or of the rest of one, where it may begin. -/
theorem yields_item_value {v : Json} {vs : List Json} {P : Level} {x : Spot} {n : Nat}
    {rest : List Char} {result : Verdict} (hcolumn : x.column = n) (hallowed : x.keyAllowed = true)
    (henter : P.Enters n x.level) (htext : x.body = writeNode n (.arr (v :: vs)) rest)
    (hvalue : ∀ y : Spot, Places (n + 2) false (P.enter n .blockSequenceStart x.tokens).1 y v →
      y.body = writeNode (n + 2) v (writeItems n vs rest) →
      y.tokens = .blockEntry :: (P.enter n .blockSequenceStart x.tokens).2 → y.Yields result) :
    x.Yields result := by
  subst hcolumn
  have hindent := Lexer.indent_enter henter .blockSequenceStart x.tokens
  refine yields_item hallowed henter (starts_writeNode _ v _) htext fun M hM => ?_
  exact hvalue _ (places_deeper hM hindent rfl rfl v) rfl rfl

/-- The items of a list, up to the line behind them. -/
theorem yields_items {v : Json} {vs : List Json} (hv : YieldsNode v) (hvs : YieldsItems vs)
    {P : Level} {x : Spot} {n r : Nat} {body : List Char} {result : Verdict}
    (hcolumn : x.column = n) (hallowed : x.keyAllowed = true) (henter : P.Enters n x.level)
    (hr : r ≤ n) (hbody : Starts body)
    (htext : x.body = writeNode n (.arr (v :: vs)) (spaces r ++ body))
    (hy : (Spot.ofLine r (P.enter n .blockSequenceStart x.tokens).1
      ((itemTokens n (v :: vs)).reverse ++ (P.enter n .blockSequenceStart x.tokens).2)
      body).Yields result) : x.Yields result := by
  have hholds := Lexer.holds_enter henter .blockSequenceStart x.tokens
  have hindent := Lexer.indent_enter henter .blockSequenceStart x.tokens
  refine yields_item_value hcolumn hallowed henter htext fun y hplace htext' htokens => ?_
  have htokens' : (itemTokens n (v :: vs)).reverse ++ (P.enter n .blockSequenceStart x.tokens).2
      = (itemTokens n vs).reverse ++ ((nodeTokens (n + 2) false v).reverse ++ y.tokens) := by
    simp [itemTokens, htokens]
  rw [htokens'] at hy
  exact hv.of_line hplace hindent htext' (hvs hholds.1 hindent hr hbody hy)

theorem yieldsItems_nil : YieldsItems [] :=
  fun {_ _ r _ body _} _ _ hr hbody hy => ⟨r, body, rfl, hr, hbody, hy⟩

/-- Where a list goes on, an item is at the beginning of its line. -/
theorem lineYields_items {v : Json} {vs : List Json} {Q : Level} {n : Nat} {ts : List Token}
    {rest : List Char} {result : Verdict} (hclose : Q.Closes) (hindent : Q.indent = n)
    (hy : ∀ x : Spot, x.column = n → x.keyAllowed = true → Q.Enters n x.level →
      x.body = writeNode n (.arr (v :: vs)) rest → Q.enter n .blockSequenceStart x.tokens = (Q, ts) →
      x.Yields result) : LineYields n Q ts (writeItems n (v :: vs) rest) result := by
  refine ⟨n, writeNode n (.arr (v :: vs)) rest, rfl, Nat.le_refl n, starts_writeNode n _ rest, ?_⟩
  rw [ofLine_of_le (Int.le_of_eq hindent)]
  exact hy _ rfl rfl ⟨.inl ⟨hclose, .inl rfl⟩, .inr ⟨hindent, rfl, hclose⟩⟩ rfl (if_neg (by omega))

theorem yieldsItems_cons {v : Json} {vs : List Json} (hv : YieldsNode v) (hvs : YieldsItems vs) :
    YieldsItems (v :: vs) := by
  intro Q n r ts body result hclose hindent hr hbody hy
  refine lineYields_items hclose hindent fun x hcolumn hallowed henter htext hQ => ?_
  refine yields_items hv hvs hcolumn hallowed henter hr hbody htext ?_
  rw [hQ]
  exact hy

theorem yieldsNode_list {v : Json} {vs : List Json} (hv : YieldsNode v) (hvs : YieldsItems vs) :
    YieldsNode (.arr (v :: vs)) := by
  intro P x n r indentless body result ⟨hcolumn, hallowed, henter, hindentless⟩ hr hbody htext hy
  have hrn : r ≤ n := by
    split at hindentless <;> omega
  refine yields_items hv hvs hcolumn hallowed henter hrn hbody htext ?_
  cases indentless with
  | true =>
    have hnot : ¬ P.indent < n := by
      simp only [if_true] at hindentless
      omega
    rw [Level.enter, if_neg hnot]
    exact hy
  | false =>
    have hlt : P.indent < n := by simpa using hindentless
    rw [ofLine_enter hlt hr, Level.enter, if_pos hlt]
    simpa [nodeTokens] using hy

/-! ## Members -/

theorem laidText_of_isSimpleKey {cs : List Char} (n : Nat) (h : isSimpleKey cs = true) :
    laidText n cs = cs := by
  rw [laidText, padded_of_line (line_of_isSimpleKey h), ite_self]

/-- What is left of the text of a member behind the colon of its key. -/
def memberRest (n : Nat) (simple : Bool) (v : Json) (rest : List Char) : List Char :=
  (placeValue n simple v).2 ++ writeNode (placeValue n simple v).1 v rest

theorem writeNode_object (n : Nat) (k : String) (v : Json) (ms : List (String × Json))
    (rest : List Char) : writeNode n (.obj ((k, v) :: ms)) rest =
      writeKey n k ++ memberRest n (isSimpleKey k.toList) v (writeMembers n ms rest) := by
  simp only [writeNode, memberRest, List.append_assoc]

theorem writeMembers_cons (n : Nat) (k : String) (v : Json) (ms : List (String × Json))
    (rest : List Char) : writeMembers n ((k, v) :: ms) rest = spaces n ++
      (writeKey n k ++ memberRest n (isSimpleKey k.toList) v (writeMembers n ms rest)) := by
  simp only [writeMembers, memberRest, List.append_assoc]

/-- A member on whose line a simple key stands, up to its value. -/
theorem yields_simple_value {v : Json} {P : Level} {x : Spot} {k rest : List Char} {result : Verdict}
    (hallowed : x.keyAllowed = true) (henter : P.Enters x.column x.level)
    (hsimple : isSimpleKey k = true)
    (htext : x.body = writeInline x.column k ++ ':' :: memberRest x.column true v rest)
    (hvalue : ∀ y : Spot, Places (placeValue x.column true v).1 true
        (P.enter x.column .blockMappingStart x.tokens).1 y v →
      y.body = writeNode (placeValue x.column true v).1 v rest → y.tokens = keyTokens P x k →
      y.Yields result) : x.Yields result := by
  have hholds := Lexer.holds_enter henter .blockMappingStart x.tokens
  have hindent := Lexer.indent_enter henter .blockMappingStart x.tokens
  have hinline : ∀ (hplace : placeValue x.column true v = (x.column + 2, [' ']))
      (hscalar : ∀ y : Spot, (∃ outer : Nat, (P.enter x.column .blockMappingStart x.tokens).1.indent
        = outer ∧ x.column + 2 = outer + 2 ∧ outer < y.column ∧
          (P.enter x.column .blockMappingStart x.tokens).1.Holds y.level) →
        Places (x.column + 2) true (P.enter x.column .blockMappingStart x.tokens).1 y v),
      x.Yields result := by
    intro hplace hscalar
    rw [memberRest, hplace] at htext
    rw [hplace] at hvalue
    refine yields_simpleKey_inline hallowed henter hsimple (starts_writeNode _ v _) htext
      fun column hcolumn => ?_
    exact hvalue _ (hscalar _ ⟨x.column, hindent, rfl, hcolumn, hholds.1, .inr rfl⟩) rfl rfl
  match v with
  | .arr (w :: ws) =>
    refine yields_simpleKey_line hallowed henter hsimple (starts_writeNode _ _ _) htext ?_
    rw [Spot.ofLine, Level.unroll_loose (Int.le_of_eq hindent.symm),
      Level.unroll_of_le (Int.le_of_eq hindent)]
    have hplace : ∀ text, Places x.column true (P.enter x.column .blockMappingStart x.tokens).1
        ⟨text, x.column, keyTokens P x k, true, (P.enter x.column .blockMappingStart x.tokens).1⟩
        (.arr (w :: ws)) := fun _ =>
      ⟨rfl, rfl, ⟨.inl hholds, .inr ⟨hindent, rfl, hholds.1⟩⟩, hindent⟩
    exact hvalue _ (hplace _) rfl rfl
  | .obj (m :: ms) =>
    have hlt : (P.enter x.column .blockMappingStart x.tokens).1.indent < (x.column + 2 : Nat) := by
      omega
    have hloose : (P.enter x.column .blockMappingStart x.tokens).1.loose.indent
        ≤ (x.column + 2 : Nat) := hlt
    refine yields_simpleKey_line hallowed henter hsimple (starts_writeNode _ _ _) htext ?_
    rw [ofLine_of_le hloose]
    exact hvalue _ ⟨rfl, rfl, ⟨.inl ⟨hholds.1, .inr rfl⟩, .inl hlt⟩, hlt⟩ rfl rfl
  | .arr [] | .obj [] | .null | .bool _ | .num _ | .str _ => exact hinline rfl fun y h => h

/-- The question mark in front of a key. -/
theorem yields_explicit_key {P : Level} {x : Spot} {k rest : List Char} {result : Verdict}
    (hallowed : x.keyAllowed = true) (henter : P.Enters x.column x.level)
    (htext : x.body = '?' :: ' ' :: (writeScalar (x.column + 2) k ++ rest))
    (hy : (Spot.mk (writeScalar (x.column + 2) k ++ rest) (x.column + 2)
      (.key :: (P.enter x.column .blockMappingStart x.tokens).2) true
      (P.enter x.column .blockMappingStart x.tokens).1).Yields result) : x.Yields result := by
  refine Spot.yields_of_step ?_ (fun s hs => s.dispatch_explicitKey hs htext
    (starts_writeScalar _ _ _) hallowed henter) hy
  rw [htext]
  simp only [List.length_cons]
  omega

/-- A member whose key has a question mark, up to its value. -/
theorem yields_explicit_value {v : Json} {P : Level} {x : Spot} {k rest : List Char}
    {result : Verdict} (hallowed : x.keyAllowed = true) (henter : P.Enters x.column x.level)
    (hlays : Lays k)
    (htext : x.body = '?' :: ' ' :: (writeScalar (x.column + 2) k ++ (spaces x.column ++ ':' :: ' ' ::
      writeNode (x.column + 2) v rest)))
    (hvalue : ∀ y : Spot, Places (x.column + 2) false
        (P.enter x.column .blockMappingStart x.tokens).1 y v →
      y.body = writeNode (x.column + 2) v rest →
      y.tokens = .value :: .scalar (ofText k) (String.ofList (laidText (x.column + 2) k)) :: .key ::
        (P.enter x.column .blockMappingStart x.tokens).2 →
      y.Yields result) : x.Yields result := by
  have hholds := Lexer.holds_enter henter .blockMappingStart x.tokens
  have hindent := Lexer.indent_enter henter .blockMappingStart x.tokens
  refine yields_explicit_key hallowed henter htext ?_
  refine yields_scalar hholds hindent (by omega) (Nat.le_refl _) (starts_cons (by decide)) hlays ?_
  rw [ofLine_of_le (Int.le_of_eq hindent)]
  refine Spot.yields_of_step ?_ (fun s hs => s.dispatch_explicitColon hs rfl
    (starts_writeNode _ v _) rfl hholds.1 hindent) ?_
  · simp only [List.length_cons]
    omega
  exact hvalue _ (places_deeper ⟨hholds.1, .inr rfl⟩ hindent rfl rfl v) rfl rfl

/-- A member with a key that takes a question mark. -/
theorem writeNode_explicit (n : Nat) {k : String} (hsimple : isSimpleKey k.toList = false) (v : Json)
    (ms : List (String × Json)) (rest : List Char) : writeNode n (.obj ((k, v) :: ms)) rest =
      '?' :: ' ' :: (writeScalar (n + 2) k.toList ++ (spaces n ++ ':' :: ' ' ::
        writeNode (n + 2) v (writeMembers n ms rest))) := by
  have hplace : placeValue n false v = (n + 2, [' ']) := by
    unfold placeValue
    split <;> rfl
  simp [writeNode_object, writeKey, memberRest, hsimple, hplace]

/-- The first member of an object or of the rest of one, up to its value. -/
theorem yields_member_value {k : String} {v : Json} {ms : List (String × Json)}
    (hlays : Lays k.toList) {P : Level} {x : Spot} {n : Nat} {rest : List Char} {result : Verdict}
    (hcolumn : x.column = n) (hallowed : x.keyAllowed = true) (henter : P.Enters n x.level)
    (htext : x.body = writeNode n (.obj ((k, v) :: ms)) rest)
    (hvalue : ∀ y : Spot, Places (placeValue n (isSimpleKey k.toList) v).1 (isSimpleKey k.toList)
        (P.enter n .blockMappingStart x.tokens).1 y v →
      y.body = writeNode (placeValue n (isSimpleKey k.toList) v).1 v (writeMembers n ms rest) →
      y.tokens = .value :: textToken (n + 2) k :: .key :: (P.enter n .blockMappingStart x.tokens).2 →
      y.Yields result) : x.Yields result := by
  subst hcolumn
  cases hsimple : isSimpleKey k.toList with
  | true =>
    rw [textToken, laidText_of_isSimpleKey _ hsimple, hsimple] at hvalue
    rw [writeNode_object, writeKey, hsimple, if_pos rfl, List.append_assoc] at htext
    exact yields_simple_value hallowed henter hsimple htext hvalue
  | false =>
    have hplace : placeValue x.column false v = (x.column + 2, [' ']) := by
      unfold placeValue
      split <;> rfl
    rw [hsimple, hplace] at hvalue
    rw [writeNode_explicit _ hsimple] at htext
    exact yields_explicit_value hallowed henter hlays htext hvalue

theorem memberTokens_cons (n : Nat) (k : String) (v : Json) (ms : List (String × Json))
    (ts : List Token) : (memberTokens n ((k, v) :: ms)).reverse ++ ts =
      (memberTokens n ms).reverse ++
        ((nodeTokens (placeValue n (isSimpleKey k.toList) v).1 (isSimpleKey k.toList) v).reverse ++
          .value :: textToken (n + 2) k :: .key :: ts) := by
  simp [memberTokens]

/-- The members of an object, up to the line behind them. -/
theorem yields_members {k : String} {v : Json} {ms : List (String × Json)} (hv : YieldsNode v)
    (hlays : Lays k.toList) (hms : YieldsMembers ms) {P : Level} {x : Spot} {n r : Nat}
    {body : List Char} {result : Verdict} (hcolumn : x.column = n)
    (hallowed : x.keyAllowed = true) (henter : P.Enters n x.level) (hr : r ≤ n)
    (hbody : Starts body) (htext : x.body = writeNode n (.obj ((k, v) :: ms)) (spaces r ++ body))
    (hy : (Spot.ofLine r (P.enter n .blockMappingStart x.tokens).1
      ((memberTokens n ((k, v) :: ms)).reverse ++ (P.enter n .blockMappingStart x.tokens).2)
      body).Yields result) : x.Yields result := by
  have hholds := Lexer.holds_enter henter .blockMappingStart x.tokens
  have hindent := Lexer.indent_enter henter .blockMappingStart x.tokens
  refine yields_member_value hlays hcolumn hallowed henter htext fun y hplace htext' htokens => ?_
  rw [memberTokens_cons, ← htokens] at hy
  exact hv.of_line hplace hindent htext' (hms hholds.1 hindent hr hbody hy)

theorem yieldsMembers_nil : YieldsMembers [] :=
  fun {_ _ r _ body _} _ _ hr hbody hy => ⟨r, body, rfl, hr, hbody, hy⟩

/-- Where an object goes on, a member is at the beginning of its line. -/
theorem lineYields_members {k : String} {v : Json} {ms : List (String × Json)} {Q : Level} {n : Nat}
    {ts : List Token} {rest : List Char} {result : Verdict} (hclose : Q.Closes) (hindent : Q.indent = n)
    (hy : ∀ x : Spot, x.column = n → x.keyAllowed = true → Q.Enters n x.level →
      x.body = writeNode n (.obj ((k, v) :: ms)) rest →
      Q.enter n .blockMappingStart x.tokens = (Q, ts) → x.Yields result) :
    LineYields n Q ts (writeMembers n ((k, v) :: ms) rest) result := by
  refine ⟨n, writeNode n (.obj ((k, v) :: ms)) rest, ?_, Nat.le_refl n, starts_writeNode n _ rest, ?_⟩
  · rw [writeMembers_cons, writeNode_object]
  rw [ofLine_of_le (Int.le_of_eq hindent)]
  exact hy _ rfl rfl ⟨.inl ⟨hclose, .inl rfl⟩, .inr ⟨hindent, rfl, hclose⟩⟩ rfl (if_neg (by omega))

theorem yieldsMembers_cons {k : String} {v : Json} {ms : List (String × Json)} (hv : YieldsNode v)
    (hlays : Lays k.toList) (hms : YieldsMembers ms) : YieldsMembers ((k, v) :: ms) := by
  intro Q n r ts body result hclose hindent hr hbody hy
  refine lineYields_members hclose hindent fun x hcolumn hallowed henter htext hQ => ?_
  refine yields_members hv hlays hms hcolumn hallowed henter hr hbody htext ?_
  rw [hQ]
  exact hy

theorem yieldsNode_object {k : String} {v : Json} {ms : List (String × Json)} (hv : YieldsNode v)
    (hlays : Lays k.toList) (hms : YieldsMembers ms) : YieldsNode (.obj ((k, v) :: ms)) := by
  intro P x n r indentless body result ⟨hcolumn, hallowed, henter, hlt⟩ hr hbody htext hy
  refine yields_members hv hlays hms hcolumn hallowed henter (by omega) hbody htext ?_
  rw [ofLine_enter hlt hr, Level.enter, if_pos hlt]
  simpa [nodeTokens] using hy

/-! ## All values -/

mutual

theorem yieldsNode : (v : Json) → (∀ l ∈ v.leaves, l.Lays) → YieldsNode v
  | .null, _ => yieldsNode_of_plain id (fun _ _ => rfl) (fun _ _ => rfl) (by decide) (by decide)
  | .bool true, _ =>
    yieldsNode_of_plain id (fun _ _ => rfl) (fun _ _ => rfl) (by decide) (by decide)
  | .bool false, _ =>
    yieldsNode_of_plain id (fun _ _ => rfl) (fun _ _ => rfl) (by decide) (by decide)
  | .num x, _ =>
    yieldsNode_of_plain id (fun _ _ => rfl) (fun _ _ => rfl) (lays_number x).1 (lays_number x).2
  | .str s, h => yieldsNode_text (h (.text s) (by simp [Json.leaves]))
  | .arr [], _ => yieldsNode_emptyList
  | .obj [], _ => yieldsNode_emptyObject
  | .arr (v :: vs), h =>
    yieldsNode_list (yieldsNode v fun l hl => h l (by simp [Json.leaves, Json.itemLeaves, hl]))
      (yieldsItems vs fun l hl => h l (by simp [Json.leaves, Json.itemLeaves, hl]))
  | .obj ((k, v) :: ms), h =>
    yieldsNode_object (yieldsNode v fun l hl => h l (by simp [Json.leaves, Json.memberLeaves, hl]))
      (h (.key k) (by simp [Json.leaves, Json.memberLeaves]))
      (yieldsMembers ms fun l hl => h l (by simp [Json.leaves, Json.memberLeaves, hl]))

theorem yieldsItems : (vs : List Json) → (∀ l ∈ Json.itemLeaves vs, l.Lays) → YieldsItems vs
  | [], _ => yieldsItems_nil
  | v :: vs, h =>
    yieldsItems_cons (yieldsNode v fun l hl => h l (by simp [Json.itemLeaves, hl]))
      (yieldsItems vs fun l hl => h l (by simp [Json.itemLeaves, hl]))

theorem yieldsMembers : (ms : List (String × Json)) → (∀ l ∈ Json.memberLeaves ms, l.Lays) →
    YieldsMembers ms
  | [], _ => yieldsMembers_nil
  | (k, v) :: ms, h =>
    yieldsMembers_cons (yieldsNode v fun l hl => h l (by simp [Json.memberLeaves, hl]))
      (h (.key k) (by simp [Json.memberLeaves]))
      (yieldsMembers ms fun l hl => h l (by simp [Json.memberLeaves, hl]))

end

end Yaml

end WorkspaceTrust
