import Mathlib.Data.List.TakeWhile
import WorkspaceTrust.Proofs.Json.Scalar
import WorkspaceTrust.Proofs.Json.Sound

/-!
# Values that are written are read back

A written value starts with a character that is neither a blank nor the
end of a list or an object (`exists_cons_writeTo`), so that the reader
takes up a value wherever one has been written. What it reads is the
value with its keys sorted, whatever follows, as long as that does not go
on with a number (`readValue_writeTo`). Numbers are whole here; nothing
is asked of texts, keys and the nesting of lists and objects.

The `weight` of a value is the fuel that reading it takes. The text is
longer than that (`weight_le_length`), which is why the length of a text
is fuel enough for all of it (`readAll_writeTo`).
-/

namespace WorkspaceTrust.Json

/-- All numbers in the value are whole. -/
def NumbersWhole (v : Json) : Prop := ∀ n, .number n ∈ v.leaves → n.IsWhole

/-- Whether a leaf is whole, as far as it is a number. -/
def Leaf.isWhole : Leaf → Bool
  | .number n => decide n.IsWhole
  | .text _ | .key _ => true

theorem all_isWhole_iff {v : Json} : v.leaves.all Leaf.isWhole = true ↔ v.NumbersWhole := by
  rw [List.all_eq_true]
  constructor
  · exact fun h n hn => of_decide_eq_true (h _ hn)
  · intro h l hl
    cases l with
    | number n => exact decide_eq_true (h n hl)
    | text s => rfl
    | key s => rfl

instance : DecidablePred NumbersWhole := fun _ => decidable_of_iff _ all_isWhole_iff

theorem numbersWhole_arr {vs : List Json} :
    (arr vs).NumbersWhole ↔ ∀ v ∈ vs, v.NumbersWhole := by
  constructor
  · exact fun h v hv n hn => h n (leaf_mem_itemLeaves.2 ⟨v, hv, hn⟩)
  · intro h n hn
    obtain ⟨v, hv, hn⟩ := leaf_mem_itemLeaves.1 hn
    exact h v hv n hn

theorem numbersWhole_obj {ms : List (String × Json)} :
    (obj ms).NumbersWhole ↔ ∀ m ∈ ms, m.2.NumbersWhole := by
  constructor
  · exact fun h m hm n hn => h n (leaf_mem_memberLeaves.2 ⟨m, hm, .inr hn⟩)
  · intro h n hn
    obtain ⟨m, hm, heq | hn⟩ := leaf_mem_memberLeaves.1 hn
    · cases heq
    · exact h m hm n hn

/-! ## Blanks -/

theorem skipBlanks_cons {c : Char} (h : isBlank c = false) (cs : List Char) :
    skipBlanks (c :: cs) = c :: cs := by
  rw [skipBlanks, List.dropWhile_cons, h]
  rfl

theorem skipBlanks_gap (l : Layout) (d : Nat) {c : Char} (h : isBlank c = false) (cs : List Char) :
    skipBlanks (l.gap d ++ c :: cs) = c :: cs := by
  have hblank : ∀ b ∈ l.gap d, isBlank b = true := by
    intro b hb
    cases l with
    | line => cases hb
    | indented =>
      rcases List.mem_cons.1 hb with rfl | hb
      · rfl
      · rw [List.eq_of_mem_replicate hb]
        rfl
  rw [skipBlanks, List.dropWhile_append_of_pos hblank]
  exact skipBlanks_cons h cs

theorem skipBlanks_colon (l : Layout) (cs : List Char) :
    skipBlanks (l.colon ++ cs) = ':' :: l.colon.drop 1 ++ cs := by
  cases l <;> rfl

/-! ## How a value starts -/

/-- A character with which a value can start: no blank and no closing bracket. -/
def Opens (c : Char) : Prop := isBlank c = false ∧ c ≠ ']' ∧ c ≠ '}'

instance : DecidablePred Opens := fun c =>
  inferInstanceAs (Decidable (isBlank c = false ∧ c ≠ ']' ∧ c ≠ '}'))

/-- A character with which a whole number can start. -/
def OpensNumber (c : Char) : Prop := c = '-' ∨ Literal.isDigit 10 c = true

theorem exists_cons_toString (i : Int) : ∃ c cs, (toString i).toList = c :: cs ∧ OpensNumber c := by
  cases i with
  | ofNat n =>
    obtain ⟨c, cs, hcs⟩ := List.exists_cons_of_ne_nil (Nat.toDigits_ne_nil (n := n) (b := 10))
    exact ⟨c, cs, (Literal.toList_toString_ofNat n).trans hcs,
      .inr (Literal.isDigit_toDigits n c (by simp [hcs]))⟩
  | negSucc n => exact ⟨'-', _, Literal.toList_toString_negSucc n, .inl rfl⟩

theorem OpensNumber.ne {c b : Char} (h : OpensNumber c)
    (hb : b ≠ '-' ∧ Literal.isDigit 10 b = false) : c ≠ b := by
  rintro rfl
  rcases h with rfl | hdigit
  · exact hb.1 rfl
  · simp [hb.2] at hdigit

theorem OpensNumber.opens {c : Char} (h : OpensNumber c) : Opens c := by
  refine ⟨?_, h.ne (by decide), h.ne (by decide)⟩
  have hspace : c ≠ ' ' := h.ne (by decide)
  have hline : c ≠ '\n' := h.ne (by decide)
  have htab : c ≠ '\t' := h.ne (by decide)
  have hreturn : c ≠ '\r' := h.ne (by decide)
  simp [isBlank, hspace, hline, htab, hreturn]

theorem exists_cons_writeTo (l : Layout) (d : Nat) {v : Json} (hv : v.NumbersWhole)
    (rest : List Char) : ∃ c cs, writeTo l d v rest = c :: cs ∧ Opens c := by
  cases v with
  | null => exact ⟨'n', _, rfl, by decide⟩
  | bool b =>
    cases b with
    | true => exact ⟨'t', _, rfl, by decide⟩
    | false => exact ⟨'f', _, rfl, by decide⟩
  | num n =>
    cases n with
    | int i =>
      obtain ⟨c, cs, hcs, hc⟩ := exists_cons_toString i
      exact ⟨c, cs ++ rest, by rw [writeTo, Number.write, hcs, List.cons_append], hc.opens⟩
    | float x => exact (hv (.float x) (by simp [leaves])).elim
  | str s => exact ⟨'"', _, rfl, by decide⟩
  | arr vs =>
    cases vs with
    | nil => exact ⟨'[', _, rfl, by decide⟩
    | cons v vs => exact ⟨'[', _, rfl, by decide⟩
  | obj ms =>
    cases ms with
    | nil => exact ⟨'{', _, rfl, by decide⟩
    | cons m ms => exact ⟨'{', _, rfl, by decide⟩

/-! ## One step of the reader -/

section Steps

variable {fuel : Nat} {c : Char} {cs cs' rest : List Char} {v : Json} {vs : List Json}
  {k : List Char} {ms : List (String × Json)}

theorem readValue_text (h : readChars cs = .ok (k, rest)) :
    readValue (fuel + 1) ('"' :: cs) = .ok (.str (String.ofList k), rest) := by
  show (readChars cs).map _ = _
  rw [h]
  rfl

theorem readValue_number (hc : OpensNumber c) {n : Number} (h : readNumber (c :: cs) = .ok (n, rest)) :
    readValue (fuel + 1) (c :: cs) = .ok (.num n, rest) := by
  have hne : ∀ b, b ≠ '-' ∧ Literal.isDigit 10 b = false → ∀ bs, c :: cs ≠ b :: bs :=
    fun b hb bs heq => hc.ne hb (List.cons.inj heq).1
  rw [readValue, skipBlanks_cons hc.opens.1]
  split
  · next heq => cases heq
  · next heq => exact absurd heq (hne 'n' (by decide) _)
  · next heq => exact absurd heq (hne 't' (by decide) _)
  · next heq => exact absurd heq (hne 'f' (by decide) _)
  · next heq => exact absurd heq (hne '"' (by decide) _)
  · next heq => exact absurd heq (hne '[' (by decide) _)
  · next heq => exact absurd heq (hne '{' (by decide) _)
  · next heq =>
    obtain ⟨rfl, rfl⟩ := List.cons.inj heq
    rw [if_pos (show c = '-' ∨ Literal.isDigit 10 c = true from hc), h]
    rfl

/-- A list with items. -/
theorem readValue_list (hskip : skipBlanks cs = c :: cs') (hc : Opens c)
    (h : readItems fuel (c :: cs') = .ok (vs, rest)) :
    readValue (fuel + 1) ('[' :: cs) = .ok (.arr vs, rest) := by
  rw [readValue, skipBlanks_cons rfl]
  simp only [hskip]
  split
  · next heq => cases heq
  · next heq => exact absurd (List.cons.inj heq).1 hc.2.1
  · rw [h]
    rfl

/-- An object with members. -/
theorem readValue_object (hskip : skipBlanks cs = '"' :: cs')
    (h : readMembers fuel ('"' :: cs') = .ok (ms, rest)) :
    readValue (fuel + 1) ('{' :: cs) = .ok (object (SortedMap.ofList ms), rest) := by
  rw [readValue, skipBlanks_cons rfl]
  simp only [hskip]
  show (readMembers fuel ('"' :: cs')).map _ = _
  rw [h]
  rfl

/-- A blank that follows the colon of a member belongs to no value. -/
theorem readValue_colon (l : Layout) (cs : List Char) :
    readValue (fuel + 1) (l.colon.drop 1 ++ cs) = readValue (fuel + 1) cs := by
  cases l with
  | line => rfl
  | indented =>
    show readValue (fuel + 1) (' ' :: cs) = _
    rw [readValue, readValue]
    rfl

theorem readItems_last (hv : readValue fuel cs = .ok (v, cs')) (hskip : skipBlanks cs' = ']' :: rest) :
    readItems (fuel + 1) cs = .ok ([v], rest) := by
  rw [readItems, hv, ok_bind]
  simp only [hskip]

theorem readItems_more {after : List Char} (hv : readValue fuel cs = .ok (v, cs'))
    (hcomma : skipBlanks cs' = ',' :: after) {next : List Char} (hskip : skipBlanks after = c :: next)
    (hc : Opens c) (h : readItems fuel (c :: next) = .ok (vs, rest)) :
    readItems (fuel + 1) cs = .ok (v :: vs, rest) := by
  rw [readItems, hv, ok_bind]
  simp only [hcomma, hskip]
  split
  · next heq => exact absurd (List.cons.inj heq).1 hc.2.1
  · rw [h, ok_bind]

theorem readMembers_last {colon value : List Char} (hk : readChars cs = .ok (k, colon))
    (hcolon : skipBlanks colon = ':' :: value) (hv : readValue fuel value = .ok (v, cs'))
    (hskip : skipBlanks cs' = '}' :: rest) :
    readMembers (fuel + 1) ('"' :: cs) = .ok ([(String.ofList k, v)], rest) := by
  rw [readMembers, skipBlanks_cons rfl]
  simp only [hk, ok_bind, hcolon, hv, hskip]

theorem readMembers_more {colon value after next : List Char} (hk : readChars cs = .ok (k, colon))
    (hcolon : skipBlanks colon = ':' :: value) (hv : readValue fuel value = .ok (v, cs'))
    (hcomma : skipBlanks cs' = ',' :: after) (hskip : skipBlanks after = '"' :: next)
    (h : readMembers fuel ('"' :: next) = .ok (ms, rest)) :
    readMembers (fuel + 1) ('"' :: cs) = .ok ((String.ofList k, v) :: ms, rest) := by
  rw [readMembers, skipBlanks_cons rfl]
  simp only [hk, ok_bind, hcolon, hv, hcomma, hskip]
  show (readMembers fuel ('"' :: next) >>= _) = _
  rw [h]
  rfl

end Steps

/-! ## What follows a value in a list or an object -/

section Follows

variable {l : Layout} {c : Char} {rest : List Char}

theorem endsNumber_gap (d : Nat)
    (hc : Literal.isDigit 10 c = false ∧ c ≠ '.' ∧ c ≠ 'e' ∧ c ≠ 'E') (cs : List Char) :
    EndsNumber (l.gap d ++ c :: cs) := by
  cases l with
  | line => exact endsNumber_cons hc cs
  | indented => exact endsNumber_cons (by decide) _

theorem endsNumber_writeItems (h : EndsNumber rest) (d : Nat) (vs : List Json) :
    EndsNumber (writeItems l d vs rest) := by
  cases vs with
  | nil => exact h
  | cons v vs => exact endsNumber_cons (by decide) _

theorem endsNumber_writeMembers (h : EndsNumber rest) (d : Nat) (ms : List (String × Json)) :
    EndsNumber (writeMembers l d ms rest) := by
  cases ms with
  | nil => exact h
  | cons m ms => exact endsNumber_cons (by decide) _

end Follows

/-! ## Values

The induction is on the value. A list or an object is read with one unit
of fuel less than it is given, and its items and members each with one
less again, which is what `weight` counts. -/

mutual

/-- How deep the reader goes into a value, and how many items and members it meets. -/
def weight : Json → Nat
  | .arr vs => itemWeight vs + 1
  | .obj ms => memberWeight ms + 1
  | .null | .bool _ | .num _ | .str _ => 0

def itemWeight : List Json → Nat
  | [] => 0
  | v :: vs => v.weight + itemWeight vs + 1

def memberWeight : List (String × Json) → Nat
  | [] => 0
  | (_, v) :: ms => v.weight + memberWeight ms + 1

end

mutual

/-- A value is read with its keys sorted, up to where it ends. -/
theorem readValue_writeTo (l : Layout) : ∀ (v : Json) {fuel d : Nat} {rest : List Char},
    v.NumbersWhole → v.weight ≤ fuel → EndsNumber rest →
    readValue (fuel + 1) (writeTo l d v rest) = .ok (v.sortKeys, rest)
  | .null, _, _, _, _, _, _ | .bool true, _, _, _, _, _, _ | .bool false, _, _, _, _, _, _
  | .arr [], _, _, _, _, _, _ | .obj [], _, _, _, _, _, _ => rfl
  | .num (.float x), _, _, _, hv, _, _ => (hv (.float x) (by simp [leaves])).elim
  | .num (.int i), _, _, rest, hv, _, hrest => by
      obtain ⟨c, cs, hcs, hc⟩ := exists_cons_toString i
      have hread := readNumber_int hrest (hv (.int i) (by simp [leaves]))
      rw [hcs] at hread
      rw [writeTo, Number.write, hcs, sortKeys]
      exact readValue_number hc hread
  | .str s, _, _, rest, _, _, _ => by
      rw [writeTo, writeString, sortKeys, readValue_text (readChars_escaped rest s.toList),
        String.ofList_toList]
  | .arr (v :: vs), 0, _, _, _, hfuel, _ | .obj ((_, v) :: ms), 0, _, _, _, hfuel, _ => by
      simp [weight] at hfuel
  | .arr (v :: vs), fuel + 1, d, rest, hv, hfuel, _ => by
      have hvs := numbersWhole_arr.1 hv
      -- the first item starts as a value does, so the list is not taken for an empty one
      obtain ⟨c, cs, hcs, hc⟩ := exists_cons_writeTo l (d + 1) (hvs v (by simp))
        (writeItems l (d + 1) vs (l.gap d ++ ']' :: rest))
      rw [writeTo, hcs, sortKeys]
      refine readValue_list (skipBlanks_gap l (d + 1) hc.1 cs) hc ?_
      rw [← hcs]
      exact readItems_writeItems l (v :: vs) rfl hvs (Nat.le_of_succ_le_succ hfuel)
  | .obj ((k, v) :: ms), fuel + 1, d, rest, hv, hfuel, _ => by
      have hms := numbersWhole_obj.1 hv
      rw [writeTo, sortKeys]
      refine readValue_object (skipBlanks_gap l (d + 1) rfl _) ?_
      exact readMembers_writeMembers l ((k, v) :: ms) rfl hms (Nat.le_of_succ_le_succ hfuel)

/-- Items are read up to the closing bracket. -/
theorem readItems_writeItems (l : Layout) : ∀ (vs : List Json) {v : Json} {vs' : List Json}
    {fuel d e : Nat} {rest : List Char}, vs = v :: vs' → (∀ v ∈ vs, v.NumbersWhole) →
    itemWeight vs ≤ fuel →
    readItems (fuel + 1) (writeTo l d v (writeItems l d vs' (l.gap e ++ ']' :: rest))) =
      .ok (sortKeysItems vs, rest)
  | v :: vs, _, _, 0, _, _, _, rfl, _, hfuel => by simp [itemWeight] at hfuel
  | [v], _, _, fuel + 1, d, e, rest, rfl, hvs, hfuel => by
      have hend : EndsNumber (l.gap e ++ ']' :: rest) := endsNumber_gap e (by decide) rest
      have hread := readValue_writeTo l v (d := d) (hvs v (by simp)) (Nat.le_of_succ_le_succ hfuel) hend
      exact readItems_last hread (skipBlanks_gap l e rfl rest)
  | v :: w :: vs, _, _, fuel + 1, d, e, rest, rfl, hvs, hfuel => by
      have hend : EndsNumber (l.gap e ++ ']' :: rest) := endsNumber_gap e (by decide) rest
      obtain ⟨hv, hvs⟩ := List.forall_mem_cons.1 hvs
      rw [itemWeight] at hfuel
      have hread := readValue_writeTo l v (d := d) hv (show v.weight ≤ fuel by omega)
        (endsNumber_writeItems (l := l) hend d (w :: vs))
      -- nor is the comma taken for a trailing one
      obtain ⟨c, cs, hcs, hc⟩ := exists_cons_writeTo l d (hvs w (by simp))
        (writeItems l d vs (l.gap e ++ ']' :: rest))
      have hskip : skipBlanks (l.gap d ++ writeTo l d w (writeItems l d vs (l.gap e ++ ']' :: rest)))
          = c :: cs := by
        rw [hcs]
        exact skipBlanks_gap l d hc.1 cs
      have hnext : readItems (fuel + 1) (writeTo l d w (writeItems l d vs (l.gap e ++ ']' :: rest))) =
          .ok (sortKeysItems (w :: vs), rest) := readItems_writeItems l (w :: vs) rfl hvs (by omega)
      rw [hcs] at hnext
      exact readItems_more hread (skipBlanks_cons rfl _) hskip hc hnext

/-- Members are read up to the closing brace. -/
theorem readMembers_writeMembers (l : Layout) : ∀ (ms : List (String × Json)) {k : String}
    {v : Json} {ms' : List (String × Json)} {fuel d e : Nat} {rest : List Char},
    ms = (k, v) :: ms' → (∀ m ∈ ms, m.2.NumbersWhole) → memberWeight ms ≤ fuel →
    readMembers (fuel + 1) (writeString k (l.colon ++ writeTo l d v
      (writeMembers l d ms' (l.gap e ++ '}' :: rest)))) = .ok (sortKeysMembers ms, rest)
  | (k, v) :: ms, _, _, _, 0, _, _, _, rfl, _, hfuel => by simp [memberWeight] at hfuel
  | [(k, v)], _, _, _, fuel + 1, d, e, rest, rfl, hms, hfuel => by
      have hend : EndsNumber (l.gap e ++ '}' :: rest) := endsNumber_gap e (by decide) rest
      have hread := readValue_writeTo l v (d := d) (hms (k, v) (by simp))
        (Nat.le_of_succ_le_succ hfuel) hend
      -- what the writer has put behind the colon is in front of the value that is read
      rw [← readValue_colon l] at hread
      have hlast := readMembers_last (readChars_escaped _ k.toList) (skipBlanks_colon l _) hread
        (skipBlanks_gap l e rfl rest)
      rw [String.ofList_toList] at hlast
      exact hlast
  | (k, v) :: (j, w) :: ms, _, _, _, fuel + 1, d, e, rest, rfl, hms, hfuel => by
      have hend : EndsNumber (l.gap e ++ '}' :: rest) := endsNumber_gap e (by decide) rest
      obtain ⟨hv, hms⟩ := List.forall_mem_cons.1 hms
      rw [memberWeight] at hfuel
      have hread := readValue_writeTo l v (d := d) hv (show v.weight ≤ fuel by omega)
        (endsNumber_writeMembers (l := l) hend d ((j, w) :: ms))
      rw [← readValue_colon l] at hread
      have hmore := readMembers_more (readChars_escaped _ k.toList) (skipBlanks_colon l _) hread
        (skipBlanks_cons rfl _) (skipBlanks_gap l d rfl _)
        (readMembers_writeMembers l ((j, w) :: ms) rfl hms (by omega))
      rw [String.ofList_toList] at hmore
      exact hmore

end

/-! ## Whole texts -/

mutual

/-- The text of a value is longer than its weight. -/
theorem weight_le_length (l : Layout) (d : Nat) : ∀ (v : Json) (rest : List Char),
    v.weight + rest.length ≤ (writeTo l d v rest).length
  | .null, rest | .bool true, rest | .bool false, rest | .num _, rest => by
      simp only [weight, writeTo, List.length_append]
      omega
  | .str s, rest => by
      simp only [weight, writeTo, writeString, List.length_cons, List.length_append]
      omega
  | .arr [], rest | .obj [], rest => by
      simp only [weight, itemWeight, memberWeight, writeTo, List.length_cons]
      omega
  | .arr (v :: vs), rest => by
      have hitems := itemWeight_le_length l (d + 1) vs (l.gap d ++ ']' :: rest)
      have hfirst := weight_le_length l (d + 1) v (writeItems l (d + 1) vs (l.gap d ++ ']' :: rest))
      simp only [weight, itemWeight, writeTo, List.length_cons, List.length_append] at *
      omega
  | .obj ((k, v) :: ms), rest => by
      have hmembers := memberWeight_le_length l (d + 1) ms (l.gap d ++ '}' :: rest)
      have hfirst := weight_le_length l (d + 1) v
        (writeMembers l (d + 1) ms (l.gap d ++ '}' :: rest))
      simp only [weight, memberWeight, writeTo, writeString, List.length_cons, List.length_append] at *
      omega

theorem itemWeight_le_length (l : Layout) (d : Nat) : ∀ (vs : List Json) (rest : List Char),
    itemWeight vs + rest.length ≤ (writeItems l d vs rest).length
  | [], rest => by simp [itemWeight, writeItems]
  | v :: vs, rest => by
      have hitems := itemWeight_le_length l d vs rest
      have hfirst := weight_le_length l d v (writeItems l d vs rest)
      simp only [itemWeight, writeItems, List.length_cons, List.length_append]
      omega

theorem memberWeight_le_length (l : Layout) (d : Nat) :
    ∀ (ms : List (String × Json)) (rest : List Char),
    memberWeight ms + rest.length ≤ (writeMembers l d ms rest).length
  | [], rest => by simp [memberWeight, writeMembers]
  | (k, v) :: ms, rest => by
      have hmembers := memberWeight_le_length l d ms rest
      have hfirst := weight_le_length l d v (writeMembers l d ms rest)
      simp only [memberWeight, writeMembers, writeString, List.length_cons, List.length_append]
      omega

end

mutual

/-- A writer leaves what follows as it is. -/
theorem writeTo_append (l : Layout) (d : Nat) : ∀ (v : Json) (rest more : List Char),
    writeTo l d v rest ++ more = writeTo l d v (rest ++ more)
  | .null, _, _ | .bool true, _, _ | .bool false, _, _ | .arr [], _, _ | .obj [], _, _ => rfl
  | .num n, _, _ | .str s, _, _ => by simp [writeTo, writeString]
  | .arr (v :: vs), rest, more => by
      simp [writeTo, writeTo_append l (d + 1) v, writeItems_append l (d + 1) vs]
  | .obj ((k, v) :: ms), rest, more => by
      simp [writeTo, writeString, writeTo_append l (d + 1) v, writeMembers_append l (d + 1) ms]

theorem writeItems_append (l : Layout) (d : Nat) : ∀ (vs : List Json) (rest more : List Char),
    writeItems l d vs rest ++ more = writeItems l d vs (rest ++ more)
  | [], _, _ => rfl
  | v :: vs, rest, more => by simp [writeItems, writeTo_append l d v, writeItems_append l d vs]

theorem writeMembers_append (l : Layout) (d : Nat) :
    ∀ (ms : List (String × Json)) (rest more : List Char),
    writeMembers l d ms rest ++ more = writeMembers l d ms (rest ++ more)
  | [], _, _ => rfl
  | (k, v) :: ms, rest, more => by
      simp [writeMembers, writeString, writeTo_append l d v, writeMembers_append l d ms]

end

theorem endsNumber_of_blank {rest : List Char} (h : ∀ c ∈ rest, isBlank c = true) :
    EndsNumber rest := by
  cases rest with
  | nil => exact endsNumber_nil
  | cons c cs =>
    have hc := h c (by simp)
    simp only [isBlank, decide_eq_true_eq] at hc
    obtain rfl | rfl | rfl | rfl := hc <;> exact endsNumber_cons (by decide) cs

/-- A written value with nothing but blanks behind it is read with its keys sorted. -/
theorem readAll_writeTo (l : Layout) (d : Nat) {v : Json} (hv : v.NumbersWhole) {rest : List Char}
    (hrest : ∀ c ∈ rest, isBlank c = true) : readAll (writeTo l d v rest) = .ok v.sortKeys := by
  have hfuel : v.weight ≤ (writeTo l d v rest).length :=
    Nat.le_trans (Nat.le_add_right _ _) (weight_le_length l d v rest)
  have hfinish : skipBlanks rest = [] := List.dropWhile_eq_nil_iff.2 hrest
  rw [readAll, readValue_writeTo l v hv hfuel (endsNumber_of_blank hrest), ok_bind]
  simp only [finish, hfinish]
  rfl

/-- The text of a value, closed by a line feed, is read as the value with its keys sorted. -/
theorem read_write (l : Layout) {v : Json} (hv : v.NumbersWhole) :
    read (v.write l ++ "\n") = .ok v.sortKeys := by
  have htext : (v.write l ++ "\n").toList = writeTo l 0 v ['\n'] := by
    rw [write, String.toList_append, String.toList_ofList, writeTo_append]
    rfl
  rw [read, htext]
  exact readAll_writeTo l 0 hv (List.forall_mem_singleton.2 rfl)

end WorkspaceTrust.Json
