import WorkspaceTrust.Proofs.Yaml.Written

/-!
# Written text is printable

Nothing is written but printable characters and line feeds, whatever is
in the texts. In particular the text has neither carriage returns nor NUL
characters, and so nothing happens to it before it is read
(`lineText_of_printable`).
-/

namespace WorkspaceTrust.Yaml

open ScalarStyle

/-- A list of characters that can be written as they are. -/
def Printable (cs : List Char) : Prop := ∀ c ∈ cs, isPrintable c = true

instance (cs : List Char) : Decidable (Printable cs) :=
  inferInstanceAs (Decidable (∀ c ∈ cs, isPrintable c = true))

@[simp] theorem printable_nil : Printable [] := fun _ hc => absurd hc List.not_mem_nil

@[simp] theorem printable_cons {c : Char} {cs : List Char} :
    Printable (c :: cs) ↔ isPrintable c = true ∧ Printable cs := by
  simp [Printable]

@[simp] theorem printable_append {cs ds : List Char} :
    Printable (cs ++ ds) ↔ Printable cs ∧ Printable ds := by
  simp [Printable, or_imp, forall_and]

@[simp] theorem printable_spaces (n : Nat) : Printable (spaces n) := by
  intro c hc
  rw [mem_spaces hc]
  decide

theorem printable_flatMap {code : Char → List Char} {cs : List Char}
    (h : ∀ c ∈ cs, Printable (code c)) : Printable (cs.flatMap code) := by
  intro d hd
  obtain ⟨c, hc, hd⟩ := List.mem_flatMap.1 hd
  exact h c hc d hd

theorem lineText_of_printable {cs : List Char} (h : Printable cs) : lineText cs = cs := by
  induction cs with
  | nil => rfl
  | cons c cs ih =>
    obtain ⟨hc, hcs⟩ := printable_cons.1 h
    have hr : c ≠ '\r' := by
      rintro rfl
      exact absurd hc (by decide)
    have h0 : c ≠ '\x00' := by
      rintro rfl
      exact absurd hc (by decide)
    rw [lineText, if_neg h0, ih hcs]
    · exact fun _ heq _ => hr heq
    · exact hr

/-! ## Scalars -/

theorem printable_hexField (width n : Nat) : Printable (hexField width n) := by
  intro c hc
  rcases List.mem_append.1 hc with hc | hc
  · rw [List.eq_of_mem_replicate hc]
    decide
  · exact isPrintable_of_isDigit
      (Literal.isDigit_of_mem_toDigits (by decide) Literal.digitValue_toUpper n c hc)

theorem printable_doubleCode (c : Char) : Printable (doubleCode c) := by
  rw [doubleCode]
  split
  · next h =>
    simp only [Bool.and_eq_true] at h
    simp [h.1.1.1]
  · by_cases hl : c ∈ lettered
    · have hall : (lettered.all fun c => (escape c).all isPrintable) = true := by decide
      exact List.all_eq_true.1 (List.all_eq_true.1 hall c hl)
    · have hnumeric : ∀ l ∈ ['x', 'u', 'U'], ∀ width,
          Printable ('\\' :: l :: hexField width c.toNat) := by
        intro l hl width
        have hletter : ∀ l ∈ ['x', 'u', 'U'], isPrintable l = true := List.all_eq_true.1 (by decide)
        simp only [printable_cons, hletter l hl, printable_hexField]
        decide
      rw [escape_of_not_lettered hl]
      split
      · exact hnumeric _ (by decide) _
      · split
        · exact hnumeric _ (by decide) _
        · exact hnumeric _ (by decide) _

theorem printable_singleCode {c : Char} (h : isPrintable c = true) : Printable (singleCode c) := by
  rw [singleCode]
  split
  · simp only [printable_cons, printable_nil]
    decide
  · simp [h]

theorem printable_padded {n : Nat} {cs : List Char} (h : Printable cs) :
    Printable (padded n false cs) := by
  intro c hc
  rcases mem_padded hc with rfl | hc
  · decide
  · exact h c hc

theorem printable_quoted {double : Bool} {code : Char → List Char} {cs : List Char}
    (h : ∀ c ∈ cs, Printable (code c)) :
    Printable (quote double :: (cs.flatMap code ++ [quote double])) := by
  have hquote : isPrintable (quote double) = true := by cases double <;> decide
  simp [hquote, printable_flatMap h]

theorem printable_of_fitsPlain {cs : List Char} (h : fitsPlain cs = true) : Printable cs := by
  simp only [fitsPlain, Bool.and_eq_true, List.all_eq_true] at h
  exact fun c hc => (h.1.1.1.1.1 c hc).1

theorem printable_writeInline (n : Nat) (cs : List Char) : Printable (writeInline n cs) := by
  cases hstyle : ofText cs with
  | plain =>
    rw [writeInline_plain n hstyle]
    exact printable_of_fitsPlain (fitsPlain_of_ofText hstyle).1
  | singleQuoted =>
    have hfit := (fitsSingle_of_ofText hstyle).1
    simp only [fitsSingle, Bool.and_eq_true, List.all_eq_true] at hfit
    rw [writeInline_single n hstyle]
    exact printable_quoted fun c hc => printable_singleCode (printable_padded hfit.1.1 c hc)
  | doubleQuoted | literal | folded =>
    rw [writeInline, hstyle]
    exact @printable_quoted true _ cs fun c _ => printable_doubleCode c

theorem printable_writeLines {n : Nat} {cs : List Char} (h : Printable cs) :
    ∀ broken, Printable (writeLines n broken cs) := by
  induction cs with
  | nil =>
    intro broken
    cases broken with
    | true => exact printable_nil
    | false =>
      simp only [writeLines, Bool.false_eq_true, if_false, printable_cons, printable_nil]
      decide
  | cons c cs ih =>
    obtain ⟨hc, hcs⟩ := printable_cons.1 h
    intro broken
    rw [writeLines]
    split
    · simp [hc, ih hcs]
    · cases broken <;> simp [hc, ih hcs]

theorem printable_writeScalar (n : Nat) (cs : List Char) : Printable (writeScalar n cs) := by
  have hbreak : isPrintable '\n' = true := by decide
  by_cases hstyle : ofText cs = .literal
  · have hfit := fitsLiteral_of_ofText hstyle
    simp only [fitsLiteral, Bool.and_eq_true, List.all_eq_true] at hfit
    have hbar : isPrintable '|' = true := by decide
    have hwidth : Printable (indentationMark cs) := by
      rcases indentationMark_mem cs with h | h <;> rw [h]
      · exact printable_nil
      · simp only [printable_cons, printable_nil]
        decide
    have hending : Printable (endingMark cs) := by
      rcases endingMark_mem cs with h | h | h <;> rw [h] <;>
        simp only [printable_cons, printable_nil] <;> decide
    rw [writeScalar, if_pos hstyle]
    simp [hbar, hbreak, hwidth, hending, printable_writeLines hfit.1.1.1 true]
  · rw [writeScalar, if_neg hstyle]
    simp [hbreak, printable_writeInline]

/-! ## Values -/

theorem printable_writeKey (n : Nat) (k : String) : Printable (writeKey n k) := by
  have hmarks : isPrintable '?' = true ∧ isPrintable ' ' = true ∧ isPrintable ':' = true := by decide
  rw [writeKey]
  split
  · simp [hmarks, printable_writeInline]
  · simp [hmarks, printable_writeScalar]

theorem printable_placeValue (n : Nat) (simple : Bool) (v : Json) :
    Printable (placeValue n simple v).2 := by
  have hmarks : isPrintable '\n' = true ∧ isPrintable ' ' = true := by decide
  unfold placeValue
  split <;> cases simple <;> simp [hmarks]

mutual

theorem printable_writeNode (n : Nat) : (v : Json) → {rest : List Char} → Printable rest →
    Printable (writeNode n v rest)
  | .null, _, hrest | .bool true, _, hrest | .bool false, _, hrest => by
    simp only [writeNode, printable_append, hrest, and_true]
    exact List.all_eq_true.1 (by decide)
  | .arr [], _, hrest | .obj [], _, hrest => by
    simp only [writeNode, printable_cons, hrest]
    decide
  | .num x, _, hrest => by
    have hbreak : isPrintable '\n' = true := by decide
    rw [writeNode]
    simp [hbreak, hrest, printable_of_fitsPlain (lays_number x).2]
  | .str s, _, hrest => by
    rw [writeNode]
    simp [hrest, printable_writeScalar]
  | .arr (v :: vs), _, hrest => by
    have hv := printable_writeNode (n + 2) v (printable_writeItems n vs hrest)
    have hmarks : isPrintable '-' = true ∧ isPrintable ' ' = true := by decide
    rw [writeNode]
    simp [hmarks, hv]
  | .obj ((k, v) :: ms), _, hrest => by
    have hv := fun m => printable_writeNode m v (printable_writeMembers n ms hrest)
    rw [writeNode_object, memberRest]
    simp [printable_writeKey, printable_placeValue, hv]

theorem printable_writeItems (n : Nat) : (vs : List Json) → {rest : List Char} → Printable rest →
    Printable (writeItems n vs rest)
  | [], _, hrest => hrest
  | v :: vs, _, hrest => by
    have hv := printable_writeNode (n + 2) v (printable_writeItems n vs hrest)
    have hmarks : isPrintable '-' = true ∧ isPrintable ' ' = true := by decide
    rw [writeItems]
    simp [hmarks, hv]

theorem printable_writeMembers (n : Nat) : (ms : List (String × Json)) → {rest : List Char} →
    Printable rest → Printable (writeMembers n ms rest)
  | [], _, hrest => hrest
  | (k, v) :: ms, _, hrest => by
    have hv := fun m => printable_writeNode m v (printable_writeMembers n ms hrest)
    rw [writeMembers_cons, memberRest]
    simp [printable_writeKey, printable_placeValue, hv]

end

theorem printable_write (vs : List Json) : Printable (write vs).toList := by
  rw [write, String.toList_ofList]
  intro c hc
  obtain ⟨v, -, hc⟩ := List.mem_flatMap.1 hc
  rcases List.mem_append.1 hc with hc | hc
  · exact List.all_eq_true.1 (by decide : documentStart.all isPrintable = true) c hc
  · exact printable_writeNode 0 v printable_nil c hc

end WorkspaceTrust.Yaml
