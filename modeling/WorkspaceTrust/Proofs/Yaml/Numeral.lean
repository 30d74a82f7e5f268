import WorkspaceTrust.Proofs.Decimal.RoundTrip
import WorkspaceTrust.Yaml.Printer

/-!
# The text of a number

Numbers have nothing but digits, signs, points and the letter `e` in them
and start with a digit, perhaps behind a minus sign (`Numeral`). Such a
text can always be written plain.
-/

namespace WorkspaceTrust.Yaml

open ScalarStyle Literal

/-- The text of a number, with its sign. -/
def Numeral (cs : List Char) : Prop := ∃ negative ds, Unsigned ds ∧ cs = signed negative ds

theorem numeral_writeNumber (x : Json.Number) : Numeral (writeNumber x) := by
  cases x with
  | int i =>
    have hdigits := fun n => unsigned_of_digits (Nat.toDigits_ne_nil (n := n) (b := 10)) (isDigit_toDigits n)
    cases i with
    | ofNat n => exact ⟨false, _, hdigits n, toList_toString_ofNat n⟩
    | negSucc n => exact ⟨true, _, hdigits (n + 1), toList_toString_negSucc n⟩
  | float x => exact ⟨x.negative, _, x.unsigned_body floatNotation, x.toList_write floatNotation⟩

variable {cs : List Char}

theorem Numeral.all (h : Numeral cs) : ∀ c ∈ cs, isNumeral c = true := by
  obtain ⟨negative, ds, hds, rfl⟩ := h
  cases negative with
  | true =>
    intro c hc
    rcases List.mem_cons.1 hc with rfl | hc
    · decide
    · exact hds.2 c hc
  | false => exact hds.2

/-- A numeral has a first digit, with or without a sign in front of it. -/
theorem Numeral.first (h : Numeral cs) :
    ∃ d rest, isDigit 10 d = true ∧ (cs = d :: rest ∨ cs = '-' :: d :: rest) := by
  obtain ⟨negative, ds, ⟨⟨d, rest, rfl, hd⟩, -⟩, rfl⟩ := h
  cases negative with
  | true => exact ⟨d, rest, hd, .inr rfl⟩
  | false => exact ⟨d, rest, hd, .inl rfl⟩

theorem Numeral.ne_nil (h : Numeral cs) : cs ≠ [] := by
  obtain ⟨d, rest, -, rfl | rfl⟩ := h.first <;> simp

theorem ne_of_isNumeral {c d : Char} (hc : isNumeral c = true) (hd : isNumeral d = false) : c ≠ d := by
  rintro rfl
  rw [hc] at hd
  cases hd

theorem not_isLineBreak_of_isNumeral {c : Char} (h : isNumeral c = true) : isLineBreak c = false := by
  have hne := fun d hd => @ne_of_isNumeral c d h hd
  simp [isLineBreak, hne '\n' (by decide), hne '\r' (by decide), hne '\x85' (by decide),
    hne '\u2028' (by decide), hne '\u2029' (by decide)]

theorem isPrintable_of_isDigit {base : Nat} {c : Char} (h : isDigit base c = true) :
    isPrintable c = true := by
  unfold isDigit digitValue at h
  have hrange : 0x20 ≤ c.toNat ∧ c.toNat ≤ 0x7E := by
    split at h
    · next hv =>
      split at hv
      · next hc => exact ⟨Nat.le_trans (by decide) hc.1, Nat.le_trans hc.2 (by decide)⟩
      · split at hv
        · next hc => exact ⟨Nat.le_trans (by decide) hc.1, Nat.le_trans hc.2 (by decide)⟩
        · split at hv
          · next hc => exact ⟨Nat.le_trans (by decide) hc.1, Nat.le_trans hc.2 (by decide)⟩
          · cases hv
    · cases h
  simp [isPrintable, hrange]

theorem isPrintable_of_isNumeral {c : Char} (h : isNumeral c = true) : isPrintable c = true := by
  rw [isNumeral, Bool.or_eq_true] at h
  rcases h with h | h
  · exact isPrintable_of_isDigit h
  · have hmarks : ['.', '-', '+', 'e'].all isPrintable = true := by decide
    exact List.all_eq_true.1 hmarks c (List.contains_iff_mem.1 h)

theorem not_isGap_of_isNumeral {c : Char} (h : isNumeral c = true) : isGap (some c) = false := by
  have hne := fun d hd => @ne_of_isNumeral c d h hd
  simp [isGap, isBlank, not_isLineBreak_of_isNumeral h, hne ' ' (by decide), hne '\t' (by decide),
    hne '\x00' (by decide)]

theorem hasIndicator_of_numeral (h : ∀ c ∈ cs, isNumeral c = true) :
    ∀ before, hasIndicator before cs = false := by
  induction cs with
  | nil => exact fun _ => rfl
  | cons c cs ih =>
    intro before
    have hc := h c (by simp)
    rw [hasIndicator, ih (fun d hd => h d (by simp [hd])) c]
    simp [ne_of_isNumeral hc (by decide : isNumeral ':' = false),
      ne_of_isNumeral hc (by decide : isNumeral '#' = false)]

theorem startsWithIndicator_of_digit {d : Char} (h : isDigit 10 d = true) (rest : List Char) :
    startsWithIndicator (d :: rest) = false := by
  have hmarks : ∀ c ∈ ['#', ',', '[', ']', '{', '}', '&', '*', '!', '|', '>', '\'', '"', '%', '@',
      '\x60', '?', ':', '-'], d ≠ c := by
    rintro c hc rfl
    have hnot : (['#', ',', '[', ']', '{', '}', '&', '*', '!', '|', '>', '\'', '"', '%', '@',
      '\x60', '?', ':', '-'].all fun c => !isDigit 10 c) = true := by decide
    have hd := List.all_eq_true.1 hnot d hc
    simp [h] at hd
  simp [startsWithIndicator, hmarks]

theorem not_marker_of_numeral (h : Numeral cs) :
    startsLikeMarker cs = false ∧ startsWithIndicator cs = false := by
  obtain ⟨d, rest, hd, heq⟩ := h.first
  have hne : ∀ c, isDigit 10 c = false → d ≠ c := by
    rintro c hc rfl
    rw [hd] at hc
    cases hc
  rcases heq with rfl | rfl
  · refine ⟨?_, startsWithIndicator_of_digit hd rest⟩
    rcases rest with _ | ⟨a, _ | ⟨b, rest⟩⟩ <;>
      simp [startsLikeMarker, hne '-' (by decide), hne '.' (by decide)]
  · have hgap := not_isGap_of_isNumeral (isNumeral_of_isDigit hd)
    constructor
    · cases rest <;> simp [startsLikeMarker, hne '-' (by decide)]
    · simp [startsWithIndicator, hgap]

theorem fitsPlain_of_numeral (h : Numeral cs) : fitsPlain cs = true := by
  have hall := h.all
  have hmarker := not_marker_of_numeral h
  obtain ⟨c, rest, rfl⟩ := List.exists_cons_of_ne_nil h.ne_nil
  have hspace : ∀ d ∈ c :: rest, isSpaceOrBreak d = false := fun d hd => by
    simp [isSpaceOrBreak, not_isLineBreak_of_isNumeral (hall d hd),
      ne_of_isNumeral (hall d hd) (by decide : isNumeral ' ' = false)]
  have hchars : ((c :: rest).all fun d => isPrintable d && !isLineBreak d) = true := by
    rw [List.all_eq_true]
    intro d hd
    simp [isPrintable_of_isNumeral (hall d hd), not_isLineBreak_of_isNumeral (hall d hd)]
  have hindicator := @hasIndicator_of_numeral rest (fun d hd => hall d (by simp [hd])) c
  have hhead : (c :: rest).head?.any isSpaceOrBreak = false := hspace c (by simp)
  have hlast : (c :: rest).getLast?.any isSpaceOrBreak = false := by
    cases hl : (c :: rest).getLast? with
    | none => rfl
    | some d => exact hspace d (List.mem_of_getLast? hl)
  rw [fitsPlain, hchars, hmarker.1, hmarker.2, hhead, hlast]
  simp [hindicator]

end WorkspaceTrust.Yaml
