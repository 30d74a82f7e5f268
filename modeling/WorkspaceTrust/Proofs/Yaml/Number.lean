import WorkspaceTrust.Proofs.Yaml.Resolve

/-!
# Numbers come back

Whole numbers of 64 bits and finite numbers are written plain. No numeral
is taken for anything but a number, and a point or an exponent tells the
finite numbers from the whole ones.
-/

namespace WorkspaceTrust

open Literal

namespace Yaml

variable {cs : List Char}

/-! ## What a number is taken for -/

theorem readMarkedInt_of_numeral (h : Numeral cs) : Node.readMarkedInt cs = none := by
  have hall := h.all
  have hx : isNumeral 'x' = false := by decide
  have ho : isNumeral 'o' = false := by decide
  unfold Node.readMarkedInt
  split
  · rw [hall 'x' (by simp)] at hx
    cases hx
  · rw [hall 'o' (by simp)] at ho
    cases ho
  · next rest =>
    obtain ⟨d, rest', hd, heq | heq⟩ := h.first
    · obtain ⟨rfl, -⟩ := List.cons.inj heq
      exact absurd hd (by decide)
    · exact absurd (List.cons.inj heq).1 (by decide)
  · rfl

/-- A numeral is none of the words that plain texts can be. -/
theorem ne_word_of_numeral (h : Numeral cs) :
    ∀ word ∈ ["", "~", "null", "true", "false"], String.ofList cs ≠ word := by
  intro word hword heq
  obtain rfl : cs = word.toList := by rw [← heq, String.toList_ofList]
  have hnot : (["", "~", "null", "true", "false"].all fun word =>
      word.toList.isEmpty || word.toList.any fun c => !isNumeral c) = true := by decide
  rcases Bool.or_eq_true_iff.1 (List.all_eq_true.1 hnot word hword) with hnil | hother
  · exact h.ne_nil (List.isEmpty_iff.1 hnil)
  · obtain ⟨c, hc, hnumeral⟩ := List.any_eq_true.1 hother
    simp [h.all c hc] at hnumeral

theorem ofPlain_of_numeral (h : Numeral cs) :
    Node.ofPlain (String.ofList cs) = match readInt64 10 cs with
      | some i => .int i
      | none => if Node.isReal (String.ofList cs) then .real (String.ofList cs)
          else .str (String.ofList cs) := by
  have hword := ne_word_of_numeral h
  simp only [List.mem_cons, List.not_mem_nil, or_false, forall_eq_or_imp, forall_eq] at hword
  rw [Node.ofPlain, String.toList_ofList, readMarkedInt_of_numeral h]
  cases readInt64 10 cs <;> simp only [hword, or_self, if_false]

/-- Where there is more than digits there is no whole number. -/
theorem readInt64_of_not_digit {negative : Bool} (h : Unsigned cs) {c : Char} (hc : c ∈ cs)
    (hdigit : isDigit 10 c = false) : readInt64 10 (signed negative cs) = none := by
  have hread : readNat 10 cs = none := by
    rw [readNat, if_neg]
    rintro ⟨-, hall⟩
    rw [List.all_eq_true.1 hall c hc] at hdigit
    cases hdigit
  rw [readInt64, readInt, splitSign_signed h]
  simp [hread]

/-- A number that can be read comes back. -/
theorem numberReturns_of_readable {x : Json.Number} (h : x.Readable) : NumberReturns x := by
  rw [NumberReturns, ofPlain_of_numeral (numeral_writeNumber x)]
  cases x with
  | int i =>
    have hread : readInt64 10 (writeNumber (.int i)) = some i := by
      rw [readInt64, writeNumber, readInt_toString]
      simpa [Json.Number.Readable] using h
    rw [hread]
    rfl
  | float x =>
    have hread : readInt64 10 (writeNumber (.float x)) = none := by
      obtain ⟨c, hc, hdigit⟩ := x.exists_not_digit_body floatNotation
      rw [writeNumber, x.toList_write floatNotation]
      exact readInt64_of_not_digit (x.unsigned_body floatNotation) hc hdigit
    have hback : readBinary64 (writeNumber (.float x)) = some x :=
      Binary64.readBinary64_write h floatNotation
    have hreal : Node.isReal (String.ofList (writeNumber (.float x))) = true := by
      rw [Node.isReal, String.toList_ofList, hback]
      simp
    have hfinite : x.isFinite = true := h
    rw [hread]
    simp only [hreal, if_true, Node.toJson, Node.realToJson, String.toList_ofList, hback, hfinite]

end Yaml

end WorkspaceTrust
