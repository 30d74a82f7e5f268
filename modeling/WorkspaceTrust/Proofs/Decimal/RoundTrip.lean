import WorkspaceTrust.Proofs.Decimal.Digits
import WorkspaceTrust.Proofs.Decimal.Rounding

/-!
# Numbers are read as they are written

The shortest decimal of a finite number is one that rounds to it, whatever
number of digits that takes (`shortest_rounds`), and the text that is
written for it is read with that value, in whichever of its forms
(`readBinary64_write`).
-/

namespace WorkspaceTrust

/-- The value of a decimal. -/
def Decimal.value (d : Decimal) : ℚ := d.digits * 10 ^ d.exponent

/-- Zeros at the end of the digits do not count. -/
theorem Decimal.value_scale (n : Nat) (e : Int) (k : Nat) :
    Decimal.value ⟨n * 10 ^ k, e - k⟩ = Decimal.value ⟨n, e⟩ := by
  rw [value, value, zpow_sub₀ (by norm_num : (10 : ℚ) ≠ 0), zpow_natCast]
  push_cast
  field_simp

theorem Decimal.value_strip (fuel : Nat) : ∀ d : Decimal, (d.strip fuel).value = d.value := by
  induction fuel with
  | zero => exact fun d => rfl
  | succ fuel ih =>
    intro d
    rw [strip]
    split
    · next h =>
      have hd : d = ⟨d.digits / 10 * 10 ^ 1, d.exponent + 1 - (1 : Nat)⟩ := by
        obtain ⟨digits, e⟩ := d
        simp only [Decimal.mk.injEq] at h ⊢
        omega
      rw [ih]
      conv_rhs => rw [hd, value_scale]
    · rfl

namespace Binary64

/-! ## The shortest decimal -/

variable {x : Binary64}

theorem readsBack_of_withDigits {n : Nat} {d : Decimal} (h : x.withDigits n = some d) :
    x.readsBack d = true := by
  simp only [withDigits, Nat.pow_eq] at h
  split at h
  · cases h
  · next hb _ =>
    cases h
    exact hb
  · next hb =>
    cases h
    exact hb
  · next hb hb' =>
    cases h
    rcases roundDiv_mem (x.significand * 2 ^ x.exponent.toNat * 10 ^ (-(x.decimalScale - n)).toNat)
      (10 ^ (x.decimalScale - n).toNat * 2 ^ (-x.exponent).toNat) with h | h <;> rw [h]
    · exact hb
    · exact hb'

/-- A number rounds to itself. -/
theorem rounds_self (h : 0 < x.significand) : x.Rounds (x.significand * 2 ^ x.exponent) := by
  have hunit : (0 : ℚ) < 2 ^ (x.exponent - 2) := by positivity
  have hlow : (x.lowEnd : ℚ) < 4 * x.significand := by
    have : x.lowEnd < 4 * x.significand := by
      rw [lowEnd]
      split_ifs <;> omega
    exact_mod_cast this
  have hval : (x.significand * 2 ^ x.exponent : ℚ) = 4 * x.significand * 2 ^ (x.exponent - 2) := by
    rw [← four_mul_zpow]
    ring
  have h₁ : x.lowEnd * 2 ^ (x.exponent - 2) < (x.significand * 2 ^ x.exponent : ℚ) := by
    rw [hval]
    gcongr
  have h₂ : (x.significand * 2 ^ x.exponent : ℚ)
      < (4 * x.significand + 2 : Nat) * 2 ^ (x.exponent - 2) := by
    rw [hval]
    push_cast
    gcongr
    linarith
  exact ⟨h₁.le, h₂.le, fun _ => ⟨h₁, h₂⟩⟩

theorem shortest_rounds (h : 0 < x.significand) : x.Rounds x.shortest.value := by
  simp only [shortest, Nat.pow_eq]
  split
  · next d hd =>
    obtain ⟨n, -, hn⟩ := List.exists_of_findSome?_eq_some hd
    rw [Decimal.value_strip]
    exact (x.readsBack_iff d).1 (readsBack_of_withDigits hn)
  · have hval : Decimal.value ⟨x.significand * 2 ^ x.exponent.toNat * 5 ^ (-x.exponent).toNat,
        min x.exponent 0⟩ = x.significand * 2 ^ x.exponent := by
      rcases Int.le_total 0 x.exponent with hq | hq
      · rw [Decimal.value, min_eq_right hq, show (-x.exponent).toNat = 0 by omega,
          zpow_eq_div (by norm_num : (2 : ℚ) ≠ 0), show (-x.exponent).toNat = 0 by omega]
        push_cast
        simp
      · rw [Decimal.value, min_eq_left hq, show x.exponent.toNat = 0 by omega,
          zpow_eq_div (by norm_num : (2 : ℚ) ≠ 0), zpow_eq_div (by norm_num : (10 : ℚ) ≠ 0),
          show x.exponent.toNat = 0 by omega, show (10 : ℚ) = 2 * 5 by norm_num]
        push_cast
        field_simp
        rw [mul_pow, mul_comm]
    rw [hval]
    exact rounds_self h

end Binary64

/-! ## Reading the text -/

namespace Literal

/-- What follows the digits does not go on with a digit. -/
def NoDigit (cs : List Char) : Prop := ∀ c rest, cs = c :: rest → isDigit 10 c = false

theorem takeWhile_digits {ds tail : List Char} (hds : ∀ c ∈ ds, isDigit 10 c = true)
    (htail : NoDigit tail) :
    (ds ++ tail).takeWhile (isDigit 10) = ds ∧ (ds ++ tail).dropWhile (isDigit 10) = tail := by
  rw [List.takeWhile_append_of_pos hds, List.dropWhile_append_of_pos hds]
  cases tail with
  | nil => simp
  | cons c tail => simp [htail c tail rfl]

variable {negative : Bool} {whole places tail : List Char} {e : Int}

/-- Digits around a point, then an exponent. -/
theorem readUnsigned_point (hwhole : ∀ c ∈ whole, isDigit 10 c = true)
    (hplaces : ∀ c ∈ places, isDigit 10 c = true) (hne : whole ≠ []) (htail : NoDigit tail)
    (hexp : readExponent tail = some e) :
    readUnsigned negative (whole ++ '.' :: (places ++ tail)) =
      some (Binary64.ofDecimal negative (natOfDigits 10 (whole ++ places)) (e - places.length)) := by
  have hpoint : NoDigit ('.' :: (places ++ tail)) := by
    rintro c rest heq
    obtain ⟨rfl, -⟩ := List.cons.inj heq
    decide
  obtain ⟨htake, hdrop⟩ := takeWhile_digits hwhole hpoint
  obtain ⟨htake', hdrop'⟩ := takeWhile_digits hplaces htail
  rw [readUnsigned, htake, hdrop]
  simp only [htake', hdrop', hne, false_and, if_false, hexp, Option.map_some]

/-- Digits without a point, then an exponent. -/
theorem readUnsigned_whole (hwhole : ∀ c ∈ whole, isDigit 10 c = true) (hne : whole ≠ [])
    (htail : NoDigit tail) (hpoint : tail.head? ≠ some '.') (hexp : readExponent tail = some e) :
    readUnsigned negative (whole ++ tail) =
      some (Binary64.ofDecimal negative (natOfDigits 10 whole) e) := by
  obtain ⟨htake, hdrop⟩ := takeWhile_digits hwhole htail
  rw [readUnsigned, htake, hdrop]
  have hno : ∀ rest, tail ≠ '.' :: rest := fun rest heq => hpoint (by rw [heq]; rfl)
  split
  next hsplit =>
    split at hsplit
    · exact absurd rfl (hno _)
    · cases hsplit
      simp [hne, hexp]

theorem noDigit_nil : NoDigit [] := fun _ _ h => nomatch h

theorem noDigit_exponent (cs : List Char) : NoDigit ('e' :: cs) := by
  rintro c rest heq
  obtain ⟨rfl, -⟩ := List.cons.inj heq
  decide

/-- What stands between the digits and the exponent. -/
def exponentMark (style : Binary64.Notation) (e : Int) : List Char :=
  if e < 0 then ['e', '-'] else if style.plusSign then ['e', '+'] else ['e']

theorem readExponent_mark (style : Binary64.Notation) (e : Int) :
    readExponent (exponentMark style e ++ Nat.toDigits 10 e.natAbs) = some e := by
  have hread := readNat_toDigits e.natAbs
  have hsign := splitSign_toDigits e.natAbs
  rw [exponentMark]
  by_cases hneg : e < 0
  · simp [hneg, readExponent, readInt, splitSign, hread, abs_of_neg hneg]
  · cases hplus : style.plusSign with
    | true =>
      simp [hneg, readExponent, readInt, splitSign, hread]
      omega
    | false =>
      simp [hneg, readExponent, readInt, hsign, hread]
      omega

theorem exists_exponentMark (style : Binary64.Notation) (e : Int) :
    ∃ cs, exponentMark style e = 'e' :: cs := by
  rw [exponentMark]
  split_ifs <;> exact ⟨_, rfl⟩

end Literal

open Literal

/-- A decimal as it is written: positional or with an exponent. -/
def Decimal.text (style : Binary64.Notation) (d : Decimal) : List Char :=
  let digits := Nat.toDigits 10 d.digits
  let e : Int := d.exponent + digits.length - 1
  if 0 ≤ d.exponent ∧ e < 16 then digits ++ List.replicate d.exponent.toNat '0' ++ ['.', '0']
  else if 0 ≤ e ∧ e < 16 then digits.take (e.toNat + 1) ++ '.' :: digits.drop (e.toNat + 1)
  else if -5 ≤ e ∧ e < 0 then '0' :: '.' :: List.replicate (-e - 1).toNat '0' ++ digits
  else (digits.take 1 ++ (if digits.length = 1 then [] else '.' :: digits.drop 1))
    ++ exponentMark style e ++ Nat.toDigits 10 e.natAbs

theorem Binary64.write_eq (style : Binary64.Notation) (x : Binary64) :
    x.write style = (if x.negative then "-" else "") ++
      (if x.isZero then "0.0" else String.ofList (x.shortest.text style)) := by
  rw [write]
  cases x.isZero <;> rfl

theorem Literal.natOfDigits_append_zeros (cs : List Char) (k : Nat) :
    natOfDigits 10 (cs ++ List.replicate k '0') = natOfDigits 10 cs * 10 ^ k := by
  induction k with
  | zero => simp
  | succ k ih =>
    rw [List.replicate_succ', ← List.append_assoc, natOfDigits_concat, ih, pow_succ]
    simp [digitValue, mul_assoc]

namespace Literal

theorem isDigit_of_mem_append {as bs : List Char} (has : ∀ c ∈ as, isDigit 10 c = true)
    (hbs : ∀ c ∈ bs, isDigit 10 c = true) : ∀ c ∈ as ++ bs, isDigit 10 c = true :=
  List.forall_mem_append.2 ⟨has, hbs⟩

theorem isDigit_of_mem_zeros (k : Nat) : ∀ c ∈ List.replicate k '0', isDigit 10 c = true := by
  intro c hc
  rw [List.eq_of_mem_replicate hc]
  decide

section Forms

variable {negative : Bool} {digits : List Char} {n : Nat}

/-- All digits in front of the point, perhaps with zeros behind them. -/
theorem readUnsigned_positional (hdigits : ∀ c ∈ digits, isDigit 10 c = true) (hne : digits ≠ [])
    (hnat : natOfDigits 10 digits = n) (k : Nat) :
    readUnsigned negative (digits ++ List.replicate k '0' ++ ['.', '0']) =
      some (Binary64.ofDecimal negative (n * 10 ^ (k + 1)) (-1)) := by
  have hread := @readUnsigned_point negative _ _ _ 0
    (isDigit_of_mem_append hdigits (isDigit_of_mem_zeros k)) (isDigit_of_mem_zeros 1) (by simp [hne])
    noDigit_nil rfl
  have hvalue : natOfDigits 10 ((digits ++ List.replicate k '0') ++ List.replicate 1 '0') =
      n * 10 ^ (k + 1) := by
    rw [List.append_assoc, List.replicate_append_replicate, natOfDigits_append_zeros, hnat]
  rw [hvalue, List.append_nil] at hread
  exact hread

/-- The point between the digits, then an exponent. -/
theorem readUnsigned_split (hdigits : ∀ c ∈ digits, isDigit 10 c = true) (hne : digits ≠ [])
    (hnat : natOfDigits 10 digits = n) {i : Nat} (hi : 0 < i) {tail : List Char} {e : Int}
    (htail : NoDigit tail) (hexp : readExponent tail = some e) :
    readUnsigned negative (digits.take i ++ '.' :: (digits.drop i ++ tail)) =
      some (Binary64.ofDecimal negative n (e - ((digits.length - i : Nat) : Int))) := by
  have htake : digits.take i ≠ [] := by simp [hne, Nat.ne_of_gt hi]
  rw [readUnsigned_point (fun c hc => hdigits c (List.mem_of_mem_take hc))
    (fun c hc => hdigits c (List.mem_of_mem_drop hc)) htake htail hexp, List.take_append_drop, hnat,
    List.length_drop]

/-- Zeros between the point and the digits. -/
theorem readUnsigned_small (hdigits : ∀ c ∈ digits, isDigit 10 c = true)
    (hnat : natOfDigits 10 digits = n) (k : Nat) :
    readUnsigned negative ('0' :: '.' :: List.replicate k '0' ++ digits) =
      some (Binary64.ofDecimal negative n (-((k + digits.length : Nat) : Int))) := by
  have hread := @readUnsigned_point negative _ _ _ 0 (isDigit_of_mem_zeros 1)
    (isDigit_of_mem_append (isDigit_of_mem_zeros k) hdigits) (by simp) noDigit_nil rfl
  rw [List.append_nil, ← List.append_assoc, List.replicate_append_replicate, natOfDigits_zeros, hnat,
    List.length_append, List.length_replicate, Int.zero_sub] at hread
  exact hread

/-- One digit in front of the point, if there is one, and an exponent. -/
theorem readUnsigned_scientific (hdigits : ∀ c ∈ digits, isDigit 10 c = true) (hne : digits ≠ [])
    (hnat : natOfDigits 10 digits = n) (style : Binary64.Notation) (e : Int) :
    readUnsigned negative ((digits.take 1 ++ (if digits.length = 1 then [] else '.' :: digits.drop 1))
        ++ exponentMark style e ++ Nat.toDigits 10 e.natAbs) =
      some (Binary64.ofDecimal negative n (e - ((digits.length - 1 : Nat) : Int))) := by
  obtain ⟨cs, hmark⟩ := exists_exponentMark style e
  have hexp := readExponent_mark style e
  rw [hmark, List.cons_append] at hexp
  rw [hmark]
  split
  · next hone =>
    rw [List.append_nil, List.take_of_length_le (by omega), List.append_assoc, List.cons_append,
      readUnsigned_whole hdigits hne (noDigit_exponent _) (by simp) hexp, hnat, hone]
    simp
  · have hread := @readUnsigned_split negative digits n hdigits hne hnat 1 (by decide) _ _
      (noDigit_exponent _) hexp
    simpa using hread

end Forms

end Literal

/-- The value of a decimal is the value of the digits that are read from its text. -/
theorem Decimal.readUnsigned_text (negative : Bool) (style : Binary64.Notation) (d : Decimal) :
    ∃ n e, readUnsigned negative (d.text style) = some (Binary64.ofDecimal negative n e) ∧
      Decimal.value ⟨n, e⟩ = d.value := by
  obtain ⟨n, k⟩ := d
  have hdigits := isDigit_toDigits n
  have hnat := natOfDigits_ten n
  have hpos : 0 < (Nat.toDigits 10 n).length := Nat.length_toDigits_pos
  have hne := List.length_pos_iff.1 hpos
  rw [text]
  simp only
  split
  · refine ⟨_, _, readUnsigned_positional hdigits hne hnat k.toNat, ?_⟩
    have := Decimal.value_scale n k (k.toNat + 1)
    rwa [show k - ((k.toNat + 1 : Nat) : Int) = -1 by omega] at this
  refine ⟨n, k, ?_, rfl⟩
  split
  · have hread := @readUnsigned_split negative _ n hdigits hne hnat _
      (k + (Nat.toDigits 10 n).length - 1).toNat.succ_pos [] 0 noDigit_nil rfl
    rw [List.append_nil] at hread
    refine hread.trans ?_
    congr 2
    omega
  split
  · refine (readUnsigned_small hdigits hnat _).trans ?_
    congr 2
    omega
  · refine (readUnsigned_scientific hdigits hne hnat style _).trans ?_
    congr 2
    omega

/-! ## The characters of numbers -/

namespace Literal

/-- The characters that numbers are written with. -/
def isNumeral (c : Char) : Bool := isDigit 10 c || ['.', '-', '+', 'e'].contains c

/-- A text that starts with a digit and consists of such characters. -/
def Unsigned (cs : List Char) : Prop :=
  (∃ c rest, cs = c :: rest ∧ isDigit 10 c = true) ∧ ∀ c ∈ cs, isNumeral c = true

theorem isNumeral_of_isDigit {c : Char} (h : isDigit 10 c = true) : isNumeral c = true := by
  simp [isNumeral, h]

theorem unsigned_append {cs ds : List Char} (hcs : Unsigned cs) (hds : ∀ c ∈ ds, isNumeral c = true) :
    Unsigned (cs ++ ds) := by
  obtain ⟨⟨c, rest, rfl, hc⟩, hall⟩ := hcs
  refine ⟨⟨c, rest ++ ds, rfl, hc⟩, fun d hd => ?_⟩
  rcases List.mem_append.1 hd with hd | hd
  · exact hall d hd
  · exact hds d hd

theorem unsigned_of_digits {ds : List Char} (hne : ds ≠ []) (h : ∀ c ∈ ds, isDigit 10 c = true) :
    Unsigned ds := by
  obtain ⟨c, rest, rfl⟩ := List.exists_cons_of_ne_nil hne
  exact ⟨⟨c, rest, rfl, h c (by simp)⟩, fun d hd => isNumeral_of_isDigit (h d hd)⟩

theorem isNumeral_exponentMark (style : Binary64.Notation) (e : Int) :
    ∀ c ∈ exponentMark style e, isNumeral c = true := by
  rw [exponentMark]
  split_ifs <;> exact List.all_eq_true.1 (by decide)

end Literal

theorem Decimal.unsigned_text (style : Binary64.Notation) (d : Decimal) : Unsigned (d.text style) := by
  have hdigits := isDigit_toDigits d.digits
  have hpos : 0 < (Nat.toDigits 10 d.digits).length := Nat.length_toDigits_pos
  have hnumeral : ∀ n, ∀ c ∈ Nat.toDigits 10 n, isNumeral c = true := fun n c hc =>
    isNumeral_of_isDigit (isDigit_toDigits n c hc)
  have hzeros : ∀ m, ∀ c ∈ List.replicate m '0', isNumeral c = true := by
    intro m c hc
    rw [List.eq_of_mem_replicate hc]
    decide
  have hpoint : isNumeral '.' = true := by decide
  have htake : ∀ i, Unsigned ((Nat.toDigits 10 d.digits).take (i + 1)) := by
    intro i
    refine unsigned_of_digits (fun h => ?_) fun c hc => hdigits c (List.mem_of_mem_take hc)
    have := congrArg List.length h
    rw [List.length_take, List.length_nil] at this
    omega
  have hrest : ∀ i, ∀ c ∈ '.' :: (Nat.toDigits 10 d.digits).drop i, isNumeral c = true := by
    intro i c hc
    rcases List.mem_cons.1 hc with rfl | hc
    · exact hpoint
    · exact hnumeral d.digits c (List.mem_of_mem_drop hc)
  rw [text]
  split_ifs
  · refine unsigned_append (unsigned_append (unsigned_of_digits ?_ hdigits) (hzeros _))
      (List.all_eq_true.1 (by decide))
    exact List.length_pos_iff.1 hpos
  · exact unsigned_append (htake _) (hrest _)
  · have hzero : Unsigned ['0', '.'] := ⟨⟨'0', ['.'], rfl, by decide⟩, List.all_eq_true.1 (by decide)⟩
    exact unsigned_append (unsigned_append hzero (hzeros _)) (hnumeral _)
  · exact unsigned_append (unsigned_append (unsigned_append (htake 0) (by simp))
      (isNumeral_exponentMark style _)) (hnumeral _)
  · exact unsigned_append (unsigned_append (unsigned_append (htake 0) (hrest 1))
      (isNumeral_exponentMark style _)) (hnumeral _)

/-- A decimal is never written with digits alone. -/
theorem Decimal.exists_not_digit_text (style : Binary64.Notation) (d : Decimal) :
    ∃ c ∈ d.text style, isDigit 10 c = false := by
  have hpoint : isDigit 10 '.' = false := by decide
  have hmark : ∃ c ∈ exponentMark style (d.exponent + (Nat.toDigits 10 d.digits).length - 1),
      isDigit 10 c = false := by
    obtain ⟨cs, h⟩ := exists_exponentMark style (d.exponent + (Nat.toDigits 10 d.digits).length - 1)
    exact ⟨'e', by simp [h], by decide⟩
  rw [text]
  split_ifs
  · exact ⟨'.', by simp, hpoint⟩
  · exact ⟨'.', by simp, hpoint⟩
  · exact ⟨'.', by simp, hpoint⟩
  all_goals
    obtain ⟨c, hc, hdigit⟩ := hmark
    exact ⟨c, by simp [hc], hdigit⟩

namespace Literal

/-- The digits of decimals are ten characters in a row. -/
theorem mem_range_of_isDigit {c : Char} (h : isDigit 10 c = true) : '0' ≤ c ∧ c ≤ '9' := by
  unfold isDigit digitValue at h
  split at h
  · next d hd =>
    have hten : d < 10 := of_decide_eq_true h
    have hletter : ∀ a : Char, 97 ≤ a.toNat → a ≤ c → 97 ≤ c.toNat := fun a ha hle =>
      Nat.le_trans ha hle
    split_ifs at hd with h₁ h₂ h₃
    · exact h₁
    · have := hletter 'a' (by decide) h₂.1
      cases hd
      omega
    · have : 65 ≤ c.toNat := h₃.1
      cases hd
      omega
  · cases h

theorem toLower_of_isDigit {c : Char} (h : isDigit 10 c = true) : c.toLower = c := by
  have hle : c.toNat ≤ 57 := (mem_range_of_isDigit h).2
  refine dif_neg ?_
  rintro ⟨hge, -⟩
  have : 65 ≤ c.toNat := hge
  omega

/-- What starts with a digit is not one of the words. -/
theorem readWord_of_unsigned {cs : List Char} (h : Unsigned cs) (negative : Bool) :
    readWord negative cs = none := by
  obtain ⟨⟨c, rest, rfl, hc⟩, -⟩ := h
  have hfirst : ∀ d word, isDigit 10 d = false →
      String.ofList ((c :: rest).map Char.toLower) ≠ String.ofList (d :: word) := by
    intro d word hd heq
    have hcd : c.toLower = d := (List.cons.inj (String.ofList_injective heq)).1
    rw [toLower_of_isDigit hc] at hcd
    rw [hcd, hd] at hc
    cases hc
  unfold readWord
  split
  · next heq => exact absurd heq (hfirst 'i' ['n', 'f'] (by decide))
  · next heq => exact absurd heq (hfirst 'i' ['n', 'f', 'i', 'n', 'i', 't', 'y'] (by decide))
  · next heq => exact absurd heq (hfirst 'n' ['a', 'n'] (by decide))
  · rfl

/-- Text behind an optional minus sign. -/
def signed (negative : Bool) (cs : List Char) : List Char := if negative then '-' :: cs else cs

theorem splitSign_signed {cs : List Char} (h : Unsigned cs) (negative : Bool) :
    splitSign (signed negative cs) = (negative, cs) := by
  obtain ⟨⟨c, rest, rfl, hc⟩, -⟩ := h
  cases negative with
  | true => rfl
  | false => exact splitSign_of_digit hc

theorem readBinary64_signed {cs : List Char} (h : Unsigned cs) (negative : Bool) :
    readBinary64 (signed negative cs) = readUnsigned negative cs := by
  rw [readBinary64, splitSign_signed h]
  simp only [readWord_of_unsigned h, Option.none_or]

end Literal

namespace Binary64

/-- The magnitude of a number as it is written. -/
def body (style : Notation) (x : Binary64) : List Char :=
  if x.isZero then ['0', '.', '0'] else x.shortest.text style

theorem toList_write (style : Notation) (x : Binary64) :
    (x.write style).toList = signed x.negative (x.body style) := by
  rw [write_eq, body, signed]
  cases x.negative <;> cases x.isZero <;> simp

theorem unsigned_body (style : Notation) (x : Binary64) : Unsigned (x.body style) := by
  rw [body]
  split
  · exact ⟨⟨'0', ['.', '0'], rfl, by decide⟩, List.all_eq_true.1 (by decide)⟩
  · exact x.shortest.unsigned_text style

theorem exists_not_digit_body (style : Notation) (x : Binary64) :
    ∃ c ∈ x.body style, isDigit 10 c = false := by
  rw [body]
  split
  · exact ⟨'.', by decide, by decide⟩
  · exact x.shortest.exists_not_digit_text style

/-- A number without significand is a zero with its sign. -/
theorem ofMagnitude_zero {x : Binary64} (h : x.isZero = true) : ofMagnitude x.negative 0 = x := by
  rw [isZero, decide_eq_true_eq, significand, fractionBits, Nat.pow_eq] at h
  have hparts : x.exponentField = 0 ∧ x.fraction = 0 := by
    by_cases hfield : x.exponentField = 0
    · rw [if_pos hfield] at h
      exact ⟨hfield, h⟩
    · rw [if_neg hfield] at h
      omega
  have hmagnitude : x.magnitude = 0 := by
    rw [magnitude_eq, hparts.1, hparts.2, Nat.zero_mul]
  rw [← hmagnitude]
  exact x.ofMagnitude_magnitude

/-- A finite number is read as it is written. -/
theorem readBinary64_write {x : Binary64} (h : x.isFinite = true) (style : Notation) :
    readBinary64 (x.write style).toList = some x := by
  rw [toList_write, readBinary64_signed (x.unsigned_body style), body]
  split
  · next hzero =>
    have hread : readUnsigned x.negative ['0', '.', '0'] = some (ofDecimal x.negative 0 (-1)) := rfl
    rw [hread, ofDecimal]
    simp [ofMagnitude_zero hzero]
  · next hzero =>
    have hpos : 0 < x.significand := by
      simp [isZero] at hzero
      omega
    obtain ⟨n, e, hread, hvalue⟩ := x.shortest.readUnsigned_text x.negative style
    have hrounds := shortest_rounds hpos
    rw [← hvalue] at hrounds
    rw [hread, ofDecimal_of_rounds h hpos hrounds]

end Binary64

end WorkspaceTrust
