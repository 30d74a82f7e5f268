import WorkspaceTrust.Json.Printer
import WorkspaceTrust.Json.Reader
import WorkspaceTrust.Proofs.Decimal.RoundTrip
import WorkspaceTrust.Proofs.Result

/-!
# Texts and whole numbers that are written are read back

A text is read up to its closing quote, and every character in front of
that is given back as it was, whether it is escaped or not
(`readChars_escaped`). A whole number ends where something follows
that is no part of a number (`EndsNumber`), and then it is read back if
it has 64 bits (`readNumber_int`).
-/

namespace WorkspaceTrust.Json

/-! ## Texts -/

/-- The numeric escapes of control characters. -/
theorem hexQuad_control : ∀ n < 32, hexQuad '0' '0' (hexDigit (n / 16)) (hexDigit n) = some n := by
  decide

theorem readChars_control {c : Char} (h : c.toNat < 32) (cs : List Char) :
    readChars ('\\' :: 'u' :: '0' :: '0' :: hexDigit (c.toNat / 16) :: hexDigit c.toNat :: cs) =
      (readChars cs).map fun (s, r) => (c :: s, r) := by
  have hlow : isLowSurrogate c.toNat = false := by
    simp only [isLowSurrogate, decide_eq_false_iff_not]
    omega
  have hhigh : isHighSurrogate c.toNat = false := by
    simp only [isHighSurrogate, decide_eq_false_iff_not]
    omega
  rw [readChars, hexQuad_control _ h]
  simp [hlow, hhigh]

theorem readChars_plain {c : Char} (hquote : c ≠ '"') (hescape : c ≠ '\\')
    (hcontrol : ¬ c.toNat < 32) (cs : List Char) :
    readChars (c :: cs) = (readChars cs).map fun (s, r) => (c :: s, r) := by
  rw [readChars, if_neg hcontrol] <;> simp_all

/-- A character is read as it is written. -/
theorem readChars_escapeChar (c : Char) (cs : List Char) :
    readChars (escapeChar c ++ cs) = (readChars cs).map fun (s, r) => (c :: s, r) := by
  unfold escapeChar
  split_ifs with hquote hescape hline hreturn htab hback hfeed hcontrol
  · subst hquote
    rfl
  · subst hescape
    rfl
  · subst hline
    rfl
  · subst hreturn
    rfl
  · subst htab
    rfl
  · subst hback
    rfl
  · subst hfeed
    rfl
  · exact readChars_control hcontrol cs
  · exact readChars_plain hquote hescape hcontrol cs

/-- What is behind the opening quote of a text is read as the text and what follows it. -/
theorem readChars_escaped (rest : List Char) : ∀ cs : List Char,
    readChars (cs.flatMap escapeChar ++ '"' :: rest) = .ok (cs, rest)
  | [] => rfl
  | c :: cs => by
      rw [List.flatMap_cons, List.append_assoc, readChars_escapeChar, readChars_escaped rest cs]
      rfl

/-! ## Whole numbers -/

/-- What follows is no part of a number. -/
def EndsNumber (rest : List Char) : Prop :=
  ∀ c, rest.head? = some c → Literal.isDigit 10 c = false ∧ c ≠ '.' ∧ c ≠ 'e' ∧ c ≠ 'E'

theorem endsNumber_nil : EndsNumber [] := nofun

theorem endsNumber_cons {c : Char} (h : Literal.isDigit 10 c = false ∧ c ≠ '.' ∧ c ≠ 'e' ∧ c ≠ 'E')
    (cs : List Char) : EndsNumber (c :: cs) := by
  intro d hd
  obtain rfl := Option.some.inj hd
  exact h

/-- Only zero is written with a zero in front. -/
theorem head_toDigits {n : Nat} (h : 0 < n) (cs : List Char) : Nat.toDigits 10 n ≠ '0' :: cs := by
  have hdigit : ∀ d < 10, 0 < d → Nat.digitChar d ≠ '0' := by decide
  induction n using Nat.strongRecOn generalizing cs with
  | ind n ih =>
    rw [Nat.toDigits_eq_if (by decide)]
    split
    · next hlt => exact fun heq => hdigit n hlt h (List.cons.inj heq).1
    · next hge =>
      obtain ⟨c, ds, hds⟩ := List.exists_cons_of_ne_nil
        (Nat.toDigits_ne_nil (n := n / 10) (b := 10))
      rw [hds, List.cons_append]
      intro heq
      obtain ⟨rfl, -⟩ := List.cons.inj heq
      exact ih (n / 10) (by omega) (by omega) ds hds

variable {rest : List Char}

theorem readWhole_toDigits (h : EndsNumber rest) (n : Nat) :
    readWhole (Nat.toDigits 10 n ++ rest) = .ok (Nat.toDigits 10 n, rest) := by
  have hno : Literal.NoDigit rest := fun c cs hcs => (h c (hcs ▸ rfl)).1
  rcases Nat.eq_zero_or_pos n with rfl | hpos
  · have hany : rest.head?.any (Literal.isDigit 10) = false := by
      cases rest with
      | nil => rfl
      | cons c cs => exact (h c rfl).1
    show readWhole ('0' :: rest) = _
    rw [readWhole, hany]
    rfl
  · obtain ⟨c, ds, hds⟩ := List.exists_cons_of_ne_nil (Nat.toDigits_ne_nil (n := n) (b := 10))
    have hdigits := Literal.isDigit_toDigits n
    have hne : c ≠ '0' := fun hc => head_toDigits hpos ds (hc ▸ hds)
    rw [hds] at hdigits ⊢
    obtain ⟨hc, hds⟩ := List.forall_mem_cons.1 hdigits
    obtain ⟨htake, hdrop⟩ := Literal.takeWhile_digits hds hno
    rw [List.cons_append, readWhole, if_pos hc, htake, hdrop]
    exact hne

theorem readPlaces_of_ends (h : EndsNumber rest) : readPlaces rest = .ok (none, rest) := by
  unfold readPlaces
  split
  · exact absurd rfl (h '.' rfl).2.1
  · rfl

theorem readExponent_of_ends (h : EndsNumber rest) : readExponent rest = .ok (none, rest) := by
  cases rest with
  | nil => rfl
  | cons c cs =>
    obtain ⟨-, -, he, hE⟩ := h c rfl
    rw [readExponent, if_neg (by simp [he, hE])]

/-- The number that is read is the one with these digits and the sign in front of them. -/
theorem readNumber_digits (h : EndsNumber rest) (n : Nat) {i : Int} :
    (numberOf false (Nat.toDigits 10 n) none none = .int i →
      readNumber (Nat.toDigits 10 n ++ rest) = .ok (.int i, rest)) ∧
    (numberOf true (Nat.toDigits 10 n) none none = .int i →
      readNumber ('-' :: (Nat.toDigits 10 n ++ rest)) = .ok (.int i, rest)) := by
  constructor
  · intro hnumber
    obtain ⟨c, ds, hds⟩ := List.exists_cons_of_ne_nil (Nat.toDigits_ne_nil (n := n) (b := 10))
    have hc : c ≠ '-' := by
      rintro rfl
      exact absurd (Literal.isDigit_toDigits n '-' (by simp [hds])) (by decide)
    have hwhole := readWhole_toDigits h n
    rw [hds] at hnumber hwhole ⊢
    rw [List.cons_append] at hwhole ⊢
    rw [readNumber]
    · simp only [hwhole, ok_bind, readPlaces_of_ends h, readExponent_of_ends h, hnumber]
    · exact fun cs heq => hc (List.cons.inj heq).1
  · intro hnumber
    simp only [readNumber, readWhole_toDigits h n, ok_bind, readPlaces_of_ends h,
      readExponent_of_ends h, hnumber]

/-- The number is no float. Whole numbers have 64 bits, with or without a sign. -/
def Number.IsWhole : Number → Prop
  | .int i => -(Nat.pow 2 63 : Int) ≤ i ∧ i < Nat.pow 2 64
  | .float _ => False

instance : DecidablePred Number.IsWhole
  | .int i => inferInstanceAs (Decidable (-(Nat.pow 2 63 : Int) ≤ i ∧ i < Nat.pow 2 64))
  | .float _ => inferInstanceAs (Decidable False)

/-- A whole number is read as it is written. -/
theorem readNumber_int (h : EndsNumber rest) {i : Int} (hi : (Number.int i).IsWhole) :
    readNumber ((toString i).toList ++ rest) = .ok (.int i, rest) := by
  obtain ⟨hlow, hhigh⟩ := hi
  cases i with
  | ofNat n =>
    have hfits : n < Nat.pow 2 64 := Int.ofNat_lt.1 hhigh
    have hread := (readNumber_digits h n (i := n)).1
      (by simp only [numberOf, Literal.natOfDigits_ten, hfits]; rfl)
    rw [← Literal.toList_toString_ofNat] at hread
    exact hread
  | negSucc n =>
    rw [Literal.toList_toString_negSucc]
    have hfits : n + 1 ≤ Nat.pow 2 63 := by omega
    refine (readNumber_digits h (n + 1)).2 ?_
    simp only [numberOf, Literal.natOfDigits_ten, hfits]
    rfl

end WorkspaceTrust.Json
