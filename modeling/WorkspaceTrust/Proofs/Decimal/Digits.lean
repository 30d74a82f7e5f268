import WorkspaceTrust.Decimal.Literal

/-!
# Digits that are written are read back

Numbers are written with `Nat.toDigits`, as they are in decimal and
mapped to upper case in the escapes of quoted scalars. `natOfDigits`
gives the number back in both cases; `readInt_toString` is the same for
whole numbers with their sign.
-/

namespace WorkspaceTrust.Literal

theorem natOfDigits_concat (base : Nat) (cs : List Char) (c : Char) :
    natOfDigits base (cs ++ [c]) = natOfDigits base cs * base + (digitValue c).getD 0 := by
  rw [natOfDigits, List.foldl_append]
  rfl

theorem natOfDigits_zeros (base k : Nat) (cs : List Char) :
    natOfDigits base (List.replicate k '0' ++ cs) = natOfDigits base cs := by
  induction k with
  | zero => rfl
  | succ k ih =>
    rw [← ih]
    simp [natOfDigits, List.replicate_succ, digitValue]

section Written

variable {base : Nat} {f : Char → Char}

theorem natOfDigits_toDigits (hb : 1 < base)
    (hf : ∀ d < base, digitValue (f d.digitChar) = some d) (n : Nat) :
    natOfDigits base ((Nat.toDigits base n).map f) = n := by
  induction n using Nat.strongRecOn with
  | ind n ih =>
    rw [Nat.toDigits_eq_if hb]
    split
    · next h => simp [natOfDigits, hf n h]
    · next h =>
      have hn : 0 < n := by omega
      rw [List.map_append, List.map_singleton, natOfDigits_concat, ih _ (Nat.div_lt_self hn hb),
        hf _ (Nat.mod_lt n (by omega))]
      exact Nat.div_add_mod' n base

theorem isDigit_of_mem_toDigits (hb : 1 < base)
    (hf : ∀ d < base, digitValue (f d.digitChar) = some d) (n : Nat) :
    ∀ c ∈ (Nat.toDigits base n).map f, isDigit base c = true := by
  have hdigit : ∀ d < base, isDigit base (f d.digitChar) = true := fun d hd => by
    simp [isDigit, hf d hd, hd]
  induction n using Nat.strongRecOn with
  | ind n ih =>
    rw [Nat.toDigits_eq_if hb]
    split
    · next h => simpa using hdigit n h
    · next h =>
      have hn : 0 < n := by omega
      intro c hc
      rw [List.map_append, List.mem_append, List.map_singleton, List.mem_singleton] at hc
      rcases hc with hc | rfl
      · exact ih _ (Nat.div_lt_self hn hb) c hc
      · exact hdigit _ (Nat.mod_lt n (by omega))

end Written

theorem digitValue_digitChar : ∀ d < 10, digitValue d.digitChar = some d := by decide

theorem digitValue_toUpper : ∀ d < 16, digitValue d.digitChar.toUpper = some d := by decide

theorem isDigit_toDigits (n : Nat) : ∀ c ∈ Nat.toDigits 10 n, isDigit 10 c = true := by
  have := isDigit_of_mem_toDigits (f := id) (by decide : 1 < 10) digitValue_digitChar n
  rwa [List.map_id] at this

theorem natOfDigits_ten (n : Nat) : natOfDigits 10 (Nat.toDigits 10 n) = n := by
  have := natOfDigits_toDigits (f := id) (by decide : 1 < 10) digitValue_digitChar n
  rwa [List.map_id] at this

theorem readNat_toDigits (n : Nat) : readNat 10 (Nat.toDigits 10 n) = some n := by
  rw [readNat, if_pos ⟨Nat.toDigits_ne_nil, List.all_eq_true.2 (isDigit_toDigits n)⟩,
    natOfDigits_ten]

/-- Text that starts with a digit has no sign. -/
theorem splitSign_of_digit {c : Char} {cs : List Char} (h : isDigit 10 c = true) :
    splitSign (c :: cs) = (false, c :: cs) := by
  unfold splitSign
  split
  · next heq =>
    obtain ⟨rfl, -⟩ := List.cons.inj heq
    exact absurd h (by decide)
  · next heq =>
    obtain ⟨rfl, -⟩ := List.cons.inj heq
    exact absurd h (by decide)
  · rfl

theorem splitSign_toDigits (n : Nat) :
    splitSign (Nat.toDigits 10 n) = (false, Nat.toDigits 10 n) := by
  obtain ⟨c, cs, h⟩ := List.exists_cons_of_ne_nil (Nat.toDigits_ne_nil (n := n) (b := 10))
  have hc := isDigit_toDigits n c (by simp [h])
  rw [h, splitSign_of_digit hc]

theorem toList_toString_ofNat (n : Nat) : (toString (n : Int)).toList = Nat.toDigits 10 n :=
  Nat.toList_repr

theorem toList_toString_negSucc (n : Nat) :
    (toString (Int.negSucc n)).toList = '-' :: Nat.toDigits 10 (n + 1) := by
  show ("-" ++ (n + 1).repr).toList = _
  rw [String.toList_append, Nat.toList_repr]
  rfl

/-- A whole number is read as it is written. -/
theorem readInt_toString (i : Int) : readInt 10 (toString i).toList = some i := by
  cases i with
  | ofNat n =>
    show readInt 10 (toString (n : Int)).toList = _
    rw [toList_toString_ofNat, readInt, splitSign_toDigits]
    simp [readNat_toDigits]
  | negSucc n =>
    rw [toList_toString_negSucc, readInt, splitSign]
    simp [readNat_toDigits, Int.negSucc_eq]

end WorkspaceTrust.Literal
