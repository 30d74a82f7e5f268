import WorkspaceTrust.Proofs.Yaml.Number

/-!
# Texts that do not come back

A text comes back exactly if what is read for it is the text
(`textReturns_of_textNode`), and a key if what is read for it has the text
of the key (`keyReturns_of_textNode`).

Few texts do not (`misspelled_of_not_textReturns`). Some have a separator
of lines or paragraphs, which is printable and ends a line for the writer
alone. The others are written plain because they look like text to the
writer, and they are numbers for the reader: it takes a sign behind the
mark of a base and behind a plus sign (`0x+1`, `+-1`), and it knows numbers
that are not finite. A single plus sign is known to the writer, which
quotes such texts.
-/

namespace WorkspaceTrust.Yaml

open ScalarStyle Literal Node

variable {n : Nat} {s : String} {cs : List Char}

/-! ## What is read is the text -/

/-- Behind the end of a line there is indentation, even if nothing follows. -/
theorem length_padded_le (n : Nat) (cs : List Char) : ∀ broken,
    cs.length + (if broken || cs.any isLineBreak then n else 0) ≤ (padded n broken cs).length := by
  induction cs with
  | nil =>
    intro broken
    cases broken <;> simp [padded]
  | cons c cs ih =>
    intro broken
    rw [padded]
    by_cases hc : isLineBreak c = true
    · have := ih true
      simp only [hc, Bool.true_or, if_true, List.length_cons, List.any_cons, Bool.or_true] at this ⊢
      omega
    · have := ih false
      simp only [hc, Bool.false_or, List.any_cons, List.length_append, List.length_cons,
        Bool.false_eq_true, if_false] at this ⊢
      cases broken <;> simp at this ⊢ <;> omega

theorem not_isLineBreak_of_padded (hn : 0 < n) (h : padded n false cs = cs) :
    cs.any isLineBreak = false := by
  have hlength := length_padded_le n cs false
  rw [h] at hlength
  rw [Bool.eq_false_iff]
  intro hany
  rw [hany, Bool.or_true, if_pos rfl] at hlength
  omega

/-- A text that is read as a text of its own or as a plain one that will do. -/
theorem returns_of_textNode {plain : Node → Bool} (hn : 0 < n) (hlays : Lays s.toList)
    (hkey : (textNode n s).keyText = .ok s)
    (hplain : ofText s.toList = .plain → plain (ofPlain s) = true) : returns plain s = true := by
  rw [returns]
  cases hstyle : ofText s.toList with
  | plain => exact hplain hstyle
  | singleQuoted =>
    have htext : String.ofList (padded n false s.toList) = s := by
      rw [textNode, laidText, if_pos hstyle, hstyle] at hkey
      exact Except.ok.inj hkey
    have hpadded : padded n false s.toList = s.toList := by
      rw [← String.toList_ofList (l := padded n false s.toList), htext]
    simp [not_isLineBreak_of_padded hn hpadded]
  | literal => exact hlays hstyle
  | doubleQuoted | folded => rfl

theorem textReturns_of_textNode (hn : 0 < n) (hlays : Lays s.toList) (h : textNode n s = .str s) :
    textReturns s = true := by
  refine returns_of_textNode hn hlays (by rw [h]; rfl) fun hplain => ?_
  rw [← textNode_of_plain n hplain, h]
  rfl

theorem keyReturns_of_textNode (hn : 0 < n) (hlays : Lays s.toList)
    (h : (textNode n s).keyText = .ok s) : keyReturns s = true := by
  refine returns_of_textNode hn hlays h fun hplain => ?_
  rw [textNode_of_plain n hplain] at h
  rw [isKey, h]
  exact decide_eq_true rfl

/-! ## Plain texts that are numbers for the reader -/

/-- A whole number for the reader, behind the mark of its base or a plus sign. -/
def SpellsMarkedInt (s : String) : Prop := (readMarkedInt s.toList).isSome = true

instance (s : String) : Decidable (SpellsMarkedInt s) :=
  inferInstanceAs (Decidable ((readMarkedInt s.toList).isSome = true))

/-- A number too large for a finite one, or a word for infinity or not-a-number. -/
def SpellsNonFinite (s : String) : Prop := (readBinary64 s.toList).any (!·.isFinite) = true

instance (s : String) : Decidable (SpellsNonFinite s) :=
  inferInstanceAs (Decidable ((readBinary64 s.toList).any (!·.isFinite) = true))

/-- A separator of lines or of paragraphs. -/
def HasSeparator (s : String) : Prop := '\u2028' ∈ s.toList ∨ '\u2029' ∈ s.toList

instance (s : String) : Decidable (HasSeparator s) :=
  inferInstanceAs (Decidable ('\u2028' ∈ s.toList ∨ '\u2029' ∈ s.toList))

/-- Digits are digits with a mark only if there are two more characters. -/
theorem readMarkedNat_of_readNat {m : Nat} (h : readNat 10 cs = some m) :
    readMarkedNat cs = some m := by
  have hdigits : ∀ c ∈ cs, isDigit 10 c = true := by
    rw [readNat] at h
    split at h
    · next hall => exact List.all_eq_true.1 hall.2
    · cases h
  have hnot : ∀ c, isDigit 10 c = false → c ∉ cs := fun c hc hmem => by
    simp [hdigits c hmem] at hc
  unfold readMarkedNat
  split
  · exact absurd (by simp) (hnot 'x' (by decide))
  · exact absurd (by simp) (hnot 'o' (by decide))
  · exact absurd (by simp) (hnot 'b' (by decide))
  · exact h

theorem isInt_of_readInt64 {i : Int} (h : readInt64 10 cs = some i) : isInt cs = true := by
  obtain ⟨hread, hrange⟩ := Option.filter_eq_some_iff.1 h
  rcases hsign : splitSign cs with ⟨negative, digits⟩
  cases hm : readNat 10 digits with
  | none => simp [readInt, hsign, hm] at hread
  | some m =>
    have h63 : Nat.pow 2 63 ≤ Nat.pow 2 127 ∧ Nat.pow 2 63 < Nat.pow 2 128 := by decide
    obtain rfl : (if negative then -(m : Int) else m) = i := by
      simpa [readInt, hsign, hm] using hread
    simp only [isInt, hsign, readMarkedNat_of_readNat hm]
    cases negative <;> simp at hrange ⊢ <;> omega

/-- No number starts with a second sign. -/
theorem not_signed_of_unsigned {x : Binary64} {negative : Bool}
    (h : (readWord negative cs).or (readUnsigned negative cs) = some x) :
    cs.head? ≠ some '+' ∧ cs.head? ≠ some '-' := by
  have hnone : ∀ sign tail, sign = '+' ∨ sign = '-' →
      (readWord negative (sign :: tail)).or (readUnsigned negative (sign :: tail)) = none := by
    intro sign tail hsign
    have hword : readWord negative (sign :: tail) = none := by
      have hne : ∀ word : String, word.toList.head? = some 'i' ∨ word.toList.head? = some 'n' →
          String.ofList ((sign :: tail).map Char.toLower) ≠ word := by
        rintro word hword rfl
        rcases hsign with rfl | rfl <;> simp at hword
      unfold readWord
      split
      · next heq => exact absurd heq (hne _ (.inl rfl))
      · next heq => exact absurd heq (hne _ (.inl rfl))
      · next heq => exact absurd heq (hne _ (.inr rfl))
      · rfl
    rw [hword]
    rcases hsign with rfl | rfl <;> simp [readUnsigned, isDigit, digitValue]
  constructor <;> intro hhead <;> obtain ⟨tail, rfl⟩ := List.head?_eq_some_iff.1 hhead
  · rw [hnone _ _ (.inl rfl)] at h
    cases h
  · rw [hnone _ _ (.inr rfl)] at h
    cases h

/-- The number behind a plus sign has no sign of its own. -/
theorem readBinary64_plus {x : Binary64} (h : readBinary64 ('+' :: cs) = some x) :
    readBinary64 cs = some x ∧ cs.head? ≠ some '+' ∧ cs.head? ≠ some '-' := by
  have hnot := not_signed_of_unsigned h
  refine ⟨?_, hnot⟩
  have hsign : splitSign cs = (false, cs) := by
    unfold splitSign
    split
    · exact absurd rfl hnot.2
    · exact absurd rfl hnot.1
    · rfl
  rw [readBinary64, hsign]
  exact h

/-- A finite number looks like one to the writer. -/
theorem isReal_of_isFinite {x : Binary64} (h : readBinary64 cs = some x) (hx : x.isFinite = true) :
    ScalarStyle.isReal cs = true := by
  unfold ScalarStyle.isReal
  split
  · obtain ⟨hread, hplus, hminus⟩ := readBinary64_plus h
    simp [hread, hx, hplus, hminus]
  · next hcs =>
    have hplus : cs.head? ≠ some '+' := by
      intro hhead
      obtain ⟨tail, rfl⟩ := List.head?_eq_some_iff.1 hhead
      exact hcs tail rfl
    simp [h, hx, hplus]

/-- The words of the reader for numbers that are not finite are words of the writer, but for
one that is spelled without a point. -/
theorem isReal_of_word {word : String} (h : word ∈ [".inf", ".Inf", ".INF", "+.inf", "+.Inf", "+.INF",
    "-.inf", "-.Inf", "-.INF", ".nan", "NaN", ".NAN"]) :
    ScalarStyle.isReal word.toList = true ∨ SpellsNonFinite word := by
  have hall : ∀ word ∈ [".inf", ".Inf", ".INF", "+.inf", "+.Inf", "+.INF", "-.inf", "-.Inf", "-.INF",
      ".nan", "NaN", ".NAN"], ScalarStyle.isReal word.toList = true ∨ SpellsNonFinite word := by
    decide +kernel
  exact hall word h

/-- A plain text is read as text, unless it spells a number that the writer does not know. -/
theorem ofPlain_of_plain (h : ofText s.toList = .plain) :
    ofPlain s = .str s ∨ SpellsMarkedInt s ∨ ofPlain s = .real s ∧ SpellsNonFinite s := by
  have hambiguous := (fitsPlain_of_ofText h).2
  simp only [isAmbiguous, Bool.or_eq_false_iff, String.ofList_toList] at hambiguous
  obtain ⟨⟨⟨hword, hint⟩, -⟩, hreal⟩ := hambiguous
  have hwords : ∀ word, isWord word = true → s ≠ word := by
    rintro word hisWord rfl
    simp [hisWord] at hword
  cases hmarked : readMarkedInt s.toList with
  | some i => exact .inr (.inl (by simp [SpellsMarkedInt, hmarked]))
  | none =>
  have hread : readInt64 10 s.toList = none := by
    cases hi : readInt64 10 s.toList with
    | none => rfl
    | some i => simp [isInt_of_readInt64 hi] at hint
  have hplain : ofPlain s = if Node.isReal s then .real s else .str s := by
    simp only [ofPlain, hmarked, hwords "" (by decide), hwords "~" (by decide),
      hwords "null" (by decide), hwords "true" (by decide), hwords "false" (by decide), or_self,
      if_false, hread]
  rw [hplain]
  split
  · next hisReal =>
    refine .inr (.inr ⟨rfl, ?_⟩)
    rcases Bool.or_eq_true_iff.1 hisReal with hmem | hsome
    · refine (isReal_of_word (List.contains_iff_mem.1 hmem)).resolve_left ?_
      simp [hreal]
    · obtain ⟨x, hx⟩ := Option.isSome_iff_exists.1 hsome
      cases hfinite : x.isFinite with
      | true => simp [isReal_of_isFinite hx hfinite] at hreal
      | false => simp [SpellsNonFinite, hx, hfinite]
  · exact .inl rfl

/-! ## Which texts do not come back -/

/-- What ends a line for the writer alone and is printable is a separator. -/
theorem hasSeparator_of_isLineBreak {c : Char} (hc : c ∈ s.toList) (hbreak : isLineBreak c = true)
    (hnl : c ≠ '\n') (hprintable : isPrintable c = true) : HasSeparator s := by
  have hcr : c ≠ '\r' := by
    rintro rfl
    exact absurd hprintable (by decide)
  have hnel : c ≠ '\x85' := by
    rintro rfl
    exact absurd hprintable (by decide)
  simp only [isLineBreak, hnl, hcr, hnel, false_or, decide_eq_true_eq] at hbreak
  rcases hbreak with rfl | rfl
  · exact .inl hc
  · exact .inr hc

theorem exists_of_not_endsLines (cs : List Char) : ∀ seen, endsLines seen cs = false →
    ∃ c ∈ cs, isLineBreak c = true ∧ c ≠ '\n' := by
  induction cs with
  | nil => exact fun _ h => nomatch h
  | cons c cs ih =>
    intro seen h
    rw [endsLines] at h
    split at h
    · obtain ⟨d, hd⟩ := ih false h
      exact ⟨d, List.mem_cons_of_mem c hd.1, hd.2⟩
    · next hnl =>
      split at h
      · next hbreak => exact ⟨c, by simp, hbreak, hnl⟩
      · obtain ⟨d, hd⟩ := ih true h
        exact ⟨d, List.mem_cons_of_mem c hd.1, hd.2⟩

theorem hasSeparator_of_not_returns {plain : Node → Bool} (h : returns plain s = false) :
    HasSeparator s ∨ ofText s.toList = .plain ∧ plain (ofPlain s) = false := by
  rw [returns] at h
  split at h
  · next hstyle => exact .inr ⟨hstyle, h⟩
  · next hstyle =>
    obtain ⟨hfit, hnl⟩ := fitsSingle_of_ofText hstyle
    simp only [fitsSingle, Bool.and_eq_true, List.all_eq_true] at hfit
    obtain ⟨c, hc, hbreak⟩ : ∃ c ∈ s.toList, isLineBreak c = true := by simpa using h
    refine .inl (hasSeparator_of_isLineBreak hc hbreak ?_ (hfit.1.1 c hc))
    rintro rfl
    simp [hc] at hnl
  · next hstyle =>
    have hfit := fitsLiteral_of_ofText hstyle
    simp only [fitsLiteral, Bool.and_eq_true, List.all_eq_true] at hfit
    obtain ⟨c, hc, hbreak, hnl⟩ := exists_of_not_endsLines s.toList false h
    exact .inl (hasSeparator_of_isLineBreak hc hbreak hnl (hfit.1.1.1 c hc))
  all_goals cases h

/-- A text that does not come back has a separator or spells a number. -/
theorem misspelled_of_not_textReturns (h : textReturns s = false) :
    HasSeparator s ∨ SpellsMarkedInt s ∨ SpellsNonFinite s := by
  refine (hasSeparator_of_not_returns h).imp_right fun ⟨hplain, hnot⟩ => ?_
  rcases ofPlain_of_plain hplain with hstr | hmarked | ⟨-, hspells⟩
  · rw [hstr] at hnot
    cases hnot
  · exact .inl hmarked
  · exact .inr hspells

/-- A key that does not come back has a separator or spells a whole number; others keep
their spelling. -/
theorem misspelled_of_not_keyReturns (h : keyReturns s = false) :
    HasSeparator s ∨ SpellsMarkedInt s := by
  refine (hasSeparator_of_not_returns h).imp_right fun ⟨hplain, hnot⟩ => ?_
  rcases ofPlain_of_plain hplain with hstr | hmarked | ⟨hreal, -⟩
  · simp [isKey, hstr, keyText] at hnot
  · exact hmarked
  · simp [isKey, hreal, keyText] at hnot

end WorkspaceTrust.Yaml
