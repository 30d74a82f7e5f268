import WorkspaceTrust.Proofs.Result
import WorkspaceTrust.Yaml.Scalar.Printer
import WorkspaceTrust.Yaml.Token

/-!
# Moving over written text

The readers advance a cursor character by character; the writer puts
whole pieces one behind the other. `Cursor.past` joins the two: it is the
cursor behind a piece of text, and where the piece has no line break
(`past_of_line`) or is one (`past_break`) all of its parts are known.

Between two tokens that stand on different lines lies a line break and
the indentation of the second. All that is needed of what follows is
that it `Starts` with something that is seen.
-/

namespace WorkspaceTrust

namespace Yaml

/-- The text ends or starts with a character that is neither white space nor a hash. -/
def Starts (text : List Char) : Prop :=
  ∀ c rest, text = c :: rest → isBlank c = false ∧ c ≠ '\n' ∧ c ≠ '#'

@[simp] theorem isBlank_space : isBlank ' ' = true := rfl

@[simp] theorem length_spaces (n : Nat) : (spaces n).length = n := List.length_replicate

theorem spaces_succ (n : Nat) : spaces (n + 1) = ' ' :: spaces n := rfl

theorem replicate_append_cons {α : Type} (n : Nat) (a : α) (l : List α) :
    List.replicate n a ++ a :: l = a :: (List.replicate n a ++ l) := by
  rw [← List.cons_append, ← List.replicate_succ, List.replicate_succ', List.append_assoc,
    List.singleton_append]

theorem mem_spaces {c : Char} {n : Nat} (h : c ∈ spaces n) : c = ' ' := List.eq_of_mem_replicate h

theorem not_mem_spaces {c : Char} (h : c ≠ ' ') (n : Nat) : c ∉ spaces n :=
  fun hc => h (mem_spaces hc)

theorem takeWhile_spaces {p : Char → Bool} (hp : p ' ' = true) {text : List Char}
    (h : ∀ c rest, text = c :: rest → p c = false) (n : Nat) :
    (spaces n ++ text).takeWhile p = spaces n := by
  rw [List.takeWhile_append_of_pos fun c hc => mem_spaces hc ▸ hp]
  cases text with
  | nil => simp
  | cons c rest => simp [h c rest rfl]

/-- A text is a word, some spaces, and what follows them. -/
theorem exists_word (cs : List Char) : ∃ word n rest, cs = word ++ (spaces n ++ rest) ∧
    ' ' ∉ word ∧ (∀ c tail, rest = c :: tail → c ≠ ' ') ∧ (n = 0 → rest = []) := by
  induction cs with
  | nil => exact ⟨[], 0, [], rfl, by simp, by simp, fun _ => rfl⟩
  | cons c cs ih =>
    obtain ⟨word, n, rest, rfl, hword, hrest, hn⟩ := ih
    by_cases hc : c = ' '
    · subst hc
      cases word with
      | nil => exact ⟨[], n + 1, rest, rfl, by simp, hrest, by simp⟩
      | cons d word =>
        refine ⟨[], 1, _, rfl, by simp, fun e tail h => ?_, by simp⟩
        obtain ⟨rfl, -⟩ := List.cons.inj h
        exact fun he => hword (by simp [he])
    · exact ⟨c :: word, n, rest, rfl, by simp [hword, Ne.symm hc], hrest, hn⟩

namespace Cursor

/-- The cursor behind a text. -/
def past (c : Cursor) (text : List Char) : Cursor := c.advanceBy text.length

@[simp] theorem past_nil (c : Cursor) : c.past [] = c := rfl

theorem past_cons (c : Cursor) (ch : Char) (text : List Char) :
    c.past (ch :: text) = c.advance.past text := rfl

theorem advanceBy_add (m n : Nat) (c : Cursor) :
    c.advanceBy (m + n) = (c.advanceBy m).advanceBy n := by
  induction m generalizing c with
  | zero => simp [advanceBy]
  | succ m ih =>
    rw [Nat.succ_add]
    exact ih c.advance

theorem past_append (c : Cursor) (u v : List Char) : c.past (u ++ v) = (c.past u).past v := by
  rw [past, List.length_append, advanceBy_add]
  rfl

theorem advance_of_break {c : Cursor} {rest : List Char} (h : c.rest = '\n' :: rest) :
    c.advance = ⟨rest, c.index + 1, c.line + 1, 0, true⟩ := by
  simp [advance, h]

theorem advance_of_char {c : Cursor} {ch : Char} {rest : List Char} (h : c.rest = ch :: rest)
    (hch : ch ≠ '\n') :
    c.advance = ⟨rest, c.index + 1, c.line, c.column + 1, c.fresh && isBlank ch⟩ := by
  unfold advance
  split
  · next heq =>
    rw [h] at heq
    cases heq
  · next heq =>
    rw [h] at heq
    exact absurd (List.cons.inj heq).1 hch
  · next heq =>
    rw [h] at heq
    obtain ⟨rfl, rfl⟩ := List.cons.inj heq
    rfl

theorem past_break {c : Cursor} {rest : List Char} (h : c.rest = '\n' :: rest) :
    c.past ['\n'] = ⟨rest, c.index + 1, c.line + 1, 0, true⟩ := by
  rw [past_cons, past_nil, advance_of_break h]

/-- Text without line breaks moves the cursor along its line. -/
theorem past_of_line {text : List Char} : ∀ {c : Cursor} {rest : List Char},
    c.rest = text ++ rest → '\n' ∉ text →
      c.past text = ⟨rest, c.index + text.length, c.line, c.column + text.length,
        c.fresh && text.all isBlank⟩ := by
  induction text with
  | nil =>
    intro c rest h _
    obtain ⟨r, i, l, k, f⟩ := c
    simp only [List.nil_append] at h
    subst h
    simp
  | cons ch text ih =>
    intro c rest h hnl
    have hch : ch ≠ '\n' := fun hch => hnl (by simp [hch])
    have hadv := advance_of_char h hch
    have hrest : c.advance.rest = text ++ rest := by
      rw [hadv]
      rfl
    rw [past_cons, ih hrest fun hm => hnl (by simp [hm]), hadv]
    simp only [List.length_cons, List.all_cons, Bool.and_assoc]
    congr 1 <;> omega

/-- The second cursor is behind a piece of the line of the first. -/
structure Passed (c : Cursor) (piece rest : List Char) (c' : Cursor) : Prop where
  rest : c'.rest = rest
  index : c'.index = c.index + piece.length
  line : c'.line = c.line
  column : c'.column = c.column + piece.length

theorem passed_past {c : Cursor} {piece rest : List Char} (h : c.rest = piece ++ rest)
    (hline : '\n' ∉ piece) : c.Passed piece rest (c.past piece) := by
  rw [past_of_line h hline]
  exact ⟨rfl, rfl, rfl, rfl⟩

/-- Blanks in front of text. -/
theorem past_spaces {c : Cursor} {n : Nat} {rest : List Char} (h : c.rest = spaces n ++ rest) :
    c.past (spaces n) = ⟨rest, c.index + n, c.line, c.column + n, c.fresh⟩ := by
  rw [past_of_line h (not_mem_spaces (by decide) n), length_spaces]
  have hall : (spaces n).all isBlank = true :=
    List.all_eq_true.2 fun c hc => by rw [mem_spaces hc]; rfl
  simp [hall]

theorem skipWhile_spaces {c : Cursor} {p : Char → Bool} (hp : p ' ' = true) {n : Nat}
    {rest : List Char} (h : c.rest = spaces n ++ rest)
    (hrest : ∀ ch tail, rest = ch :: tail → p ch = false) :
    c.skipWhile p = ⟨rest, c.index + n, c.line, c.column + n, c.fresh⟩ := by
  rw [skipWhile, h, takeWhile_spaces hp hrest n, ← past_spaces h, past]

/-- Where content follows, blanks in front of it are skipped. -/
theorem skipToContent_spaces {c : Cursor} {n : Nat} {rest : List Char}
    (h : c.rest = spaces n ++ rest)
    (hrest : ∀ ch tail, rest = ch :: tail → isBlank ch = false ∧ ch ≠ '#') :
    c.skipToContent = .ok (spaces n, ⟨rest, c.index + n, c.line, c.column + n, c.fresh⟩) := by
  have htake := takeWhile_spaces isBlank_space (fun ch tail heq => (hrest ch tail heq).1) n
  have hpeek : rest.head? ≠ some '#' := by
    cases rest with
    | nil => simp
    | cons ch tail => simpa using (hrest ch tail rfl).2
  rw [skipToContent, h, htake, length_spaces]
  have hadv : c.advanceBy n = ⟨rest, c.index + n, c.line, c.column + n, c.fresh⟩ := by
    rw [← past_spaces h, past, length_spaces]
  simp only [hadv, peek, if_neg hpeek]

/-- What is no marker can be seen from the second character. -/
theorem atDocumentMarker_of_second {c : Cursor} {a b : Char} {tail : List Char}
    (h : c.rest = a :: b :: tail) (hb : b ≠ '-' ∧ b ≠ '.') : c.atDocumentMarker = false := by
  rw [atDocumentMarker, atMarker, atMarker, h]
  cases tail <;> simp [hb]

theorem atDocumentMarker_of_first {c : Cursor} {a : Char} {tail : List Char}
    (h : c.rest = a :: tail) (ha : a ≠ '-' ∧ a ≠ '.') : c.atDocumentMarker = false := by
  rw [atDocumentMarker, atMarker, atMarker, h]
  cases tail with
  | nil => simp
  | cons b tail => cases tail <;> simp [ha]

/-- Where content stands, nothing is skipped. -/
theorem skipToContent_of_content {c : Cursor}
    (h : ∀ ch tail, c.rest = ch :: tail → isBlank ch = false ∧ ch ≠ '#') :
    c.skipToContent = .ok ([], c) :=
  skipToContent_spaces (n := 0) rfl h

end Cursor

end Yaml

end WorkspaceTrust
