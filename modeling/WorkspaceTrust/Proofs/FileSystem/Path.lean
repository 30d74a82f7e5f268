import WorkspaceTrust.FileSystem.Path

/-!
# Paths below a path

The name of an entry is `Proper`: it is not empty and has no slash in it.
A path that is joined with such a name has one name and one component
more, whether or not there was a slash at its end (`names_join`,
`components_join`). `Path.below` joins several names one after the other,
and paths below the same path are ordered as the names are that come
after it (`before_components_below`).
-/

namespace WorkspaceTrust

/-- A name that an entry of a directory can have. -/
structure FileName.Proper (name : FileName) : Prop where
  ne_nil : name ≠ []
  no_slash : Path.slash ∉ name

instance (name : FileName) : Decidable name.Proper :=
  decidable_of_iff (name ≠ [] ∧ Path.slash ∉ name)
    ⟨fun h => ⟨h.1, h.2⟩, fun h => ⟨h.ne_nil, h.no_slash⟩⟩

namespace Path

variable {p : Path} {name : FileName}

/-! ## Pieces -/

theorem pieces_ne_nil : ∀ bs : List UInt8, pieces bs ≠ []
  | [] => List.cons_ne_nil _ _
  | b :: bs => by
      rw [pieces]
      split
      · exact List.cons_ne_nil _ _
      · split <;> exact List.cons_ne_nil _ _

theorem pieces_cons_of_ne {b : UInt8} (hb : b ≠ slash) {bs : List UInt8} {first : FileName}
    {others : List FileName} (h : pieces bs = first :: others) :
    pieces (b :: bs) = (b :: first) :: others := by
  rw [pieces, if_neg hb, h]

/-- A slash ends a piece. -/
theorem pieces_append_slash (cs : List UInt8) : ∀ bs : List UInt8,
    pieces (bs ++ slash :: cs) = pieces bs ++ pieces cs
  | [] => if_pos rfl
  | b :: bs => by
      have ih := pieces_append_slash cs bs
      rw [List.cons_append]
      by_cases hb : b = slash
      · rw [pieces, if_pos hb, ih, pieces, if_pos hb, List.cons_append]
      · obtain ⟨first, others, hbs⟩ := List.exists_cons_of_ne_nil (pieces_ne_nil bs)
        rw [hbs, List.cons_append] at ih
        rw [pieces_cons_of_ne hb ih, pieces_cons_of_ne hb hbs, List.cons_append]

theorem pieces_of_no_slash : ∀ {bs : List UInt8}, slash ∉ bs → pieces bs = [bs]
  | [], _ => rfl
  | b :: bs, h => by
      have ih := pieces_of_no_slash fun hbs => h (List.mem_cons_of_mem b hbs)
      exact pieces_cons_of_ne (fun hb => h (hb ▸ List.mem_cons_self ..)) ih

theorem no_slash_of_mem_pieces : ∀ {bs : List UInt8}, ∀ piece ∈ pieces bs, slash ∉ piece
  | [], piece, h => by
      rw [List.mem_singleton.1 h]
      exact List.not_mem_nil
  | b :: bs, piece, h => by
      have ih := @no_slash_of_mem_pieces bs
      by_cases hb : b = slash
      · rw [pieces, if_pos hb] at h
        rcases List.mem_cons.1 h with rfl | h
        · exact List.not_mem_nil
        · exact ih piece h
      · obtain ⟨first, others, hbs⟩ := List.exists_cons_of_ne_nil (pieces_ne_nil bs)
        rw [pieces_cons_of_ne hb hbs] at h
        rw [hbs] at ih
        rcases List.mem_cons.1 h with rfl | h
        · intro hmem
          rcases List.mem_cons.1 hmem with heq | hmem
          · exact hb heq.symm
          · exact ih first (List.mem_cons_self ..) hmem
        · exact ih piece (List.mem_cons_of_mem _ h)

/-! ## Names -/

/-- The names in a path are names that entries can have. -/
theorem proper_of_mem_names (h : name ∈ p.names) : name.Proper := by
  obtain ⟨hpiece, hne⟩ := List.mem_filter.1 h
  exact ⟨by simpa using hne, no_slash_of_mem_pieces name hpiece⟩

theorem getLast?_ne_slash (h : name.Proper) : name.getLast? ≠ some slash :=
  fun hlast => h.no_slash (List.mem_of_getLast? hlast)

theorem pieces_proper (h : name.Proper) :
    (pieces name).filter (fun piece => !piece.isEmpty) = [name] := by
  rw [pieces_of_no_slash h.no_slash]
  have hne : name.isEmpty = false := by simpa using h.ne_nil
  simp [hne]

/-- The bytes of a path that is joined with a name: the path, what comes between, the name. -/
theorem bytes_join (p : Path) (name : FileName) :
    (p.bytes = [] ∧ (p.join name).bytes = name) ∨
    (∃ bs, p.bytes = bs ++ [slash] ∧ (p.join name).bytes = bs ++ slash :: name) ∨
    (p.bytes ≠ [] ∧ (p.join name).bytes = p.bytes ++ slash :: name) := by
  by_cases hempty : p.bytes = []
  · exact .inl ⟨hempty, by simp [join, isEmpty, hempty]⟩
  by_cases hslash : p.endsInSlash = true
  · have hlast : p.bytes.getLast? = some slash := of_decide_eq_true hslash
    obtain ⟨bs, hbs⟩ := List.getLast?_eq_some_iff.1 hlast
    exact .inr (.inl ⟨bs, hbs, by simp [join, hslash, hbs]⟩)
  · exact .inr (.inr ⟨hempty, by simp [join, isEmpty, hempty, hslash]⟩)

@[simp] theorem names_join (h : name.Proper) : (p.join name).names = p.names ++ [name] := by
  have hname := pieces_proper h
  rcases bytes_join p name with ⟨hp, hjoin⟩ | ⟨bs, hp, hjoin⟩ | ⟨-, hjoin⟩
  · rw [names, hjoin, hname, names, hp]
    rfl
  · rw [names, hjoin, names, hp, pieces_append_slash, pieces_append_slash, List.filter_append,
      List.filter_append, hname]
    simp [pieces]
  · rw [names, hjoin, names, pieces_append_slash, List.filter_append, hname]

@[simp] theorem isAbsolute_join (h : name.Proper) : (p.join name).isAbsolute = p.isAbsolute := by
  rcases bytes_join p name with ⟨hp, hjoin⟩ | ⟨bs, hp, hjoin⟩ | ⟨hne, hjoin⟩
  · have hhead : name.head? ≠ some slash := fun hhead => h.no_slash (List.mem_of_head? hhead)
    simp [isAbsolute, hjoin, hp, hhead]
  · cases bs <;> simp [isAbsolute, hjoin, hp]
  · obtain ⟨b, bs, hbs⟩ := List.exists_cons_of_ne_nil hne
    simp [isAbsolute, hjoin, hbs]

theorem getLast?_join (h : name.Proper) : (p.join name).bytes.getLast? = name.getLast? := by
  obtain ⟨c, hc⟩ : ∃ c, name.getLast? = some c := by
    cases hlast : name.getLast? with
    | none => exact absurd (List.getLast?_eq_none_iff.1 hlast) h.ne_nil
    | some c => exact ⟨c, rfl⟩
  rw [join, List.getLast?_append, hc]
  rfl

@[simp] theorem steps_join (h : name.Proper) : (p.join name).steps = p.names ++ [name] := by
  have hend : (p.join name).endsInSlash = false := by
    rw [endsInSlash, getLast?_join h]
    simpa using getLast?_ne_slash h
  simp [steps, hend, h]

/-- A name other than a point is one component more. -/
theorem components_join (h : name.Proper) (hhere : name ≠ here) :
    (p.join name).components = p.components ++ [name] := by
  rw [components, names_join h, isAbsolute_join h, components]
  cases p.names with
  | nil => simp [hhere]
  | cons first others => simp [hhere]

/-- What an entry is called is the last name of its path. -/
theorem fileName?_join (h : name.Proper) (hhere : name ≠ here) (hup : name ≠ up) :
    (p.join name).fileName? = some name := by
  rw [fileName?, components_join h hhere, List.getLast?_concat]
  exact if_neg (not_or.2 ⟨hhere, hup⟩)

/-! ## Several names -/

/-- The path of what is below a path, through directories of these names. -/
def below (p : Path) (names : List FileName) : Path := names.foldl join p

@[simp] theorem below_nil (p : Path) : p.below [] = p := rfl

theorem below_cons (p : Path) (name : FileName) (names : List FileName) :
    p.below (name :: names) = (p.join name).below names := rfl

@[simp] theorem below_concat (p : Path) (names : List FileName) (name : FileName) :
    p.below (names ++ [name]) = (p.below names).join name :=
  List.foldl_append

theorem components_below {ns : List FileName} (h : ∀ name ∈ ns, name.Proper ∧ name ≠ here) :
    ∀ {p : Path}, (p.below ns).components = p.components ++ ns := by
  induction ns with
  | nil => simp
  | cons name ns ih =>
    intro p
    obtain ⟨hname, hhere⟩ := h name (List.mem_cons_self ..)
    rw [below_cons, ih fun n hn => h n (List.mem_cons_of_mem _ hn), components_join hname hhere,
      List.append_assoc]
    rfl

theorem lexBefore_append_left {κ : Type} [KeyOrder κ] {as bs : List κ} :
    ∀ cs : List κ, KeyOrder.lexBefore (cs ++ as) (cs ++ bs) = KeyOrder.lexBefore as bs
  | [] => rfl
  | c :: cs => by
      simp only [List.cons_append, KeyOrder.lexBefore, KeyOrder.irrefl, Bool.false_eq_true, if_false]
      exact lexBefore_append_left cs

/-- Of two paths below the same path the first name that differs decides. -/
theorem before_components_below {n m : FileName} {ns ms : List FileName}
    (hns : ∀ name ∈ n :: ns, name.Proper ∧ name ≠ here)
    (hms : ∀ name ∈ m :: ms, name.Proper ∧ name ≠ here) (h : KeyOrder.before n m = true) :
    KeyOrder.before (p.below (n :: ns)).components (p.below (m :: ms)).components = true := by
  rw [components_below hns, components_below hms]
  refine (lexBefore_append_left _).trans ?_
  rw [KeyOrder.lexBefore, if_pos h]

end Path

end WorkspaceTrust
