import WorkspaceTrust.Proofs.Provision.Run

/-!
# What a cache answers over time

Any number of callers share a cache, and the files change as they like
meanwhile. Who loads holds the lock until it has its answer, so that the
loads of all callers and the changes of the files come one after the
other: an interleaving of them is a list of `Event`s, and `answers` lists
what the callers are given, each with the files of its moment.

As long as nothing has been found, an answer is what the store holds at
that moment. What is found first is kept and given ever after
(`certificates_of_found`), whatever becomes of the files. `Settles` says
this of a list of answers, and those of a fresh cache do
(`settles_answers`).
-/

namespace WorkspaceTrust.CertificateCache

variable {Caller : Type}

/-- What can happen around a cache: a caller loads, or the files change. -/
inductive Event (Caller : Type) where
  | load (caller : Caller)
  | change (fs : FileSystem)

/-- What a caller was given, and the files at that moment. -/
structure Answer (Caller : Type) where
  caller : Caller
  fs : FileSystem
  certificates : Certificates

/-- The certificates that a store held at the moment of an answer. -/
def Answer.stored (store : TrustStore) (a : Answer Caller) : Certificates :=
  a.fs.readCertificates (store.files a.fs)

/-- The answers to the callers, in the order of their loads. -/
def answers : List (Event Caller) → FileSystem → CertificateCache → List (Answer Caller)
  | [], _, _ => []
  | .load caller :: events, fs, c =>
      ⟨caller, fs, (c.load fs).1⟩ :: answers events fs (c.load fs).2
  | .change fs :: events, _, c => answers events fs c

/-- The answers say what the store holds: nothing at first, and, from the first one on that
has something, always the same as that one. -/
def Settles (store : TrustStore) (as : List (Answer Caller)) : Prop :=
  ∃ before after, as = before ++ after ∧
    (∀ a ∈ before, a.certificates = a.stored store ∧ a.certificates.isEmpty = true) ∧
    ∀ first later, after = first :: later →
      first.certificates = first.stored store ∧ first.certificates.isEmpty = false ∧
        ∀ a ∈ later, a.certificates = first.certificates

theorem Settles.nil {store : TrustStore} : Settles store ([] : List (Answer Caller)) :=
  ⟨[], [], rfl, nofun, nofun⟩

theorem Settles.cons_empty {store : TrustStore} {a : Answer Caller} {as : List (Answer Caller)}
    (h : Settles store as) (hstored : a.certificates = a.stored store)
    (hempty : a.certificates.isEmpty = true) : Settles store (a :: as) := by
  obtain ⟨before, after, rfl, hbefore, hafter⟩ := h
  exact ⟨a :: before, after, rfl, List.forall_mem_cons.2 ⟨⟨hstored, hempty⟩, hbefore⟩, hafter⟩

theorem Settles.of_found {store : TrustStore} {a : Answer Caller} {as : List (Answer Caller)}
    (hstored : a.certificates = a.stored store) (hfound : a.certificates.isEmpty = false)
    (has : ∀ b ∈ as, b.certificates = a.certificates) : Settles store (a :: as) := by
  refine ⟨[], a :: as, rfl, nofun, fun first later heq => ?_⟩
  obtain ⟨rfl, rfl⟩ := List.cons.inj heq
  exact ⟨hstored, hfound, has⟩

/-! ## The answers of a cache -/

/-- What has been found is the answer to every load. -/
theorem certificates_of_found {c : CertificateCache} {certificates : Certificates}
    (h : c.found = some certificates) (events : List (Event Caller)) : ∀ fs : FileSystem,
      ∀ a ∈ answers events fs c, a.certificates = certificates := by
  induction events with
  | nil => exact fun _ => nofun
  | cons event events ih =>
    intro fs
    cases event with
    | change fs' => exact ih fs'
    | load caller =>
      rw [answers, load_of_found h]
      exact List.forall_mem_cons.2 ⟨rfl, ih fs⟩

/-- The answers of a fresh cache settle, whoever loads and whatever becomes of the files. -/
theorem settles_answers (store : TrustStore) (events : List (Event Caller)) :
    ∀ fs : FileSystem, Settles store (answers events fs (ofStore store)) := by
  induction events with
  | nil => exact fun _ => .nil
  | cons event events ih =>
    intro fs
    cases event with
    | change fs' => exact ih fs'
    | load caller =>
      have hstored : ((ofStore store).load fs).1 = fs.readCertificates (store.files fs) :=
        load_fst_of_none rfl
      rw [answers]
      cases hempty : ((ofStore store).load fs).1.isEmpty with
      | true =>
        rw [load_snd_of_empty hempty]
        exact (ih fs).cons_empty hstored hempty
      | false =>
        exact .of_found hstored hempty
          (certificates_of_found (found_load_of_nonempty hempty) events fs)

end WorkspaceTrust.CertificateCache
