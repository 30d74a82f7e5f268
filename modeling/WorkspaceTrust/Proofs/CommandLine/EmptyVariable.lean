import WorkspaceTrust.CommandLine.Run
import WorkspaceTrust.Proofs.Result

/-!
# An empty variable

Behind the command line an empty path of the trust store is the same as
none (`Command.run_withCertsPath_empty`). A command line takes the path
from the environment where it does not give one itself, and there the
value is read like that of an option, which must not be empty.

So the variable counts or it does not: `Overruled` compares what is read
without it and with it empty. If it counts, the empty value is the error,
and no path was given; otherwise both are the same. This holds of a
command behind its name (`overruled_readCommand`), and what is read in
front of that name does not change it (`overruled_readWords`).
`empty_variable` draws the conclusion for whole command lines: of those
that are accepted without the variable, every one that gives no path is
refused with it empty.
-/

namespace WorkspaceTrust

variable {words : List String} {α : Type}

/-! ## Commands -/

namespace Command

/-- The path of the trust store that the command is given. -/
def certsPath? : Command → Option Path
  | .provision a => a.certsPath
  | .gitConfig certsPath => certsPath

def withCertsPath (certsPath : Option Path) : Command → Command
  | .provision a => .provision { a with certsPath := certsPath }
  | .gitConfig _ => .gitConfig certsPath

/-- Running a command with an empty path of the trust store is running it without one. -/
theorem run_withCertsPath_empty (w : Surroundings) (command : Command) :
    run w (command.withCertsPath (some (.ofString ""))) = run w (command.withCertsPath none) := by
  have hprovisioner : VcsCertificateConfig.provisioner ⟨some (.ofString "")⟩ =
      VcsCertificateConfig.provisioner ⟨none⟩ := rfl
  cases command with
  | provision a => simp only [withCertsPath, run, runProvision, provisioners, hprovisioner]
  | gitConfig path => simp only [withCertsPath, run, runGitConfig, hprovisioner]

end Command

namespace Invocation

/-! ## The variable -/

/-- What is read without the variable, and with the variable empty: the empty value is the error
where no path was given, and where one was, or nothing is accepted, it is not looked at. -/
def Overruled (path? : α → Option Path) (unset empty : Except UsageError α) : Prop :=
  (empty = .error .invalidValue ∧ ∀ a, unset = .ok a → path? a = none) ∨
    (empty = unset ∧ ∀ a, unset = .ok a → (path? a).isSome = true)

theorem overruled_error (path? : α → Option Path) (e : UsageError) :
    Overruled path? (.error e) (.error e) :=
  .inr ⟨rfl, nofun⟩

variable {β : Type} {path? : α → Option Path} {path'? : β → Option Path}
  {unset empty : Except UsageError α}

/-- What is done with a result that is accepted, and may still fail, keeps the comparison. -/
theorem Overruled.bind (h : Overruled path? unset empty) {f : α → Except UsageError β}
    (hf : ∀ a b, f a = .ok b → path'? b = path? a) :
    Overruled path'? (unset >>= f) (empty >>= f) := by
  have hkept : ∀ b, (unset >>= f) = .ok b → ∃ a, unset = .ok a ∧ path'? b = path? a := by
    intro b hb
    obtain ⟨a, ha, hfa⟩ := bind_eq_ok.1 hb
    exact ⟨a, ha, hf a b hfa⟩
  obtain ⟨rfl, hnone⟩ | ⟨rfl, hsome⟩ := h
  · refine .inl ⟨rfl, fun b hb => ?_⟩
    obtain ⟨a, ha, hpath⟩ := hkept b hb
    rw [hpath, hnone a ha]
  · refine .inr ⟨rfl, fun b hb => ?_⟩
    obtain ⟨a, ha, hpath⟩ := hkept b hb
    rw [hpath, hsome a ha]

/-- The variable is looked at for settings without a path, and its empty value is refused. -/
theorem overruled_withVariable (s : Settings) :
    Overruled Settings.certsPath (withVariable none s) (withVariable (some "") s) := by
  cases hpath : s.certsPath with
  | none =>
    have hunset : withVariable none s = .ok s := by simp [withVariable, hpath]
    have hempty : withVariable (some "") s = .error .invalidValue := by
      simp [withVariable, hpath, Settings.give, Settings.once, Settings.readPath, Except.map]
    rw [hunset, hempty]
    exact .inl ⟨rfl, fun a ha => Except.ok.inj ha ▸ hpath⟩
  | some path =>
    have hgiven : ∀ value, withVariable value s = .ok s := by simp [withVariable, hpath]
    rw [hgiven, hgiven]
    refine .inr ⟨rfl, fun a ha => ?_⟩
    cases ha
    rw [hpath]
    rfl

/-! ## Command lines -/

theorem overruled_readCommand (l : Level) (words : List String) :
    Overruled (fun c => c.2.certsPath?) (readCommand none l words)
      (readCommand (some "") l words) := by
  cases hs : readSettings l words .start with
  | error e =>
    simp only [readCommand, hs]
    exact overruled_error _ e
  | ok s =>
    simp only [readCommand, hs, ok_bind]
    refine (overruled_withVariable s).bind fun s c hc => ?_
    -- missing options end the command behind the variable, and none of them is the path
    cases l with
    | provision =>
      obtain ⟨descriptor, -, hc⟩ := bind_eq_ok.1 hc
      obtain ⟨workspaceId, -, hc⟩ := bind_eq_ok.1 hc
      cases hc
      rfl
    | gitConfig | program =>
      cases hc
      rfl

theorem withoutCommand_ne_ok (r : Reading) (i : Invocation) : withoutCommand r ≠ .ok i := by
  intro h
  obtain ⟨s, -, hs⟩ := bind_eq_ok.1 h
  cases hs

theorem overruled_readWords (words : List String) : ∀ r : Reading,
    Overruled (fun i => i.command.certsPath?) (readWords none words r)
      (readWords (some "") words r) := by
  have hrefused : ∀ r, Overruled (fun i : Invocation => i.command.certsPath?)
      (withoutCommand r) (withoutCommand r) :=
    fun r => .inr ⟨rfl, fun i hi => absurd hi (withoutCommand_ne_ok r i)⟩
  -- the options of the program itself are read the same with either value, so the reading so far
  -- is arbitrary, and only the name of a command leads to the variable
  induction words with
  | nil => exact hrefused
  | cons word words ih =>
    intro r
    simp only [readWords]
    split
    · cases words with
      | nil => exact hrefused r
      | cons next words => exact overruled_error _ _
    split
    · exact overruled_error _ _
    split
    · next l _ =>
      refine (overruled_readCommand l words).bind fun c i hi => ?_
      obtain ⟨s, -, hs⟩ := bind_eq_ok.1 hi
      cases hs
      rfl
    · cases hr : readWord .program word r with
      | error e => exact overruled_error _ e
      | ok r' => exact ih r'

/-- A command line that is accepted without the variable and gives no path of the trust store is
refused if the variable is empty; if it gives one it means the same. What is not accepted
without the variable fails in the same way, or for the empty value. An empty path that gets past
the command line would be no trust store. -/
theorem empty_variable (words : List String) (w : Surroundings) :
    let unset := ofWords none words
    let empty := ofWords (some "") words
    (∀ i, unset = .ok i → i.command.certsPath? = none → empty = .error .invalidValue) ∧
    (∀ i path, unset = .ok i → i.command.certsPath? = some path → empty = .ok i) ∧
    (∀ e, unset = .error e → empty = .error e ∨ empty = .error .invalidValue) ∧
    ∀ command : Command, (command.withCertsPath (some (.ofString ""))).run w =
      (command.withCertsPath none).run w := by
  intro unset empty
  have hoverruled : Overruled (fun i => i.command.certsPath?) unset empty :=
    overruled_readWords words .start
  refine ⟨fun i hi hnone => ?_, fun i path hi hpath => ?_, fun e he => ?_,
    Command.run_withCertsPath_empty w⟩
  · obtain ⟨hempty, -⟩ | ⟨-, hsome⟩ := hoverruled
    · exact hempty
    · have := hsome i hi
      simp [hnone] at this
  · obtain ⟨-, hnone⟩ | ⟨hsame, -⟩ := hoverruled
    · have := hnone i hi
      simp [hpath] at this
    · exact hsame.trans hi
  · obtain ⟨hempty, -⟩ | ⟨hsame, -⟩ := hoverruled
    · exact .inr hempty
    · exact .inl (hsame.trans he)

/-- What a command line leaves when it is run. -/
def outcome (certsVariable : Option String) (words : List String) (w : Surroundings) : Printed :=
  match ofWords certsVariable words with
  | .ok i => Command.printed (i.command.run w)
  | .error e => ⟨if e.exitCode = 0 then e.message else "", e.exitCode⟩

/-- The settings for no trust store are printed without the variable, and not with it empty. -/
theorem outcome_of_empty_variable :
    let w : Surroundings := ⟨⟨.empty, []⟩, []⟩
    outcome none ["git-config"] w = ⟨"", 0⟩ ∧ outcome (some "") ["git-config"] w = ⟨"", 2⟩ :=
  ⟨rfl, rfl⟩

end Invocation

end WorkspaceTrust
