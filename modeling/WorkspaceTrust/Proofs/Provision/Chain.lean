import WorkspaceTrust.Provision.Chain
import WorkspaceTrust.Proofs.Provision.Idempotence

/-!
# Chains of certificate provisioners

The nesting of a chain does not matter: it runs its `leaves` one after
the other, up to the first that fails (`runAll_leaves`). This holds of
provisioners of every kind.

Of certificate provisioners only those count that load something, and of
these only the last. Whether a run fails depends on the descriptor alone
and not on the certificates, and what a successful run leaves is fit for
every later one, which writes over it. So a list of provisioners does
what one run with the certificates of the last does (`runEach_mounts`).
From this come that a chain that fails has changed nothing, although it
takes nothing back, and that a second run changes nothing more.
-/

namespace WorkspaceTrust

namespace Outcome

/-- The same outcome with another view of the provisioner. -/
def map {α β : Type} (f : α → β) (o : Outcome α) : Outcome β :=
  ⟨o.result, f o.provisioner, o.descriptor⟩

@[simp] theorem descriptor_map {α β : Type} (f : α → β) (o : Outcome α) :
    (o.map f).descriptor = o.descriptor := rfl

theorem ext {α : Type} {o o' : Outcome α} (hresult : o.result = o'.result)
    (hprovisioner : o.provisioner = o'.provisioner) (hdescriptor : o.descriptor = o'.descriptor) :
    o = o' := by
  cases o
  cases o'
  simp_all only

end Outcome

/-! ## Leaves -/

namespace ChainItem

variable {α : Type}

mutual

/-- The provisioners of an item, in the order in which they run. -/
def leaves : ChainItem α → List α
  | single p => [p]
  | nested items => leavesAll items

def leavesAll : List (ChainItem α) → List α
  | [] => []
  | item :: items => item.leaves ++ leavesAll items

end

variable [Provisioner α] {fs : FileSystem} {identity : RuntimeIdentity}

/-- Runs provisioners one after the other, up to the first that fails. -/
def runEach (fs : FileSystem) (identity : RuntimeIdentity) :
    List α → Descriptor → Outcome (List α)
  | [], d => ⟨.ok (), [], d⟩
  | p :: ps, d =>
      let first := Provisioner.provision fs identity p d
      match first.result with
      | .error e => ⟨.error e, first.provisioner :: ps, first.descriptor⟩
      | .ok () =>
          let others := runEach fs identity ps first.descriptor
          ⟨others.result, first.provisioner :: others.provisioner, others.descriptor⟩

theorem runEach_append (qs : List α) : ∀ (ps : List α) (d : Descriptor),
    runEach fs identity (ps ++ qs) d =
      let first := runEach fs identity ps d
      match first.result with
      | .error e => ⟨.error e, first.provisioner ++ qs, first.descriptor⟩
      | .ok () =>
          let others := runEach fs identity qs first.descriptor
          ⟨others.result, first.provisioner ++ others.provisioner, others.descriptor⟩
  | [], _ => rfl
  | p :: ps, d => by
      simp only [List.cons_append, runEach]
      cases hp : (Provisioner.provision fs identity p d).result with
      | error e => rfl
      | ok u =>
        simp only [runEach_append qs ps]
        cases (runEach fs identity ps (Provisioner.provision fs identity p d).descriptor).result <;>
          rfl

mutual

theorem run_leaves : ∀ (item : ChainItem α) (d : Descriptor),
    (run fs identity item d).map leaves = runEach fs identity item.leaves d
  | single p, d => by
      simp only [run, leaves, runEach, Outcome.map]
      cases (Provisioner.provision fs identity p d).result <;> rfl
  | nested items, d => by
      rw [leaves, ← runAll_leaves items d]
      rfl

/-- A nested chain does what its leaves do in their order, up to the first that fails. -/
theorem runAll_leaves : ∀ (items : List (ChainItem α)) (d : Descriptor),
    (runAll fs identity items d).map leavesAll = runEach fs identity (leavesAll items) d
  | [], _ => rfl
  | item :: items, d => by
      rw [leavesAll, runEach_append, ← run_leaves item d]
      simp only [runAll, Outcome.map]
      cases (run fs identity item d).result with
      | error e => rfl
      | ok u =>
        simp only [← runAll_leaves items]
        rfl

end

end ChainItem

/-- All provisioners of a chain, in the order in which they run. -/
def Chain.leaves {α : Type} (c : Chain α) : List α := ChainItem.leavesAll c.items

theorem Chain.provision_leaves {α : Type} [Provisioner α] (fs : FileSystem)
    (identity : RuntimeIdentity) (c : Chain α) (d : Descriptor) :
    (Provisioner.provision fs identity c d).map Chain.leaves =
      ChainItem.runEach fs identity c.leaves d :=
  ChainItem.runAll_leaves c.items d

/-! ## Certificate provisioners -/

namespace VcsCertificateProvisioner

open ChainItem

variable {fs : FileSystem} {identity : RuntimeIdentity} {p : VcsCertificateProvisioner}
  {ps : List VcsCertificateProvisioner} {d : Descriptor}

/-- The last provisioner that loads a certificate. -/
def lastEffective? (fs : FileSystem) (ps : List VcsCertificateProvisioner) :
    Option VcsCertificateProvisioner :=
  (ps.filter fun p => !(p.loaded fs).isEmpty).getLast?

theorem loaded_of_lastEffective? (h : lastEffective? fs ps = some p) :
    (p.loaded fs).isEmpty = false := by
  have hp := (List.mem_filter.1 (List.mem_of_getLast? h)).2
  simpa using hp

theorem lastEffective?_cons_of_empty (h : (p.loaded fs).isEmpty = true) :
    lastEffective? fs (p :: ps) = lastEffective? fs ps := by
  simp [lastEffective?, h]

theorem lastEffective?_cons_of_loaded (h : (p.loaded fs).isEmpty = false) :
    lastEffective? fs (p :: ps) = some ((lastEffective? fs ps).getD p) := by
  simp [lastEffective?, h, List.getLast?_cons]

/-- What a run does that mounts these certificates, if there are any. -/
def mount (identity : RuntimeIdentity) (d : Descriptor) :
    Option Certificates → Except ProvisionError Unit × Descriptor
  | none => (.ok (), d)
  | some certificates =>
      match check identity d with
      | .error e => (.error e, d)
      | .ok () => (.ok (), apply identity certificates d)

theorem mount_of_check_error {e : ProvisionError} (h : check identity d = .error e)
    (certificates : Certificates) : mount identity d (some certificates) = (.error e, d) := by
  simp [mount, h]

theorem mount_of_check_ok (h : check identity d = .ok ()) (certificates : Certificates) :
    mount identity d (some certificates) = (.ok (), apply identity certificates d) := by
  simp [mount, h]

/-- Where certificates have been mounted, mounting others is as if they were the first. -/
theorem mount_apply (h : check identity d = .ok ()) (certificates certificates' : Certificates) :
    mount identity (apply identity certificates d) (some certificates') =
      mount identity d (some certificates') := by
  rw [mount_of_check_ok h, mount_of_check_ok (check_apply _ h), apply_apply]

/-- Mounting the same again changes nothing. -/
theorem mount_mount (identity : RuntimeIdentity) (d : Descriptor) (loaded : Option Certificates) :
    mount identity (mount identity d loaded).2 loaded = mount identity d loaded := by
  cases loaded with
  | none => rfl
  | some certificates =>
    cases h : check identity d with
    | error e => rw [mount_of_check_error h, mount_of_check_error h]
    | ok u => rw [mount_of_check_ok h, mount_apply h, mount_of_check_ok h]

theorem descriptor_of_mount_error {loaded : Option Certificates} {e : ProvisionError}
    (h : (mount identity d loaded).1 = .error e) : (mount identity d loaded).2 = d := by
  cases loaded with
  | none => rfl
  | some certificates =>
    cases hcheck : check identity d with
    | error e' => rw [mount_of_check_error hcheck]
    | ok u =>
      rw [mount_of_check_ok hcheck] at h
      cases h

/-- A single run mounts what it has loaded. -/
theorem provision_mounts (h : (p.loaded fs).isEmpty = false) :
    ((provision fs identity p d).result, (provision fs identity p d).descriptor) =
      mount identity d (some (p.loaded fs)) := by
  cases hcheck : check identity d with
  | error e => rw [provision_of_error h hcheck, mount_of_check_error hcheck]
  | ok u => rw [provision_of_ok h hcheck, mount_of_check_ok hcheck]

/-! ### Lists of provisioners -/

theorem runEach_cons_of_empty (h : (p.loaded fs).isEmpty = true) :
    runEach fs identity (p :: ps) d =
      ⟨(runEach fs identity ps d).result, p :: (runEach fs identity ps d).provisioner,
        (runEach fs identity ps d).descriptor⟩ := by
  have hp : Provisioner.provision fs identity p d = ⟨.ok (), p, d⟩ := provision_of_empty h
  rw [runEach, hp]

theorem runEach_cons_of_error {e : ProvisionError} (h : (p.loaded fs).isEmpty = false)
    (hcheck : check identity d = .error e) :
    runEach fs identity (p :: ps) d = ⟨.error e, p.afterLoad fs :: ps, d⟩ := by
  have hp : Provisioner.provision fs identity p d = ⟨.error e, p.afterLoad fs, d⟩ :=
    provision_of_error h hcheck
  rw [runEach, hp]

theorem runEach_cons_of_ok (h : (p.loaded fs).isEmpty = false)
    (hcheck : check identity d = .ok ()) :
    runEach fs identity (p :: ps) d =
      ⟨(runEach fs identity ps (apply identity (p.loaded fs) d)).result,
        p.afterLoad fs :: (runEach fs identity ps (apply identity (p.loaded fs) d)).provisioner,
        (runEach fs identity ps (apply identity (p.loaded fs) d)).descriptor⟩ := by
  have hp : Provisioner.provision fs identity p d =
      ⟨.ok (), p.afterLoad fs, apply identity (p.loaded fs) d⟩ := provision_of_ok h hcheck
  rw [runEach, hp]

/-- A list of provisioners mounts what the last of them loads that loads anything. -/
theorem runEach_mounts (ps : List VcsCertificateProvisioner) : ∀ d : Descriptor,
    ((runEach fs identity ps d).result, (runEach fs identity ps d).descriptor) =
      mount identity d ((lastEffective? fs ps).map (loaded fs)) := by
  induction ps with
  | nil => exact fun d => rfl
  | cons p ps ih =>
    intro d
    cases hload : (p.loaded fs).isEmpty with
    | true =>
      rw [runEach_cons_of_empty hload, lastEffective?_cons_of_empty hload]
      exact ih d
    | false =>
      rw [lastEffective?_cons_of_loaded hload, Option.map_some]
      cases hcheck : check identity d with
      | error e => rw [runEach_cons_of_error hload hcheck, mount_of_check_error hcheck]
      | ok u =>
        rw [runEach_cons_of_ok hload hcheck]
        refine (ih _).trans ?_
        cases lastEffective? fs ps with
        | none => rw [Option.getD_none, mount_of_check_ok hcheck]; rfl
        | some q => exact mount_apply hcheck _ _

/-! ### The second run -/

/-- The provisioners of a list that has run still load what they loaded before. -/
theorem map_loaded_runEach (ps : List VcsCertificateProvisioner) : ∀ d : Descriptor,
    (runEach fs identity ps d).provisioner.map (loaded fs) = ps.map (loaded fs) := by
  induction ps with
  | nil => exact fun d => rfl
  | cons p ps ih =>
    intro d
    cases hload : (p.loaded fs).isEmpty with
    | true => rw [runEach_cons_of_empty hload, List.map_cons, ih, List.map_cons]
    | false =>
      cases hcheck : check identity d with
      | error e =>
        rw [runEach_cons_of_error hload hcheck, List.map_cons, loaded_afterLoad hload,
          List.map_cons]
      | ok u =>
        rw [runEach_cons_of_ok hload hcheck, List.map_cons, loaded_afterLoad hload, ih,
          List.map_cons]

theorem map_loaded_lastEffective? (ps : List VcsCertificateProvisioner) :
    (lastEffective? fs ps).map (loaded fs) =
      ((ps.map (loaded fs)).filter fun certificates => !certificates.isEmpty).getLast? := by
  rw [lastEffective?, List.filter_map, List.getLast?_map]
  rfl

theorem map_loaded_lastEffective?_runEach (ps : List VcsCertificateProvisioner) (d : Descriptor) :
    (lastEffective? fs (runEach fs identity ps d).provisioner).map (loaded fs) =
      (lastEffective? fs ps).map (loaded fs) := by
  rw [map_loaded_lastEffective?, map_loaded_runEach, ← map_loaded_lastEffective?]

theorem check_mount (loaded : Option Certificates) :
    check identity (mount identity d loaded).2 = .ok () ↔ check identity d = .ok () := by
  cases loaded with
  | none => rfl
  | some certificates =>
    cases h : check identity d with
    | error e => rw [mount_of_check_error h, h]
    | ok u =>
      rw [mount_of_check_ok h, check_apply certificates h]

/-- A list that has run runs up to the same provisioner again, and all provisioners up to
there have loaded by then. -/
theorem provisioner_runEach_again (ps : List VcsCertificateProvisioner) : ∀ {d d' : Descriptor},
    (check identity d' = .ok () ↔ check identity d = .ok ()) →
    (runEach fs identity (runEach fs identity ps d).provisioner d').provisioner =
      (runEach fs identity ps d).provisioner := by
  induction ps with
  | nil => exact fun _ => rfl
  | cons p ps ih =>
    intro d d' hagree
    cases hload : (p.loaded fs).isEmpty with
    | true => rw [runEach_cons_of_empty hload, runEach_cons_of_empty hload, ih hagree]
    | false =>
      have hload' : ((p.afterLoad fs).loaded fs).isEmpty = false := by
        rw [loaded_afterLoad hload, hload]
      have hkeep := afterLoad_afterLoad hload fs
      cases hcheck : check identity d with
      | error e =>
        cases hcheck' : check identity d' with
        | error e' =>
          rw [runEach_cons_of_error hload hcheck, runEach_cons_of_error hload' hcheck', hkeep]
        | ok u =>
          rw [hagree.1 hcheck'] at hcheck
          cases hcheck
      | ok u =>
        have hcheck' := hagree.2 hcheck
        have hnext : check identity (apply identity ((p.afterLoad fs).loaded fs) d') = .ok () ↔
            check identity (apply identity (p.loaded fs) d) = .ok () :=
          ⟨fun _ => check_apply _ hcheck, fun _ => check_apply _ hcheck'⟩
        rw [runEach_cons_of_ok hload hcheck, runEach_cons_of_ok hload' hcheck', hkeep, ih hnext]

/-- A list that has run and runs once more has the same outcome. -/
theorem runEach_again (ps : List VcsCertificateProvisioner) (d : Descriptor) :
    runEach fs identity (runEach fs identity ps d).provisioner
      (runEach fs identity ps d).descriptor = runEach fs identity ps d := by
  obtain ⟨first, hfirst⟩ : ∃ first, first = runEach fs identity ps d := ⟨_, rfl⟩
  obtain ⟨loaded?, hloaded⟩ : ∃ l, l = (lastEffective? fs ps).map (loaded fs) := ⟨_, rfl⟩
  have hmounts : (first.result, first.descriptor) = mount identity d loaded? := by
    rw [hfirst, hloaded, runEach_mounts]
  have hdescriptor : first.descriptor = (mount identity d loaded?).2 := congrArg Prod.snd hmounts
  rw [← hfirst]
  have hagain := calc
    ((runEach fs identity first.provisioner first.descriptor).result,
        (runEach fs identity first.provisioner first.descriptor).descriptor)
      = mount identity first.descriptor loaded? := by
        rw [runEach_mounts, hfirst, map_loaded_lastEffective?_runEach, hloaded]
    _ = mount identity d loaded? := by rw [hdescriptor, mount_mount]
    _ = (first.result, first.descriptor) := hmounts.symm
  have hprovisioner : (runEach fs identity first.provisioner first.descriptor).provisioner =
      first.provisioner := by
    rw [hdescriptor, hfirst]
    exact provisioner_runEach_again ps (check_mount loaded?)
  exact Outcome.ext (congrArg Prod.fst hagain) hprovisioner (congrArg Prod.snd hagain)

/-! ### Chains -/

/-- A chain of certificate provisioners, however it is nested, is its last provisioner that
loads a certificate, and without such a one it does nothing. When it fails it has changed
nothing, and when it runs again nothing changes any more. -/
theorem provision_chain (fs : FileSystem) (identity : RuntimeIdentity)
    (c : Chain VcsCertificateProvisioner) (d : Descriptor) :
    let outcome := Provisioner.provision fs identity c d
    let again := Provisioner.provision fs identity outcome.provisioner outcome.descriptor
    (lastEffective? fs c.leaves = none → outcome.result = .ok () ∧ outcome.descriptor = d) ∧
    (∀ p, lastEffective? fs c.leaves = some p →
      outcome.result = (provision fs identity p d).result ∧
      outcome.descriptor = (provision fs identity p d).descriptor) ∧
    (∀ e, outcome.result = .error e → outcome.descriptor = d) ∧
    again.map Chain.leaves = outcome.map Chain.leaves := by
  intro outcome again
  have hflat : outcome.map Chain.leaves = runEach fs identity c.leaves d :=
    Chain.provision_leaves fs identity c d
  have hmounts : (outcome.result, outcome.descriptor) =
      mount identity d ((lastEffective? fs c.leaves).map (loaded fs)) := by
    rw [← runEach_mounts c.leaves d, ← hflat]
    rfl
  refine ⟨fun hnone => ?_, fun p hp => ?_, fun e he => ?_, ?_⟩
  · rw [hnone] at hmounts
    exact Prod.ext_iff.1 hmounts
  · rw [hp, Option.map_some, ← provision_mounts (loaded_of_lastEffective? hp)] at hmounts
    exact Prod.ext_iff.1 hmounts
  · obtain ⟨hresult, hdescriptor⟩ := Prod.ext_iff.1 hmounts
    exact hdescriptor.trans (descriptor_of_mount_error (hresult.symm.trans he))
  · have hleaves : outcome.provisioner.leaves = (runEach fs identity c.leaves d).provisioner :=
      congrArg Outcome.provisioner hflat
    have hdescriptor : outcome.descriptor = (runEach fs identity c.leaves d).descriptor :=
      congrArg Outcome.descriptor hflat
    have hagain : again.map Chain.leaves = runEach fs identity outcome.provisioner.leaves
        outcome.descriptor := Chain.provision_leaves fs identity _ _
    rw [hagain, hleaves, hdescriptor, runEach_again, hflat]

/-- Two directories with one certificate each. -/
def twoStores : FileSystem where
  entries := .ofList [([utf8 "certs"], .directory),
    ([utf8 "certs", utf8 "localhost"], .file (utf8 "certificate")),
    ([utf8 "more"], .directory),
    ([utf8 "more", utf8 "localhost"], .file (utf8 "another"))]
  workingDirectory := []

/-- The last effective provisioner is nested and has others behind it. The chain runs like it
and runs once more without a change; under a bad name of the workspace nothing changes. -/
theorem provision_chain_two_stores :
    let certs := ofRoot (some (.ofString "certs"))
    let more := ofRoot (some (.ofString "more"))
    let missing := ofRoot (some (.ofString "missing"))
    let d := threeContainersDescriptor
    let c : Chain VcsCertificateProvisioner :=
      ⟨[.single certs, .nested [.single (ofRoot none), .nested [.single more], .single missing]]⟩
    let outcome := Provisioner.provision twoStores ⟨"ws", none⟩ c d
    let again := Provisioner.provision twoStores ⟨"ws", none⟩ outcome.provisioner
      outcome.descriptor
    lastEffective? twoStores c.leaves = some more ∧ outcome.result = .ok () ∧
      outcome.descriptor = (provision twoStores ⟨"ws", none⟩ more d).descriptor ∧
      outcome.descriptor ≠ d ∧ again.descriptor = outcome.descriptor ∧
      (Provisioner.provision twoStores ⟨"No name!", none⟩ c d).descriptor = d := by
  intro certs more missing d c outcome again
  have hlast : lastEffective? twoStores c.leaves = some more := by decide +kernel
  obtain ⟨-, heffective, -, hagain⟩ := provision_chain twoStores ⟨"ws", none⟩ c d
  obtain ⟨hresult, hdescriptor⟩ := heffective more hlast
  obtain ⟨-, -, hfailed, -⟩ := provision_chain twoStores ⟨"No name!", none⟩ c d
  have hchanged : (provision twoStores ⟨"ws", none⟩ more d).descriptor ≠ d := by decide +kernel
  have hsame := congrArg Outcome.descriptor hagain
  rw [Outcome.descriptor_map, Outcome.descriptor_map] at hsame
  have hrefused : (Provisioner.provision twoStores ⟨"No name!", none⟩ c d).result =
      .error (.invalidName "No name!-che-git-self-signed-cert" (.invalidCharacter 'N')) := by
    decide +kernel
  exact ⟨hlast, hresult.trans (by decide +kernel), hdescriptor,
    fun hd => hchanged (hdescriptor.symm.trans hd), hsame, hfailed _ hrefused⟩

end VcsCertificateProvisioner

end WorkspaceTrust
