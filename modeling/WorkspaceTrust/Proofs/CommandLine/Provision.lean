import WorkspaceTrust.CommandLine.Run
import WorkspaceTrust.Proofs.Provision.Run
import WorkspaceTrust.Proofs.Result
import WorkspaceTrust.Proofs.TrustStore.Visible

/-!
# The provision command

The command reads a text, loads a descriptor from it, runs its chain and
prints the result, and each of these can end it. `run_cases` says
how it ends for each of the four: it prints only what the whole chain has
left, and whatever happens before that leaves nothing on the output.

Where the text cannot be read or is no descriptor, it does not matter what
should be provisioned. Where there is nothing to mount, for one of the
reasons of `WithoutCertificates`, the name of the workspace is not even
looked at, and the descriptor is printed as it was loaded
(`run_provision_all_or_nothing`).
-/

namespace WorkspaceTrust

/-! ## Nothing to mount -/

/-- There is nothing to mount: no trust store is given, or it is missing, or none of its files
has a name and a content that are text. -/
inductive WithoutCertificates (fs : FileSystem) : Option Path → Prop
  | unset : WithoutCertificates fs none
  | missing {root : Path} {fault : FileSystem.Fault} (h : fs.locate root = .error fault) :
      WithoutCertificates fs (some root)
  | unreadable {root : Path} (h : ∀ file ∈ fs.filesBelow root,
      file.fileName?.bind textOfBytes = none ∨ ∃ fault, fs.readText file = .error fault) :
      WithoutCertificates fs (some root)

namespace FileSystem

variable {fs : FileSystem}

theorem readCertificate_eq_none {file : Path} (h : file.fileName?.bind textOfBytes = none ∨
    ∃ fault, fs.readText file = .error fault) : fs.readCertificate file = none := by
  rcases h with hname | ⟨fault, hcontent⟩
  · simp [readCertificate, hname]
  · simp [readCertificate, hcontent, Except.toOption]

theorem readCertificates_eq_empty {files : List Path}
    (h : ∀ file ∈ files, fs.readCertificate file = none) :
    (fs.readCertificates files).isEmpty = true := by
  rw [readCertificates, List.filterMap_eq_nil_iff.2 h]
  rfl

end FileSystem

namespace VcsCertificateConfig

variable {fs : FileSystem}

theorem loaded_provisioner_of_isEmpty {root : Path} (h : root.isEmpty = true) :
    ((provisioner ⟨some root⟩).loaded fs).isEmpty = true := by
  have hnone : (⟨some root⟩ : VcsCertificateConfig).storePath? = none := by
    simp [storePath?, Option.filter, h]
  rw [provisioner, hnone]
  rfl

theorem loaded_provisioner {root : Path} (h : root.isEmpty = false) :
    (provisioner ⟨some root⟩).loaded fs = fs.readCertificates (fs.filesBelow root) := by
  have hroot : provisioner ⟨some root⟩ = ⟨.ofStore ⟨some root⟩⟩ := by
    simp [provisioner, storePath?, VcsCertificateProvisioner.ofRoot, TrustStore.ofRoot,
      Option.filter, h]
  rw [hroot]
  exact CertificateCache.load_fst_of_none rfl

/-- Without certificates the provisioner loads none. -/
theorem loaded_eq_empty {certsPath : Option Path} (h : WithoutCertificates fs certsPath) :
    ((provisioner ⟨certsPath⟩).loaded fs).isEmpty = true := by
  have hfiles : ∀ root, (∀ file ∈ fs.filesBelow root, fs.readCertificate file = none) →
      ((provisioner ⟨some root⟩).loaded fs).isEmpty = true := by
    intro root hnone
    cases hroot : root.isEmpty with
    | true => exact loaded_provisioner_of_isEmpty hroot
    | false =>
      rw [loaded_provisioner hroot]
      exact FileSystem.readCertificates_eq_empty hnone
  cases h with
  | unset => rfl
  | missing hlocate =>
    refine hfiles _ fun file hfile => ?_
    rw [FileSystem.filesBelow_of_error hlocate] at hfile
    cases hfile
  | unreadable hunreadable =>
    exact hfiles _ fun file hfile => FileSystem.readCertificate_eq_none (hunreadable file hfile)

end VcsCertificateConfig

namespace Command

variable {w : Surroundings} {a : ProvisionArguments}

/-- What the chain of the command does to a descriptor. -/
def chainOutcome (w : Surroundings) (a : ProvisionArguments) (d : Descriptor) :
    Outcome (Chain VcsCertificateProvisioner) :=
  Provisioner.provision w.files ⟨a.workspaceId, a.space⟩ (provisioners a.certsPath) d

/-- The chain does what its one provisioner does. -/
theorem chainOutcome_eq {result : Except ProvisionError Unit} {p : VcsCertificateProvisioner}
    {d d' : Descriptor} (h : VcsCertificateProvisioner.provision w.files ⟨a.workspaceId, a.space⟩
      (VcsCertificateConfig.provisioner ⟨a.certsPath⟩) d = ⟨result, p, d'⟩) :
    (chainOutcome w a d).result = result ∧ (chainOutcome w a d).descriptor = d' := by
  simp only [chainOutcome, provisioners, Provisioner.provision, ChainItem.runAll, ChainItem.run, h]
  cases result <;> exact ⟨rfl, rfl⟩

/-- Without certificates the chain succeeds and leaves the descriptor as it is. -/
theorem chainOutcome_of_withoutCertificates (h : WithoutCertificates w.files a.certsPath)
    (d : Descriptor) :
    (chainOutcome w a d).result = .ok () ∧ (chainOutcome w a d).descriptor = d :=
  chainOutcome_eq (VcsCertificateProvisioner.provision_of_empty
    (VcsCertificateConfig.loaded_eq_empty h))

/-! ## The command -/

/-- Why the command fails, and with which error: the first of four steps that cannot be taken.
Nothing but the last depends on what should be provisioned. -/
inductive Fails (w : Surroundings) (a : ProvisionArguments) : CommandError → Prop
  | input {fault : FileSystem.Fault} (hpath : isStandardInput a.descriptor = true)
      (h : FileSystem.decodeText w.standardInput = .error fault) : Fails w a (.input fault)
  | unreadable {fault : FileSystem.Fault} (hpath : isStandardInput a.descriptor = false)
      (h : w.files.readText a.descriptor = .error fault) :
      Fails w a (.descriptor a.descriptor (.unreadable a.descriptor fault))
  | rejected {text : String} {cause : LoadError} (hread : readDescriptor w a.descriptor = .ok text)
      (h : Descriptor.load text = .error cause) :
      Fails w a (.descriptor a.descriptor (.rejected cause))
  | provisioning {text : String} {d : Descriptor} {cause : ProvisionError}
      (hread : readDescriptor w a.descriptor = .ok text) (hload : Descriptor.load text = .ok d)
      (h : (chainOutcome w a d).result = .error cause) : Fails w a (.provisioning cause)

variable {text : String} {d : Descriptor} {e : CommandError}

theorem fails_of_readDescriptor (h : readDescriptor w a.descriptor = .error e) : Fails w a e := by
  rw [readDescriptor] at h
  split at h
  · next hpath =>
    cases hdecode : FileSystem.decodeText w.standardInput with
    | ok text => simp [hdecode, Except.mapError] at h
    | error fault =>
      rw [hdecode] at h
      cases h
      exact .input hpath hdecode
  · next hpath =>
    cases hfile : w.files.readText a.descriptor with
    | ok text => simp [hfile, Except.mapError] at h
    | error fault =>
      rw [hfile] at h
      cases h
      exact .unreadable (by simpa using hpath) hfile

theorem run_of_readDescriptor (h : readDescriptor w a.descriptor = .error e) :
    run w (.provision a) = .error e := by
  rw [run, runProvision, h]
  rfl

theorem run_of_rejected {cause : LoadError} (hread : readDescriptor w a.descriptor = .ok text)
    (h : Descriptor.load text = .error cause) :
    run w (.provision a) = .error (.descriptor a.descriptor (.rejected cause)) := by
  rw [run, runProvision, hread, ok_bind, h]
  rfl

/-- Once a descriptor has been loaded the command does what its chain does. -/
theorem run_of_loaded (hread : readDescriptor w a.descriptor = .ok text)
    (hload : Descriptor.load text = .ok d) :
    run w (.provision a) = match (chainOutcome w a d).result with
      | .error cause => .error (.provisioning cause)
      | .ok () => .ok ((chainOutcome w a d).descriptor.render a.output) := by
  rw [run, runProvision, hread, ok_bind, hload, mapError_eq_ok.2 rfl, ok_bind, provisioned]
  unfold chainOutcome
  cases (Provisioner.provision w.files ⟨a.workspaceId, a.space⟩ (provisioners a.certsPath) d).result
    <;> rfl

/-- The command fails with the error of the first step that fails. -/
theorem run_of_fails (h : Fails w a e) : run w (.provision a) = .error e := by
  cases h with
  | input hpath h =>
    refine run_of_readDescriptor ?_
    rw [readDescriptor, if_pos hpath, h]
    rfl
  | unreadable hpath h =>
    refine run_of_readDescriptor ?_
    rw [readDescriptor, if_neg (by simp [hpath]), h]
    rfl
  | rejected hread h => exact run_of_rejected hread h
  | provisioning hread hload h => rw [run_of_loaded hread hload, h]

/-- Either a step fails, or all succeed and the command prints what the chain has left. -/
theorem run_cases (w : Surroundings) (a : ProvisionArguments) :
    (∃ e, Fails w a e ∧ run w (.provision a) = .error e) ∨
      ∃ text d, readDescriptor w a.descriptor = .ok text ∧ Descriptor.load text = .ok d ∧
        (chainOutcome w a d).result = .ok () ∧
        run w (.provision a) = .ok ((chainOutcome w a d).descriptor.render a.output) := by
  have hfails : ∀ e, Fails w a e → ∃ e, Fails w a e ∧ run w (.provision a) = .error e :=
    fun e he => ⟨e, he, run_of_fails he⟩
  cases hread : readDescriptor w a.descriptor with
  | error e => exact .inl (hfails e (fails_of_readDescriptor hread))
  | ok text =>
    cases hload : Descriptor.load text with
    | error cause => exact .inl (hfails _ (.rejected hread hload))
    | ok d =>
      cases hchain : (chainOutcome w a d).result with
      | error cause => exact .inl (hfails _ (.provisioning hread hload hchain))
      | ok u => exact .inr ⟨text, d, rfl, hload, hchain, by rw [run_of_loaded hread hload, hchain]⟩

/-- The command prints all that its chain has made of the descriptor, or it fails and prints
nothing. A descriptor that cannot be read or is rejected is reported as such whatever should
be provisioned from whatever trust store. Without certificates, every descriptor is printed as
it was loaded, whatever the workspace is called. -/
theorem run_provision_all_or_nothing (w : Surroundings) (a : ProvisionArguments) :
    let result := run w (.provision a)
    let left := printed result
    ((∃ e, Fails w a e ∧ result = .error e ∧ left.output = "" ∧ left.exitCode ≠ 0) ∨
      ∃ text d, readDescriptor w a.descriptor = .ok text ∧ Descriptor.load text = .ok d ∧
        let outcome := Provisioner.provision w.files ⟨a.workspaceId, a.space⟩
          (provisioners a.certsPath) d
        outcome.result = .ok () ∧ left.output = outcome.descriptor.render a.output ∧
          left.exitCode = 0)
    ∧ (∀ fault, isStandardInput a.descriptor = true →
        FileSystem.decodeText w.standardInput = .error fault → result = .error (.input fault))
    ∧ (∀ fault, isStandardInput a.descriptor = false →
        w.files.readText a.descriptor = .error fault →
        result = .error (.descriptor a.descriptor (.unreadable a.descriptor fault)))
    ∧ (∀ text cause, readDescriptor w a.descriptor = .ok text →
        Descriptor.load text = .error cause →
        result = .error (.descriptor a.descriptor (.rejected cause)))
    ∧ (WithoutCertificates w.files a.certsPath → ∀ text d,
        readDescriptor w a.descriptor = .ok text → Descriptor.load text = .ok d →
        left.output = d.render a.output ∧ left.exitCode = 0) := by
  intro result left
  refine ⟨?_, fun fault hpath h => run_of_fails (.input hpath h),
    fun fault hpath h => run_of_fails (.unreadable hpath h),
    fun text cause hread h => run_of_fails (.rejected hread h), fun hnone text d hread hload => ?_⟩
  · rcases run_cases w a with ⟨e, hfails, hresult⟩ | ⟨text, d, hread, hload, hchain, hresult⟩
    · have hleft : left = printed (.error e) := congrArg printed hresult
      exact .inl ⟨e, hfails, hresult, by rw [hleft, printed], by simp [hleft, printed]⟩
    · have hleft : left = printed (.ok _) := congrArg printed hresult
      rw [hleft]
      exact .inr ⟨text, d, hread, hload, hchain, rfl, rfl⟩
  · obtain ⟨hchain, hsame⟩ := chainOutcome_of_withoutCertificates hnone d
    have hresult := run_of_loaded hread hload
    rw [hchain, hsame] at hresult
    have hleft : left = printed (.ok (d.render a.output)) := congrArg printed hresult
    rw [hleft]
    exact ⟨rfl, rfl⟩

/-- A descriptor with one container, and what is loaded from it. -/
def oneContainer : String :=
  "kind: Pod\nmetadata:\n  name: dev\nspec:\n  containers:\n  - name: tooling\n"

def oneContainerDescriptor : Descriptor :=
  Descriptor.empty.addPod (.new "dev" ⟨[], [⟨"tooling", none, [], .none⟩], [], .none⟩)

/-- The descriptor on standard input, and a trust store with one file. -/
def oneFile (content : List UInt8) : Surroundings where
  files := {
    entries := .ofList [([utf8 "certs"], .directory),
      ([utf8 "certs", utf8 "localhost"], .file content)]
    workingDirectory := [] }
  standardInput := utf8 oneContainer

/-- With a certificate the descriptor is printed with the config map, its volume and the mount.
If the file is not text it is printed as it was, under a name that is none for an object. -/
theorem run_provision_one_file :
    let a (workspaceId : String) : ProvisionArguments :=
      ⟨.ofString "-", workspaceId, none, some (.ofString "certs"), .yaml⟩
    let mapName := "ws-che-git-self-signed-cert"
    let d := (Descriptor.empty.addConfigMap {
      apiVersion := "v1"
      kind := "ConfigMap"
      metadata := {
        name := mapName
        space := none
        labels := .ofList [("che.workspace_id", "ws"), ("app.kubernetes.io/managed-by", "devenv")]
        annotations := .empty
        extra := .none }
      data := .ofList [("localhost", "certificate")]
      extra := .none }).addPod (.new "dev" {
        initContainers := []
        containers := [⟨"tooling", none,
          [⟨"che-git-self-signed-cert", "/etc/che/git/cert/", none, some true, .none⟩], .none⟩]
        volumes := [⟨"che-git-self-signed-cert", some ⟨mapName, .none⟩, .none⟩]
        extra := .none })
    (printed (run (oneFile (utf8 "certificate")) (.provision (a "ws")))).output = d.render .yaml ∧
    (printed (run (oneFile [255]) (.provision (a "No name!")))).output =
      "---\napiVersion: v1\nkind: Pod\nmetadata:\n  name: dev\nspec:\n  containers:\n"
        ++ "  - name: tooling\n" := by
  intro a mapName d
  have hread (content : List UInt8) (workspaceId : String) :
      readDescriptor (oneFile content) (a workspaceId).descriptor = .ok oneContainer := by
    have hpath : isStandardInput (.ofString "-") = true := by decide +kernel
    have htext : FileSystem.decodeText (utf8 oneContainer) = .ok oneContainer := by decide +kernel
    rw [readDescriptor, if_pos hpath, oneFile, htext]
    rfl
  have hload : Descriptor.load oneContainer = .ok oneContainerDescriptor := by decide +kernel
  constructor
  · have hchain : (chainOutcome (oneFile (utf8 "certificate")) (a "ws")
        oneContainerDescriptor).descriptor = d := by decide +kernel
    obtain ⟨⟨e, -, -, -, hcode⟩ | ⟨text, loaded, htext, hloaded, -, houtput, -⟩, -⟩ :=
      run_provision_all_or_nothing (oneFile (utf8 "certificate")) (a "ws")
    · exact absurd (by decide +kernel) hcode
    · obtain rfl := Except.ok.inj ((hread _ _).symm.trans htext)
      obtain rfl := Except.ok.inj (hload.symm.trans hloaded)
      exact houtput.trans (congrArg (Descriptor.render .yaml) hchain)
  · have hnone : WithoutCertificates (oneFile [255]).files (a "No name!").certsPath := by
      refine .unreadable fun file hfile => .inr ⟨.notText, ?_⟩
      have hfiles : (oneFile [255]).files.filesBelow (.ofString "certs") =
          [.ofString "certs/localhost"] := by
        decide +kernel
      rw [hfiles] at hfile
      obtain rfl := List.mem_singleton.1 hfile
      decide +kernel
    obtain ⟨-, -, -, -, hprints⟩ := run_provision_all_or_nothing (oneFile [255]) (a "No name!")
    exact ((hprints hnone _ _ (hread _ _) hload).1).trans (by decide +kernel)

end Command

end WorkspaceTrust
