import WorkspaceTrust.Proofs.Provision.Chain

/-!
# Chains within chains

A chain runs its leaves, however deep they are, one after the other, up
to the first that fails (`Chain.provision_leaves`). So an error of the
chain is the error of one leaf: those before it have all succeeded, it
has found what they left, and what it leaves is what the chain leaves
(`exists_of_runEach_error`, `runEach_of_error`).

That the leaves behind it are not called cannot be read off their states,
which a call may leave as they were. `Recorded` provisioners keep a list
of the descriptors that they are called with, and do what they did before
(`runEach_recorded`). A chain of them shows which of its leaves a run
calls (`Chain.calls`).

Nothing is said about what a provisioner does: it may be any function
(`Scripted`), and leave a changed descriptor behind when it fails.
-/

namespace WorkspaceTrust

/-- What is left when another run follows, if the first succeeds; else `rest` has not run. -/
def Outcome.andThen {β : Type} [Append β] (first : Outcome β) (rest : β)
    (next : Descriptor → Outcome β) : Outcome β :=
  match first.result with
  | .error e => ⟨.error e, first.provisioner ++ rest, first.descriptor⟩
  | .ok () =>
      let second := next first.descriptor
      ⟨second.result, first.provisioner ++ second.provisioner, second.descriptor⟩

/-- A provisioner that is given by what it does in each of its states. -/
structure Scripted (σ : Type) where
  title : String
  state : σ
  act : FileSystem → RuntimeIdentity → σ → Descriptor →
    Except ProvisionError Unit × σ × Descriptor

instance {σ : Type} : Provisioner (Scripted σ) where
  name s := s.title
  provision fs identity s d :=
    let (result, state, descriptor) := s.act fs identity s.state d
    ⟨result, { s with state := state }, descriptor⟩

/-! ## Recorded provisioners -/

/-- A provisioner with the descriptors that it has been called with. -/
structure Recorded (α : Type) where
  provisioner : α
  calls : List Descriptor

namespace Recorded

variable {α : Type}

/-- The provisioner before it has been called. -/
def start (p : α) : Recorded α := ⟨p, []⟩

instance [Provisioner α] : Provisioner (Recorded α) where
  name r := Provisioner.name r.provisioner
  provision fs identity r d :=
    (Provisioner.provision fs identity r.provisioner d).map fun p => ⟨p, r.calls ++ [d]⟩

end Recorded

namespace ChainItem

variable {α β : Type}

mutual

/-- The item with another provisioner in the place of each. -/
def map (f : α → β) : ChainItem α → ChainItem β
  | single p => single (f p)
  | nested items => nested (mapAll f items)

def mapAll (f : α → β) : List (ChainItem α) → List (ChainItem β)
  | [] => []
  | item :: items => map f item :: mapAll f items

end

mutual

theorem leaves_map (f : α → β) : ∀ item : ChainItem α, (item.map f).leaves = item.leaves.map f
  | single _ => rfl
  | nested items => by rw [map, leaves, leaves, leavesAll_mapAll f items]

theorem leavesAll_mapAll (f : α → β) : ∀ items : List (ChainItem α),
    leavesAll (mapAll f items) = (leavesAll items).map f
  | [] => rfl
  | item :: items => by
      rw [mapAll, leavesAll, leavesAll, List.map_append, leaves_map f item,
        leavesAll_mapAll f items]

end

variable [Provisioner α] {fs : FileSystem} {identity : RuntimeIdentity}

/-! ## How chains are put together -/

theorem runAll_append (later items : List (ChainItem α)) (d : Descriptor) :
    runAll fs identity (items ++ later) d =
      (runAll fs identity items d).andThen later (runAll fs identity later) := by
  induction items generalizing d with
  | nil => rfl
  | cons item items ih =>
    simp only [List.cons_append, runAll]
    cases (run fs identity item d).result with
    | error e => rfl
    | ok u =>
      simp only [ih, Outcome.andThen]
      cases (runAll fs identity items (run fs identity item d).descriptor).result <;> rfl

mutual

/-- A run leaves the nesting as it was. -/
theorem shape_run : ∀ (item : ChainItem α) (d : Descriptor),
    (run fs identity item d).provisioner.map (fun _ => ()) = item.map fun _ => ()
  | single _, _ => rfl
  | nested items, d => by rw [run, map, map, shape_runAll items d]

theorem shape_runAll : ∀ (items : List (ChainItem α)) (d : Descriptor),
    mapAll (fun _ => ()) (runAll fs identity items d).provisioner = mapAll (fun _ => ()) items
  | [], _ => rfl
  | item :: items, d => by
      have hitem := shape_run item d
      rw [runAll]
      cases (run fs identity item d).result with
      | error e => simp only [mapAll, hitem]
      | ok u => simp only [mapAll, hitem, shape_runAll items]

end

/-! ## The leaf that fails -/

/-- The leaves behind one that fails have no part in a run. -/
theorem runEach_of_error {before : List α} {p : α} {d : Descriptor} {e : ProvisionError}
    (hbefore : (runEach fs identity before d).result = .ok ())
    (hp : (Provisioner.provision fs identity p
      (runEach fs identity before d).descriptor).result = .error e) (after : List α) :
    runEach fs identity (before ++ p :: after) d =
      let earlier := runEach fs identity before d
      let last := Provisioner.provision fs identity p earlier.descriptor
      ⟨.error e, earlier.provisioner ++ last.provisioner :: after, last.descriptor⟩ := by
  simp only [runEach_append, hbefore, runEach, hp]

/-- An error is that of one leaf, and the leaves before it succeed. -/
theorem exists_of_runEach_error {e : ProvisionError} : ∀ {ps : List α} {d : Descriptor},
    (runEach fs identity ps d).result = .error e → ∃ before p after, ps = before ++ p :: after ∧
      (runEach fs identity before d).result = .ok () ∧
      (Provisioner.provision fs identity p
        (runEach fs identity before d).descriptor).result = .error e
  | [], _, h => by cases h
  | p :: ps, d, h => by
      cases hp : (Provisioner.provision fs identity p d).result with
      | error e' =>
        simp only [runEach, hp] at h
        cases h
        exact ⟨[], p, ps, rfl, rfl, hp⟩
      | ok u =>
        simp only [runEach, hp] at h
        obtain ⟨before, q, after, rfl, hbefore, hq⟩ := exists_of_runEach_error h
        have hcons : runEach fs identity (p :: before) d =
            let first := Provisioner.provision fs identity p d
            let others := runEach fs identity before first.descriptor
            ⟨others.result, first.provisioner :: others.provisioner, others.descriptor⟩ := by
          simp only [runEach, hp]
        refine ⟨p :: before, q, after, rfl, ?_, ?_⟩
        · rw [hcons]
          exact hbefore
        · rw [hcons]
          exact hq

/-! ## Which leaves are called -/

/-- Provisioners do the same whether they are recorded or not. -/
theorem runEach_recorded : ∀ (rs : List (Recorded α)) (d : Descriptor),
    (runEach fs identity rs d).map (List.map Recorded.provisioner) =
      runEach fs identity (rs.map Recorded.provisioner) d
  | [], _ => rfl
  | r :: rs, d => by
      have hr : Provisioner.provision fs identity r d =
          (Provisioner.provision fs identity r.provisioner d).map
            fun p => ⟨p, r.calls ++ [d]⟩ := rfl
      simp only [List.map_cons, runEach, hr, Outcome.map]
      cases (Provisioner.provision fs identity r.provisioner d).result with
      | error e => rfl
      | ok u =>
        simp only [← runEach_recorded rs]
        rfl

theorem length_runEach : ∀ (ps : List α) (d : Descriptor),
    (runEach fs identity ps d).provisioner.length = ps.length
  | [], _ => rfl
  | p :: ps, d => by
      rw [runEach]
      cases (Provisioner.provision fs identity p d).result with
      | error e => rfl
      | ok u => exact congrArg (· + 1) (length_runEach ps _)

/-- From the leaf that fails on, it is the only one that is called. -/
theorem calls_of_error {before : List α} {p : α} {d : Descriptor} {e : ProvisionError}
    (hbefore : (runEach fs identity before d).result = .ok ())
    (hp : (Provisioner.provision fs identity p
      (runEach fs identity before d).descriptor).result = .error e) (after : List α) :
    ((runEach fs identity ((before ++ p :: after).map Recorded.start) d).provisioner.map
      Recorded.calls).drop before.length =
        [(runEach fs identity before d).descriptor] :: after.map fun _ => [] := by
  have hstart : (runEach fs identity (before.map Recorded.start) d).map
      (List.map Recorded.provisioner) = runEach fs identity before d := by
    rw [runEach_recorded, List.map_map]
    exact congrArg (runEach fs identity · d) (List.map_id before)
  have hdescriptor : (runEach fs identity (before.map Recorded.start) d).descriptor =
      (runEach fs identity before d).descriptor := congrArg Outcome.descriptor hstart
  have hearlier : (runEach fs identity (before.map Recorded.start) d).result = .ok () :=
    (congrArg Outcome.result hstart).trans hbefore
  have hlast : (Provisioner.provision fs identity (Recorded.start p)
      (runEach fs identity (before.map Recorded.start) d).descriptor).result = .error e := by
    rw [hdescriptor]
    exact hp
  have hlength : ((runEach fs identity (before.map Recorded.start) d).provisioner.map
      Recorded.calls).length = before.length := by
    rw [List.length_map, length_runEach, List.length_map]
  rw [List.map_append, List.map_cons, runEach_of_error hearlier hlast, List.map_append,
    List.map_cons, List.drop_left' hlength, List.map_map, hdescriptor]
  rfl

end ChainItem

namespace Chain

variable {α β : Type}

/-- The chain with another provisioner in the place of each. -/
def map (f : α → β) (c : Chain α) : Chain β := ⟨ChainItem.mapAll f c.items⟩

/-- The nesting of a chain, whatever its provisioners are. -/
def shape (c : Chain α) : Chain Unit := c.map fun _ => ()

instance : Append (Chain α) := ⟨fun c later => ⟨c.items ++ later.items⟩⟩

variable [Provisioner α]

/-- What each leaf of a chain is called with in a run. -/
def calls (fs : FileSystem) (identity : RuntimeIdentity) (c : Chain α) (d : Descriptor) :
    List (List Descriptor) :=
  (Provisioner.provision fs identity (c.map Recorded.start) d).provisioner.leaves.map
    Recorded.calls

theorem calls_eq (fs : FileSystem) (identity : RuntimeIdentity) (c : Chain α) (d : Descriptor) :
    c.calls fs identity d =
      (ChainItem.runEach fs identity (c.leaves.map Recorded.start) d).provisioner.map
        Recorded.calls := by
  have hleaves : (c.map Recorded.start).leaves = c.leaves.map Recorded.start :=
    ChainItem.leavesAll_mapAll _ c.items
  rw [calls, ← hleaves, ← provision_leaves]
  rfl

/-- A chain, however it is nested, does what its leaves do one after the other, and keeps its
nesting. An error is that of one leaf: the leaves before it have succeeded, the descriptor is
the one that it leaves, and the leaves behind it are as they were and have not been called.
A chain behind another one runs if the first succeeds. -/
theorem provision_flattens (fs : FileSystem) (identity : RuntimeIdentity) (c : Chain α)
    (d : Descriptor) :
    let outcome := Provisioner.provision fs identity c d
    outcome.map leaves = ChainItem.runEach fs identity c.leaves d ∧
    outcome.provisioner.shape = c.shape ∧
    (∀ e, outcome.result = .error e → ∃ before p after, c.leaves = before ++ p :: after ∧
      let earlier := ChainItem.runEach fs identity before d
      let last := Provisioner.provision fs identity p earlier.descriptor
      earlier.result = .ok () ∧ last.result = .error e ∧ outcome.descriptor = last.descriptor ∧
      outcome.provisioner.leaves = earlier.provisioner ++ last.provisioner :: after ∧
      (c.calls fs identity d).drop before.length =
        [earlier.descriptor] :: after.map fun _ => []) ∧
    ∀ later : Chain α, Provisioner.provision fs identity (c ++ later) d =
      outcome.andThen later (Provisioner.provision fs identity later) := by
  intro outcome
  have hflat : outcome.map leaves = ChainItem.runEach fs identity c.leaves d :=
    provision_leaves fs identity c d
  refine ⟨hflat, congrArg Chain.mk (ChainItem.shape_runAll c.items d), fun e he => ?_,
    fun later => ?_⟩
  · have herror : (ChainItem.runEach fs identity c.leaves d).result = .error e := by
      rw [← hflat]
      exact he
    obtain ⟨before, p, after, hleaves, hbefore, hp⟩ := ChainItem.exists_of_runEach_error herror
    rw [hleaves, ChainItem.runEach_of_error hbefore hp] at hflat
    refine ⟨before, p, after, hleaves, hbefore, hp, congrArg Outcome.descriptor hflat,
      congrArg Outcome.provisioner hflat, ?_⟩
    rw [calls_eq, hleaves]
    exact ChainItem.calls_of_error hbefore hp after
  · have happend := @ChainItem.runAll_append _ _ fs identity later.items c.items d
    show Outcome.map Chain.mk (ChainItem.runAll fs identity (c.items ++ later.items) d) = _
    rw [happend]
    simp only [Outcome.andThen, outcome, Provisioner.provision]
    cases (ChainItem.runAll fs identity c.items d).result <;> rfl

/-- Adds a pod, counts its runs, and then succeeds or fails. -/
def adding (podName : String) (result : Except ProvisionError Unit) : Scripted Nat :=
  ⟨podName, 0, fun _ _ runs d => (result, runs + 1, d.addPod (Pod.new podName default))⟩

theorem provision_flattens_failing_inside :
    let failure := ProvisionError.failed "second" "refused"
    let c : Chain (Scripted Nat) := ⟨[.single (adding "first" (.ok ())),
      .nested [.nested [.single (adding "second" (.error failure)),
        .single (adding "third" (.ok ()))], .single (adding "fourth" (.ok ()))],
      .single (adding "fifth" (.ok ()))]⟩
    let outcome := Provisioner.provision default ⟨"ws", none⟩ c .empty
    outcome.result = .error failure ∧ outcome.descriptor.pods.keys = ["first", "second"] ∧
      outcome.provisioner.leaves.map Scripted.state = [1, 1, 0, 0, 0] ∧
      ∃ before p after, c.leaves = before ++ p :: after ∧
        let earlier := ChainItem.runEach default ⟨"ws", none⟩ before .empty
        let last := Provisioner.provision default ⟨"ws", none⟩ p earlier.descriptor
        earlier.result = .ok () ∧ last.result = .error failure ∧
        outcome.descriptor = last.descriptor ∧
        (c.calls default ⟨"ws", none⟩ .empty).drop before.length =
          [earlier.descriptor] :: after.map fun _ => [] := by
  intro failure c outcome
  have hresult : outcome.result = .error failure := rfl
  obtain ⟨-, -, hfails, -⟩ := provision_flattens default ⟨"ws", none⟩ c .empty
  obtain ⟨before, p, after, hleaves, hearlier, hlast, hdescriptor, -, hcalls⟩ :=
    hfails failure hresult
  exact ⟨hresult, by decide +kernel, by decide +kernel,
    before, p, after, hleaves, hearlier, hlast, hdescriptor, hcalls⟩

end Chain

end WorkspaceTrust
