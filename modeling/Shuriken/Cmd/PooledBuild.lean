import Shuriken.Build.World
import Shuriken.Build.Start
import Shuriken.Build.Steps
import Shuriken.Cmd.Pooled
import Shuriken.Fs.Nested

/-!
# A build with pools

The build and the pooled runner as one system. The build counts failures in the
callback of a command. The runner starts the next command of the pool before it
calls that callback, and knows nothing of the count.
-/
namespace Shuriken
open Option List

section
variable {σ : Type} {n : Nat} (params : BuildCommandParameters σ n)

def BuildCommandParameters.poolName (s : Fin n) : Bytes := (params.manifest.steps s).poolName

structure PooledBuild (σ : Type) (n : Nat) where
  world : World σ n
  pooling : Pooling (Fin n)

namespace PooledBuild

/-- An event of the build, with what it does to the runner. Only commands that the inner runner
has can do something or finish. -/
def next (c : PooledBuild σ n) : Event σ n → Option (PooledBuild σ n)
  | .enqueue canRunMore => do
      let world ← c.world.next params (.enqueue canRunMore)
      let pooling ← c.pooling.run params.poolName
        ((world.running.drop c.world.running.length).map .invoke)
      return { world, pooling }
  | .commandDone s result => do
      let pooling ← c.pooling.next params.poolName (.complete s)
      let world ← c.world.next params (.commandDone s result)
      return { world, pooling }
  | .effect s fs => do
      if s ∈ c.pooling.inner then
        let world ← c.world.next params (.effect s fs)
        return { c with world }
      else none
  | event => do
      let world ← c.world.next params event
      return { c with world }

def Follows (c c' : PooledBuild σ n) : Prop := ∃ event, c.next params event = some c'

def run (c : PooledBuild σ n) (events : List (Event σ n)) : Option (PooledBuild σ n) := events.foldlM (next params) c

end PooledBuild

variable {params} {w w' : World σ n}

/-- What an event can do to the running commands and to the count of failures. -/
inductive World.Counts (w w' : World σ n) : Event σ n → Prop
  | quiet {event : Event σ n} : (∀ s result, event ≠ .commandDone s result) → w'.running = w.running →
      w'.build.remainingFailures = w.build.remainingFailures → Counts w w' event
  | invoke (s : Fin n) : w.build.remainingFailures ≠ 0 → w'.running = w.running ++ [s] → Counts w w' (.enqueue true)
  | complete {s : Fin n} {result : CommandResult} : w.phase = .waiting → s ∈ w.running →
      w'.running = w.running.erase s →
      (w.build.remainingFailures = 0 → w'.build.remainingFailures = 0) →
      Counts w w' (.commandDone s result)

theorem World.bypass_counts (w : World σ n) (s : Fin n) : (w.bypass params s).running = w.running ∧
      (w.bypass params s).build.remainingFailures = w.build.remainingFailures := by
  rw [World.bypass, commandBypassed]
  cases outputFileIdsForBuildStep params.invocations params.fingerprintMatchesMemo
      (params.manifest.steps s) with
  | error failure => exact ⟨rfl, rfl⟩
  | ok fileIds =>
    simp only [bind, Except.bind]
    cases hmark : w.build.markStepNodeAsDone params.manifest params.invocations s fileIds true with
    | error failure => exact ⟨rfl, rfl⟩
    | ok build => exact ⟨rfl, (Build.markStepNodeAsDone_files hmark).2.2.1⟩

theorem World.discard_counts (w : World σ n) (visited : Fin n → Bool) (newReadySteps : List (Fin n))
    (discardedSteps : Nat) : (w.discard params visited newReadySteps discardedSteps).running = w.running ∧
      (w.discard params visited newReadySteps discardedSteps).build.remainingFailures = w.build.remainingFailures := by
  rw [World.discard]
  split
  · exact ⟨rfl, rfl⟩
  · simp only
    split
    · exact ⟨rfl, rfl⟩
    · split
      · exact World.bypass_counts _ _
      · exact ⟨rfl, rfl⟩

theorem World.enqueue_counts (w : World σ n) (canRunMore : Bool) :
    Counts w (w.enqueue params canRunMore) (.enqueue canRunMore) := by
  rw [World.enqueue]
  split
  · exact .quiet (by simp) rfl rfl
  · next s hs =>
    split
    · exact .quiet (by simp) rfl rfl
    · next hfailures =>
      rw [World.enqueueStep]
      split
      · exact .quiet (by simp) (World.bypass_counts _ _).1 (World.bypass_counts _ _).2
      · rw [World.invoke]
        split
        · exact .quiet (by simp) rfl rfl
        · obtain ⟨rfl, hremaining⟩ : canRunMore = true ∧ w.build.remainingFailures ≠ 0 := by
            simpa using hfailures
          exact .invoke s hremaining rfl

theorem World.complete_counts (hphase : w.phase = .waiting) {s : Fin n} (hs : s ∈ w.running)
    (result : CommandResult) : Counts w (w.complete params s result) (.commandDone s result) := by
  rw [World.complete]
  rcases commandDone_cases params w.clock w.disk w.build s result with
    ⟨error, hdone⟩ | ⟨disk, outputs, inputs, -, -, -, ⟨-, hdone⟩ | ⟨-, hdone⟩⟩
  · rw [hdone]
    exact .complete hphase hs rfl id
  · rw [hdone]
    cases hmark : Build.markStepNodeAsDone params.manifest params.invocations s outputs.fileIds false
        { w.build with writtenFiles := outputs.writtenFiles } with
    | error failure => exact .complete hphase hs rfl id
    | ok build =>
      exact .complete hphase hs rfl fun hzero => (Build.markStepNodeAsDone_files hmark).2.2.1.trans hzero
  · rw [hdone]
    refine .complete hphase hs rfl fun hzero => ?_
    simp [Build.countFailure, hzero]

theorem World.next_counts {event : Event σ n} (hnext : w.next params event = some w') : Counts w w' event := by
  cases World.happens_of_next hnext with
  | discard => exact .quiet nofun (World.discard_counts _ _ _ _).1 (World.discard_counts _ _ _ _).2
  | enqueue => exact World.enqueue_counts _ _
  | commandDone hphase hs => exact World.complete_counts hphase hs _
  | effect | tick | interrupt | finish => exact .quiet nofun rfl rfl

namespace PooledBuild
variable {c c' : PooledBuild σ n} {depth : Bytes → Int}

theorem reaches_of_run {events : List (Event σ n)} (h : c.run params events = some c') :
    Relation.ReflTransGen (Follows params) c c' :=
  reaches_of_foldlM (fun _ event _ _ hnext => ⟨event, hnext⟩) h

variable {event : Event σ n}

theorem world_next (hnext : c.next params event = some c') : c.world.next params event = some c'.world := by
  cases event with
  | enqueue canRunMore =>
    obtain ⟨world, hworld, hnext⟩ := bind_eq_some_iff.mp hnext
    obtain ⟨pooling, -, hnext⟩ := bind_eq_some_iff.mp hnext
    exact some.inj hnext ▸ hworld
  | commandDone s result =>
    obtain ⟨pooling, -, hnext⟩ := bind_eq_some_iff.mp hnext
    obtain ⟨world, hworld, hnext⟩ := bind_eq_some_iff.mp hnext
    exact some.inj hnext ▸ hworld
  | effect s fs =>
    simp only [PooledBuild.next] at hnext
    split at hnext
    · obtain ⟨world, hworld, hnext⟩ := bind_eq_some_iff.mp hnext
      exact some.inj hnext ▸ hworld
    · nomatch hnext
  | discard | tick | interrupt | finish =>
    obtain ⟨world, hworld, hnext⟩ := bind_eq_some_iff.mp hnext
    exact some.inj hnext ▸ hworld

/-- An event invokes a command, or finishes one, or leaves the runner alone. -/
theorem next_cases (hnext : c.next params event = some c') :
    c'.pooling = c.pooling ∧ c'.world.running = c.world.running ∧
        c'.world.build.remainingFailures = c.world.build.remainingFailures ∨
    (∃ s, event = .enqueue true ∧ c.world.build.remainingFailures ≠ 0 ∧ c'.world.running = c.world.running ++ [s] ∧
      c.pooling.next params.poolName (.invoke s) = some c'.pooling) ∨
    ∃ s result, event = .commandDone s result ∧ s ∈ c.world.running ∧ c'.world.running = c.world.running.erase s ∧
      c.pooling.next params.poolName (.complete s) = some c'.pooling ∧
      (c.world.build.remainingFailures = 0 → c'.world.build.remainingFailures = 0) := by
  cases event with
  | enqueue canRunMore =>
    obtain ⟨world, hworld, hnext⟩ := bind_eq_some_iff.mp hnext
    obtain ⟨pooling, hpooling, hnext⟩ := bind_eq_some_iff.mp hnext
    cases hnext
    cases World.next_counts hworld with
    | quiet _ hrunning hremaining =>
      rw [hrunning, drop_length] at hpooling
      exact .inl ⟨(some.inj hpooling).symm, hrunning, hremaining⟩
    | invoke s hfailures hrunning =>
      rw [hrunning, drop_left, map_singleton, Pooling.run, foldlM_cons] at hpooling
      obtain ⟨pooling', hpooling, hnext⟩ := bind_eq_some_iff.mp hpooling
      cases hnext
      exact .inr (.inl ⟨s, rfl, hfailures, hrunning, hpooling⟩)
  | commandDone s result =>
    obtain ⟨pooling, hpooling, hnext⟩ := bind_eq_some_iff.mp hnext
    obtain ⟨world, hworld, hnext⟩ := bind_eq_some_iff.mp hnext
    cases hnext
    cases World.next_counts hworld with
    | quiet hevent => exact absurd rfl (hevent s result)
    | complete _ hs hrunning hremaining =>
      exact .inr (.inr ⟨s, result, rfl, hs, hrunning, hpooling, hremaining⟩)
  | effect s fs =>
    simp only [PooledBuild.next] at hnext
    split at hnext
    · obtain ⟨world, hworld, hnext⟩ := bind_eq_some_iff.mp hnext
      cases hnext
      cases World.next_counts hworld with
      | quiet _ hrunning hremaining => exact .inl ⟨rfl, hrunning, hremaining⟩
    · cases hnext
  | discard | tick | interrupt | finish =>
    obtain ⟨world, hworld, hnext⟩ := bind_eq_some_iff.mp hnext
    cases hnext
    cases World.next_counts hworld with
    | quiet _ hrunning hremaining => exact .inl ⟨rfl, hrunning, hremaining⟩

/-- The accounting of the pools, and that the build and the runner agree on what is running. -/
structure Joined (params : BuildCommandParameters σ n) (depth : Bytes → Int) (c : PooledBuild σ n) : Prop where
  pooled : c.pooling.Pooled params.poolName depth
  running : (c.world.running ++ c.pooling.finished).Perm c.pooling.invoked

theorem Joined.next (h : Joined params depth c) (hnext : c.next params event = some c') : Joined params depth c' := by
  rcases next_cases hnext with
    ⟨hpooling, hrunning, -⟩ | ⟨s, -, -, hrunning, hpooling⟩ | ⟨s, result, -, hs, hrunning, hpooling, -⟩
  · exact ⟨hpooling ▸ h.pooled, hrunning ▸ hpooling ▸ h.running⟩
  · refine ⟨h.pooled.next hpooling, ?_⟩
    have hperm := h.running
    obtain hpooling := some.inj hpooling
    rw [← hpooling, hrunning]
    refine perm_iff_count.mpr fun a => ?_
    have := hperm.count_eq a
    simp only [Pooling.handOver, count_append] at this ⊢
    omega
  · refine ⟨h.pooled.next hpooling, ?_⟩
    simp only [Pooling.next] at hpooling
    split at hpooling
    · obtain hpooling := some.inj hpooling
      rw [← hpooling, hrunning]
      refine perm_iff_count.mpr fun a => ?_
      have := h.running.count_eq a
      have := (perm_cons_erase hs).count_eq a
      simp only [Pooling.handOver, count_append, count_cons, count_nil] at *
      omega
    · cases hpooling

theorem Joined.reaches (h : Joined params depth c)
    (hreaches : Relation.ReflTransGen (Follows params) c c') : Joined params depth c' := by
  induction hreaches with
  | refl => exact h
  | tail _ hfollows ih =>
    obtain ⟨event, hnext⟩ := hfollows
    exact ih.next hnext

theorem Joined.inner_subset (h : Joined params depth c) : c.pooling.inner ⊆ c.world.running := by
  intro s hs
  have hrunning := h.running.count_eq s
  have hhanded := h.pooled.perm.count_eq s
  have hinvoked := h.pooled.count_invoked s
  have hpos := count_pos_iff.mpr hs
  rw [count_append] at hrunning hhanded
  exact count_pos_iff.mp (by omega)

theorem exists_waiting (hzero : c.world.build.remainingFailures = 0)
    (hphase : c.world.phase = .enqueueing ∨ c.world.phase = .waiting) :
    ∃ c', Relation.ReflTransGen (Follows params) c c' ∧ c'.world.phase = .waiting ∧
      c'.pooling = c.pooling ∧ c'.world.running = c.world.running := by
  rcases hphase with hphase | hphase
  · have henqueue : c.world.enqueue params true = { c.world with phase := .waiting } := by
      rw [World.enqueue]
      split
      · rfl
      · simp [hzero]
    have hworld : c.world.next params (.enqueue true) = some { c.world with phase := .waiting } := by
      simp [World.next, hphase, henqueue]
    have hnext : c.next params (.enqueue true) =
        some { c with world := { c.world with phase := .waiting } } := by
      rw [PooledBuild.next, hworld]
      change (c.pooling.run params.poolName ((c.world.running.drop c.world.running.length).map .invoke)).bind
        _ = _
      rw [drop_length]
      rfl
    exact ⟨_, .single ⟨_, hnext⟩, rfl, rfl, rfl⟩
  · exact ⟨c, .refl, hphase, rfl, rfl⟩

theorem Joined.exists_complete (h : Joined params depth c) (hphase : c.world.phase = .waiting) {s : Fin n}
    (hs : s ∈ c.pooling.inner) :
    ∃ c', Follows params c c' ∧ c.pooling.next params.poolName (.complete s) = some c'.pooling := by
  have hpooling : ∃ pooling, c.pooling.next params.poolName (.complete s) = some pooling := ⟨_, if_pos hs⟩
  obtain ⟨pooling, hpooling⟩ := hpooling
  have hworld : c.world.next params (.commandDone s {}) = some (c.world.complete params s {}) := by
    simp [World.next, hphase, h.inner_subset hs]
  refine ⟨⟨c.world.complete params s {}, pooling⟩, ⟨.commandDone s {}, ?_⟩, hpooling⟩
  rw [PooledBuild.next, hpooling, hworld]
  rfl

theorem joined_start {disk : Disk σ} {w₀ : World σ n} (hbegun : Begun disk params w₀)
    {text : List (Bytes × List (Bytes × Bytes))} {pools : Finmap fun _ : Bytes => Int}
    (hpools : parsePools text = .ok pools) :
    Joined params (fun p => (pools.lookup p).getD 0) ⟨w₀, .start pools⟩ where
  pooled := .start fun _ _ => parsePools_depth hpools
  running := by
    rw [hbegun.initial]
    exact .refl _

end PooledBuild

/-- In every build, whatever pools it has and in whichever order commands finish: when the last
failure that is allowed has been counted, no further command is handed to the inner runner, if and
only if no command that is running belongs to a pool in which commands are waiting. -/
theorem stops_after_failures_iff {F : FileSystem σ} {manifest : CompiledManifest n} {invocations : Invocations}
    {failuresAllowed : UInt64} {specifiedSteps : List (Fin n)} {checkClock : Fin n → Int64} {clock : Int64}
    {disk : Disk σ} {w₀ : World σ n}
    (hstart : startBuild F manifest invocations failuresAllowed specifiedSteps checkClock clock disk = .ok (params, w₀))
    {text : List (Bytes × List (Bytes × Bytes))} {pools : Finmap fun _ : Bytes => Int}
    (hpools : parsePools text = .ok pools) {c : PooledBuild σ n}
    (hreaches : Relation.ReflTransGen (PooledBuild.Follows params) ⟨w₀, .start pools⟩ c)
    (hzero : c.world.build.remainingFailures = 0) (hphase : c.world.phase = .enqueueing ∨ c.world.phase = .waiting) :
    (∀ c', Relation.ReflTransGen (PooledBuild.Follows params) c c' → c'.pooling.handed = c.pooling.handed) ↔
      ∀ s ∈ c.pooling.inner, c.pooling.runner.delayedCommands (params.poolName s) = [] := by
  have hjoined := (PooledBuild.joined_start (startBuild_begun hstart) hpools).reaches hreaches
  constructor
  · intro hstops s hs
    obtain ⟨c₁, hreaches₁, hphase₁, hpooling₁, hrunning₁⟩ := PooledBuild.exists_waiting hzero hphase
    have hjoined₁ := hjoined.reaches hreaches₁
    rw [← hpooling₁] at hs hstops ⊢
    obtain ⟨c₂, hfollows, hpooling⟩ := hjoined₁.exists_complete hphase₁ hs
    have hhanded := hjoined₁.pooled.handed_complete hpooling
    rw [hstops c₂ (hreaches₁.tail hfollows), self_eq_append_right, toList_eq_nil_iff,
      head?_eq_none_iff] at hhanded
    exact hhanded
  · intro hwaiting c' hreaches'
    suffices h : c'.world.build.remainingFailures = 0 ∧ c'.pooling.handed = c.pooling.handed ∧
        ∀ s ∈ c'.pooling.inner, c'.pooling.runner.delayedCommands (params.poolName s) = [] from h.2.1
    induction hreaches' with
    | refl => exact ⟨hzero, rfl, hwaiting⟩
    | tail hreaches₁ hfollows ih =>
      obtain ⟨hzero₁, hhanded₁, hwaiting₁⟩ := ih
      obtain ⟨event, hnext⟩ := hfollows
      rcases PooledBuild.next_cases hnext with
        ⟨hpooling, -, hremaining⟩ | ⟨s, -, hfailures, -⟩ | ⟨s, result, -, -, -, hpooling, hremaining⟩
      · exact ⟨hremaining.trans hzero₁, hpooling ▸ hhanded₁, hpooling ▸ hwaiting₁⟩
      · exact absurd hzero₁ hfailures
      · simp only [Pooling.next] at hpooling
        split at hpooling
        · next hs =>
          have hpooling := some.inj hpooling
          rw [PooledCommandRunner.commandFinished_of_nil (hwaiting₁ s hs)] at hpooling
          rw [← hpooling]
          refine ⟨hremaining hzero₁, by simpa [Pooling.handOver] using hhanded₁, fun i hi => ?_⟩
          exact hwaiting₁ i (mem_of_mem_erase (by simpa [Pooling.handOver] using hi))
        · cases hpooling

end

def firstBuild {n : Nat} (manifest : CompiledManifest n) (text : List (Bytes × List (Bytes × Bytes))) :
    Option (BuildCommandParameters FlatFiles n × PooledBuild FlatFiles n) := do
  let (params, w) ← openBuild .valueFirst flatFileSystem manifest 1 [] (fun _ => 10) 10 [] none
  let pools ← (parsePools text).toOption
  return (params, ⟨w, .start pools⟩)

theorem firstBuild_eq_some {n : Nat} {manifest : CompiledManifest n}
    {text : List (Bytes × List (Bytes × Bytes))} {params : BuildCommandParameters FlatFiles n}
    {c : PooledBuild FlatFiles n} (h : firstBuild manifest text = some (params, c)) :
    ∃ invocations disk pools w, startBuild flatFileSystem manifest invocations 1 [] (fun _ => 10) 10 disk =
        .ok (params, w) ∧ parsePools text = .ok pools ∧ c = ⟨w, .start pools⟩ := by
  rw [firstBuild] at h
  obtain ⟨⟨params', w⟩, hopen, h⟩ := bind_eq_some_iff.mp h
  obtain ⟨pools, hpools, h⟩ := bind_eq_some_iff.mp h
  cases h
  obtain ⟨result, left, -, hstart⟩ := openBuild_eq_some hopen
  exact ⟨_, _, pools, w, hstart, Except.toOption_eq_some.mp hpools, rfl⟩

def threeInPool : CompiledManifest 3 where
  steps i :=
    { hash := .repeated i.val.toUInt8
      command := [1]
      poolName := [97] }
  roots := [0, 1, 2]

/-- The build of these steps when the pool is one deep, up to the failure of the first command. -/
def failedBuild : Option (BuildCommandParameters FlatFiles 3 × PooledBuild FlatFiles 3) := do
  let (params, c) ← firstBuild threeInPool [([97], [(depthKey, [49])])]
  let c ← c.run params
    [.discard, .discard, .discard, .discard, .enqueue true, .enqueue true, .enqueue true, .enqueue true,
      .commandDone 0 { exitStatus := .failure }]
  return (params, c)

/-- When the last of the commands has been started there is nothing left to start. -/
theorem stops_after_failures_of_last_command : ∃ params c c', failedBuild = some (params, c) ∧
      c.run params [.enqueue true, .commandDone 1 {}] = some c' ∧
      c'.world.build.remainingFailures = 0 ∧ c'.pooling.inner = [2] ∧
      ∀ c'', Relation.ReflTransGen (PooledBuild.Follows params) c' c'' → c''.pooling.handed = c'.pooling.handed := by
  have h : ∃ params c, failedBuild = some (params, c) ∧ ∃ c',
      c.run params [.enqueue true, .commandDone 1 {}] = some c' ∧
      c'.world.build.remainingFailures = 0 ∧ c'.pooling.inner = [2] ∧
      c'.pooling.runner.delayedCommands (params.poolName 2) = [] ∧ c'.world.phase = .enqueueing := by
    decide +kernel
  obtain ⟨params, c, hbuild, c', hrun, hzero, hinner, hdelayed, hphase⟩ := h
  have hfailed := hbuild
  rw [failedBuild] at hfailed
  obtain ⟨⟨params', c₀⟩, hfirst, hfailed⟩ := bind_eq_some_iff.mp hfailed
  obtain ⟨c₁, hrun₁, hfailed⟩ := bind_eq_some_iff.mp hfailed
  cases hfailed
  obtain ⟨invocations, disk, pools, w, hstart, hpools, rfl⟩ := firstBuild_eq_some hfirst
  have hreaches := (PooledBuild.reaches_of_run hrun₁).trans (PooledBuild.reaches_of_run hrun)
  refine ⟨_, _, c', hbuild, hrun, hzero, hinner,
    (stops_after_failures_iff hstart hpools hreaches hzero (.inl hphase)).mpr fun s hs => ?_⟩
  rw [hinner] at hs
  exact mem_singleton.mp hs ▸ hdelayed

/-- The first command has failed, no failures are left, and one command is running and one is
waiting. When the running one has finished the other one is started. -/
theorem starts_command_after_failures :
    ∃ params c c', failedBuild = some (params, c) ∧ c.world.build.remainingFailures = 0 ∧
      c.pooling.handed = [0, 1] ∧ c.pooling.inner = [1] ∧
      c.run params [.enqueue true, .commandDone 1 {}] = some c' ∧ c'.pooling.handed = [0, 1, 2] := by
  simp only [exists_and_left]
  decide +kernel

end Shuriken
