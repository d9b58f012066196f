import Shuriken.Build.Runs
import Shuriken.Cmd.PooledBuild

/-!
# The number of processes

The runners as `shk` puts them together, pools over a limit over processes. The limit is not kept by the
runner that has it.
-/
namespace Shuriken
open Option List

/-- The processes, and the local variable `finished` of `runCommands` with the number of those in
it whose callback has been called. -/
structure SubprocessSet (n : Nat) where
  running : List (Fin n) := []
  finished : List (Fin n) := []
  batch : List (Fin n) := []
  called : Nat := 0

namespace SubprocessSet
variable {n : Nat} (set : SubprocessSet n)

def size : Nat := set.running.length + set.finished.length

def invoke (commands : List (Fin n)) : SubprocessSet n := { set with running := set.running ++ commands }

def atEnd : Bool := set.called == set.batch.length

def swap : SubprocessSet n := { set with finished := [], batch := set.finished, called := 0 }

def poll (done : Fin n → Bool) : SubprocessSet n := { set with
    running := set.running.filter fun s => !done s
    finished := set.finished ++ set.running.filter done }

end SubprocessSet

/-- `LimitedCommandRunner::canRunMore`. The load average is given by whether it is below the
maximum, if there is one. -/
def canRunMore {n : Nat} (parallelism : Nat) (set : SubprocessSet n) (loadIsLow : Bool) : Bool :=
  decide (set.size < parallelism) && (set.size == 0 || loadIsLow)

structure LimitedBuild (σ : Type) (n : Nat) where
  build : PooledBuild σ n
  set : SubprocessSet n := {}

inductive LimitedEvent (σ : Type) (n : Nat) where
  /-- An event that does not concern the runner. -/
  | build (event : Event σ n)
  | enqueue (loadIsLow : Bool)
  | runCommands
  | callback (result : CommandResult)
  | poll (done : Fin n → Bool)

section
variable {σ : Type} {n : Nat} (params : BuildCommandParameters σ n) (parallelism : Nat)

namespace LimitedBuild

def handOver (l : LimitedBuild σ n) (build : PooledBuild σ n) : LimitedBuild σ n where
  build := build
  set := l.set.invoke (build.pooling.handed.drop l.build.pooling.handed.length)

def next (l : LimitedBuild σ n) : LimitedEvent σ n → Option (LimitedBuild σ n)
  | .build event =>
    match event with
    | .enqueue _ | .commandDone _ _ => none
    | event => do
        let build ← l.build.next params event
        return l.handOver build
  | .enqueue loadIsLow => do
      let build ← l.build.next params (.enqueue (canRunMore parallelism l.set loadIsLow))
      return l.handOver build
  | .runCommands =>
    match l.build.world.phase with
    | .waiting => if l.set.atEnd then some { l with set := l.set.swap } else none
    | _ => none
  | .callback result =>
    match l.set.batch[l.set.called]? with
    | none => none
    | some s => do
        let build ← l.build.next params (.commandDone s result)
        let l := l.handOver build
        return { l with set.called := l.set.called + 1 }
  | .poll done =>
    match l.build.world.phase with
    | .waiting => if l.set.atEnd then some { l with set := l.set.poll done } else none
    | _ => none

/-- After the first callback of a batch, no pool of a process that has finished has commands
waiting. -/
def onlyFirstHasWaiting (l : LimitedBuild σ n) : LimitedEvent σ n → Bool
  | .callback _ =>
    l.set.called == 0 ||
      match l.set.batch[l.set.called]? with
      | none => true
      | some s => (l.build.pooling.runner.delayedCommands (params.poolName s)).isEmpty
  | _ => true

def Follows (l l' : LimitedBuild σ n) : Prop :=
  ∃ event, l.onlyFirstHasWaiting params event = true ∧ l.next params parallelism event = some l'

def run (check : LimitedBuild σ n → LimitedEvent σ n → Bool) (l : LimitedBuild σ n)
    (events : List (LimitedEvent σ n)) : Option (LimitedBuild σ n) :=
  events.foldlM (fun l event => if check l event then l.next params parallelism event else none) l

/-- When a batch has been taken its processes still fit below the limit. -/
structure Bounded (l : LimitedBuild σ n) : Prop where
  pooled : ∃ depth, l.build.pooling.Pooled params.poolName depth
  size : l.set.size + (if l.set.called = 0 then l.set.batch.length else 0) ≤ parallelism
  batch : l.build.world.phase.active = true → l.set.called = 0 → l.set.batch = []

variable {params parallelism} {l l' : LimitedBuild σ n}

theorem active_of_next {w w' : World σ n} {event : Event σ n} (hnext : w.next params event = some w')
    (hactive : w'.phase.active = true) : w.phase.active = true ∨ ∃ s result, event = .commandDone s result := by
  cases World.happens_of_next hnext with
  | discard hphase | enqueue hphase =>
    rw [hphase]
    exact .inl rfl
  | commandDone => exact .inr ⟨_, _, rfl⟩
  | effect | tick => exact .inl hactive
  | interrupt | finish => nomatch hactive

/-- When and how many processes are started. -/
theorem started_of_next {depth : Bytes → Int} (hpooled : l.build.pooling.Pooled params.poolName depth)
    {event : Event σ n} {build : PooledBuild σ n} (hnext : l.build.next params event = some build) :
    (l.handOver build).set.size = l.set.size ∨ (l.handOver build).set.size = l.set.size + 1 ∧ (event = .enqueue true ∨
        ∃ s result, event = .commandDone s result ∧
          l.build.pooling.runner.delayedCommands (params.poolName s) ≠ []) := by
  have hsize : ∀ new : Option (Fin n), build.pooling.handed = l.build.pooling.handed ++ new.toList →
      (l.handOver build).set.size = l.set.size + new.toList.length := by
    intro new hnew
    simp only [handOver, SubprocessSet.invoke, SubprocessSet.size, hnew, drop_left, length_append]
    omega
  rcases PooledBuild.next_cases hnext with
    ⟨hpooling, -⟩ | ⟨s, rfl, -, -, hpooling⟩ | ⟨s, result, rfl, -, -, hpooling, -⟩
  · exact .inl (hsize none (by simp [hpooling]))
  · obtain ⟨new, hnew⟩ := Pooling.handed_next hpooling
    cases new with
    | none => exact .inl (hsize none hnew)
    | some s => exact .inr ⟨hsize (some s) hnew, .inl rfl⟩
  · have hnew := hpooled.handed_complete hpooling
    cases hdelayed : l.build.pooling.runner.delayedCommands (params.poolName s) with
    | nil =>
      rw [hdelayed] at hnew
      exact .inl (hsize none hnew)
    | cons next commands =>
      rw [hdelayed] at hnew
      refine .inr ⟨hsize (some next) hnew, .inr ⟨s, result, rfl, ?_⟩⟩
      rw [hdelayed]
      exact cons_ne_nil _ _

theorem pooled_of_next {event : Event σ n} {build : PooledBuild σ n}
    (h : ∃ depth, l.build.pooling.Pooled params.poolName depth) (hnext : l.build.next params event = some build) :
    ∃ depth, build.pooling.Pooled params.poolName depth := by
  obtain ⟨depth, h⟩ := h
  rcases PooledBuild.next_cases hnext with
    ⟨hpooling, -⟩ | ⟨s, -, -, -, hpooling⟩ | ⟨s, result, -, -, -, hpooling, -⟩
  · exact ⟨depth, hpooling ▸ h⟩
  · exact ⟨depth, h.next hpooling⟩
  · exact ⟨depth, h.next hpooling⟩

section
variable (h : Bounded params parallelism l)
include h

theorem Bounded.build {event : Event σ n} {build : PooledBuild σ n} (hevent : ∀ s result, event ≠ .commandDone s result)
    (hlimit : event = .enqueue true → l.build.world.phase.active = true ∧ l.set.size < parallelism)
    (hnext : l.build.next params event = some build) : Bounded params parallelism (l.handOver build) := by
  obtain ⟨depth, hpooled⟩ := h.pooled
  refine ⟨pooled_of_next h.pooled hnext, ?_, fun hactive hcalled => ?_⟩
  · rcases started_of_next hpooled hnext with hsize | ⟨hsize, rfl | ⟨s, result, rfl, -⟩⟩
    · rw [hsize]
      exact h.size
    · obtain ⟨hactive, hlimit⟩ := hlimit rfl
      have hbatch : (if l.set.called = 0 then l.set.batch.length else 0) = 0 := by
        split
        · next hcalled => rw [h.batch hactive hcalled, length_nil]
        · rfl
      rw [hsize]
      change l.set.size + 1 + (if l.set.called = 0 then l.set.batch.length else 0) ≤ parallelism
      omega
    · exact absurd rfl (hevent s result)
  · rcases active_of_next (PooledBuild.world_next hnext) hactive with hactive | ⟨s, result, rfl⟩
    · exact h.batch hactive hcalled
    · exact absurd rfl (hevent s result)

theorem Bounded.callback {s : Fin n} {result : CommandResult}
    {build : PooledBuild σ n} (hs : l.set.batch[l.set.called]? = some s)
    (hwaiting : l.set.called ≠ 0 → l.build.pooling.runner.delayedCommands (params.poolName s) = [])
    (hnext : l.build.next params (.commandDone s result) = some build) :
    Bounded params parallelism { l.handOver build with set.called := (l.handOver build).set.called + 1 } := by
  obtain ⟨depth, hpooled⟩ := h.pooled
  have hsize := h.size
  refine ⟨pooled_of_next h.pooled hnext, ?_, fun _ hcalled => nomatch hcalled⟩
  rw [if_neg (Nat.succ_ne_zero _), Nat.add_zero]
  change (l.handOver build).set.size ≤ parallelism
  rcases started_of_next hpooled hnext with hstarted | ⟨hstarted, hevent⟩
  · omega
  · by_cases hcalled : l.set.called = 0
    · have hlength : 0 < l.set.batch.length := by
        obtain ⟨hlength, -⟩ := List.getElem?_eq_some_iff.mp hs
        omega
      rw [if_pos hcalled] at hsize
      omega
    · rcases hevent with hevent | ⟨s', result', hevent, hdelayed⟩
      · nomatch hevent
      · obtain ⟨rfl, -⟩ := Event.commandDone.inj hevent
        exact absurd (hwaiting hcalled) hdelayed

theorem Bounded.next {event : LimitedEvent σ n}
    (hevent : l.onlyFirstHasWaiting params event = true) (hnext : l.next params parallelism event = some l') :
    Bounded params parallelism l' := by
  cases event with
  | build event =>
    simp only [LimitedBuild.next] at hnext
    split at hnext
    · nomatch hnext
    · nomatch hnext
    · next henqueue hdone =>
      obtain ⟨build, hbuild, hnext⟩ := bind_eq_some_iff.mp hnext
      cases hnext
      exact h.build hdone (fun heq => absurd heq (henqueue true)) hbuild
  | enqueue loadIsLow =>
    obtain ⟨build, hbuild, hnext⟩ := bind_eq_some_iff.mp hnext
    cases hnext
    refine h.build (fun _ _ heq => by cases heq) (fun heq => ⟨?_, ?_⟩) hbuild
    · rw [World.phase_of_next_enqueue (PooledBuild.world_next hbuild)]
      rfl
    · have hcan := Event.enqueue.inj heq
      rw [canRunMore, Bool.and_eq_true] at hcan
      exact of_decide_eq_true hcan.1
  | callback result =>
    simp only [LimitedBuild.next] at hnext
    split at hnext
    · nomatch hnext
    · next s hs =>
      obtain ⟨build, hbuild, hnext⟩ := bind_eq_some_iff.mp hnext
      cases hnext
      refine h.callback hs (fun hcalled => ?_) hbuild
      rw [onlyFirstHasWaiting, hs] at hevent
      simpa [hcalled] using hevent
  | runCommands =>
    simp only [LimitedBuild.next] at hnext
    split at hnext
    · next hphase =>
      split at hnext
      · cases hnext
        refine ⟨h.pooled, ?_, fun hactive => ?_⟩
        · have := h.size
          simp only [SubprocessSet.swap, SubprocessSet.size, length_nil, if_true] at this ⊢
          omega
        · rw [hphase] at hactive
          nomatch hactive
      · nomatch hnext
    · nomatch hnext
  | poll done =>
    simp only [LimitedBuild.next] at hnext
    split at hnext
    · next hphase =>
      split at hnext
      · cases hnext
        refine ⟨h.pooled, ?_, fun hactive => ?_⟩
        · have hsize : (l.set.poll done).size = l.set.size := by
            have := length_eq_length_filter_add (l := l.set.running) done
            simp only [SubprocessSet.poll, SubprocessSet.size, length_append]
            omega
          rw [hsize]
          exact h.size
        · rw [hphase] at hactive
          nomatch hactive
      · nomatch hnext
    · nomatch hnext

theorem Bounded.reaches
    (hreaches : Relation.ReflTransGen (Follows params parallelism) l l') : Bounded params parallelism l' := by
  induction hreaches with
  | refl => exact h
  | tail _ hfollows ih =>
    obtain ⟨event, hevent, hnext⟩ := hfollows
    exact ih.next hevent hnext

end

theorem reaches_of_run {events : List (LimitedEvent σ n)}
    (h : l.run params parallelism (onlyFirstHasWaiting params) events = some l') :
    Relation.ReflTransGen (Follows params parallelism) l l' := by
  refine reaches_of_foldlM (fun l₁ event _ l₂ hnext => ?_) h
  obtain ⟨hevent, hnext⟩ := ite_none_right_eq_some.mp hnext
  exact ⟨event, hevent, hnext⟩

end LimitedBuild

/-- In every build, for every limit and however the ends of processes are grouped: the limit is kept
when of the processes that are found finished together only the first one belongs to a pool in which
commands are waiting. -/
theorem running_le_parallelism {F : FileSystem σ} {manifest : CompiledManifest n} {invocations : Invocations}
    {failuresAllowed : UInt64} {specifiedSteps : List (Fin n)} {checkClock : Fin n → Int64} {clock : Int64}
    {disk : Disk σ} {w₀ : World σ n} {params : BuildCommandParameters σ n}
    (hstart : startBuild F manifest invocations failuresAllowed specifiedSteps checkClock clock disk = .ok (params, w₀))
    {text : List (Bytes × List (Bytes × Bytes))} {pools : Finmap fun _ : Bytes => Int}
    (hpools : parsePools text = .ok pools) {parallelism : Nat} {l : LimitedBuild σ n}
    (hreaches : Relation.ReflTransGen (LimitedBuild.Follows params parallelism) { build := ⟨w₀, .start pools⟩ } l) :
    l.set.running.length ≤ parallelism := by
  have hstarted : LimitedBuild.Bounded params parallelism { build := ⟨w₀, .start pools⟩ } :=
    ⟨⟨_, (PooledBuild.joined_start (startBuild_begun hstart) hpools).pooled⟩, Nat.zero_le _, fun _ _ => rfl⟩
  have hsize := (hstarted.reaches hreaches).size
  rw [SubprocessSet.size] at hsize
  omega

end

def twoPools : CompiledManifest 6 where
  steps i :=
    { hash := .repeated i.val.toUInt8
      command := [1]
      poolName := if i.val < 2 then [97] else if i.val < 4 then [98] else [] }
  roots := [0, 1, 2, 3, 4, 5]

/-- A build of these steps with at most three processes. In each pool one command is running and
one is waiting. -/
def startedBuild : Option (BuildCommandParameters FlatFiles 6 × LimitedBuild FlatFiles 6) := do
  let (params, c) ← firstBuild twoPools [([97], [(depthKey, [49])]), ([98], [(depthKey, [49])])]
  let l ← LimitedBuild.run params 3 (LimitedBuild.onlyFirstHasWaiting params) { build := c }
    [.build .discard, .build .discard, .build .discard, .build .discard, .build .discard, .build .discard,
      .build .discard, .enqueue true, .enqueue true, .enqueue true, .enqueue true, .enqueue true,
      .enqueue true]
  return (params, l)

/-- A process of the pool `a` and one of no pool are found finished together. -/
theorem running_le_parallelism_of_one_pool : ∃ params l l', startedBuild = some (params, l) ∧
      l.run params 3 (LimitedBuild.onlyFirstHasWaiting params)
        [.poll fun s => s == 0 || s == 4, .runCommands, .callback {}, .enqueue true, .enqueue true,
          .callback {}] = some l' ∧ l'.set.running = [2, 1, 5] ∧ l'.set.running.length ≤ 3 := by
  have h : ∃ params l, startedBuild = some (params, l) ∧ ∃ l',
      l.run params 3 (LimitedBuild.onlyFirstHasWaiting params)
        [.poll fun s => s == 0 || s == 4, .runCommands, .callback {}, .enqueue true, .enqueue true,
          .callback {}] = some l' ∧ l'.set.running = [2, 1, 5] := by
    decide +kernel
  obtain ⟨params, l, hbuild, l', hrun, hrunning⟩ := h
  have hstarted := hbuild
  rw [startedBuild] at hstarted
  obtain ⟨⟨params', c⟩, hfirst, hstarted⟩ := bind_eq_some_iff.mp hstarted
  obtain ⟨l₁, hrun₁, hstarted⟩ := bind_eq_some_iff.mp hstarted
  cases hstarted
  obtain ⟨invocations, disk, pools, w, hstart, hpools, rfl⟩ := firstBuild_eq_some hfirst
  exact ⟨_, _, l', hbuild, hrun, hrunning, running_le_parallelism hstart hpools
    ((LimitedBuild.reaches_of_run hrun₁).trans (LimitedBuild.reaches_of_run hrun))⟩

/-- Two processes of different pools are found finished together. The first callback fills the
limit, and the second one starts another process. -/
theorem running_exceeds_parallelism : ∃ params l l', startedBuild = some (params, l) ∧ l.set.running = [0, 2, 4] ∧
      l.run params 3 (fun _ _ => true)
        [.poll fun s => s == 0 || s == 2, .runCommands, .callback {}, .enqueue true, .enqueue true,
          .callback {}] = some l' ∧ l'.set.running = [4, 1, 5, 3] := by
  simp only [exists_and_left]
  decide +kernel

end Shuriken
