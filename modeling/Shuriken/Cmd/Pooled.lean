import Shuriken.Build.Graph
import Shuriken.Lib.Except
import Shuriken.Lib.Finmap

/-!
# Pools

`PooledCommandRunner` holds back commands of a pool while as many of them are
running as the pool is deep. The other runners are below it: it hands a command
over, and learns of its end by a callback.
-/
namespace Shuriken
open Option Except List Finmap

def leadingNat : Bytes → Nat → Nat
  | [], value => value
  | byte :: rest, value =>
    if 48 ≤ byte ∧ byte ≤ 57 then leadingNat rest (10 * value + (byte.toNat - 48)) else value

/-- `atol`. Numbers that are too large become the largest one. -/
def atol (text : Bytes) : Int :=
  match text.dropWhile fun byte => byte == 32 || (9 ≤ byte && byte ≤ 13) with
  | 45 :: digits => max (-(leadingNat digits 0 : Int)) (-2 ^ 63)
  | 43 :: digits => min (leadingNat digits 0) (2 ^ 63 - 1)
  | digits => min (leadingNat digits 0) (2 ^ 63 - 1)

def depthKey : Bytes := [100, 101, 112, 116, 104]

def parseDepth (_depth : Int) (binding : Bytes × Bytes) : Except String Int :=
  if binding.1 = depthKey then
    let depth := (Int32.ofInt (atol binding.2)).toInt
    if depth < 0 then .error "invalid pool depth" else .ok depth
  else .error ("unexpected variable '" ++ displayPath binding.1 ++ "'")

/-- `parsePool`, when the text has been split into bindings and these have been evaluated. -/
def parsePool (pools : Finmap fun _ : Bytes => Int) (pool : Bytes × List (Bytes × Bytes)) :
    Except String (Finmap fun _ : Bytes => Int) :=
  if (pools.lookup pool.1).isSome then .error ("duplicate pool '" ++ displayPath pool.1 ++ "'")
  else do
    let depth ← pool.2.foldlM parseDepth (-1)
    if depth < 0 then .error "expected 'depth =' line" else .ok (pools.insert pool.1 depth)

/-- The pools of a manifest. The console pool is always there. -/
def parsePools (pools : List (Bytes × List (Bytes × Bytes))) : Except String (Finmap fun _ : Bytes => Int) :=
  pools.foldlM parsePool (singleton [99, 111, 110, 115, 111, 108, 101] 1)

theorem parsePools_depth {text : List (Bytes × List (Bytes × Bytes))}
    {pools : Finmap fun _ : Bytes => Int} (h : parsePools text = .ok pools) {pool : Bytes} {depth : Int}
    (hpool : pools.lookup pool = some depth) : 0 ≤ depth := by
  refine foldlM_invariant (P := fun pools : Finmap fun _ : Bytes => Int =>
    ∀ pool depth, pools.lookup pool = some depth → 0 ≤ depth) ?_ ?_ h pool depth hpool
  · intro pools (name, bindings) pools' _ hpools hround pool depth hpool
    rw [parsePool] at hround
    split at hround
    · nomatch hround
    · obtain ⟨parsed, -, hround⟩ := bind_eq_ok.mp hround
      split at hround
      · nomatch hround
      · next hparsed =>
        cases hround
        rcases lookup_of_insert hpool with ⟨-, rfl⟩ | hpool
        · exact not_lt.mp hparsed
        · exact hpools pool depth hpool
  · intro pool depth hpool
    by_cases hname : pool = [99, 111, 110, 115, 111, 108, 101]
    · subst hname
      rw [lookup_singleton_eq] at hpool
      exact some.inj hpool ▸ Int.one_nonneg
    · have hnone : pool ∉ singleton (β := fun _ => Int) [99, 111, 110, 115, 111, 108, 101] 1 := by
        rwa [Finmap.mem_singleton]
      nomatch (lookup_eq_none.mpr hnone).symm.trans hpool

/-- The runner, for commands of any kind. A command stands for itself, its step and its callback.
The oldest of the delayed commands of a pool, which is the back of the deque, comes first. -/
structure PooledCommandRunner (α : Type) where
  /-- The number of spots left in each pool. -/
  pools : Finmap fun _ : Bytes => Int
  delayedCommands : Bytes → List α := fun _ => []
  delayedCommandsCount : Nat := 0

namespace PooledCommandRunner

section
variable {α : Type} (r : PooledCommandRunner α) (pool : Bytes)

def canRunNow : Bool :=
  if pool.isEmpty then true
  else
    match r.pools.lookup pool with
    | none => false
    | some spots => spots != 0

def spots : Int := (r.pools.lookup pool).getD 0

def setSpots (spots : Int) : PooledCommandRunner α := { r with pools := r.pools.insert pool spots }

def delay (command : α) : PooledCommandRunner α := { r with
    delayedCommandsCount := r.delayedCommandsCount + 1
    delayedCommands := Function.update r.delayedCommands pool (r.delayedCommands pool ++ [command]) }

def takeSpot : PooledCommandRunner α := if pool.isEmpty then r else r.setSpots pool (r.spots pool - 1)

/-- The second component is the command that is handed to the inner runner, if any. -/
def invoke (command : α) : PooledCommandRunner α × Option α :=
  if r.canRunNow pool then (r.takeSpot pool, some command) else (r.delay pool command, none)

def invokeDelayedJob : PooledCommandRunner α × Option α :=
  match r.delayedCommands pool with
  | [] => (r, none)
  | command :: commands =>
    ({ r.takeSpot pool with
        delayedCommandsCount := r.delayedCommandsCount - 1
        delayedCommands := Function.update r.delayedCommands pool commands },
      some command)

def commandFinished : PooledCommandRunner α × Option α :=
  let r' := r.setSpots pool (r.spots pool + 1)
  if r.spots pool = 0 then r'.invokeDelayedJob pool else (r', none)

variable {r pool}

theorem canRunNow_iff : r.canRunNow pool = true ↔ pool = [] ∨ r.spots pool ≠ 0 := by
  rw [canRunNow, spots]
  cases pool with
  | nil => simp
  | cons byte rest => cases r.pools.lookup (byte :: rest) <;> simp

@[simp] theorem spots_setSpots (p : Bytes) (spots : Int) :
    (r.setSpots pool spots).spots p = if p = pool then spots else r.spots p := by
  rw [setSpots, PooledCommandRunner.spots]
  split
  · next h => rw [h, lookup_insert, getD_some]
  · next h => rw [lookup_insert_of_ne _ h, PooledCommandRunner.spots]

@[simp] theorem spots_takeSpot (p : Bytes) :
    (r.takeSpot pool).spots p = if p = pool ∧ pool ≠ [] then r.spots p - 1 else r.spots p := by
  rw [takeSpot]
  cases pool with
  | nil => simp
  | cons byte rest =>
    simp only [isEmpty_cons, Bool.false_eq_true, if_false, spots_setSpots, ne_eq, reduceCtorEq,
      not_false_eq_true, and_true]
    split
    · next h => rw [h]
    · rfl

@[simp] theorem delayedCommands_takeSpot : (r.takeSpot pool).delayedCommands = r.delayedCommands := by
  rw [takeSpot]
  split <;> rfl

@[simp] theorem delayedCommands_setSpots (spots : Int) :
    (r.setSpots pool spots).delayedCommands = r.delayedCommands := rfl

@[simp] theorem delayedCommandsCount_setSpots (spots : Int) :
    (r.setSpots pool spots).delayedCommandsCount = r.delayedCommandsCount := rfl

@[simp] theorem spots_delay (command : α) (p : Bytes) : (r.delay pool command).spots p = r.spots p := rfl

@[simp] theorem delayedCommandsCount_takeSpot : (r.takeSpot pool).delayedCommandsCount = r.delayedCommandsCount := by
  rw [takeSpot]
  split <;> rfl

theorem commandFinished_of_nil (h : r.delayedCommands pool = []) :
    r.commandFinished pool = (r.setSpots pool (r.spots pool + 1), none) := by
  rw [commandFinished, invokeDelayedJob, delayedCommands_setSpots, h]
  split <;> rfl

theorem commandFinished_of_cons {command : α} {commands : List α}
    (h : r.delayedCommands pool = command :: commands) (hpool : pool ≠ []) (hspots : r.spots pool = 0) :
    ∃ r', r.commandFinished pool = (r', some command) ∧ (∀ p, r'.spots p = r.spots p) ∧
      r'.delayedCommands = Function.update r.delayedCommands pool commands ∧
      r'.delayedCommandsCount = r.delayedCommandsCount - 1 := by
  rw [commandFinished, if_pos hspots, invokeDelayedJob, delayedCommands_setSpots, h]
  refine ⟨_, rfl, fun p => ?_, rfl, rfl⟩
  refine (@spots_takeSpot α (r.setSpots pool (r.spots pool + 1)) pool p).trans ?_
  by_cases heq : p = pool <;> simp [heq, hpool]

end
end PooledCommandRunner

/-- A pooled runner in use. Of the inner runner it is known which commands it was given and has
not finished. -/
structure Pooling (α : Type) where
  runner : PooledCommandRunner α
  inner : List α := []
  /-- Of these, the commands that the inner runner has set aside in order to call their callbacks, and has not. -/
  batch : List α := []
  /-- What `invoke` was called for, in this order. -/
  invoked : List α := []
  /-- What was handed to the inner runner, in this order. -/
  handed : List α := []
  /-- The commands whose callback was called. -/
  finished : List α := []

inductive PoolEvent (α : Type) where
  | invoke (command : α)
  /-- `runCommands` of the inner runner takes the commands that have finished. -/
  | reap (commands : List α)
  | complete (command : α)

namespace Pooling

section
variable {α : Type} (poolName : α → Bytes)

/-- The inner runner does not count the commands that it has set aside. -/
def size (s : Pooling α) : Nat := s.inner.length - s.batch.length + s.runner.delayedCommandsCount

def handOver (s : Pooling α) (change : PooledCommandRunner α × Option α) : Pooling α := { s with
    runner := change.1
    inner := s.inner ++ change.2.toList
    handed := s.handed ++ change.2.toList }

/-- Commands can be invoked at any time, also from callbacks, and the inner runner finishes its
commands in any order. -/
def next [DecidableEq α] (s : Pooling α) : PoolEvent α → Option (Pooling α)
  | .invoke command =>
    some ({ s with invoked := s.invoked ++ [command] }.handOver
      (s.runner.invoke (poolName command) command))
  | .reap commands => if s.batch = [] ∧ commands.Subperm s.inner then some { s with batch := commands } else none
  | .complete command =>
    if command ∈ s.inner then
      some ({ s with
          inner := s.inner.erase command
          batch := s.batch.erase command
          finished := s.finished ++ [command] }.handOver (s.runner.commandFinished (poolName command)))
    else none

def run [DecidableEq α] (s : Pooling α) (events : List (PoolEvent α)) : Option (Pooling α) :=
  events.foldlM (next poolName) s

def start (pools : Finmap fun _ : Bytes => Int) : Pooling α where
  runner := { pools }

/-- The accounting of the spots and of the commands of each pool. -/
structure Pooled (depth : Bytes → Int) (s : Pooling α) : Prop where
  queued : ∀ p, s.invoked.filter (poolName · = p) = s.handed.filter (poolName · = p) ++ s.runner.delayedCommands p
  perm : s.handed.Perm (s.inner ++ s.finished)
  batched : s.batch.Subperm s.inner
  spots : ∀ p, p ≠ [] → s.runner.spots p + (s.inner.filter (poolName · = p)).length = depth p
  nonneg : ∀ p, p ≠ [] → 0 ≤ s.runner.spots p
  full : ∀ p, s.runner.delayedCommands p ≠ [] → p ≠ [] ∧ s.runner.spots p = 0
  count : s.runner.delayedCommandsCount + s.handed.length = s.invoked.length

variable {poolName} {depth : Bytes → Int} {s s' : Pooling α}

theorem Pooled.start {pools : Finmap fun _ : Bytes => Int} (hdepth : ∀ p d, pools.lookup p = some d → 0 ≤ d) :
    Pooled poolName (fun p => (pools.lookup p).getD 0) (start pools : Pooling α) where
  queued _ := rfl
  perm := List.Perm.refl _
  batched := nil_subperm
  spots _ _ := Int.add_zero _
  nonneg p _ := by
    cases h : pools.lookup p with
    | none => simp [Pooling.start, PooledCommandRunner.spots, h]
    | some d => simpa [Pooling.start, PooledCommandRunner.spots, h] using hdepth p d h
  full _ h := absurd rfl h
  count := rfl

section
variable (h : Pooled poolName depth s)
include h

theorem Pooled.invoke [DecidableEq α] (command : α) :
    Pooled poolName depth ({ s with invoked := s.invoked ++ [command] }.handOver
      (s.runner.invoke (poolName command) command)) := by
  rw [PooledCommandRunner.invoke]
  split
  · next hnow =>
    have hspots := PooledCommandRunner.canRunNow_iff.mp hnow
    have hempty : s.runner.delayedCommands (poolName command) = [] := by
      by_contra hne
      obtain ⟨hname, hzero⟩ := h.full _ hne
      exact hspots.elim hname fun hspots => hspots hzero
    refine ⟨fun p => ?_, ?_, h.batched.trans (sublist_append_left _ _).subperm, fun p hp => ?_, fun p hp => ?_,
      fun p hp => ?_, ?_⟩
    · by_cases hc : poolName command = p
      · subst hc
        simp [handOver, h.queued, hempty]
      · simp [handOver, h.queued, hc]
    · refine perm_iff_count.mpr fun a => ?_
      have := h.perm.count_eq a
      simp only [handOver, toList_some, count_append] at this ⊢
      omega
    · have := h.spots p hp
      by_cases hc : p = poolName command
      · subst hc
        simp [handOver, hp]
        omega
      · simpa [handOver, hc, Ne.symm hc] using this
    · have := h.nonneg p hp
      by_cases hc : p = poolName command
      · subst hc
        have := hspots.resolve_left hp
        simp [handOver, hp]
        omega
      · simpa [handOver, hc] using this
    · rw [handOver, PooledCommandRunner.delayedCommands_takeSpot] at hp
      have hc : p ≠ poolName command := fun hc => hp (hc ▸ hempty)
      simpa [handOver, hc] using h.full p hp
    · have := h.count
      simp [handOver]
      omega
  · next hlater =>
    have hspots : poolName command ≠ [] ∧ s.runner.spots (poolName command) = 0 := by
      simpa [PooledCommandRunner.canRunNow_iff] using hlater
    refine ⟨fun p => ?_, by simpa [handOver] using h.perm, by simpa [handOver] using h.batched,
      fun p hp => by simpa [handOver] using h.spots p hp, h.nonneg, fun p hp => ?_, ?_⟩
    · by_cases hc : poolName command = p
      · subst hc
        simp [handOver, PooledCommandRunner.delay, h.queued]
      · simp [handOver, PooledCommandRunner.delay, h.queued, hc, Ne.symm hc]
    · by_cases hc : p = poolName command
      · exact hc ▸ hspots
      · exact h.full p (by simpa [handOver, PooledCommandRunner.delay, hc] using hp)
    · have := h.count
      simp [handOver, PooledCommandRunner.delay]
      omega

theorem Pooled.count_invoked [DecidableEq α] (a : α) :
    s.invoked.count a = s.handed.count a + (s.runner.delayedCommands (poolName a)).count a := by
  have hfilter : ∀ l : List α, (l.filter (poolName · = poolName a)).count a = l.count a :=
    fun l => count_filter (by simp)
  rw [← hfilter, h.queued, count_append, hfilter]

theorem Pooled.handed_subperm [DecidableEq α] : s.handed.Subperm s.invoked :=
  subperm_ext_iff.mpr fun a _ => by
    rw [h.count_invoked]
    exact Nat.le_add_right _ _

theorem Pooled.complete [DecidableEq α] {command : α} (hcommand : command ∈ s.inner) : Pooled poolName depth
      ({ s with
          inner := s.inner.erase command
          batch := s.batch.erase command
          finished := s.finished ++ [command] }.handOver (s.runner.commandFinished (poolName command))) := by
  have hinner : s.inner.Perm (command :: s.inner.erase command) := perm_cons_erase hcommand
  have hlength : ∀ p, (s.inner.filter (poolName · = p)).length =
      ((s.inner.erase command).filter (poolName · = p)).length + if poolName command = p then 1 else 0 := by
    intro p
    rw [(hinner.filter _).length_eq, filter_cons]
    by_cases hc : poolName command = p <;> simp [hc]
  have hperm : s.handed.Perm (s.inner.erase command ++ (s.finished ++ [command])) := by
    refine h.perm.trans (perm_iff_count.mpr fun a => ?_)
    have := hinner.count_eq a
    simp only [count_append, count_cons, count_nil] at this ⊢
    omega
  have hbatched (new : List α) : (s.batch.erase command).Subperm (s.inner.erase command ++ new) :=
    (h.batched.erase command).trans (sublist_append_left _ _).subperm
  cases hdelayed : s.runner.delayedCommands (poolName command) with
  | nil =>
    rw [PooledCommandRunner.commandFinished_of_nil hdelayed]
    refine ⟨fun p => by simpa [handOver] using h.queued p, by simpa [handOver] using hperm, hbatched _,
      fun p hp => ?_, fun p hp => ?_, fun p hp => ?_, by simpa [handOver] using h.count⟩
    · have := h.spots p hp
      rw [hlength p] at this
      by_cases hc : p = poolName command
      · subst hc
        simp [handOver] at this ⊢
        omega
      · simpa [handOver, hc, Ne.symm hc] using this
    · have := h.nonneg p hp
      by_cases hc : p = poolName command
      · subst hc
        simp [handOver]
        omega
      · simpa [handOver, hc] using this
    · have hc : p ≠ poolName command := fun hc => hp (hc ▸ hdelayed)
      simpa [handOver, hc] using h.full p hp
  | cons next commands =>
    obtain ⟨hname, hzero⟩ := h.full (poolName command) (by simp [hdelayed])
    obtain ⟨r', hr', hspots, hdelayed', hcount⟩ := PooledCommandRunner.commandFinished_of_cons hdelayed hname hzero
    have hqueued := h.queued (poolName command)
    have hnext : poolName next = poolName command := by
      have hmem : next ∈ s.invoked.filter (poolName · = poolName command) := by
        rw [hqueued, hdelayed]
        simp
      simpa using (mem_filter.mp hmem).2
    rw [hr']
    refine ⟨fun p => ?_, ?_, hbatched _, fun p hp => ?_, fun p hp => hspots p ▸ h.nonneg p hp, fun p hp => ?_, ?_⟩
    · by_cases hc : poolName command = p
      · subst hc
        simp [handOver, hqueued, hdelayed, hdelayed', hnext]
      · simp [handOver, h.queued, hdelayed', hnext, hc, Ne.symm hc]
    · refine perm_iff_count.mpr fun a => ?_
      have := hperm.count_eq a
      simp only [handOver, toList_some, count_append] at this ⊢
      omega
    · have := h.spots p hp
      rw [hlength p, ← hspots p] at this
      by_cases hc : poolName command = p
      · simpa [handOver, hnext, hc] using this
      · simpa [handOver, hnext, hc] using this
    · have hp' : s.runner.delayedCommands p ≠ [] := by
        by_cases hc : p = poolName command
        · rw [hc, hdelayed]
          exact cons_ne_nil _ _
        · simpa [handOver, hdelayed', hc] using hp
      exact ⟨(h.full p hp').1, (hspots p).trans (h.full p hp').2⟩
    · have hmore : (next :: s.handed).Subperm s.invoked := by
        refine subperm_ext_iff.mpr fun a _ => ?_
        rw [h.count_invoked, count_cons]
        by_cases hc : next = a
        · subst hc
          simp [hnext, hdelayed]
        · simp [hc]
      have := hmore.length_le
      have := h.count
      simp only [handOver, hcount, length_append, toList_some, length_cons, length_nil] at *
      omega

theorem Pooled.next [DecidableEq α] {event : PoolEvent α}
    (hnext : s.next poolName event = some s') : Pooled poolName depth s' := by
  cases event with
  | invoke command => exact some.inj hnext ▸ h.invoke command
  | reap commands =>
    obtain ⟨⟨-, hcommands⟩, hnext⟩ := ite_none_right_eq_some.mp hnext
    cases hnext
    exact { h with batched := hcommands }
  | complete command =>
    simp only [Pooling.next] at hnext
    split at hnext
    · next hcommand => exact some.inj hnext ▸ h.complete hcommand
    · nomatch hnext

end

theorem handed_next [DecidableEq α] {event : PoolEvent α} (hnext : s.next poolName event = some s') :
    ∃ new : Option α, s'.handed = s.handed ++ new.toList := by
  cases event with
  | invoke command =>
    cases hnext
    exact ⟨_, rfl⟩
  | reap commands =>
    obtain ⟨-, hnext⟩ := ite_none_right_eq_some.mp hnext
    cases hnext
    exact ⟨none, (append_nil _).symm⟩
  | complete command =>
    simp only [Pooling.next] at hnext
    split at hnext
    · cases hnext
      exact ⟨_, rfl⟩
    · nomatch hnext

theorem Pooled.handed_complete [DecidableEq α] (h : Pooled poolName depth s) {command : α}
    (hnext : s.next poolName (.complete command) = some s') :
    s'.handed = s.handed ++ ((s.runner.delayedCommands (poolName command)).head?).toList := by
  simp only [Pooling.next] at hnext
  split at hnext
  · cases hnext
    rw [handOver]
    cases hdelayed : s.runner.delayedCommands (poolName command) with
    | nil =>
      rw [PooledCommandRunner.commandFinished_of_nil hdelayed]
      rfl
    | cons next commands =>
      obtain ⟨hname, hzero⟩ := h.full (poolName command) (by simp [hdelayed])
      obtain ⟨r', hr', -⟩ := PooledCommandRunner.commandFinished_of_cons hdelayed hname hzero
      rw [hr']
      rfl
  · nomatch hnext

theorem Pooled.run [DecidableEq α] (h : Pooled poolName depth s) {events : List (PoolEvent α)}
    (hrun : s.run poolName events = some s') : Pooled poolName depth s' :=
  foldlM_invariant (fun _ _ _ _ hnext h => h.next hnext) h hrun

theorem mem_invoked_of_run [DecidableEq α] {events : List (PoolEvent α)} (hrun : s.run poolName events = some s')
    {command : α} (hcommand : command ∈ s'.invoked) : command ∈ s.invoked ∨ .invoke command ∈ events := by
  induction events generalizing s with
  | nil => exact .inl (some.inj hrun ▸ hcommand)
  | cons event events ih =>
    rw [Pooling.run, foldlM_cons] at hrun
    obtain ⟨s₁, hnext, hrun⟩ := bind_eq_some_iff.mp hrun
    rcases ih hrun with hmem | hmem
    · cases event with
      | invoke c =>
        cases hnext
        rcases mem_append.mp hmem with hmem | hmem
        · exact .inl hmem
        · exact .inr (mem_singleton.mp hmem ▸ mem_cons_self)
      | reap commands =>
        obtain ⟨-, hnext⟩ := ite_none_right_eq_some.mp hnext
        cases hnext
        exact .inl hmem
      | complete c =>
        simp only [Pooling.next] at hnext
        split at hnext
        · cases hnext
          exact .inl hmem
        · nomatch hnext
    · exact .inr (mem_cons_of_mem _ hmem)

theorem run_complete [DecidableEq α] {commands : List α} (hrun : s.run poolName (commands.map .complete) = some s') :
    s'.invoked = s.invoked ∧ s'.finished = s.finished ++ commands := by
  induction commands generalizing s with
  | nil => exact some.inj hrun ▸ ⟨rfl, (append_nil _).symm⟩
  | cons command commands ih =>
    rw [Pooling.run, map_cons, foldlM_cons] at hrun
    obtain ⟨s₁, hnext, hrun⟩ := bind_eq_some_iff.mp hrun
    obtain ⟨hinvoked, hfinished⟩ := ih hrun
    simp only [Pooling.next] at hnext
    split at hnext
    · cases hnext
      exact ⟨hinvoked, hfinished.trans (append_assoc _ _ _)⟩
    · nomatch hnext

section
variable (h : Pooled poolName depth s)
include h

theorem Pooled.size : s.size + s.batch.length + s.finished.length = s.invoked.length := by
  have hperm := h.perm.length_eq
  have hcount := h.count
  have hbatch := h.batched.length_le
  rw [Pooling.size]
  rw [length_append] at hperm
  omega

theorem Pooled.exists_inner (hdeep : ∀ c ∈ s.invoked, poolName c = [] ∨ 1 ≤ depth (poolName c)) {p : Bytes}
    (hp : s.runner.delayedCommands p ≠ []) : ∃ c ∈ s.inner, poolName c = p := by
  obtain ⟨hname, hspots⟩ := h.full p hp
  obtain ⟨c, hc⟩ := exists_mem_of_ne_nil _ hp
  have hmem : c ∈ s.invoked.filter (poolName · = p) := by
    rw [h.queued]
    exact mem_append_right _ hc
  obtain ⟨hinvoked, hpool⟩ := mem_filter.mp hmem
  obtain rfl := of_decide_eq_true hpool
  have hdepth := (hdeep c hinvoked).resolve_left hname
  have hlength := h.spots (poolName c) hname
  have hpos : 0 < (s.inner.filter (poolName · = poolName c)).length := by omega
  obtain ⟨c', hc'⟩ := exists_mem_of_length_pos hpos
  exact ⟨c', (mem_filter.mp hc').1, of_decide_eq_true (mem_filter.mp hc').2⟩

theorem Pooled.perm_of_inner_nil [DecidableEq α]
    (hdeep : ∀ c ∈ s.invoked, poolName c = [] ∨ 1 ≤ depth (poolName c)) (hinner : s.inner = []) :
    s.finished.Perm s.invoked := by
  have hdelayed : ∀ p, s.runner.delayedCommands p = [] := by
    intro p
    by_contra hp
    obtain ⟨c, hc, -⟩ := h.exists_inner hdeep hp
    rw [hinner] at hc
    nomatch hc
  have hhanded : s.handed.Perm s.invoked := perm_iff_count.mpr fun a => by
    rw [h.count_invoked, hdelayed, count_nil, Nat.add_zero]
  have hperm := h.perm
  rw [hinner, nil_append] at hperm
  exact hperm.symm.trans hhanded

end

end
end Pooling

/-- For all pools of a manifest, in whichever order commands are invoked and finish, when no
command belongs to a pool without spots. In a callback the size is too small by the rest of the batch. -/
theorem pools_respected {α : Type} [DecidableEq α] {poolName : α → Bytes} {text : List (Bytes × List (Bytes × Bytes))}
    {pools : Finmap fun _ : Bytes => Int} (hpools : parsePools text = .ok pools) {events : List (PoolEvent α)}
    {s : Pooling α} (hrun : (Pooling.start pools).run poolName events = some s)
    (hdeep : ∀ c, .invoke c ∈ events → poolName c = [] ∨ 1 ≤ (pools.lookup (poolName c)).getD 0) :
    (∀ p, p ≠ [] → ((s.inner.filter (poolName · = p)).length : Int) ≤ (pools.lookup p).getD 0) ∧
    (∀ p, s.handed.filter (poolName · = p) <+: s.invoked.filter (poolName · = p)) ∧
    s.handed.Subperm s.invoked ∧ s.handed.Perm (s.inner ++ s.finished) ∧
    s.size + s.batch.length + s.finished.length = s.invoked.length ∧
    (∀ p, s.runner.delayedCommands p ≠ [] → ∃ c ∈ s.inner, poolName c = p) ∧
    ∀ (commands : List α) s', s.run poolName (commands.map .complete) = some s' →
      (commands.length < s.size + s.batch.length → s'.inner ≠ []) ∧
      (commands.length = s.size + s.batch.length → s'.finished.Perm s.invoked) := by
  have h := (Pooling.Pooled.start fun _ _ => parsePools_depth hpools).run hrun
  have hdeep : ∀ c ∈ s.invoked, poolName c = [] ∨ 1 ≤ (pools.lookup (poolName c)).getD 0 :=
    fun c hc => hdeep c ((Pooling.mem_invoked_of_run hrun hc).resolve_left (not_mem_nil))
  refine ⟨fun p hp => ?_, fun p => ⟨_, (h.queued p).symm⟩, h.handed_subperm, h.perm, h.size,
    fun p => h.exists_inner hdeep, fun commands s' hrun' => ?_⟩
  · have hspots := h.spots p hp
    have hnonneg := h.nonneg p hp
    omega
  · have h' := h.run hrun'
    obtain ⟨hinvoked, hfinished⟩ := Pooling.run_complete hrun'
    have hperm : s'.inner = [] → s'.finished.Perm s.invoked := fun hinner =>
      hinvoked ▸ h'.perm_of_inner_nil (hinvoked ▸ hdeep) hinner
    have hsize := h.size
    have hsize' := h'.size
    rw [hinvoked, hfinished, length_append] at hsize'
    refine ⟨fun hlength hinner => ?_, fun hlength => hperm ?_⟩
    · have := (hperm hinner).length_eq
      rw [hfinished, length_append] at this
      omega
    · have hbatch := h'.batched.length_le
      rw [Pooling.size] at hsize'
      exact eq_nil_of_length_eq_zero (by omega)

/-- Four commands of a pool that is two deep. Two have finished together, and the callback of the first one is
running. -/
theorem pools_respected_of_two_deep : ∃ pools s, parsePools [([97], [(depthKey, [50])])] = .ok pools ∧
      (Pooling.start pools).run (fun _ : Nat => [97])
        [.invoke 0, .invoke 1, .invoke 2, .invoke 3, .reap [0, 1], .complete 0] = some s ∧
      s.inner = [1, 2] ∧ s.runner.delayedCommands [97] = [3] ∧ s.size = 2 ∧
      ∀ (commands : List Nat) s', s.run (fun _ => [97]) (commands.map .complete) = some s' →
        (commands.length < 3 → s'.inner ≠ []) ∧ (commands.length = 3 → s'.finished.Perm [0, 1, 2, 3]) := by
  have h : ∃ pools, parsePools [([97], [(depthKey, [50])])] = .ok pools ∧ ∃ s,
      (Pooling.start pools).run (fun _ : Nat => [97])
        [.invoke 0, .invoke 1, .invoke 2, .invoke 3, .reap [0, 1], .complete 0] = some s ∧
      pools.lookup [97] = some 2 ∧ s.inner = [1, 2] ∧ s.runner.delayedCommands [97] = [3] ∧
      s.size = 2 ∧ s.batch = [1] ∧ s.invoked = [0, 1, 2, 3] := by
    decide +kernel
  obtain ⟨pools, hpools, s, hrun, hdepth, hinner, hdelayed, hsize, hbatch, hinvoked⟩ := h
  obtain ⟨-, -, -, -, -, -, hruns⟩ := pools_respected hpools hrun fun c _ => .inr (by simp [hdepth])
  rw [hsize, hbatch, hinvoked] at hruns
  exact ⟨pools, s, hpools, hrun, hinner, hdelayed, hsize, hruns⟩

/-- The parser accepts a pool without spots. A command of that pool waits although no command is
running, and none can complete. -/
theorem pool_without_spots_wedges : ∃ pools s, parsePools [([97], [(depthKey, [48])])] = .ok pools ∧
      (Pooling.start pools).run (fun _ : Nat => [97]) [.invoke 0] = some s ∧
      s.runner.delayedCommands [97] = [0] ∧ s.inner = [] ∧ s.size = 1 ∧
      ∀ command, s.next (fun _ => [97]) (.complete command) = none := by
  have h : ∃ pools, parsePools [([97], [(depthKey, [48])])] = .ok pools ∧ ∃ s,
      (Pooling.start pools).run (fun _ : Nat => [97]) [.invoke 0] = some s ∧
      s.runner.delayedCommands [97] = [0] ∧ s.inner = [] ∧ s.size = 1 := by
    decide +kernel
  obtain ⟨pools, hpools, s, hrun, hdelayed, hinner, hsize⟩ := h
  refine ⟨pools, s, hpools, hrun, hdelayed, hinner, hsize, fun command => ?_⟩
  rw [Pooling.next, hinner, if_neg not_mem_nil]

end Shuriken
