import Shuriken.Trace.Kernel
import Shuriken.Trace.WorkingDirectories

/-!
# Descriptors of a trace

Each action of the kernel is reported to the resolver.
-/
namespace Shuriken
open Function Option FileDescriptorMemo

/-- A process tree that is traced. -/
structure Traced where
  kernel : Kernel
  resolver : PathResolver

def PathResolver.observe (r : PathResolver) : Action → PathResolver × List ResolvedEvent
  | .call call => r.handle call
  | .openOther .. => (r, [])

namespace Traced

/-- The start of a trace, with the first thread of the process and the descriptors that it has
inherited. -/
def start (pid : Int32) (parent child : UInt64) (cwd : Place) (fds : Int32 → Option (Option Place × Bool)) :
    Traced where
  kernel :=
    { threads := update (fun _ => none) child (some pid)
      tables := fun _ fd => (fds fd).map fun inherited => ⟨(inherited.1.map .inherited).getD .other, inherited.2⟩
      cwds := fun _ => cwd
      threadCwds := fun _ => none }
  resolver := (PathResolver.new pid cwd.path).newThread pid parent child

inductive Reaches (Allowed : Kernel → Action → Prop) (s₀ : Traced) : Traced → Prop
  | refl : Reaches Allowed s₀ s₀
  | step {s : Traced} {action : Action} {kernel : Kernel} : Reaches Allowed s₀ s →
      Allowed s.kernel action → s.kernel.Step action kernel →
      Reaches Allowed s₀ ⟨kernel, (s.resolver.observe action).1⟩

end Traced

/-- The resolver knows the threads, the working directories, and at least the descriptors of the
files that were opened. It may miss that one of them is to be closed by `exec`. -/
structure Tracks (k : Kernel) (r : PathResolver) : Prop where
  pids : ∀ threadId, r.getPid threadId = k.threads threadId
  cwds : ∀ pid, k.Live pid → r.cwdMemo.processCwds.lookup pid = some (k.cwds pid).path
  threadCwds : ∀ threadId, r.cwdMemo.threadCwds.lookup threadId = (k.threadCwds threadId).map Place.path
  descriptors : ∀ pid, k.Live pid → ∀ fd place cloexec, k.tables pid fd = some ⟨.opened place, cloexec⟩ →
      ∃ remembered, r.fileDescriptorMemo.find pid fd = some ⟨place.path, remembered⟩ ∧
        (remembered = true → cloexec = true)

variable {k k' : Kernel} {r : PathResolver}

variable {threadId : UInt64} {pid : Int32} {path : Path} {place : Place}

theorem Kernel.live (h : k.threads threadId = some pid) : k.Live pid := ⟨threadId, h⟩

/-! The directories are kept in the same way as without descriptors. -/

def Kernel.directories (k : Kernel) : Directories where
  pids := k.threads
  cwds pid := (k.cwds pid).path
  threadCwds threadId := (k.threadCwds threadId).map Place.path

theorem Kernel.directories_effective (k : Kernel) (pid : Int32) (threadId : UInt64) :
    k.directories.effective pid threadId = (k.cwd pid threadId).path := by
  rw [Directories.effective, Kernel.cwd]
  cases hdir : k.threadCwds threadId <;> simp [Kernel.directories, hdir]

theorem Kernel.cwds_update (k : Kernel) (pid : Int32) (place : Place) :
    (fun pid' => (update k.cwds pid place pid').path) = update k.directories.cwds pid place.path := by
  funext pid'
  exact apply_update (fun _ => Place.path) k.cwds pid place pid'

theorem Kernel.threadCwds_update (k : Kernel) (threadId : UInt64) (place : Option Place) :
    (fun threadId' => (update k.threadCwds threadId place threadId').map Place.path) =
      update k.directories.threadCwds threadId (place.map Place.path) := by
  funext threadId'
  exact apply_update (fun _ => Option.map Place.path) k.threadCwds threadId place threadId'

theorem Tracks.follows (h : Tracks k r) : Follows k.directories r := ⟨h.pids, h.cwds, h.threadCwds⟩

theorem Tracks.resolve (h : Tracks k r) {atFd : Int32} (hthread : k.threads threadId = some pid)
    (horigin : k.origin threadId pid atFd path = some (.opened place)) (hpath : place.Resolvable path) :
    r.resolve threadId atFd path = ((place.walk path).path, []) := by
  have htext : r.resolveWithoutNormalization threadId atFd path = place.text path := by
    rw [PathResolver.resolveWithoutNormalization, hpath.notPrivate, Place.text]
    simp only [Bool.false_eq_true, if_false]
    split
    · rfl
    · next habsolute =>
      rw [Kernel.origin, if_neg habsolute] at horigin
      have hcwd : (if atFd = atFdCwd then r.cwdMemo.getCwd pid threadId
          else r.fileDescriptorMemo.getFileDescriptorPath pid atFd) = place.path := by
        split at horigin
        · next hcwd =>
          rw [if_pos hcwd, h.follows.getCwd hthread, Kernel.directories_effective]
          injection some.inj horigin with hplace
          rw [hplace]
        · next hfd =>
          obtain ⟨⟨object, cloexec⟩, hdescriptor, rfl⟩ := map_eq_some_iff.mp horigin
          obtain ⟨remembered, hfind, -⟩ := h.descriptors pid (Kernel.live hthread) atFd place cloexec hdescriptor
          rw [if_neg hfd, getFileDescriptorPath, hfind]
          rfl
      rw [h.pids, hthread]
      simp only [hcwd, Place.getLast?_path]
  rw [PathResolver.resolve, htext, hpath.canonicalizePath_eq]

@[simp] theorem Kernel.setDescriptor_self (pid fd : Int32) : k.setDescriptor pid fd (k.tables pid fd) = k := by
  rw [setDescriptor, update_eq_self, update_eq_self]

theorem Tracks.setDescriptor (h : Tracks k r) {fd : Int32} {descriptor : Option Descriptor} {memo : FileDescriptorMemo}
    (hothers : ∀ pid' fd', ¬(pid' = pid ∧ fd' = fd) → memo.find pid' fd' = r.fileDescriptorMemo.find pid' fd')
    (hthis : ∀ place cloexec, descriptor = some ⟨.opened place, cloexec⟩ → ∃ remembered,
      memo.find pid fd = some ⟨place.path, remembered⟩ ∧ (remembered = true → cloexec = true)) :
    Tracks (k.setDescriptor pid fd descriptor) { r with fileDescriptorMemo := memo } where
  pids := h.pids
  cwds := h.cwds
  threadCwds := h.threadCwds
  descriptors pid' hlive fd' place cloexec hdescriptor := by
    simp only [Kernel.setDescriptor] at hdescriptor
    by_cases hpid : pid' = pid
    · subst hpid
      rw [update_self] at hdescriptor
      by_cases hfd : fd' = fd
      · subst hfd
        rw [update_self] at hdescriptor
        exact hthis place cloexec hdescriptor
      · rw [update_of_ne hfd] at hdescriptor
        rw [hothers pid' fd' fun h => hfd h.2]
        exact h.descriptors pid' hlive fd' place cloexec hdescriptor
    · rw [update_of_ne hpid] at hdescriptor
      rw [hothers pid' fd' fun h => hpid h.1]
      exact h.descriptors pid' hlive fd' place cloexec hdescriptor

theorem Tracks.withPid (h : Tracks k r) (hthread : k.threads threadId = some pid)
    (f : Int32 → PathResolver × List ResolvedEvent) : r.withPid threadId f = f pid :=
  h.follows.withPid hthread f

theorem Kernel.live_of_update {child : UInt64} {pid' : Int32}
    (h : ∃ threadId, update k.threads child (some pid) threadId = some pid') : pid' = pid ∨ k.Live pid' := by
  obtain ⟨threadId, hthread⟩ := h
  by_cases hthreadId : threadId = child
  · subst hthreadId
    rw [update_self] at hthread
    exact .inl (some.inj hthread).symm
  · rw [update_of_ne hthreadId] at hthread
    exact .inr (Kernel.live hthread)

section
variable (h : Tracks k r)
include h

theorem Tracks.newThread {parent child : UInt64} (hparent : k.threads parent = some pid)
    (hchild : k.threads child = none) :
    Tracks { k with threads := update k.threads child (some pid) } (r.newThread pid parent child) := by
  have hfollows := h.follows.newThread hparent hchild
  refine ⟨hfollows.pids, hfollows.cwds, hfollows.threadCwds, ?_⟩
  intro pid' hlive
  have hlive' : k.Live pid' := by
    rcases Kernel.live_of_update hlive with rfl | hlive
    · exact Kernel.live hparent
    · exact hlive
  rw [h.follows.newThread_eq hparent hchild, if_pos rfl, if_pos rfl]
  exact h.descriptors pid' hlive'

theorem Tracks.fork {ppid : Int32} {parent child : UInt64} (hparent : k.threads parent = some ppid)
    (hchild : k.threads child = none) (hfresh : ¬k.Live pid) : Tracks { k with
        threads := update k.threads child (some pid)
        tables := update k.tables pid (k.tables ppid)
        cwds := update k.cwds pid (k.cwd ppid parent) } (r.newThread pid parent child) := by
  have hfollows := h.follows.fork hparent hchild hfresh
  rw [Kernel.directories_effective, ← Kernel.cwds_update] at hfollows
  refine ⟨hfollows.pids, hfollows.cwds, hfollows.threadCwds, ?_⟩
  intro pid' hlive fd place cloexec hdescriptor
  have hppid : ppid ≠ pid := Directories.ne_of_not_live (m := k.directories) hparent hfresh
  rw [h.follows.newThread_eq hparent hchild, if_neg hppid, if_neg hppid, find_fork]
  by_cases heq : pid' = pid
  · subst heq
    simp only [update_self] at hdescriptor
    have hfound := h.descriptors ppid (Kernel.live hparent) fd place cloexec hdescriptor
    -- the parent is known to the memo, since one of its descriptors is
    have hknown : (r.fileDescriptorMemo.processes.lookup ppid).isSome = true := by
      obtain ⟨remembered, hfind, -⟩ := hfound
      rw [find] at hfind
      obtain ⟨processInfo, hprocess, -⟩ := bind_eq_some_iff.mp hfind
      rw [hprocess]
      rfl
    rw [if_pos ⟨rfl, hknown⟩]
    exact hfound
  · simp only [update_of_ne heq] at hdescriptor
    rw [if_neg fun h => heq h.1]
    exact h.descriptors pid' ((Kernel.live_of_update hlive).resolve_left heq) fd place cloexec hdescriptor

theorem Tracks.terminateThread (threadId : UInt64) : Tracks { k with
        threads := update k.threads threadId none
        threadCwds := update k.threadCwds threadId none } (r.terminateThread threadId) := by
  have hfollows := h.follows.terminateThread threadId
  rw [← map_none Place.path, ← Kernel.threadCwds_update] at hfollows
  refine ⟨hfollows.pids, hfollows.cwds, hfollows.threadCwds, ?_⟩
  rintro pid ⟨threadId', hthread⟩
  by_cases heq : threadId' = threadId
  · subst heq
    simp only [update_self] at hthread
    nomatch hthread
  · simp only [update_of_ne heq] at hthread
    exact h.descriptors pid (Kernel.live hthread)

theorem Tracks.chdir (pid : Int32) (place : Place) :
    Tracks { k with cwds := update k.cwds pid place } { r with cwdMemo := r.cwdMemo.chdir pid place.path } := by
  have hfollows := h.follows.chdir pid place.path
  rw [← Kernel.cwds_update] at hfollows
  exact ⟨hfollows.pids, hfollows.cwds, hfollows.threadCwds, h.descriptors⟩

theorem Tracks.threadChdir (threadId : UInt64) (place : Place) :
    Tracks { k with threadCwds := update k.threadCwds threadId (some place) }
      { r with cwdMemo := r.cwdMemo.threadChdir threadId place.path } := by
  have hfollows := h.follows.threadChdir threadId place.path
  rw [← map_some, ← Kernel.threadCwds_update] at hfollows
  exact ⟨hfollows.pids, hfollows.cwds, hfollows.threadCwds, h.descriptors⟩

theorem Tracks.exec (pid : Int32) :
    Tracks { k with tables := update k.tables pid fun fd => (k.tables pid fd).filter (!·.cloexec) }
      { r with fileDescriptorMemo := r.fileDescriptorMemo.exec pid } where
  pids := h.pids
  cwds := h.cwds
  threadCwds := h.threadCwds
  descriptors pid' hlive fd place cloexec hdescriptor := by
    rw [find_exec]
    by_cases heq : pid' = pid
    · subst heq
      simp only [update_self, filter_eq_some_iff] at hdescriptor
      obtain ⟨hdescriptor, hkept⟩ := hdescriptor
      obtain ⟨remembered, hfind, hremembered⟩ := h.descriptors pid' hlive fd place cloexec hdescriptor
      have hforgotten : remembered = false := by
        refine Bool.eq_false_iff.mpr fun htrue => ?_
        simp [hremembered htrue] at hkept
      refine ⟨remembered, ?_, hremembered⟩
      rw [if_pos rfl, hfind]
      exact filter_eq_some_iff.mpr ⟨rfl, by simp [hforgotten]⟩
    · simp only [update_of_ne heq] at hdescriptor
      rw [if_neg heq]
      exact h.descriptors pid' hlive fd place cloexec hdescriptor

theorem Tracks.resolve_of_clear {atFd : Int32} (hthread : k.threads threadId = some pid)
    (hfinds : k.Finds threadId pid atFd path place)
    (hclear : ∀ pid object, k.threads threadId = some pid → k.origin threadId pid atFd path = some object → ∃ place,
      object = .opened place ∧ place.Resolvable path) :
    r.resolve threadId atFd path = ((place.walk path).path, []) := by
  obtain ⟨object, horigin, hplace⟩ := hfinds
  obtain ⟨place, rfl, hpath⟩ := hclear pid object hthread horigin
  cases hplace
  exact h.resolve hthread horigin hpath

theorem Tracks.step {action : Action} (hclear : k.Clear action) (hstep : k.Step action k') :
    Tracks k' (r.observe action).1 := by
  cases hstep with
  | newThread hparent hchild => exact h.newThread hparent hchild
  | fork hparent hchild hfresh => exact h.fork hparent hchild hfresh
  | @terminateThread threadId => exact h.terminateThread threadId
  | fileEvent => exact h
  | @openFile threadId pid fd atFd path cloexec place hthread hfinds =>
    rw [PathResolver.observe, PathResolver.handle, PathResolver.openFile, h.withPid hthread,
      h.resolve_of_clear hthread hfinds hclear]
    refine h.setDescriptor (fun pid' fd' hne => by rw [find_openFile, if_neg hne]) ?_
    intro place' cloexec' hdescriptor
    obtain ⟨⟨⟩, rfl⟩ := Descriptor.mk.inj (some.inj hdescriptor)
    exact ⟨cloexec, by rw [find_openFile, if_pos ⟨rfl, rfl⟩], fun h => h⟩
  | openOther => exact h.setDescriptor (fun _ _ _ => rfl) (by simp)
  | @dup threadId pid fromFd toFd cloexec descriptor hthread hfrom hne =>
    rw [PathResolver.observe, PathResolver.handle, PathResolver.dup, h.withPid hthread]
    refine h.setDescriptor (fun pid' fd' hne => by rw [find_dup, if_neg hne]) ?_
    intro place cloexec' hdescriptor
    obtain ⟨hobject, rfl⟩ := Descriptor.mk.inj (some.inj hdescriptor)
    obtain ⟨remembered, hfind, -⟩ := h.descriptors pid (Kernel.live hthread) fromFd place
      descriptor.cloexec (by rw [hfrom, ← hobject])
    exact ⟨cloexec, by rw [find_dup, if_pos ⟨rfl, rfl⟩, hfind]; rfl, fun h => h⟩
  | @dupSame threadId pid fd descriptor hthread hfd =>
    rw [PathResolver.observe, PathResolver.handle, PathResolver.dup, h.withPid hthread,
      ← Kernel.setDescriptor_self (k := k) pid fd]
    refine h.setDescriptor (fun pid' fd' hne => by rw [find_dup, if_neg hne]) ?_
    intro place cloexec hdescriptor
    obtain ⟨remembered, hfind, -⟩ := h.descriptors pid (Kernel.live hthread) fd place cloexec hdescriptor
    exact ⟨false, by rw [find_dup, if_pos ⟨rfl, rfl⟩, hfind]; rfl, by simp⟩
  | @setCloexec threadId pid fd cloexec descriptor hthread hfd =>
    rw [PathResolver.observe, PathResolver.handle, PathResolver.setCloexec, h.withPid hthread]
    refine h.setDescriptor (fun pid' fd' hne => by rw [find_setCloexec, if_neg hne]) ?_
    intro place cloexec' hdescriptor
    obtain ⟨hobject, rfl⟩ := Descriptor.mk.inj (some.inj hdescriptor)
    obtain ⟨remembered, hfind, -⟩ := h.descriptors pid (Kernel.live hthread) fd place
      descriptor.cloexec (by rw [hfd, ← hobject])
    exact ⟨cloexec, by rw [find_setCloexec, if_pos ⟨rfl, rfl⟩, hfind]; rfl, fun h => h⟩
  | @setCloexecFailed threadId pid fd cloexec hthread hfd =>
    rw [PathResolver.observe, PathResolver.handle, PathResolver.setCloexec, h.withPid hthread,
      ← Kernel.setDescriptor_self (k := k) pid fd, hfd]
    exact h.setDescriptor (fun pid' fd' hne => by rw [find_setCloexec, if_neg hne]) (by simp)
  | @close threadId pid fd descriptor hthread =>
    rw [PathResolver.observe, PathResolver.handle, PathResolver.close, h.withPid hthread]
    exact h.setDescriptor (fun pid' fd' hne => by rw [find_close, if_neg hne]) (by simp)
  | @chdir threadId pid atFd path place hthread hfinds =>
    rw [PathResolver.observe, PathResolver.handle, PathResolver.chdir, h.withPid hthread,
      h.resolve_of_clear hthread hfinds hclear]
    exact h.chdir pid _
  | @threadChdir threadId pid atFd path place hthread hfinds =>
    rw [PathResolver.observe, PathResolver.handle, PathResolver.threadChdir, h.resolve_of_clear hthread hfinds hclear]
    exact h.threadChdir threadId _
  | @exec threadId pid hthread =>
    rw [PathResolver.observe, PathResolver.handle, PathResolver.exec, h.withPid hthread]
    exact h.exec pid

end

theorem Tracks.start (pid : Int32) (parent child : UInt64) (cwd : Place) (fds : Int32 → Option (Option Place × Bool)) :
    Tracks (Traced.start pid parent child cwd fds).kernel (Traced.start pid parent child cwd fds).resolver := by
  have hfollows := follows_start pid parent child cwd.path
  refine ⟨hfollows.pids, hfollows.cwds, hfollows.threadCwds, ?_⟩
  intro pid' _ fd place cloexec hdescriptor
  obtain ⟨⟨inherited, cloexec'⟩, -, hobject⟩ := map_eq_some_iff.mp hdescriptor
  cases inherited <;> nomatch (Descriptor.mk.inj hobject).1

theorem Traced.Reaches.tracks {s₀ s : Traced} (hreaches : Traced.Reaches Kernel.Clear s₀ s)
    (hstart : Tracks s₀.kernel s₀.resolver) : Tracks s.kernel s.resolver := by
  induction hreaches with
  | refl => exact hstart
  | step _ hclear hstep ih => exact ih.step hclear hstep

/-- In every run of a traced process tree in which paths are looked up from places that the trace has
led to, and can be resolved, the delegate gets the path of the place to which the path leads. -/
theorem traced_paths_are_resolved {pid : Int32} {parent child : UInt64} {cwd : Place}
    {fds : Int32 → Option (Option Place × Bool)} {s : Traced}
    (hreaches : Traced.Reaches Kernel.Clear (Traced.start pid parent child cwd fds) s)
    {threadId : UInt64} {pid' : Int32} {type : EventType} {atFd : Int32} {path : Path} {place : Place}
    (hthread : s.kernel.threads threadId = some pid') (htype : type ≠ .fatalError)
    (hfinds : s.kernel.Finds threadId pid' atFd path place)
    (hclear : s.kernel.Clear (.call (.fileEvent threadId type atFd path))) :
    (s.resolver.handle (.fileEvent threadId type atFd path)).2 = [(type, (place.walk path).path)] := by
  have htracks := hreaches.tracks (Tracks.start pid parent child cwd fds)
  rw [PathResolver.handle, PathResolver.fileEvent, if_neg htype, htracks.resolve_of_clear hthread hfinds hclear]
  rfl

def emptyTrace : Traced := .start 1 0 1 .root fun _ => none

def homeCall : DelegateCall := .openFile 1 3 atFdCwd [47, 104] false

def home : Place := Place.root.walk [47, 104]

def homeTrace : Traced where
  kernel := emptyTrace.kernel.setDescriptor 1 3 (some ⟨.opened home, false⟩)
  resolver := (emptyTrace.resolver.observe (.call homeCall)).1

theorem homeTrace_reached {Allowed : Kernel → Action → Prop}
    (h : Allowed emptyTrace.kernel (.call homeCall)) : Traced.Reaches Allowed emptyTrace homeTrace :=
  .step .refl h (.openFile rfl ⟨.opened .root, rfl, rfl⟩ rfl)

theorem homeTrace_finds (h : path.head? ≠ some slash) : homeTrace.kernel.origin 1 1 3 path = some (.opened home) := by
  rw [Kernel.origin, if_neg h, if_neg (by decide)]
  rfl

/-- A file in the directory. -/
theorem traced_paths_are_resolved_in_home : Traced.Reaches Kernel.Clear emptyTrace homeTrace ∧
      homeTrace.kernel.Finds 1 1 3 [120] home ∧
      (homeTrace.resolver.handle (.fileEvent 1 .read 3 [120])).2 = [(.read, (home.walk [120]).path)] := by
  have hopen : Kernel.Clear emptyTrace.kernel (.call homeCall) := by
    intro pid object _ horigin
    cases horigin
    exact ⟨.root, rfl, by decide, by decide, ⟨[47, 104], by decide⟩⟩
  have hfinds : homeTrace.kernel.origin 1 1 3 [120] = some (.opened home) := homeTrace_finds (by decide)
  have hfile : Kernel.Clear homeTrace.kernel (.call (.fileEvent 1 .read 3 [120])) := by
    intro pid object hthread horigin
    cases hthread
    cases hfinds.symm.trans horigin
    exact ⟨home, rfl, by decide, by decide, ⟨[47, 104, 47, 120], by decide⟩⟩
  have hreaches := homeTrace_reached hopen
  exact ⟨hreaches, ⟨_, hfinds, rfl⟩, traced_paths_are_resolved hreaches rfl (by decide) ⟨_, hfinds, rfl⟩ hfile⟩

/-- A file below `private/tmp` in the directory is reported as one below `/private/tmp`. -/
theorem private_path_is_taken_for_absolute : Traced.Reaches (fun _ _ => True) emptyTrace homeTrace ∧
      homeTrace.kernel.Step (.call (.fileEvent 1 .read 3 (kTmp ++ [120]))) homeTrace.kernel ∧
      homeTrace.kernel.Finds 1 1 3 (kTmp ++ [120]) home ∧
      (homeTrace.resolver.handle (.fileEvent 1 .read 3 (kTmp ++ [120]))).2 = [(.read, slash :: (kTmp ++ [120]))] ∧
      slash :: (kTmp ++ [120]) ≠ (home.walk (kTmp ++ [120])).path := by
  have hfinds : homeTrace.kernel.Finds 1 1 3 (kTmp ++ [120]) home := ⟨_, homeTrace_finds (by decide), rfl⟩
  exact ⟨homeTrace_reached trivial, .fileEvent rfl (by decide) hfinds, hfinds, by decide +kernel, by decide⟩

end Shuriken
