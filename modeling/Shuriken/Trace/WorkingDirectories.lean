import Shuriken.Fs.NormalForm
import Shuriken.Trace.PathResolver

/-!
# Working directories of a trace

A process has a working directory, and each of its threads can have one of its
own. The resolver keeps the same texts, as long as the paths that directories are
changed to are not misread.
-/
namespace Shuriken
open Option Function Finmap

/-- The threads that are alive, with their processes, and the directories. -/
structure Directories where
  pids : UInt64 → Option Int32
  cwds : Int32 → Path
  threadCwds : UInt64 → Option Path

namespace Directories
variable (m : Directories)

def Live (pid : Int32) : Prop := ∃ threadId, m.pids threadId = some pid

def effective (pid : Int32) (threadId : UInt64) : Path := (m.threadCwds threadId).getD (m.cwds pid)

def FromCwd (path : Path) (atFd : Int32) : Prop := path.head? = some slash ∨ atFd = atFdCwd

def isNeutral : DelegateCall → Bool
  | .fileEvent .. | .openFile .. | .dup .. | .setCloexec .. | .close .. | .exec .. => true
  | .newThread .. | .terminateThread .. | .chdir .. | .threadChdir .. => false

inductive Step : DelegateCall → Directories → Prop
  | newThread {pid : Int32} {parent child : UInt64} : m.pids parent = some pid → m.pids child = none →
      Step (.newThread pid parent child)
        { m with
          pids := update m.pids child (some pid)
          threadCwds := update m.threadCwds child none }
  | fork {ppid pid : Int32} {parent child : UInt64} : m.pids parent = some ppid → m.pids child = none →
      ¬m.Live pid → Step (.newThread pid parent child)
        { pids := update m.pids child (some pid)
          cwds := update m.cwds pid (m.effective ppid parent)
          threadCwds := update m.threadCwds child none }
  | terminateThread {threadId : UInt64} {pid : Int32} : m.pids threadId = some pid → Step (.terminateThread threadId)
        { m with
          pids := update m.pids threadId none
          threadCwds := update m.threadCwds threadId none }
  | chdir {threadId : UInt64} {pid atFd : Int32} {path : Path} : m.pids threadId = some pid →
      FromCwd path atFd → Step (.chdir threadId path atFd)
        { m with cwds := update m.cwds pid (normalForm (joinPath (m.effective pid threadId) path)) }
  | threadChdir {threadId : UInt64} {pid atFd : Int32} {path : Path} : m.pids threadId = some pid →
      FromCwd path atFd → Step (.threadChdir threadId path atFd)
        { m with
          threadCwds := update m.threadCwds threadId
            (some (normalForm (joinPath (m.effective pid threadId) path))) }
  | neutral {call : DelegateCall} : isNeutral call = true → Step call m

def start (pid : Int32) (child : UInt64) (cwd : Path) : Directories where
  pids := update (fun _ => none) child (some pid)
  cwds := fun _ => cwd
  threadCwds := fun _ => none

end Directories

def resolvedText (dir path : Path) : Path := if isPrivate path then slash :: path else joinPath dir path

/-- The path is not misread: there are not too many components, the path does not end above where
the text starts, and it makes no difference that a path below `private` is taken for absolute. -/
structure Resolves (dir path : Path) : Prop where
  shallow : ∃ result, canonicalizePath (resolvedText dir path) = .ok result
  below : ¬EndsAbove (resolvedText dir path)
  notMoved : normalForm (resolvedText dir path) = normalForm (joinPath dir path)

/-- The directories are changed to paths that are not misread. -/
def Directories.Clear (m : Directories) : DelegateCall → Prop
  | .chdir threadId path _ | .threadChdir threadId path _ =>
    0 ∉ path ∧ ∀ pid, m.pids threadId = some pid → Resolves (m.effective pid threadId) path
  | _ => True

/-- Runs of the model and the resolver, side by side. -/
inductive Directories.Reaches (pid : Int32) (parent child : UInt64) (cwd : Path) : Directories → PathResolver → Prop
  | start : Reaches pid parent child cwd (.start pid child cwd) ((PathResolver.new pid cwd).newThread pid parent child)
  | step {m m' : Directories} {r : PathResolver} {call : DelegateCall} : Reaches pid parent child cwd m r →
      m.Clear call → m.Step call m' → Reaches pid parent child cwd m' (r.handle call).1

variable {m : Directories} {r : PathResolver}

theorem Directories.ne_of_not_live {ppid pid : Int32} {parent : UInt64} (hparent : m.pids parent = some ppid)
    (hfresh : ¬m.Live pid) : ppid ≠ pid := by
  rintro rfl
  exact hfresh ⟨parent, hparent⟩

structure Follows (m : Directories) (r : PathResolver) : Prop where
  pids : ∀ threadId, r.getPid threadId = m.pids threadId
  cwds : ∀ pid, m.Live pid → r.cwdMemo.processCwds.lookup pid = some (m.cwds pid)
  threadCwds : ∀ threadId, r.cwdMemo.threadCwds.lookup threadId = m.threadCwds threadId

namespace Follows
variable {m : Directories} {r : PathResolver} (h : Follows m r)
include h

variable {threadId : UInt64} {pid : Int32} {path : Path} {parent child : UInt64}

section
variable (hthread : m.pids threadId = some pid)
include hthread

theorem getCwd : r.cwdMemo.getCwd pid threadId = m.effective pid threadId := by
  rw [CwdMemo.getCwd, h.threadCwds, Directories.effective]
  cases m.threadCwds threadId with
  | some cwd => rfl
  | none => simp [h.cwds pid ⟨threadId, hthread⟩]

theorem withPid (f : Int32 → PathResolver × List ResolvedEvent) : r.withPid threadId f = f pid := by
  rw [PathResolver.withPid, h.pids, hthread]

theorem resolveWithoutNormalization_eq {atFd : Int32} (hpath : Directories.FromCwd path atFd) :
    r.resolveWithoutNormalization threadId atFd path = resolvedText (m.effective pid threadId) path := by
  rw [PathResolver.resolveWithoutNormalization, resolvedText, joinPath]
  cases hprivate : isPrivate path with
  | true => rfl
  | false =>
    simp only [Bool.false_eq_true, if_false]
    split
    · rfl
    · next hrelative =>
      rw [h.pids, hthread]
      simp only [if_pos (hpath.resolve_left hrelative), h.getCwd hthread]

theorem resolve_eq {atFd : Int32} (hpath : Directories.FromCwd path atFd)
    (hresolves : Resolves (m.effective pid threadId) path) :
    r.resolve threadId atFd path = (normalForm (joinPath (m.effective pid threadId) path), []) := by
  obtain ⟨result, hresult⟩ := hresolves.shallow
  rw [PathResolver.resolve, h.resolveWithoutNormalization_eq hthread hpath, hresult,
    eq_normalForm_of_ok hresult hresolves.below, hresolves.notMoved]

end

theorem newThread_eq {ppid : Int32} (hparent : m.pids parent = some ppid) (hchild : m.pids child = none) :
    r.newThread pid parent child =
      { pids := r.pids.insert child pid
        cwdMemo := if ppid = pid then r.cwdMemo else r.cwdMemo.fork ppid parent pid
        fileDescriptorMemo :=
          if ppid = pid then r.fileDescriptorMemo else r.fileDescriptorMemo.fork ppid pid } := by
  have hne : parent ≠ child := by
    rintro rfl
    nomatch hparent.symm.trans hchild
  have hpid : (r.pids.insert child pid).lookup parent = some ppid := by
    rw [lookup_insert_of_ne _ hne]
    exact (h.pids parent).trans hparent
  rw [PathResolver.newThread]
  simp only [PathResolver.getPid, hpid]
  split <;> rfl

theorem newThread (hparent : m.pids parent = some pid) (hchild : m.pids child = none) :
    Follows { m with pids := update m.pids child (some pid) } (r.newThread pid parent child) := by
  rw [h.newThread_eq hparent hchild, if_pos rfl]
  refine ⟨lookup_insert_eq_update h.pids child pid, ?_, h.threadCwds⟩
  rintro pid' ⟨threadId, hthread⟩
  by_cases heq : threadId = child
  · subst heq
    simp only [update_self] at hthread
    exact h.cwds pid' ⟨parent, some.inj hthread ▸ hparent⟩
  · simp only [update_of_ne heq] at hthread
    exact h.cwds pid' ⟨threadId, hthread⟩

theorem fork {ppid : Int32} (hparent : m.pids parent = some ppid) (hchild : m.pids child = none)
    (hfresh : ¬m.Live pid) :
    Follows
      { m with
        pids := update m.pids child (some pid)
        cwds := update m.cwds pid (m.effective ppid parent) } (r.newThread pid parent child) := by
  rw [h.newThread_eq hparent hchild, if_neg (Directories.ne_of_not_live hparent hfresh)]
  refine ⟨lookup_insert_eq_update h.pids child pid, ?_, h.threadCwds⟩
  rintro pid' ⟨threadId, hthread⟩
  by_cases heq : pid' = pid
  · subst heq
    simp only [CwdMemo.fork, lookup_insert, update_self, h.getCwd hparent]
  · simp only [CwdMemo.fork, lookup_insert_of_ne _ heq, update_of_ne heq]
    have hthreadId : threadId ≠ child := by
      rintro rfl
      simp only [update_self] at hthread
      exact heq (some.inj hthread).symm
    simp only [update_of_ne hthreadId] at hthread
    exact h.cwds pid' ⟨threadId, hthread⟩

theorem terminateThread (threadId : UInt64) : Follows { m with
        pids := update m.pids threadId none
        threadCwds := update m.threadCwds threadId none } (r.terminateThread threadId) := by
  refine ⟨lookup_erase_eq_update h.pids threadId, ?_, lookup_erase_eq_update h.threadCwds threadId⟩
  rintro pid ⟨threadId', hthread⟩
  by_cases heq : threadId' = threadId
  · subst heq
    simp only [update_self] at hthread
    nomatch hthread
  · simp only [update_of_ne heq] at hthread
    exact h.cwds pid ⟨threadId', hthread⟩

theorem chdir (pid : Int32) (dir : Path) :
    Follows { m with cwds := update m.cwds pid dir } { r with cwdMemo := r.cwdMemo.chdir pid dir } := by
  refine ⟨h.pids, ?_, h.threadCwds⟩
  intro pid' hlive
  by_cases heq : pid' = pid
  · subst heq
    simp [CwdMemo.chdir]
  · simp only [CwdMemo.chdir, lookup_insert_of_ne _ heq, update_of_ne heq]
    exact h.cwds pid' hlive

theorem threadChdir (threadId : UInt64) (dir : Path) :
    Follows { m with threadCwds := update m.threadCwds threadId (some dir) }
      { r with cwdMemo := r.cwdMemo.threadChdir threadId dir } :=
  ⟨h.pids, h.cwds, lookup_insert_eq_update h.threadCwds threadId dir⟩

theorem withPid_descriptors {f : Int32 → FileDescriptorMemo × List ResolvedEvent} :
    Follows m (r.withPid threadId fun pid => ({ r with fileDescriptorMemo := (f pid).1 }, (f pid).2)).1 := by
  rw [PathResolver.withPid]
  split
  · exact h
  · exact ⟨h.pids, h.cwds, h.threadCwds⟩

theorem neutral {call : DelegateCall} (hcall : Directories.isNeutral call = true) : Follows m (r.handle call).1 := by
  cases call with
  | fileEvent => exact h
  | openFile threadId fd atFd path cloexec =>
    exact h.withPid_descriptors (f := fun pid => (_, _))
  | dup | setCloexec | close | exec => exact h.withPid_descriptors (f := fun pid => (_, _))
  | newThread | terminateThread | chdir | threadChdir => nomatch hcall

end Follows

theorem follows_start (pid : Int32) (parent child : UInt64) (cwd : Path) :
    Follows (.start pid child cwd) ((PathResolver.new pid cwd).newThread pid parent child) := by
  have hresolver : (PathResolver.new pid cwd).newThread pid parent child =
      { PathResolver.new pid cwd with pids := (∅ : Finmap _).insert child pid } := by
    simp only [PathResolver.newThread, PathResolver.getPid]
    by_cases hparent : parent = child
    · subst hparent
      simp [PathResolver.new]
    · simp [PathResolver.new, lookup_insert_of_ne _ hparent]
  rw [hresolver]
  have hpids := lookup_insert_eq_update (m := (∅ : Finmap fun _ : UInt64 => Int32)) (f := fun _ => none)
    (fun _ => rfl) child pid
  refine ⟨hpids, ?_, fun _ => rfl⟩
  rintro pid' ⟨threadId, hthread⟩
  have hpid : pid' = pid := by
    by_cases heq : threadId = child
    · subst heq
      simp only [Directories.start, update_self] at hthread
      exact (some.inj hthread).symm
    · simp only [Directories.start, update_of_ne heq] at hthread
      nomatch hthread
  subst hpid
  exact lookup_singleton_eq

theorem zero_not_mem_resolvedText {dir path : Path} (hdir : 0 ∉ dir) (hpath : 0 ∉ path) :
    0 ∉ resolvedText dir path := by
  rw [resolvedText]
  split
  · exact fun hmem => (List.mem_cons.mp hmem).elim (by decide) hpath
  · exact zero_not_mem_joinPath hdir hpath

/-- Threads that are not alive have no directory, and no directory has a zero in it. -/
structure Directories.Valid (m : Directories) : Prop where
  idle : ∀ threadId, m.pids threadId = none → m.threadCwds threadId = none
  cwds : ∀ pid, 0 ∉ m.cwds pid
  threadCwds : ∀ threadId, ∀ dir ∈ m.threadCwds threadId, 0 ∉ dir

namespace Directories
variable {m m' : Directories}

theorem Valid.effective (h : m.Valid) (pid : Int32) (threadId : UInt64) : 0 ∉ m.effective pid threadId := by
  rw [Directories.effective]
  cases hdir : m.threadCwds threadId with
  | none => exact h.cwds pid
  | some dir => exact h.threadCwds threadId dir hdir

theorem Valid.joined (h : m.Valid) {path : Path} (hpath : 0 ∉ path) (pid : Int32) (threadId : UInt64) :
    0 ∉ normalForm (joinPath (m.effective pid threadId) path) :=
  zero_not_mem_normalForm (zero_not_mem_joinPath (h.effective pid threadId) hpath)

variable {child : UInt64}

theorem Valid.update_child (h : m.Valid) (hchild : m.pids child = none) :
    update m.threadCwds child none = m.threadCwds :=
  update_eq_self_iff.mpr (h.idle child hchild).symm

theorem Valid.idle_of_update (h : m.Valid) {pid : Int32} (threadId : UInt64)
    (hthread : update m.pids child (some pid) threadId = none) : m.threadCwds threadId = none := by
  have heq : threadId ≠ child := by
    rintro rfl
    rw [update_self] at hthread
    nomatch hthread
  rw [update_of_ne heq] at hthread
  exact h.idle threadId hthread

theorem Valid.step {call : DelegateCall} (h : m.Valid) (hclear : m.Clear call) (hstep : m.Step call m') : m'.Valid := by
  cases hstep with
  | newThread hparent hchild =>
    rw [h.update_child hchild]
    exact ⟨h.idle_of_update, h.cwds, h.threadCwds⟩
  | @fork ppid pid parent child hparent hchild hfresh =>
    rw [h.update_child hchild]
    refine ⟨h.idle_of_update, ?_, h.threadCwds⟩
    exact (forall_update_iff m.cwds fun _ dir => 0 ∉ dir).mpr
      ⟨h.effective ppid parent, fun pid' _ => h.cwds pid'⟩
  | @terminateThread threadId =>
    refine ⟨?_, h.cwds, ?_⟩
    · intro threadId' hthread
      by_cases heq : threadId' = threadId
      · rw [heq]
        exact update_self ..
      · simp only [update_of_ne heq] at hthread ⊢
        exact h.idle threadId' hthread
    · exact (forall_update_iff m.threadCwds fun _ dirs => ∀ dir ∈ dirs, 0 ∉ dir).mpr
        ⟨nofun, fun threadId' _ => h.threadCwds threadId'⟩
  | @chdir threadId pid =>
    refine ⟨h.idle, ?_, h.threadCwds⟩
    exact (forall_update_iff m.cwds fun _ dir => 0 ∉ dir).mpr
      ⟨h.joined hclear.1 pid threadId, fun pid' _ => h.cwds pid'⟩
  | @threadChdir threadId pid atFd path hthread =>
    refine ⟨?_, h.cwds, ?_⟩
    · intro threadId' hnone
      have heq : threadId' ≠ threadId := by
        rintro rfl
        nomatch hthread.symm.trans hnone
      simp only [update_of_ne heq]
      exact h.idle threadId' hnone
    · refine (forall_update_iff m.threadCwds fun _ dirs => ∀ dir ∈ dirs, 0 ∉ dir).mpr
        ⟨?_, fun threadId' _ => h.threadCwds threadId'⟩
      intro dir hdir
      rw [← some.inj hdir]
      exact h.joined hclear.1 pid threadId
  | neutral => exact h

end Directories

theorem Follows.step {m' : Directories} {call : DelegateCall} (h : Follows m r) (hvalid : m.Valid)
    (hclear : m.Clear call) (hstep : m.Step call m') : Follows m' (r.handle call).1 := by
  cases hstep with
  | newThread hparent hchild =>
    rw [hvalid.update_child hchild]
    exact h.newThread hparent hchild
  | fork hparent hchild hfresh =>
    rw [hvalid.update_child hchild]
    exact h.fork hparent hchild hfresh
  | @terminateThread threadId => exact h.terminateThread threadId
  | @chdir threadId pid atFd path hthread hpath =>
    rw [PathResolver.handle, PathResolver.chdir, h.withPid hthread, h.resolve_eq hthread hpath (hclear.2 pid hthread)]
    exact h.chdir pid _
  | @threadChdir threadId pid atFd path hthread hpath =>
    rw [PathResolver.handle, PathResolver.threadChdir, h.resolve_eq hthread hpath (hclear.2 pid hthread)]
    exact h.threadChdir threadId _
  | neutral hcall => exact h.neutral hcall

theorem Directories.Reaches.follows {pid : Int32} {parent child : UInt64} {cwd : Path} (hcwd : 0 ∉ cwd)
    (h : Directories.Reaches pid parent child cwd m r) : m.Valid ∧ Follows m r := by
  induction h with
  | start => exact ⟨⟨fun _ _ => rfl, fun _ => hcwd, nofun⟩, follows_start pid parent child cwd⟩
  | step _ hclear hstep ih => exact ⟨ih.1.step hclear hstep, ih.2.step ih.1 hclear hstep⟩

/-- A file event is reported with the canonical path exactly if the path is not misread. -/
theorem file_event_is_reported_iff {pid : Int32} {parent child : UInt64} {cwd : Path} {m : Directories}
    {r : PathResolver} (hcwd : 0 ∉ cwd) (hreaches : Directories.Reaches pid parent child cwd m r)
    {threadId : UInt64} {pid' : Int32} {type : EventType} {path : Path}
    (hthread : m.pids threadId = some pid') (htype : type ≠ .fatalError) (hpath : 0 ∉ path) :
    (r.handle (.fileEvent threadId type atFdCwd path)).2 =
        [(type, normalForm (joinPath (m.effective pid' threadId) path))] ↔
      Resolves (m.effective pid' threadId) path := by
  obtain ⟨hvalid, hfollows⟩ := hreaches.follows hcwd
  have hdir := hvalid.effective pid' threadId
  rw [PathResolver.handle, PathResolver.fileEvent, if_neg htype]
  constructor
  · intro hreported
    rw [PathResolver.resolve, hfollows.resolveWithoutNormalization_eq hthread (.inr rfl)] at hreported
    cases hresult : canonicalizePath (resolvedText (m.effective pid' threadId) path) with
    | error error =>
      -- the error is reported too
      rw [hresult] at hreported
      exact absurd (congrArg List.length hreported) (by simp)
    | ok result =>
      rw [hresult] at hreported
      have hpair := List.singleton_inj.mp hreported
      rw [(Prod.mk.inj hpair).2] at hresult
      obtain ⟨hshallow, hbelow, hnormal⟩ := (canonicalizePath_eq_normalForm_iff
        (zero_not_mem_resolvedText hdir hpath) (zero_not_mem_joinPath hdir hpath)).mp hresult
      exact ⟨hshallow, hbelow, hnormal⟩
  · intro hresolves
    rw [hfollows.resolve_eq hthread (.inr rfl) hresolves]
    rfl

def changedDirectories : Directories := { Directories.start 1 1 [47, 104] with
    cwds := update (fun _ => [47, 104]) 1 (normalForm (joinPath [47, 104] [97])) }

/-- Then it reads `../x`. -/
theorem file_event_is_reported_after_chdir : ∃ r, Directories.Reaches 1 0 1 [47, 104] changedDirectories r ∧
    (r.handle (.fileEvent 1 .read atFdCwd [46, 46, 47, 120])).2 = [(.read, [47, 104, 47, 120])] := by
  have hchdir : Resolves [47, 104] [97] := ⟨⟨[47, 104, 47, 97], by decide⟩, by decide, by decide⟩
  have hread : Resolves [47, 104, 47, 97] [46, 46, 47, 120] := ⟨⟨[47, 104, 47, 120], by decide⟩, by decide, by decide⟩
  have hreaches : Directories.Reaches 1 0 1 [47, 104] changedDirectories _ :=
    .step .start (show Directories.Clear _ (.chdir 1 [97] atFdCwd) from
      ⟨by decide, fun pid hpid => some.inj hpid ▸ hchdir⟩) (.chdir rfl (.inr rfl))
  have hdir : changedDirectories.effective 1 1 = [47, 104, 47, 97] := by decide
  have hreported := @file_event_is_reported_iff 1 0 1 [47, 104] _ _ (by decide) hreaches 1 1 .read
    [46, 46, 47, 120] rfl (by decide) (by decide)
  rw [hdir] at hreported
  exact ⟨_, hreaches, (hreported.mpr hread).trans (by decide)⟩

/-- The process starts in `/h` and reads `private/tmp/x`. It is reported that it reads
`/private/tmp/x`. -/
theorem private_path_leaves_directory : ∃ m r, Directories.Reaches 1 0 1 [47, 104] m r ∧
    m.pids 1 = some 1 ∧ (kTmp ++ [120]).head? ≠ some slash ∧
    (r.handle (.fileEvent 1 .read atFdCwd (kTmp ++ [120]))).2 = [(.read, slash :: (kTmp ++ [120]))] ∧
    normalForm (joinPath (m.effective 1 1) (kTmp ++ [120])) = [47, 104, 47] ++ (kTmp ++ [120]) :=
  ⟨_, _, .start, rfl, by decide, by decide +kernel, by decide +kernel⟩

end Shuriken
