import Shuriken.Fs.Canonical
import Shuriken.Trace.ProcessTracer

/-!
# Resolving the paths of traced events

`PathResolver` turns the paths of a trace into absolute ones. It remembers the
working directory of each process and thread, and the path of each descriptor
that it has seen being opened.
-/
namespace Shuriken

def atFdCwd : Int32 := -2

structure CwdMemo where
  processCwds : Finmap fun _ : Int32 => Path := ∅
  threadCwds : Finmap fun _ : UInt64 => Path := ∅

namespace CwdMemo
variable (memo : CwdMemo)

def new (initialPid : Int32) (initialCwd : Path) : CwdMemo where
  processCwds := Finmap.singleton initialPid initialCwd

def getCwd (pid : Int32) (threadId : UInt64) : Path :=
  match memo.threadCwds.lookup threadId with
  | some cwd => cwd
  | none => (memo.processCwds.lookup pid).getD []

def fork (ppid : Int32) (parentThreadId : UInt64) (pid : Int32) : CwdMemo :=
  { memo with processCwds := memo.processCwds.insert pid (memo.getCwd ppid parentThreadId) }

def chdir (pid : Int32) (path : Path) : CwdMemo := { memo with processCwds := memo.processCwds.insert pid path }

def threadChdir (threadId : UInt64) (path : Path) : CwdMemo :=
  { memo with threadCwds := memo.threadCwds.insert threadId path }

def threadExit (threadId : UInt64) : CwdMemo := { memo with threadCwds := memo.threadCwds.erase threadId }

end CwdMemo

structure FDInfo where
  path : Path
  cloexec : Bool
  deriving DecidableEq

abbrev ProcessInfo := AList fun _ : Int32 => FDInfo

structure FileDescriptorMemo where
  processes : Finmap fun _ : Int32 => ProcessInfo := ∅

namespace FileDescriptorMemo
variable (memo : FileDescriptorMemo)

def openFile (pid fd : Int32) (path : Path) (cloexec : Bool) : FileDescriptorMemo where
  processes := memo.processes.insert pid (((memo.processes.lookup pid).getD ∅).insert fd ⟨path, cloexec⟩)

def close (pid fd : Int32) : FileDescriptorMemo where
  processes :=
    let processInfo := ((memo.processes.lookup pid).getD ∅).erase fd
    if processInfo.entries = [] then memo.processes.erase pid else memo.processes.insert pid processInfo

def dup (pid fromFd toFd : Int32) (cloexec : Bool) : FileDescriptorMemo :=
  match memo.processes.lookup pid with
  | none => memo
  | some processInfo =>
    match processInfo.lookup fromFd with
    | none => memo
    | some info => ⟨memo.processes.insert pid (processInfo.insert toFd ⟨info.path, cloexec⟩)⟩

def fdsToClose (processInfo : ProcessInfo) : List Int32 := (processInfo.entries.filter (·.2.cloexec)).map (·.1)

def exec (pid : Int32) : FileDescriptorMemo :=
  match memo.processes.lookup pid with
  | none => memo
  | some processInfo =>
    ⟨memo.processes.insert pid
      ((fdsToClose processInfo).foldl (fun processInfo fd => processInfo.erase fd) processInfo)⟩

def fork (ppid pid : Int32) : FileDescriptorMemo :=
  match memo.processes.lookup ppid with
  | none => memo
  | some processInfo => ⟨memo.processes.insert pid processInfo⟩

def setCloexec (pid fd : Int32) (cloexec : Bool) : FileDescriptorMemo :=
  match memo.processes.lookup pid with
  | none => memo
  | some processInfo =>
    match processInfo.lookup fd with
    | none => memo
    | some info => ⟨memo.processes.insert pid (processInfo.insert fd { info with cloexec })⟩

def find (pid fd : Int32) : Option FDInfo := (memo.processes.lookup pid).bind (·.lookup fd)

/-- The path is empty for a descriptor that is not known. -/
def getFileDescriptorPath (pid fd : Int32) : Path := ((memo.find pid fd).map (·.path)).getD []

/-! What the operations do to the descriptors that are known -/

variable {memo} {pid pid' fd fd' : Int32}

variable {processInfo : ProcessInfo} {cloexec : Bool}

theorem find_insert : find ⟨memo.processes.insert pid processInfo⟩ pid' fd' =
      if pid' = pid then processInfo.lookup fd' else memo.find pid' fd' := by
  split
  · next h =>
    subst h
    simp [find]
  · next h => simp [find, Finmap.lookup_insert_of_ne _ h]

theorem lookup_insert {info : FDInfo} :
    (processInfo.insert fd info).lookup fd' = if fd' = fd then some info else processInfo.lookup fd' := by
  split
  · next h =>
    subst h
    exact AList.lookup_insert _
  · next h => exact AList.lookup_insert_ne h

theorem lookup_erase : (processInfo.erase fd).lookup fd' = if fd' = fd then none else processInfo.lookup fd' := by
  split
  · next h =>
    subst h
    exact AList.lookup_erase _ _
  · next h => exact AList.lookup_erase_ne h

theorem find_eq_lookup : memo.find pid fd = ((memo.processes.lookup pid).getD ∅).lookup fd := by
  rw [find]
  cases memo.processes.lookup pid <;> rfl

theorem find_openFile {path : Path} : (memo.openFile pid fd path cloexec).find pid' fd' =
      if pid' = pid ∧ fd' = fd then some ⟨path, cloexec⟩ else memo.find pid' fd' := by
  rw [openFile, find_insert, lookup_insert]
  by_cases hpid : pid' = pid
  · subst hpid
    simp [find_eq_lookup]
  · simp [hpid]

theorem find_close :
    (memo.close pid fd).find pid' fd' = if pid' = pid ∧ fd' = fd then none else memo.find pid' fd' := by
  have hclosed : (memo.close pid fd).find pid' fd' =
      if pid' = pid then (((memo.processes.lookup pid).getD ∅).erase fd).lookup fd'
      else memo.find pid' fd' := by
    rw [close]
    simp only
    split
    · next hempty =>
      split
      · next h =>
        subst h
        simp [find, AList.lookup, hempty]
      · next h => simp [find, Finmap.lookup_erase_ne h]
    · exact find_insert
  rw [hclosed, lookup_erase]
  by_cases hpid : pid' = pid
  · subst hpid
    simp [find_eq_lookup]
  · simp [hpid]

theorem find_dup {toFd : Int32} : (memo.dup pid fd toFd cloexec).find pid' fd' = if pid' = pid ∧ fd' = toFd then
        ((memo.find pid fd).map fun info => ⟨info.path, cloexec⟩).or (memo.find pid' fd') else memo.find pid' fd' := by
  rw [dup]
  split
  · next hprocess => simp [find, hprocess]
  · next processInfo hprocess =>
    have hfind : ∀ fd, memo.find pid fd = processInfo.lookup fd := fun fd => by simp [find, hprocess]
    split
    · next hinfo => simp [hfind, hinfo]
    · next info hinfo =>
      rw [find_insert, lookup_insert, hfind, hinfo]
      by_cases hpid : pid' = pid
      · subst hpid
        simp [hfind]
      · simp [hpid]

theorem find_setCloexec : (memo.setCloexec pid fd cloexec).find pid' fd' =
      if pid' = pid ∧ fd' = fd then (memo.find pid' fd').map ({ · with cloexec }) else memo.find pid' fd' := by
  rw [setCloexec]
  split
  · next hprocess =>
    split
    · next h =>
      obtain ⟨rfl, rfl⟩ := h
      simp [find, hprocess]
    · rfl
  · next processInfo hprocess =>
    have hfind : ∀ fd, memo.find pid fd = processInfo.lookup fd := fun fd => by simp [find, hprocess]
    split
    · next hinfo =>
      split
      · next h =>
        obtain ⟨rfl, rfl⟩ := h
        simp [hfind, hinfo]
      · rfl
    · next info hinfo =>
      rw [find_insert, lookup_insert]
      by_cases hpid : pid' = pid
      · subst hpid
        by_cases hfd : fd' = fd
        · subst hfd
          simp [hfind, hinfo]
        · simp [hfd, hfind]
      · simp [hpid]

theorem mem_fdsToClose :
    fd ∈ fdsToClose processInfo ↔ ∃ info, processInfo.lookup fd = some info ∧ info.cloexec = true := by
  simp only [fdsToClose, List.mem_map, List.mem_filter]
  constructor
  · rintro ⟨⟨fd, info⟩, ⟨hmem, hcloexec⟩, rfl⟩
    exact ⟨info, AList.mem_lookup_iff.mpr hmem, hcloexec⟩
  · rintro ⟨info, hinfo, hcloexec⟩
    exact ⟨⟨fd, info⟩, ⟨AList.mem_lookup_iff.mp hinfo, hcloexec⟩, rfl⟩

theorem lookup_foldl_erase {fds : List Int32} :
    (fds.foldl (fun processInfo fd => processInfo.erase fd) processInfo).lookup fd' =
      if fd' ∈ fds then none else processInfo.lookup fd' := by
  induction fds generalizing processInfo with
  | nil => simp
  | cons fd fds ih =>
    rw [List.foldl_cons, ih, lookup_erase]
    by_cases hfd : fd' = fd <;> simp [hfd]

theorem find_exec : (memo.exec pid).find pid' fd' =
      if pid' = pid then (memo.find pid' fd').filter (!·.cloexec) else memo.find pid' fd' := by
  rw [exec]
  split
  · next hprocess =>
    split
    · next h =>
      subst h
      simp [find, hprocess]
    · rfl
  · next processInfo hprocess =>
    rw [find_insert, lookup_foldl_erase]
    split
    · next h =>
      subst h
      simp only [find, hprocess, Option.bind_some, mem_fdsToClose]
      cases hinfo : processInfo.lookup fd' with
      | none => simp
      | some info => cases hcloexec : info.cloexec <;> simp [Option.filter, hcloexec]
    · rfl

theorem find_fork {ppid : Int32} : (memo.fork ppid pid).find pid' fd' =
      if pid' = pid ∧ (memo.processes.lookup ppid).isSome = true then memo.find ppid fd' else memo.find pid' fd' := by
  rw [fork]
  split
  · next hprocess => simp [hprocess]
  · next processInfo hprocess =>
    rw [find_insert]
    simp [hprocess, find]

end FileDescriptorMemo

def overwrite (buffer : Bytes) (pos : Nat) (bytes : Bytes) : Bytes :=
  buffer.take pos ++ bytes ++ buffer.drop (pos + bytes.length)

/-- The loop of `canonicalizePath` as far as it goes when it throws, with the string in which it
moves the names to the front, and the position that it writes next. -/
def canonicalizeThrown : Nat → Bytes → Bytes → Nat → List Nat → Bytes
  | 0, buffer, _, _, _ => buffer
  | _ + 1, buffer, [], _, _ => buffer
  | rounds + 1, buffer, c :: src, dst, components =>
    if c = dot ∧ src.head?.getD slash = slash then
      canonicalizeThrown rounds buffer (src.drop 1) dst components
    else if c = dot ∧ src.head? = some dot ∧ (src.drop 1).head?.getD slash = slash then
      match components with
      | start :: components => canonicalizeThrown rounds buffer (src.drop 2) start components
      | [] =>
        canonicalizeThrown rounds (overwrite buffer dst [dot, dot, (src.drop 1).head?.getD 0])
          (src.drop 2) (dst + 3) []
    else if c = slash then canonicalizeThrown rounds buffer src dst components
    else if components.length = kMaxPathComponents then buffer
    else
      let name := (c :: src).takeWhile (· != slash)
      let rest := (c :: src).dropWhile (· != slash)
      canonicalizeThrown rounds (overwrite buffer dst (name ++ [rest.head?.getD 0])) (rest.drop 1)
        (dst + name.length + 1) (dst :: components)

/-- The string after `canonicalizePath` has thrown. -/
def leftByCanonicalizePath (path : Path) : Path :=
  if path.head? = some slash then canonicalizeThrown path.length path (path.drop 1) 1 []
  else canonicalizeThrown path.length path path 0 []

abbrev ResolvedEvent := EventType × Path

def kPrivate : Bytes := [112, 114, 105, 118, 97, 116, 101, 47]
def kEtc : Bytes := kPrivate ++ [101, 116, 99, 47]
def kVar : Bytes := kPrivate ++ [118, 97, 114, 47]
def kTmp : Bytes := kPrivate ++ [116, 109, 112, 47]

/-- The paths that are taken to be absolute although they do not start with a slash. -/
def isPrivate (path : Path) : Bool :=
  path.take kEtc.length = kEtc || path.take kEtc.length = kVar || path.take kEtc.length = kTmp

structure PathResolver where
  pids : Finmap fun _ : UInt64 => Int32 := ∅
  cwdMemo : CwdMemo
  fileDescriptorMemo : FileDescriptorMemo := {}

namespace PathResolver

def new (initialPid : Int32) (initialCwd : Path) : PathResolver where
  cwdMemo := .new initialPid initialCwd

variable (r : PathResolver)

def getPid (threadId : UInt64) : Option Int32 := r.pids.lookup threadId

def resolveWithoutNormalization (threadId : UInt64) (atFd : Int32) (path : Path) : Path :=
  let path := if isPrivate path then slash :: path else path
  if path.head? = some slash then path
  else
    match r.getPid threadId with
    | none => path
    | some pid =>
      let cwd := if atFd = atFdCwd then r.cwdMemo.getCwd pid threadId
        else r.fileDescriptorMemo.getFileDescriptorPath pid atFd
      if path = [] then cwd
      else cwd ++ (if cwd.getLast? = some slash then [] else [slash]) ++ path

/-- The resolved path, and an event if it could not be canonicalized. -/
def resolve (threadId : UInt64) (atFd : Int32) (path : Path) : Path × List ResolvedEvent :=
  let resolvedPath := r.resolveWithoutNormalization threadId atFd path
  match canonicalizePath resolvedPath with
  | .ok path => (path, [])
  | .error pathError =>
    (leftByCanonicalizePath resolvedPath,
      [(.fatalError, ("failed to canonicalize path: " ++ pathError.what).toUTF8.toList)])

def newThread (pid : Int32) (parentThreadId childThreadId : UInt64) : PathResolver :=
  let r := { r with pids := r.pids.insert childThreadId pid }
  match r.getPid parentThreadId with
  | none => r
  | some ppid =>
    if ppid = pid then r
    else
      { r with
        fileDescriptorMemo := r.fileDescriptorMemo.fork ppid pid
        cwdMemo := r.cwdMemo.fork ppid parentThreadId pid }

def terminateThread (threadId : UInt64) : PathResolver :=
  { r with cwdMemo := r.cwdMemo.threadExit threadId, pids := r.pids.erase threadId }

def fileEvent (threadId : UInt64) (type : EventType) (atFd : Int32) (path : Path) : List ResolvedEvent :=
  if type = .fatalError then [(type, path)]
  else
    let (path, events) := r.resolve threadId atFd path
    events ++ [(type, path)]

/-- The methods that do something for the process of a thread. -/
def withPid (threadId : UInt64) (f : Int32 → PathResolver × List ResolvedEvent) : PathResolver × List ResolvedEvent :=
  match r.getPid threadId with
  | none => (r, [])
  | some pid => f pid

def openFile (threadId : UInt64) (fd atFd : Int32) (path : Path) (cloexec : Bool) : PathResolver × List ResolvedEvent :=
  r.withPid threadId fun pid =>
    let (path, events) := r.resolve threadId atFd path
    ({ r with fileDescriptorMemo := r.fileDescriptorMemo.openFile pid fd path cloexec }, events)

def dup (threadId : UInt64) (fromFd toFd : Int32) (cloexec : Bool) : PathResolver × List ResolvedEvent :=
  r.withPid threadId fun pid => ({ r with fileDescriptorMemo := r.fileDescriptorMemo.dup pid fromFd toFd cloexec }, [])

def setCloexec (threadId : UInt64) (fd : Int32) (cloexec : Bool) : PathResolver × List ResolvedEvent :=
  r.withPid threadId fun pid => ({ r with fileDescriptorMemo := r.fileDescriptorMemo.setCloexec pid fd cloexec }, [])

def close (threadId : UInt64) (fd : Int32) : PathResolver × List ResolvedEvent := r.withPid threadId fun pid =>
    ({ r with fileDescriptorMemo := r.fileDescriptorMemo.close pid fd }, [])

def chdir (threadId : UInt64) (path : Path) (atFd : Int32) : PathResolver × List ResolvedEvent :=
  r.withPid threadId fun pid =>
    let (path, events) := r.resolve threadId atFd path
    ({ r with cwdMemo := r.cwdMemo.chdir pid path }, events)

def threadChdir (threadId : UInt64) (path : Path) (atFd : Int32) : PathResolver × List ResolvedEvent :=
  let (path, events) := r.resolve threadId atFd path
  ({ r with cwdMemo := r.cwdMemo.threadChdir threadId path }, events)

def exec (threadId : UInt64) : PathResolver × List ResolvedEvent :=
  r.withPid threadId fun pid => ({ r with fileDescriptorMemo := r.fileDescriptorMemo.exec pid }, [])

def handle : DelegateCall → PathResolver × List ResolvedEvent
  | .newThread pid parentThreadId childThreadId => (r.newThread pid parentThreadId childThreadId, [])
  | .terminateThread threadId => (r.terminateThread threadId, [])
  | .fileEvent threadId type atFd path => (r, r.fileEvent threadId type atFd path)
  | .openFile threadId fd atFd path cloexec => r.openFile threadId fd atFd path cloexec
  | .dup threadId fromFd toFd cloexec => r.dup threadId fromFd toFd cloexec
  | .setCloexec threadId fd cloexec => r.setCloexec threadId fd cloexec
  | .close threadId fd => r.close threadId fd
  | .chdir threadId path atFd => r.chdir threadId path atFd
  | .threadChdir threadId path atFd => r.threadChdir threadId path atFd
  | .exec threadId => r.exec threadId

end PathResolver
end Shuriken
