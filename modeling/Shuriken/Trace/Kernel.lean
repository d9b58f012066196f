import Shuriken.Fs.NormalForm
import Shuriken.Trace.PathResolver

/-!
# The process tree behind a trace

The kernel knows for each process which descriptors are open, and to which place
they lead. Places are names below the root, so that they do not depend on how a
path is written. There are no symbolic links.
-/
namespace Shuriken
open Function Names Lexical List

/-- A place in the file system, by the names that lead to it from the root. -/
structure Place where
  names : List Name
  valid : ∀ name ∈ names, IsName slash name ∧ Proper dotName dotDotName name

namespace Place

def root : Place := ⟨[], nofun⟩

def enterName (place : List Name) (name : Name) : List Name :=
  if name = dotName then place
  else if name = dotDotName then place.dropLast
  else place ++ [name]

theorem valid_foldl_enterName {place ns : List Name}
    (hplace : ∀ name ∈ place, IsName slash name ∧ Proper dotName dotDotName name)
    (hns : ∀ name ∈ ns, IsName slash name) :
    ∀ name ∈ ns.foldl enterName place, IsName slash name ∧ Proper dotName dotDotName name := by
  induction ns generalizing place with
  | nil => exact hplace
  | cons name ns ih =>
    obtain ⟨hname, hns⟩ := forall_mem_cons.mp hns
    refine ih ?_ hns
    rw [enterName]
    split
    · exact hplace
    · next hdot =>
      split
      · exact fun name hname => hplace name (mem_of_mem_dropLast hname)
      · next hdotDot =>
        refine forall_mem_append.mpr ⟨hplace, fun name' hname' => ?_⟩
        obtain rfl := mem_singleton.mp hname'
        exact ⟨hname, hdot, hdotDot⟩

def walk (place : Place) (path : Path) : Place where
  names := (Names.names slash path).foldl enterName (if path.head? = some slash then [] else place.names)
  valid := by
    refine valid_foldl_enterName ?_ fun name hname => isName_of_mem_names hname
    split
    · nofun
    · exact place.valid

def path (place : Place) : Path := absolute place.names

def text (place : Place) (path : Path) : Path :=
  if path.head? = some slash then path
  else if path = [] then place.path
  else place.path ++ (if place.names = [] then [] else [slash]) ++ path

/-- The path is not one of those that are mistaken for absolute ones, it does not lead above the
root, and it does not have too many components. -/
structure Resolvable (place : Place) (path : Path) : Prop where
  notPrivate : isPrivate path = false
  below : (form dotName dotDotName (Names.names slash (place.text path))).1 = 0
  shallow : ∃ result, canonicalizePath (place.text path) = .ok result

theorem foldl_step_snd (ns : List Name) (f : Form Name) :
    (ns.foldl (Lexical.step dotName dotDotName) f).2.reverse = ns.foldl enterName f.2.reverse := by
  induction ns generalizing f with
  | nil => rfl
  | cons name ns ih =>
    rw [foldl_cons, foldl_cons, ih]
    congr 1
    rw [Lexical.step, enterName]
    split
    · rfl
    · split
      · cases f.2 with
        | nil => rfl
        | cons last entered => simp
      · simp

theorem form_names (place : Place) : form dotName dotDotName place.names = (0, place.names.reverse) := by
  have hwritten : written dotDotName (0, place.names.reverse) = place.names := by simp [written]
  have hform := form_written (by decide) fun name hname =>
    (place.valid name (mem_reverse.mp (show name ∈ ((0 : Nat), place.names.reverse).2 from hname))).2
  rwa [hwritten] at hform

theorem names_dropLast_terminate (place : Place) :
    Names.names slash (terminate slash place.names).dropLast = place.names := by
  rw [dropLast_terminate]
  exact names_intercalate fun name hname => (place.valid name hname).1

theorem getLast?_path (place : Place) : place.path.getLast? = some slash ↔ place.names = [] := by
  obtain ⟨ns, hvalid⟩ := place
  cases ns using reverseRecOn with
  | nil => simp [path, absolute, terminate]
  | append_singleton ns name =>
    obtain ⟨hname, hslash⟩ := (hvalid name (by simp)).1
    obtain ⟨init, last, rfl⟩ := (eq_nil_or_concat' name).resolve_left hname
    rw [path, absolute, terminate_append, terminate_singleton, ← append_assoc, dropLast_concat, ← append_assoc,
      ← cons_append, getLast?_concat]
    simp only [append_eq_nil_iff, cons_ne_self, and_false, iff_false]
    rintro h
    exact hslash (by simp [Option.some.inj h])

theorem text_eq (place : Place) (path : Path) : ∃ rest, place.text path = slash :: rest ∧
      (form dotName dotDotName (Names.names slash rest)).2.reverse = (place.walk path).names := by
  rw [text, walk]
  simp only
  split
  · next habsolute =>
    obtain ⟨rest, rfl⟩ := head?_eq_some_iff.mp habsolute
    exact ⟨rest, rfl, by rw [form, foldl_step_snd, names_sep]; rfl⟩
  · split
    · next hempty =>
      subst hempty
      exact ⟨_, rfl, by rw [names_dropLast_terminate, form_names, reverse_reverse]; rfl⟩
    · split
      · next hroot =>
        refine ⟨path, by simp [Place.path, absolute, hroot, terminate], ?_⟩
        rw [form, foldl_step_snd, hroot]
        rfl
      · refine ⟨(terminate slash place.names).dropLast ++ slash :: path, by simp [Place.path, absolute], ?_⟩
        rw [names_append_sep, names_dropLast_terminate, form, foldl_append,
          show place.names.foldl (Lexical.step dotName dotDotName) (0, []) = _ from form_names place,
          foldl_step_snd, reverse_reverse]

theorem Resolvable.canonicalizePath_eq {place : Place} {path : Path} (h : place.Resolvable path) :
    canonicalizePath (place.text path) = .ok (place.walk path).path := by
  obtain ⟨rest, htext, hwalk⟩ := place.text_eq path
  obtain ⟨result, hresult⟩ := h.shallow
  have hbelow := h.below
  rw [htext, names_sep] at hbelow
  rw [htext] at hresult ⊢
  rw [hresult, canonicalizePath_absolute hresult hbelow, hwalk]
  rfl

end Place

/-- What a descriptor stands for: a file that was opened in the trace, one that the first process
had open before, or something that has no path. -/
inductive Object where
  | opened (place : Place)
  | inherited (place : Place)
  | other

def Object.place : Object → Option Place
  | .opened place | .inherited place => some place
  | .other => none

structure Descriptor where
  object : Object
  cloexec : Bool

/-- The processes are those that have a thread. A pid can be used again when it is not in use. -/
structure Kernel where
  threads : UInt64 → Option Int32
  tables : Int32 → Int32 → Option Descriptor
  cwds : Int32 → Place
  threadCwds : UInt64 → Option Place

/-- An action is reported to the tracer, but for the opening of something that has no path. -/
inductive Action where
  | call (call : DelegateCall)
  | openOther (threadId : UInt64) (fd : Int32) (cloexec : Bool)

namespace Kernel
variable (k : Kernel)

def Live (pid : Int32) : Prop := ∃ threadId, k.threads threadId = some pid

def cwd (pid : Int32) (threadId : UInt64) : Place := (k.threadCwds threadId).getD (k.cwds pid)

def origin (threadId : UInt64) (pid atFd : Int32) (path : Path) : Option Object :=
  if path.head? = some slash then some (.opened .root)
  else if atFd = atFdCwd then some (.opened (k.cwd pid threadId))
  else (k.tables pid atFd).map (·.object)

def Finds (threadId : UInt64) (pid atFd : Int32) (path : Path) (place : Place) : Prop :=
  ∃ object, k.origin threadId pid atFd path = some object ∧ object.place = some place

def setDescriptor (pid fd : Int32) (descriptor : Option Descriptor) : Kernel :=
  { k with tables := update k.tables pid (update (k.tables pid) fd descriptor) }

inductive Step : Action → Kernel → Prop
  | newThread {pid : Int32} {parent child : UInt64} : k.threads parent = some pid →
      k.threads child = none → Step (.call (.newThread pid parent child))
        { k with threads := update k.threads child (some pid) }
  | fork {ppid pid : Int32} {parent child : UInt64} : k.threads parent = some ppid →
      k.threads child = none → ¬k.Live pid → Step (.call (.newThread pid parent child))
        { k with
          threads := update k.threads child (some pid)
          tables := update k.tables pid (k.tables ppid)
          cwds := update k.cwds pid (k.cwd ppid parent) }
  | terminateThread {threadId : UInt64} {pid : Int32} : k.threads threadId = some pid →
      Step (.call (.terminateThread threadId))
        { k with
          threads := update k.threads threadId none
          threadCwds := update k.threadCwds threadId none }
  | fileEvent {threadId : UInt64} {pid : Int32} {type : EventType} {atFd : Int32} {path : Path}
      {place : Place} : k.threads threadId = some pid → type ≠ .fatalError →
      k.Finds threadId pid atFd path place → Step (.call (.fileEvent threadId type atFd path)) k
  | openFile {threadId : UInt64} {pid fd atFd : Int32} {path : Path} {cloexec : Bool} {place : Place} :
      k.threads threadId = some pid → k.Finds threadId pid atFd path place → k.tables pid fd = none →
      Step (.call (.openFile threadId fd atFd path cloexec))
        (k.setDescriptor pid fd (some ⟨.opened (place.walk path), cloexec⟩))
  | openOther {threadId : UInt64} {pid fd : Int32} {cloexec : Bool} :
      k.threads threadId = some pid → k.tables pid fd = none →
      Step (.openOther threadId fd cloexec) (k.setDescriptor pid fd (some ⟨.other, cloexec⟩))
  | dup {threadId : UInt64} {pid fromFd toFd : Int32} {cloexec : Bool} {descriptor : Descriptor} :
      k.threads threadId = some pid → k.tables pid fromFd = some descriptor → fromFd ≠ toFd →
      Step (.call (.dup threadId fromFd toFd cloexec))
        (k.setDescriptor pid toFd (some ⟨descriptor.object, cloexec⟩))
  /-- `dup2` of a descriptor onto itself leaves its flag alone. -/
  | dupSame {threadId : UInt64} {pid fd : Int32} {descriptor : Descriptor} :
      k.threads threadId = some pid → k.tables pid fd = some descriptor →
      Step (.call (.dup threadId fd fd false)) k
  | setCloexec {threadId : UInt64} {pid fd : Int32} {cloexec : Bool} {descriptor : Descriptor} :
      k.threads threadId = some pid → k.tables pid fd = some descriptor →
      Step (.call (.setCloexec threadId fd cloexec))
        (k.setDescriptor pid fd (some { descriptor with cloexec }))
  /-- The tracer does not look at the result of the system call. -/
  | setCloexecFailed {threadId : UInt64} {pid fd : Int32} {cloexec : Bool} :
      k.threads threadId = some pid → k.tables pid fd = none →
      Step (.call (.setCloexec threadId fd cloexec)) k
  | close {threadId : UInt64} {pid fd : Int32} {descriptor : Descriptor} :
      k.threads threadId = some pid → k.tables pid fd = some descriptor →
      Step (.call (.close threadId fd)) (k.setDescriptor pid fd none)
  | chdir {threadId : UInt64} {pid atFd : Int32} {path : Path} {place : Place} :
      k.threads threadId = some pid → k.Finds threadId pid atFd path place →
      Step (.call (.chdir threadId path atFd))
        { k with cwds := update k.cwds pid (place.walk path) }
  | threadChdir {threadId : UInt64} {pid atFd : Int32} {path : Path} {place : Place} :
      k.threads threadId = some pid → k.Finds threadId pid atFd path place →
      Step (.call (.threadChdir threadId path atFd))
        { k with threadCwds := update k.threadCwds threadId (some (place.walk path)) }
  | exec {threadId : UInt64} {pid : Int32} : k.threads threadId = some pid → Step (.call (.exec threadId))
        { k with tables := update k.tables pid fun fd => (k.tables pid fd).filter (!·.cloexec) }

/-- The path of a call is looked up from a place that the trace has led to, and can be resolved. -/
def Clear : Action → Prop
  | .call (.fileEvent threadId _ atFd path) | .call (.openFile threadId _ atFd path _)
  | .call (.chdir threadId path atFd) | .call (.threadChdir threadId path atFd) =>
    ∀ pid object, k.threads threadId = some pid → k.origin threadId pid atFd path = some object →
      ∃ place, object = .opened place ∧ place.Resolvable path
  | _ => True

end Kernel

end Shuriken
