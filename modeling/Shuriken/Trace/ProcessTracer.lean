import Shuriken.Fs.FileSystem
import Shuriken.Lib.Finmap
import Shuriken.Lib.Except

/-!
# Delegates of the process tracer

`ProcessTracer` gets the events of all threads and forwards those of the processes that are traced, each to
the delegate of its trace.
-/
namespace Shuriken
open Option Except List Nat Finmap

inductive EventType where
  | read
  | readDirectory
  | write
  | create
  | delete
  | fatalError
  deriving DecidableEq

/-- A call of a method of `Tracer::Delegate`. -/
inductive DelegateCall where
  | newThread (pid : Int32) (parentThreadId childThreadId : UInt64)
  | terminateThread (threadId : UInt64)
  | fileEvent (threadId : UInt64) (type : EventType) (atFd : Int32) (path : Path)
  | openFile (threadId : UInt64) (fd atFd : Int32) (path : Path) (cloexec : Bool)
  | dup (threadId : UInt64) (fromFd toFd : Int32) (cloexec : Bool)
  | setCloexec (threadId : UInt64) (fd : Int32) (cloexec : Bool)
  | close (threadId : UInt64) (fd : Int32)
  | chdir (threadId : UInt64) (path : Path) (atFd : Int32)
  | threadChdir (threadId : UInt64) (path : Path) (atFd : Int32)
  | exec (threadId : UInt64)
  deriving DecidableEq

/-- What happens to delegates. They are numbered in the order in which they were given away. -/
inductive DelegateAction where
  | call (delegate : Nat) (call : DelegateCall)
  | destroy (delegate : Nat)
  deriving DecidableEq

inductive NewThreadResponse where
  | trace
  | ignore
  deriving DecidableEq

/-- The pointer to the delegate can be null. -/
structure Ancestor where
  ancestorThreadId : UInt64
  delegate : Option Nat
  deriving DecidableEq

structure ToBeTraced where
  rootThreadId : UInt64
  delegate : Nat
  deriving DecidableEq

structure ProcessTracer where
  toBeTraced : Finmap fun _ : Int32 => ToBeTraced := ∅
  ancestorThreads : Finmap fun _ : UInt64 => Ancestor := ∅
  tracedThreads : Finmap fun _ : UInt64 => Nat := ∅

namespace ProcessTracer
variable (t : ProcessTracer)

def findAncestor (threadId : UInt64) : Ancestor := (t.ancestorThreads.lookup threadId).getD ⟨threadId, none⟩

/-- A delegate that finds no place in the map is destroyed with the temporary that holds it. -/
def traceProcess (pid : Int32) (rootThreadId : UInt64) (delegate : Nat) : ProcessTracer × List DelegateAction :=
  match t.toBeTraced.lookup pid with
  | some _ => (t, [.destroy delegate])
  | none => ({ t with toBeTraced := t.toBeTraced.insert pid ⟨rootThreadId, delegate⟩ }, [])

def startTrace (pid : Int32) (parentThreadId childThreadId : UInt64) (delegate : Nat) :
    ProcessTracer × List DelegateAction :=
  ({ toBeTraced := t.toBeTraced.erase pid
     ancestorThreads := t.ancestorThreads.emplace childThreadId ⟨childThreadId, some delegate⟩
     tracedThreads := t.tracedThreads.emplace childThreadId delegate },
    (if (t.tracedThreads.lookup childThreadId).isSome then [.destroy delegate] else []) ++
      [.call delegate (.newThread pid parentThreadId childThreadId)])

def newThread (pid : Int32) (parentThreadId childThreadId : UInt64) :
    Except String (ProcessTracer × List DelegateAction × NewThreadResponse) :=
  let ancestor := t.findAncestor parentThreadId
  match ancestor.delegate with
  | some delegate =>
    if (t.ancestorThreads.lookup childThreadId).isSome then
      .error "Created already existing thread. This should not happen."
    else
      .ok ({ t with ancestorThreads := t.ancestorThreads.insert childThreadId ancestor },
        [.call delegate (.newThread pid parentThreadId childThreadId)], .trace)
  | none =>
    match t.toBeTraced.lookup pid with
    | none => .ok (t, [], .ignore)
    | some toBeTraced =>
      if childThreadId = toBeTraced.rootThreadId then .ok (t, [], .ignore)
      else if parentThreadId ≠ toBeTraced.rootThreadId then .ok (t, [], .ignore)
      else
        let (t, actions) := t.startTrace pid parentThreadId childThreadId toBeTraced.delegate
        .ok (t, actions, .trace)

def callDelegate (delegate : Option Nat) (call : DelegateCall) : List DelegateAction :=
  delegate.toList.map (.call · call)

def terminateThread (threadId : UInt64) : ProcessTracer × List DelegateAction :=
  match t.ancestorThreads.lookup threadId with
  | none => (t, [])
  | some ancestor =>
    ({ t with
        ancestorThreads := t.ancestorThreads.erase threadId
        tracedThreads := t.tracedThreads.erase threadId },
      callDelegate ancestor.delegate (.terminateThread threadId) ++
        (t.tracedThreads.lookup threadId).toList.map .destroy)

def forward (threadId : UInt64) (call : DelegateCall) : List DelegateAction :=
  callDelegate (t.findAncestor threadId).delegate call

def fileEvent (threadId : UInt64) (type : EventType) (atFd : Int32) (path : Path) : List DelegateAction :=
  t.forward threadId (.fileEvent threadId type atFd path)

def openFile (threadId : UInt64) (fd atFd : Int32) (path : Path) (cloexec : Bool) : List DelegateAction :=
  t.forward threadId (.openFile threadId fd atFd path cloexec)

def dup (threadId : UInt64) (fromFd toFd : Int32) (cloexec : Bool) : List DelegateAction :=
  t.forward threadId (.dup threadId fromFd toFd cloexec)

def setCloexec (threadId : UInt64) (fd : Int32) (cloexec : Bool) : List DelegateAction :=
  t.forward threadId (.setCloexec threadId fd cloexec)

def close (threadId : UInt64) (fd : Int32) : List DelegateAction := t.forward threadId (.close threadId fd)

def chdir (threadId : UInt64) (path : Path) (atFd : Int32) : List DelegateAction :=
  t.forward threadId (.chdir threadId path atFd)

def threadChdir (threadId : UInt64) (path : Path) (atFd : Int32) : List DelegateAction :=
  t.forward threadId (.threadChdir threadId path atFd)

def exec (threadId : UInt64) : List DelegateAction := t.forward threadId (.exec threadId)

def handle : DelegateCall → Except String (ProcessTracer × List DelegateAction)
  | .newThread pid parentThreadId childThreadId => do
      let (t, actions, _) ← t.newThread pid parentThreadId childThreadId
      return (t, actions)
  | .terminateThread threadId => .ok (t.terminateThread threadId)
  | .fileEvent threadId type atFd path => .ok (t, t.fileEvent threadId type atFd path)
  | .openFile threadId fd atFd path cloexec => .ok (t, t.openFile threadId fd atFd path cloexec)
  | .dup threadId fromFd toFd cloexec => .ok (t, t.dup threadId fromFd toFd cloexec)
  | .setCloexec threadId fd cloexec => .ok (t, t.setCloexec threadId fd cloexec)
  | .close threadId fd => .ok (t, t.close threadId fd)
  | .chdir threadId path atFd => .ok (t, t.chdir threadId path atFd)
  | .threadChdir threadId path atFd => .ok (t, t.threadChdir threadId path atFd)
  | .exec threadId => .ok (t, t.exec threadId)

/-- Who holds a delegate: a process that is to be traced, or a thread. -/
def owned : Int32 ⊕ UInt64 → Option Nat
  | .inl pid => (t.toBeTraced.lookup pid).map (·.delegate)
  | .inr threadId => t.tracedThreads.lookup threadId

end ProcessTracer

inductive TracerInput where
  | traceProcess (pid : Int32) (rootThreadId : UInt64)
  | call (call : DelegateCall)

/-- A tracer in use, with the delegates that it was given, what happened to them, and the threads
that were created and have not terminated. -/
structure Tracing where
  tracer : ProcessTracer := {}
  created : Nat := 0
  actions : List DelegateAction := []
  live : List UInt64 := []

namespace Tracing

def updateLive (live : List UInt64) : DelegateCall → List UInt64
  | .newThread _ _ childThreadId => childThreadId :: live
  | .terminateThread threadId => live.filter (· ≠ threadId)
  | _ => live

def next (s : Tracing) : TracerInput → Except String Tracing
  | .traceProcess pid rootThreadId =>
    let (tracer, actions) := s.tracer.traceProcess pid rootThreadId s.created
    .ok { s with tracer, created := s.created + 1, actions := s.actions ++ actions }
  | .call call => do
      let (tracer, actions) ← s.tracer.handle call
      return { s with tracer, actions := s.actions ++ actions, live := updateLive s.live call }

/-- Threads that live at the same time have different ids, and a thread that was traced first
terminates after the threads that have its delegate. -/
def rootLast (s : Tracing) : TracerInput → Bool
  | .call (.newThread _ _ childThreadId) => decide (childThreadId ∉ s.live)
  | .call (.terminateThread threadId) =>
    (s.tracer.tracedThreads.lookup threadId).isNone ||
      s.live.all fun i => i == threadId || (s.tracer.findAncestor i).ancestorThreadId != threadId
  | _ => true

def Follows (s s' : Tracing) : Prop := ∃ input, s.rootLast input = true ∧ s.next input = .ok s'

inductive Happens (s : Tracing) : TracerInput → Tracing → Prop
  | refuse {pid : Int32} {rootThreadId : UInt64} {q : ToBeTraced} : s.tracer.toBeTraced.lookup pid = some q →
      Happens s (.traceProcess pid rootThreadId)
        { s with created := s.created + 1, actions := s.actions ++ [.destroy s.created] }
  | accept {pid : Int32} {rootThreadId : UInt64} : s.tracer.toBeTraced.lookup pid = none →
      Happens s (.traceProcess pid rootThreadId)
        { s with
          tracer.toBeTraced := s.tracer.toBeTraced.insert pid ⟨rootThreadId, s.created⟩
          created := s.created + 1 }
  | ignore {pid : Int32} {parent child : UInt64} : (s.tracer.findAncestor parent).delegate = none →
      (∀ q, s.tracer.toBeTraced.lookup pid = some q → child ≠ q.rootThreadId → parent ≠ q.rootThreadId) →
      Happens s (.call (.newThread pid parent child)) { s with live := child :: s.live }
  | addThread {pid : Int32} {parent child : UInt64} {a : Ancestor} {d : Nat} :
      s.tracer.ancestorThreads.lookup parent = some a → a.delegate = some d →
      s.tracer.ancestorThreads.lookup child = none →
      Happens s (.call (.newThread pid parent child))
        { s with
          tracer.ancestorThreads := s.tracer.ancestorThreads.insert child a
          actions := s.actions ++ [.call d (.newThread pid parent child)]
          live := child :: s.live }
  | startTrace {pid : Int32} {child : UInt64} {q : ToBeTraced} :
      (s.tracer.findAncestor q.rootThreadId).delegate = none → s.tracer.toBeTraced.lookup pid = some q →
      child ≠ q.rootThreadId →
      Happens s (.call (.newThread pid q.rootThreadId child))
        { s with
          tracer := (s.tracer.startTrace pid q.rootThreadId child q.delegate).1
          actions := s.actions ++ (s.tracer.startTrace pid q.rootThreadId child q.delegate).2
          live := child :: s.live }
  | terminateUntraced {i : UInt64} : s.tracer.ancestorThreads.lookup i = none →
      Happens s (.call (.terminateThread i)) { s with live := s.live.filter (· ≠ i) }
  | terminate {i : UInt64} {a : Ancestor} : s.tracer.ancestorThreads.lookup i = some a →
      Happens s (.call (.terminateThread i))
        { s with
          tracer := { s.tracer with
            ancestorThreads := s.tracer.ancestorThreads.erase i
            tracedThreads := s.tracer.tracedThreads.erase i }
          actions := s.actions ++ (ProcessTracer.callDelegate a.delegate (.terminateThread i) ++
            (s.tracer.tracedThreads.lookup i).toList.map .destroy)
          live := s.live.filter (· ≠ i) }
  | forward (i : UInt64) (call : DelegateCall) :
      (∀ pid parent child, call ≠ .newThread pid parent child) → (∀ i, call ≠ .terminateThread i) →
      Happens s (.call call) { s with actions := s.actions ++ s.tracer.forward i call }

def run (check : Tracing → TracerInput → Bool) (s : Tracing) (inputs : List TracerInput) : Option Tracing :=
  inputs.foldlM (fun s input => if check s input then (s.next input).toOption else none) s

end Tracing

/-- A delegate is not called after it was destroyed. -/
def DelegateAction.MayPrecede (a b : DelegateAction) : Prop := ∀ d call, a = .destroy d → b ≠ .call d call

namespace Tracing

structure Owned (s : Tracing) : Prop where
  ancestors : ∀ i a, s.tracer.ancestorThreads.lookup i = some a →
    ∃ d, a.delegate = some d ∧ s.tracer.tracedThreads.lookup a.ancestorThreadId = some d
  roots : ∀ i d, s.tracer.tracedThreads.lookup i = some d → s.tracer.ancestorThreads.lookup i = some ⟨i, some d⟩
  live : ∀ i a, s.tracer.ancestorThreads.lookup i = some a → i ∈ s.live
  unique : ∀ o o' d, s.tracer.owned o = some d → s.tracer.owned o' = some d → o = o'
  alive : ∀ o d, s.tracer.owned o = some d → d < s.created ∧ .destroy d ∉ s.actions
  destroyed : ∀ d, .destroy d ∈ s.actions → d < s.created
  safe : s.actions.Pairwise DelegateAction.MayPrecede

variable {s s' : Tracing}

variable {pid : Int32} {input : TracerInput} {i i₀ : UInt64}

/-- What a new thread does. -/
theorem happens_of_newThread {parent child : UInt64} {tracer : ProcessTracer} {actions : List DelegateAction}
    {response : NewThreadResponse} (h : s.tracer.newThread pid parent child = .ok (tracer, actions, response)) :
    s.Happens (.call (.newThread pid parent child))
      { s with tracer, actions := s.actions ++ actions, live := child :: s.live } := by
  have hignore : (s.tracer.findAncestor parent).delegate = none →
      (∀ q, s.tracer.toBeTraced.lookup pid = some q → child ≠ q.rootThreadId → parent ≠ q.rootThreadId) →
      s.Happens (.call (.newThread pid parent child))
        { s with actions := s.actions ++ [], live := child :: s.live } := by
    intro hnone hq
    rw [append_nil]
    exact .ignore hnone hq
  rw [ProcessTracer.newThread] at h
  simp only at h
  split at h
  · next d hd =>
    split at h
    · nomatch h
    · next hchild =>
      cases h
      rw [ProcessTracer.findAncestor] at hd ⊢
      cases ha : s.tracer.ancestorThreads.lookup parent with
      | none =>
        rw [ha] at hd
        nomatch hd
      | some a =>
        rw [ha] at hd
        exact .addThread ha hd (by simpa using hchild)
  · next hnone =>
    split at h
    · next hpid =>
      cases h
      exact hignore hnone fun q hq => nomatch hpid.symm.trans hq
    · next q hq =>
      split at h
      · next hroot =>
        cases h
        refine hignore hnone fun q' hq' hne => ?_
        cases hq.symm.trans hq'
        exact absurd hroot hne
      · next hroot =>
        split at h
        · next hparent =>
          cases h
          refine hignore hnone fun q' hq' _ => ?_
          cases hq.symm.trans hq'
          exact hparent
        · next hparent =>
          obtain rfl := not_ne_iff.mp hparent
          cases h
          exact .startTrace hnone hq hroot

theorem happens_of_next (h : s.next input = .ok s') : s.Happens input s' := by
  cases input with
  | traceProcess pid rootThreadId =>
    rw [next, ProcessTracer.traceProcess] at h
    cases hpid : s.tracer.toBeTraced.lookup pid with
    | some q =>
      rw [hpid] at h
      exact ok.inj h ▸ .refuse hpid
    | none =>
      rw [hpid] at h
      simp only [append_nil] at h
      exact ok.inj h ▸ .accept hpid
  | call call =>
    obtain ⟨⟨tracer, actions⟩, hhandle, h⟩ := bind_eq_ok.mp h
    cases h
    cases call with
    | newThread pid parent child =>
      obtain ⟨⟨tracer', actions', response⟩, hthread, hhandle⟩ := bind_eq_ok.mp hhandle
      cases hhandle
      exact happens_of_newThread hthread
    | terminateThread i =>
      rw [ProcessTracer.handle, ProcessTracer.terminateThread] at hhandle
      cases ha : s.tracer.ancestorThreads.lookup i with
      | none =>
        rw [ha] at hhandle
        cases hhandle
        rw [append_nil]
        exact .terminateUntraced ha
      | some a =>
        rw [ha] at hhandle
        cases hhandle
        exact .terminate ha
    | fileEvent i | openFile i | dup i | setCloexec i | close i | chdir i | threadChdir i | exec i =>
      cases hhandle
      exact .forward i _ (by simp) (by simp)

theorem Owned.initial : Owned {} where
  ancestors _ _ h := nomatch h
  roots _ _ h := nomatch h
  live _ _ h := nomatch h
  unique o _ _ h := by cases o <;> nomatch h
  alive o _ h := by cases o <;> nomatch h
  destroyed _ h := nomatch h
  safe := .nil

section
variable (h : Owned s)
include h

theorem Owned.call {d : Nat} (hd : .destroy d ∉ s.actions) (call : DelegateCall) :
    Owned { s with actions := s.actions ++ [.call d call] } := by
  have hdestroy : ∀ d', DelegateAction.destroy d' ∈ s.actions ++ [.call d call] ↔ .destroy d' ∈ s.actions := by
    simp
  refine { h with alive := fun o d' ho => ?_, destroyed := fun d' hd' => ?_, safe := ?_ }
  · exact (h.alive o d' ho).imp_right (mt (hdestroy d').mp)
  · exact h.destroyed d' ((hdestroy d').mp hd')
  · refine pairwise_append.mpr ⟨h.safe, pairwise_singleton _ _, ?_⟩
    rintro a ha b hb d' call' rfl rfl
    obtain ⟨rfl, -⟩ := DelegateAction.call.inj (mem_singleton.mp hb)
    exact hd ha

theorem Owned.not_destroyed {d : Nat} (hd : (s.tracer.findAncestor i).delegate = some d) : .destroy d ∉ s.actions := by
  rw [ProcessTracer.findAncestor] at hd
  cases ha : s.tracer.ancestorThreads.lookup i with
  | none =>
    rw [ha] at hd
    nomatch hd
  | some a =>
    rw [ha] at hd
    obtain ⟨d', hd', htraced⟩ := h.ancestors i a ha
    obtain rfl := some.inj (hd'.symm.trans hd)
    exact (h.alive (.inr a.ancestorThreadId) d' htraced).2

theorem Owned.forward (i : UInt64) (call : DelegateCall) :
    Owned { s with actions := s.actions ++ s.tracer.forward i call } := by
  rw [ProcessTracer.forward, ProcessTracer.callDelegate]
  cases hd : (s.tracer.findAncestor i).delegate with
  | none => simpa using h
  | some d => exact h.call (h.not_destroyed hd) call

theorem Owned.refuse : Owned { s with created := s.created + 1, actions := s.actions ++ [.destroy s.created] } := by
  refine { h with alive := fun o d ho => ?_, destroyed := fun d hd => ?_, safe := ?_ }
  · obtain ⟨hlt, hactions⟩ := h.alive o d ho
    refine ⟨lt_succ_of_lt hlt, fun hd => ?_⟩
    rcases mem_append.mp hd with hd | hd
    · exact hactions hd
    · obtain rfl := DelegateAction.destroy.inj (mem_singleton.mp hd)
      exact lt_irrefl _ hlt
  · rcases mem_append.mp hd with hd | hd
    · exact lt_succ_of_lt (h.destroyed d hd)
    · obtain rfl := DelegateAction.destroy.inj (mem_singleton.mp hd)
      exact lt_succ_self _
  · refine pairwise_append.mpr ⟨h.safe, pairwise_singleton _ _, fun a _ b hb d call _ hcall => ?_⟩
    nomatch (mem_singleton.mp hb).symm.trans hcall

theorem Owned.accept (pid : Int32) (rootThreadId : UInt64) : Owned { s with
      tracer.toBeTraced := s.tracer.toBeTraced.insert pid ⟨rootThreadId, s.created⟩
      created := s.created + 1 } := by
  have howned : ∀ o, ProcessTracer.owned
      { s.tracer with toBeTraced := s.tracer.toBeTraced.insert pid ⟨rootThreadId, s.created⟩ } o =
        if o = .inl pid then some s.created else s.tracer.owned o := by
    rintro (pid' | i)
    · by_cases hp : pid' = pid
      · subst hp
        simp [ProcessTracer.owned]
      · simp [ProcessTracer.owned, hp, lookup_insert_of_ne]
    · simp [ProcessTracer.owned]
  refine { h with unique := fun o o' d ho ho' => ?_, alive := fun o d ho => ?_,
                  destroyed := fun d hd => lt_succ_of_lt (h.destroyed d hd) }
  · rw [howned] at ho ho'
    split at ho
    · split at ho'
      · next ho₁ ho₂ => exact ho₁.trans ho₂.symm
      · cases ho
        exact absurd (h.alive o' _ ho').1 (lt_irrefl _)
    · split at ho'
      · cases ho'
        exact absurd (h.alive o _ ho).1 (lt_irrefl _)
      · exact h.unique o o' d ho ho'
  · rw [howned] at ho
    split at ho
    · cases ho
      exact ⟨lt_succ_self _, fun hd => lt_irrefl _ (h.destroyed _ hd)⟩
    · exact (h.alive o d ho).imp_left lt_succ_of_lt

theorem Owned.lookup_of_not_live (hi : i ∉ s.live) :
    s.tracer.ancestorThreads.lookup i = none ∧ s.tracer.tracedThreads.lookup i = none := by
  have hancestor : s.tracer.ancestorThreads.lookup i = none := by
    by_contra hne
    obtain ⟨a, ha⟩ := ne_none_iff_exists'.mp hne
    exact hi (h.live i a ha)
  refine ⟨hancestor, ?_⟩
  by_contra hne
  obtain ⟨d, hd⟩ := ne_none_iff_exists'.mp hne
  nomatch hancestor.symm.trans (h.roots i d hd)

theorem Owned.addThread {parent child : UInt64} (hchild : child ∉ s.live) {a : Ancestor}
    (ha : s.tracer.ancestorThreads.lookup parent = some a) :
    Owned { s with tracer.ancestorThreads := s.tracer.ancestorThreads.insert child a, live := child :: s.live } := by
  have hnone := (h.lookup_of_not_live hchild).1
  have hlookup : ∀ i, i ≠ child → (s.tracer.ancestorThreads.insert child a).lookup i =
      s.tracer.ancestorThreads.lookup i := fun i hi => lookup_insert_of_ne _ hi
  refine { h with ancestors := fun i b hb => ?_, roots := fun i d hd => ?_, live := fun i b hb => ?_ }
  · by_cases hi : i = child
    · subst hi
      cases (lookup_insert _).symm.trans hb
      exact h.ancestors parent a ha
    · exact h.ancestors i b ((hlookup i hi).symm.trans hb)
  · have hroot := h.roots i d hd
    have hi : i ≠ child := by
      rintro rfl
      nomatch hnone.symm.trans hroot
    exact (hlookup i hi).trans hroot
  · by_cases hi : i = child
    · exact hi ▸ mem_cons_self
    · exact mem_cons_of_mem _ (h.live i b ((hlookup i hi).symm.trans hb))

/-- A delegate passes from a process that is to be traced to its first thread. -/
theorem Owned.startTrace {child : UInt64} (hchild : child ∉ s.live) {q : ToBeTraced}
    (hq : s.tracer.toBeTraced.lookup pid = some q) : Owned { s with
      tracer := {
        toBeTraced := s.tracer.toBeTraced.erase pid
        ancestorThreads := s.tracer.ancestorThreads.insert child ⟨child, some q.delegate⟩
        tracedThreads := s.tracer.tracedThreads.insert child q.delegate }
      live := child :: s.live } := by
  obtain ⟨hancestor, htraced⟩ := h.lookup_of_not_live hchild
  have hq' : s.tracer.owned (.inl pid) = some q.delegate := by
    rw [ProcessTracer.owned, hq]
    rfl
  have howned : ∀ o, ProcessTracer.owned
      { toBeTraced := s.tracer.toBeTraced.erase pid
        ancestorThreads := s.tracer.ancestorThreads.insert child ⟨child, some q.delegate⟩
        tracedThreads := s.tracer.tracedThreads.insert child q.delegate } o =
      if o = .inl pid then none else if o = .inr child then some q.delegate else s.tracer.owned o := by
    rintro (pid' | i)
    · by_cases hp : pid' = pid
      · subst hp
        simp [ProcessTracer.owned]
      · simp [ProcessTracer.owned, hp, lookup_erase_ne]
    · by_cases hi : i = child
      · subst hi
        simp [ProcessTracer.owned]
      · simp [ProcessTracer.owned, hi, lookup_insert_of_ne]
  -- the new owner stands for the old one
  have hformer : ∀ o d, (if o = .inl pid then none else if o = .inr child then some q.delegate else
      s.tracer.owned o) = some d → s.tracer.owned (if o = .inr child then .inl pid else o) = some d := by
    intro o d ho
    split at ho
    · nomatch ho
    · split at ho
      · next heq => rw [if_pos heq, hq', ho]
      · next hne => rw [if_neg hne, ho]
  refine { h with ancestors := fun i a ha => ?_, roots := fun i d hd => ?_, live := fun i a ha => ?_,
                  unique := fun o o' d ho ho' => ?_, alive := fun o d ho => ?_ }
  · by_cases hi : i = child
    · subst hi
      cases (lookup_insert _).symm.trans ha
      exact ⟨q.delegate, rfl, lookup_insert _⟩
    · obtain ⟨d, hd, hroot⟩ := h.ancestors i a ((lookup_insert_of_ne _ hi).symm.trans ha)
      have hne : a.ancestorThreadId ≠ child := by
        intro heq
        rw [heq, htraced] at hroot
        nomatch hroot
      exact ⟨d, hd, (lookup_insert_of_ne _ hne).trans hroot⟩
  · by_cases hi : i = child
    · subst hi
      cases (lookup_insert _).symm.trans hd
      exact lookup_insert _
    · exact (lookup_insert_of_ne _ hi).trans (h.roots i d ((lookup_insert_of_ne _ hi).symm.trans hd))
  · rcases lookup_of_insert ha with ⟨rfl, -⟩ | ha
    · exact mem_cons_self
    · exact mem_cons_of_mem _ (h.live i a ha)
  · rw [howned] at ho ho'
    have heq := h.unique _ _ d (hformer o d ho) (hformer o' d ho')
    split at heq
    · split at heq
      · next h₁ h₂ => exact h₁.trans h₂.symm
      · rw [← heq, if_pos rfl] at ho'
        nomatch ho'
    · split at heq
      · rw [heq, if_pos rfl] at ho
        nomatch ho
      · exact heq
  · rw [howned] at ho
    exact h.alive _ d (hformer o d ho)

/-- A thread terminates. If it was the first one of a trace, the delegate is destroyed. -/
theorem Owned.removeThread
    (hlast : (s.tracer.tracedThreads.lookup i₀).isSome = true → ∀ i a, s.tracer.ancestorThreads.lookup i = some a →
      a.ancestorThreadId = i₀ → i = i₀) :
    Owned { s with
      tracer := { s.tracer with
        ancestorThreads := s.tracer.ancestorThreads.erase i₀
        tracedThreads := s.tracer.tracedThreads.erase i₀ }
      actions := s.actions ++ (s.tracer.tracedThreads.lookup i₀).toList.map .destroy
      live := s.live.filter (· ≠ i₀) } := by
  have howned : ∀ o, ProcessTracer.owned
      { s.tracer with
        ancestorThreads := s.tracer.ancestorThreads.erase i₀
        tracedThreads := s.tracer.tracedThreads.erase i₀ } o =
      if o = .inr i₀ then none else s.tracer.owned o := by
    rintro (pid | i)
    · simp [ProcessTracer.owned]
    · by_cases hi : i = i₀
      · subst hi
        simp [ProcessTracer.owned]
      · simp [ProcessTracer.owned, hi, lookup_erase_ne]
  have hdestroy : ∀ d, DelegateAction.destroy d ∈ s.actions ++ (s.tracer.tracedThreads.lookup i₀).toList.map .destroy ↔
        .destroy d ∈ s.actions ∨ s.tracer.tracedThreads.lookup i₀ = some d := by
    intro d
    cases s.tracer.tracedThreads.lookup i₀ <;> simp [eq_comm]
  refine { ancestors := fun i a ha => ?_, roots := fun i d hd => ?_, live := fun i a ha => ?_,
           unique := fun o o' d ho ho' => ?_, alive := fun o d ho => ?_, destroyed := fun d hd => ?_,
           safe := ?_ }
  · obtain ⟨hi, ha⟩ := lookup_of_erase ha
    obtain ⟨d, hd, hroot⟩ := h.ancestors i a ha
    have hne : a.ancestorThreadId ≠ i₀ := by
      intro heq
      refine hi (hlast ?_ i a ha heq)
      rw [← heq, hroot]
      rfl
    exact ⟨d, hd, (lookup_erase_ne hne).trans hroot⟩
  · obtain ⟨hi, hd⟩ := lookup_of_erase hd
    exact (lookup_erase_ne hi).trans (h.roots i d hd)
  · obtain ⟨hi, ha⟩ := lookup_of_erase ha
    exact mem_filter.mpr ⟨h.live i a ha, decide_eq_true hi⟩
  · rw [howned] at ho ho'
    split at ho
    · nomatch ho
    · split at ho'
      · nomatch ho'
      · exact h.unique o o' d ho ho'
  · rw [howned] at ho
    split at ho
    · nomatch ho
    · next hne =>
      refine (h.alive o d ho).imp_right fun halive hd => ?_
      rcases (hdestroy d).mp hd with hd | hd
      · exact halive hd
      · exact hne (h.unique o (.inr i₀) d ho hd)
  · rcases (hdestroy d).mp hd with hd | hd
    · exact h.destroyed d hd
    · exact (h.alive (.inr i₀) d hd).1
  · refine pairwise_append.mpr ⟨h.safe, ?_, ?_⟩
    · cases s.tracer.tracedThreads.lookup i₀ <;> simp
    · rintro a - b hb d call - rfl
      simp at hb

theorem Owned.last_of_rootLast (hlast : s.rootLast (.call (.terminateThread i₀)) = true)
    (hroot : (s.tracer.tracedThreads.lookup i₀).isSome = true) (i : UInt64) (a : Ancestor)
    (ha : s.tracer.ancestorThreads.lookup i = some a) (hi : a.ancestorThreadId = i₀) : i = i₀ := by
  rw [rootLast, Bool.or_eq_true, isNone_iff_eq_none] at hlast
  rcases hlast with hnone | hall
  · rw [hnone] at hroot
    nomatch hroot
  · have hcheck := all_eq_true.mp hall i (h.live i a ha)
    rw [ProcessTracer.findAncestor, ha] at hcheck
    simpa [hi] using hcheck

theorem Owned.next (hlast : s.rootLast input = true) (hnext : s.next input = .ok s') : Owned s' := by
  cases happens_of_next hnext with
  | refuse => exact h.refuse
  | accept => exact h.accept _ _
  | ignore => exact { h with live := fun i a ha => mem_cons_of_mem _ (h.live i a ha) }
  | @addThread _ parent child a d ha hd =>
    have hfound : (s.tracer.findAncestor parent).delegate = some d := by
      rw [ProcessTracer.findAncestor, ha]
      exact hd
    exact (h.addThread (of_decide_eq_true hlast) ha).call (h.not_destroyed hfound) _
  | @startTrace pid child q _ hq =>
    have hchild := of_decide_eq_true hlast
    obtain ⟨hancestor, htraced⟩ := h.lookup_of_not_live hchild
    simp only [ProcessTracer.startTrace, emplace, hancestor, htraced, isSome_none,
      Bool.false_eq_true, if_false, nil_append]
    refine (h.startTrace hchild hq).call (h.alive (.inl pid) q.delegate ?_).2 _
    rw [ProcessTracer.owned, hq]
    rfl
  | terminateUntraced hnone =>
    refine { h with live := fun i a ha => mem_filter.mpr ⟨h.live i a ha, decide_eq_true ?_⟩ }
    rintro rfl
    cases hnone.symm.trans ha
  | @terminate i a ha =>
    obtain ⟨d, hd, hroot⟩ := h.ancestors i a ha
    rw [ProcessTracer.callDelegate, hd, ← append_assoc]
    exact (h.call (h.alive (.inr a.ancestorThreadId) d hroot).2 (.terminateThread i)).removeThread
      (h.last_of_rootLast hlast)
  | forward i call => exact h.forward i call

end

theorem reaches_of_run {inputs : List TracerInput} (h : s.run rootLast inputs = some s') :
    Relation.ReflTransGen Follows s s' := by
  refine reaches_of_foldlM (fun s₁ input _ s₂ hnext => ?_) h
  obtain ⟨hlast, hnext⟩ := ite_none_right_eq_some.mp hnext
  exact ⟨input, hlast, toOption_eq_some.mp hnext⟩

end Tracing

/-- In every run in which ids of live threads are different and the first thread of a trace is the
last of it to terminate: every pointer is owned, and no delegate is called after it was destroyed. -/
theorem delegates_alive {s : Tracing} (hreaches : Relation.ReflTransGen Tracing.Follows {} s) :
    (∀ i a, s.tracer.ancestorThreads.lookup i = some a →
      ∃ d, a.delegate = some d ∧ s.tracer.tracedThreads.lookup a.ancestorThreadId = some d) ∧
    s.actions.Pairwise DelegateAction.MayPrecede := by
  suffices h : s.Owned from ⟨h.ancestors, h.safe⟩
  induction hreaches with
  | refl => exact Tracing.Owned.initial
  | tail _ hfollows ih =>
    obtain ⟨input, hlast, hnext⟩ := hfollows
    exact ih.next hlast hnext

def startTwoThreads : List TracerInput := [.traceProcess 7 1, .call (.newThread 7 1 2), .call (.newThread 7 2 3)]

/-- Thread 3 terminates before thread 2. -/
theorem delegates_alive_of_root_last :
    ∃ s, Tracing.run Tracing.rootLast {} (startTwoThreads ++ [.call (.exec 3), .call (.terminateThread 3),
        .call (.terminateThread 2)]) = some s ∧
      s.actions = [.call 0 (.newThread 7 1 2), .call 0 (.newThread 7 2 3), .call 0 (.exec 3),
        .call 0 (.terminateThread 3), .call 0 (.terminateThread 2), .destroy 0] ∧
      s.actions.Pairwise DelegateAction.MayPrecede := by
  have h : ∃ s, Tracing.run Tracing.rootLast {} (startTwoThreads ++ [.call (.exec 3),
      .call (.terminateThread 3), .call (.terminateThread 2)]) = some s ∧
        s.actions = [.call 0 (.newThread 7 1 2), .call 0 (.newThread 7 2 3), .call 0 (.exec 3),
          .call 0 (.terminateThread 3), .call 0 (.terminateThread 2), .destroy 0] := by
    decide +kernel
  obtain ⟨s, hrun, hactions⟩ := h
  exact ⟨s, hrun, hactions, (delegates_alive (Tracing.reaches_of_run hrun)).2⟩

/-- Thread 2 terminates, which destroys the delegate. The pointer of thread 3 is left, and the next
event of that thread is forwarded to it. -/
theorem delegate_called_after_destroyed : ∃ s, Tracing.run (fun _ _ => true) {}
        (startTwoThreads ++ [.call (.terminateThread 2), .call (.exec 3)]) = some s ∧
      s.tracer.ancestorThreads.lookup 3 = some ⟨2, some 0⟩ ∧ s.tracer.tracedThreads.lookup 2 = none ∧
      s.actions = [.call 0 (.newThread 7 1 2), .call 0 (.newThread 7 2 3), .call 0 (.terminateThread 2),
        .destroy 0, .call 0 (.exec 3)] := by
  decide +kernel

end Shuriken
