import Shuriken.Trace.ProcessTracer

/-!
# Requests to be traced

A thread asks for its process to be traced and then creates the first thread of the trace. Until then the
request waits under the pid of the process.
-/
namespace Shuriken
open Option List Finmap
namespace Tracing
variable {s s' : Tracing} {input : TracerInput}

/-- The input neither asks for the process to be traced nor starts the trace. -/
def keepsWaiting (pid : Int32) (root : UInt64) (s : Tracing) : TracerInput → Bool
  | .traceProcess pid' _ => pid' ≠ pid
  | .call (.newThread pid' parent child) =>
    !(pid' = pid && parent = root && child ≠ root && (s.tracer.findAncestor root).delegate.isNone)
  | .call _ => true

/-- A delegate that is not only kept for the request under a pid. -/
inductive Elsewhere (pid : Int32) (s : Tracing) (d : Nat) : Prop
  | request {pid' : Int32} {q : ToBeTraced} : pid' ≠ pid → s.tracer.toBeTraced.lookup pid' = some q →
      q.delegate = d → Elsewhere pid s d
  | owned {i : UInt64} : s.tracer.tracedThreads.lookup i = some d → Elsewhere pid s d
  | pointer {i : UInt64} {a : Ancestor} : s.tracer.ancestorThreads.lookup i = some a →
      a.delegate = some d → Elsewhere pid s d
  | destroyed : .destroy d ∈ s.actions → Elsewhere pid s d

variable {pid : Int32} {d : Nat} {check : Tracing → TracerInput → Bool} {inputs : List TracerInput} {root : UInt64}
    {a : Ancestor} {threads : List UInt64}

theorem Elsewhere.frame (h : Elsewhere pid s' d) (htracer : s'.tracer = s.tracer)
    (hactions : .destroy d ∈ s'.actions → .destroy d ∈ s.actions) : Elsewhere pid s d := by
  cases h with
  | request hpid hq hd => exact .request hpid (htracer ▸ hq) hd
  | owned hd => exact .owned (htracer ▸ hd)
  | pointer ha hd => exact .pointer (htracer ▸ ha) hd
  | destroyed hd => exact .destroyed (hactions hd)

/-- The input starts the trace that was asked for under the pid. -/
structure Starts (pid : Int32) (s : Tracing) (input : TracerInput) (q : ToBeTraced) : Prop where
  thread : ∃ child, input = .call (.newThread pid q.rootThreadId child) ∧ child ≠ q.rootThreadId
  root : (s.tracer.findAncestor q.rootThreadId).delegate = none
  request : s.tracer.toBeTraced.lookup pid = some q

theorem destroy_mem_startTrace {parent child : UInt64} {d' : Nat} :
    .destroy d ∈ (s.tracer.startTrace pid parent child d').2 → d = d' := by
  rw [ProcessTracer.startTrace]
  split <;> simp

theorem destroy_not_mem_callDelegate {delegate : Option Nat} {call : DelegateCall} :
    .destroy d ∉ ProcessTracer.callDelegate delegate call := by
  cases delegate <;> simp [ProcessTracer.callDelegate]

/-- A delegate that is elsewhere was so before, or it is new, or the trace is started. -/
theorem elsewhere_of_happens (hstep : s.Happens input s') (h : Elsewhere pid s' d) :
    Elsewhere pid s d ∨ (d = s.created ∧ s'.created = s.created + 1) ∨ ∃ q, Starts pid s input q ∧ q.delegate = d := by
  cases hstep with
  | refuse =>
    by_cases hd : d = s.created
    · exact .inr (.inl ⟨hd, rfl⟩)
    · exact .inl (h.frame rfl fun hdestroy => by simpa [hd] using hdestroy)
  | accept =>
    cases h with
    | request hpid hq hd =>
      rcases lookup_of_insert hq with ⟨-, rfl⟩ | hq
      · exact .inr (.inl ⟨hd.symm, rfl⟩)
      · exact .inl (.request hpid hq hd)
    | owned hd => exact .inl (.owned hd)
    | pointer ha hd => exact .inl (.pointer ha hd)
    | destroyed hd => exact .inl (.destroyed hd)
  | ignore => exact .inl (h.frame rfl id)
  | addThread ha =>
    cases h with
    | request hpid hq hd => exact .inl (.request hpid hq hd)
    | owned hd => exact .inl (.owned hd)
    | pointer hb hd =>
      rcases lookup_of_insert hb with ⟨-, rfl⟩ | hb
      · exact .inl (.pointer ha hd)
      · exact .inl (.pointer hb hd)
    | destroyed hd => exact .inl (.destroyed (by simpa using hd))
  | @startTrace pid₀ child q hroot hq hchild =>
    -- the delegate of the request has moved to the thread
    have hmoved : q.delegate = d → Elsewhere pid s d ∨ ∃ q',
        Starts pid s (.call (.newThread pid₀ q.rootThreadId child)) q' ∧ q'.delegate = d := by
      intro hd
      by_cases hpid : pid₀ = pid
      · subst hpid
        exact .inr ⟨q, ⟨⟨child, rfl, hchild⟩, hroot, hq⟩, hd⟩
      · exact .inl (.request hpid hq hd)
    cases h with
    | request hpid hq' hd => exact .inl (.request hpid (lookup_of_erase hq').2 hd)
    | owned hd =>
      rcases lookup_of_emplace hd with ⟨-, hd⟩ | hd
      · exact (hmoved hd.symm).imp_right .inr
      · exact .inl (.owned hd)
    | pointer ha hd =>
      rcases lookup_of_emplace ha with ⟨-, rfl⟩ | ha
      · exact (hmoved (some.inj hd)).imp_right .inr
      · exact .inl (.pointer ha hd)
    | destroyed hd =>
      rcases mem_append.mp hd with hd | hd
      · exact .inl (.destroyed hd)
      · exact (hmoved (destroy_mem_startTrace hd).symm).imp_right .inr
  | terminateUntraced => exact .inl (h.frame rfl id)
  | @terminate i =>
    cases h with
    | request hpid hq hd => exact .inl (.request hpid hq hd)
    | owned hd => exact .inl (.owned (lookup_of_erase hd).2)
    | pointer ha hd => exact .inl (.pointer (lookup_of_erase ha).2 hd)
    | destroyed hd =>
      rcases mem_append.mp hd with hd | hd
      · exact .inl (.destroyed hd)
      · rcases mem_append.mp hd with hd | hd
        · exact absurd hd destroy_not_mem_callDelegate
        · obtain ⟨d', hd', heq⟩ := mem_map.mp hd
          obtain rfl := DelegateAction.destroy.inj heq
          exact .inl (.owned (mem_toList.mp hd'))
  | forward i call =>
    refine .inl (h.frame rfl fun hd => ?_)
    rcases mem_append.mp hd with hd | hd
    · exact hd
    · exact absurd hd destroy_not_mem_callDelegate

/-- Every delegate has been counted, and every thread that owns one has a pointer to some delegate. -/
structure Numbered (pid : Int32) (s : Tracing) : Prop where
  elsewhere : ∀ {d}, Elsewhere pid s d → d < s.created
  request : ∀ {q}, s.tracer.toBeTraced.lookup pid = some q → q.delegate < s.created
  pointers : ∀ {i}, s.tracer.ancestorThreads.lookup i = none → s.tracer.tracedThreads.lookup i = none

section
variable (hstep : s.Happens input s')
include hstep

theorem created_le_of_happens : s.created ≤ s'.created := by
  cases hstep with
  | refuse | accept => exact Nat.le_succ _
  | ignore | addThread | startTrace | terminateUntraced | terminate | forward => exact le_rfl

theorem request_of_happens {q : ToBeTraced} (hq : s'.tracer.toBeTraced.lookup pid = some q) :
    s.tracer.toBeTraced.lookup pid = some q ∨ q.delegate = s.created ∧ s'.created = s.created + 1 := by
  cases hstep with
  | accept =>
    rcases lookup_of_insert hq with ⟨-, rfl⟩ | hq
    · exact .inr ⟨rfl, rfl⟩
    · exact .inl hq
  | startTrace => exact .inl (lookup_of_erase hq).2
  | refuse | ignore | addThread | terminateUntraced | terminate | forward => exact .inl hq

theorem pointers_of_happens
    (h : ∀ {i}, s.tracer.ancestorThreads.lookup i = none → s.tracer.tracedThreads.lookup i = none) {i : UInt64}
    (hi : s'.tracer.ancestorThreads.lookup i = none) : s'.tracer.tracedThreads.lookup i = none := by
  cases hstep with
  | refuse | accept | ignore | terminateUntraced | forward => exact h hi
  | @addThread _ _ child =>
    refine h ?_
    by_cases hchild : i = child
    · rw [hchild, lookup_insert] at hi
      nomatch hi
    · rwa [lookup_insert_of_ne _ hchild] at hi
  | startTrace =>
    obtain ⟨hne, hi⟩ := lookup_emplace_eq_none.mp hi
    exact lookup_emplace_eq_none.mpr ⟨hne, h hi⟩
  | @terminate i₀ =>
    by_cases heq : i = i₀
    · rw [heq]
      exact lookup_erase _ _
    · rw [lookup_erase_ne heq] at hi
      exact (lookup_erase_ne heq).trans (h hi)

end

theorem Numbered.initial (pid : Int32) : Numbered pid {} := by
  constructor
  · intro d hd
    cases hd with
    | request _ hq => nomatch hq
    | owned hd => nomatch hd
    | pointer ha => nomatch ha
    | destroyed hd => nomatch hd
  · intro q hq
    nomatch hq
  · intro i _
    rfl

theorem Numbered.happens (h : Numbered pid s) (hstep : s.Happens input s') : Numbered pid s' := by
  have hle := created_le_of_happens hstep
  constructor
  · intro d hd
    rcases elsewhere_of_happens hstep hd with hd | ⟨rfl, hcreated⟩ | ⟨q, hstarts, rfl⟩
    · exact (h.elsewhere hd).trans_le hle
    · omega
    · exact (h.request hstarts.request).trans_le hle
  · intro q hq
    rcases request_of_happens hstep hq with hq | ⟨hd, hcreated⟩
    · exact (h.request hq).trans_le hle
    · omega
  · exact pointers_of_happens hstep h.pointers

theorem run_invariant {P : Tracing → Prop}
    (hstep : ∀ {s input s'}, check s input = true → s.Happens input s' → P s → P s') (h : P s)
    (hrun : s.run check inputs = some s') : P s' := by
  refine foldlM_invariant ?_ h hrun
  intro s₁ input _ s₂ hnext h₁
  obtain ⟨hcheck, hnext⟩ := ite_none_right_eq_some.mp hnext
  exact hstep hcheck (happens_of_next (Except.toOption_eq_some.mp hnext)) h₁

theorem Numbered.run (h : Numbered pid s) (hrun : s.run check inputs = some s') : Numbered pid s' :=
  run_invariant (fun _ hstep h => h.happens hstep) h hrun

/-- The request waits, and its delegate is nowhere else. -/
structure Waits (pid : Int32) (root : UInt64) (d : Nat) (s : Tracing) : Prop where
  request : s.tracer.toBeTraced.lookup pid = some ⟨root, d⟩
  only : ¬ Elsewhere pid s d
  counted : d < s.created

theorem Waits.happens (h : Waits pid root d s) (hkeeps : s.keepsWaiting pid root input = true)
    (hstep : s.Happens input s') : Waits pid root d s' := by
  have hstarts : ∀ q, ¬ Starts pid s input q := by
    rintro q ⟨⟨child, rfl, hchild⟩, hroot, hq⟩
    cases h.request.symm.trans hq
    simp only [keepsWaiting, hroot, isNone_none, decide_true, hchild, ne_eq, not_false_eq_true,
      Bool.and_true, Bool.not_true, Bool.false_eq_true] at hkeeps
  refine ⟨?_, ?_, h.counted.trans_le (created_le_of_happens hstep)⟩
  · cases hstep with
    | @accept pid' _ hnone =>
      have hpid : pid ≠ pid' := by
        rintro rfl
        nomatch hnone.symm.trans h.request
      exact (lookup_insert_of_ne _ hpid).trans h.request
    | @startTrace pid' child q hroot hq hchild =>
      have hpid : pid ≠ pid' := by
        rintro rfl
        exact hstarts q ⟨⟨child, rfl, hchild⟩, hroot, hq⟩
      exact (lookup_erase_ne hpid).trans h.request
    | refuse | ignore | addThread | terminateUntraced | terminate | forward => exact h.request
  · intro hd
    rcases elsewhere_of_happens hstep hd with hd | ⟨rfl, -⟩ | ⟨q, hq, -⟩
    · exact h.only hd
    · exact Nat.lt_irrefl _ h.counted
    · exact hstarts q hq

theorem Numbered.waits (h : Numbered pid s) : Waits pid root s.created { s with
      tracer.toBeTraced := s.tracer.toBeTraced.insert pid ⟨root, s.created⟩
      created := s.created + 1 } := by
  refine ⟨lookup_insert _, ?_, Nat.lt_succ_self _⟩
  intro hd
  have hd' : Elsewhere pid s s.created := by
    cases hd with
    | request hpid hq hd =>
      rcases lookup_of_insert hq with ⟨hpid', -⟩ | hq
      · exact absurd hpid' hpid
      · exact .request hpid hq hd
    | owned hd => exact .owned hd
    | pointer ha hd => exact .pointer ha hd
    | destroyed hd => exact .destroyed hd
  exact Nat.lt_irrefl _ (h.elsewhere hd')

def descend (threads : List UInt64) : TracerInput → List UInt64
  | .call (.newThread _ parent child) => if parent ∈ threads then child :: threads else threads
  | .call (.terminateThread i) => threads.filter (· ≠ i)
  | _ => threads

def descendants (threads : List UInt64) (inputs : List TracerInput) : List UInt64 := inputs.foldl descend threads

def Forwards (a : Ancestor) (threads : List UInt64) (s : Tracing) : Prop :=
  ∀ i ∈ threads, s.tracer.ancestorThreads.lookup i = some a

theorem Forwards.happens (ha : a.delegate = some d) (h : Forwards a threads s) (hstep : s.Happens input s') :
    Forwards a (descend threads input) s' := by
  cases hstep with
  | refuse | accept => exact h
  | @ignore _ parent child hnone =>
    have hparent : parent ∉ threads := by
      intro hmem
      rw [ProcessTracer.findAncestor, h parent hmem] at hnone
      cases ha.symm.trans hnone
    rw [descend, if_neg hparent]
    exact h
  | @addThread _ parent child b _ hb _ hchild =>
    have hother : ∀ i ∈ threads, i ≠ child := by
      rintro i hi rfl
      cases hchild.symm.trans (h i hi)
    have hold : ∀ i ∈ threads, (s.tracer.ancestorThreads.insert child b).lookup i = some a := by
      intro i hi
      exact (lookup_insert_of_ne _ (hother i hi)).trans (h i hi)
    rw [descend]
    split
    · next hparent =>
      cases hb.symm.trans (h parent hparent)
      exact forall_mem_cons.mpr ⟨lookup_insert _, hold⟩
    · exact hold
  | @startTrace _ child q hroot =>
    have hparent : q.rootThreadId ∉ threads := by
      intro hmem
      rw [ProcessTracer.findAncestor, h _ hmem] at hroot
      cases ha.symm.trans hroot
    rw [descend, if_neg hparent]
    intro i hi
    by_cases hchild : i = child
    · subst hchild
      exact (lookup_emplace_self _ _ _).trans (by rw [h i hi]; rfl)
    · exact (lookup_emplace_of_ne _ _ hchild).trans (h i hi)
  | terminateUntraced => exact fun i hi => h i (mem_of_mem_filter hi)
  | @terminate i₀ =>
    intro i hi
    obtain ⟨hi, hne⟩ := mem_filter.mp hi
    exact (lookup_erase_ne (of_decide_eq_true hne)).trans (h i hi)
  | forward i call hnew hend =>
    cases call with
    | newThread => exact absurd rfl (hnew _ _ _)
    | terminateThread => exact absurd rfl (hend _)
    | fileEvent | openFile | dup | setCloexec | close | chdir | threadChdir | exec => exact h

theorem Forwards.run (ha : a.delegate = some d) (h : Forwards a threads s)
    (hrun : s.run (fun _ _ => true) inputs = some s') : Forwards a (descendants threads inputs) s' := by
  induction inputs generalizing s threads with
  | nil => exact some.inj hrun ▸ h
  | cons input inputs ih =>
    obtain ⟨s₁, hnext, hrest⟩ := bind_eq_some_iff.mp hrun
    exact ih (h.happens ha (happens_of_next (Except.toOption_eq_some.mp hnext))) hrest

/-- The request is served by the thread: the trace is started, the delegate is still there, and it
gets the events of the thread and of those that come from it. -/
structure Serves (pid : Int32) (root child : UInt64) (d : Nat) (s : Tracing) : Prop where
  alive : .destroy d ∉ s.actions
  traces : ∃ tracer actions, s.tracer.newThread pid root child = .ok (tracer, actions, .trace) ∧ .destroy d ∉ actions
  forwards : ∀ {s₁ s₂ : Tracing} {inputs : List TracerInput},
    s.next (.call (.newThread pid root child)) = .ok s₁ → s₁.run (fun _ _ => true) inputs = some s₂ →
    ∀ i ∈ descendants [child] inputs, ∀ call, s₂.tracer.forward i call = [.call d call]

theorem Waits.newThread {child : UInt64} (h : Waits pid root d s) (hchild : child ≠ root)
    (hroot : (s.tracer.findAncestor root).delegate = none) :
    s.tracer.newThread pid root child = .ok ((s.tracer.startTrace pid root child d).1,
      (s.tracer.startTrace pid root child d).2, .trace) := by
  rw [ProcessTracer.newThread]
  simp only [hroot, h.request, if_neg hchild, ne_eq, not_true_eq_false, if_false]

theorem Waits.serves_iff {child : UInt64} (h : Waits pid root d s) (hnumbered : Numbered pid s) (hchild : child ≠ root)
    (hroot : (s.tracer.findAncestor root).delegate = none) :
    Serves pid root child d s ↔ s.tracer.ancestorThreads.lookup child = none := by
  have hthread := h.newThread hchild hroot
  have hnext : s.next (.call (.newThread pid root child)) = .ok { s with
      tracer := (s.tracer.startTrace pid root child d).1
      actions := s.actions ++ (s.tracer.startTrace pid root child d).2
      live := child :: s.live } := by
    rw [next, ProcessTracer.handle, hthread]
    rfl
  constructor
  · intro hserves
    by_contra hne
    obtain ⟨a, ha⟩ := ne_none_iff_exists'.mp hne
    -- the old pointer stays, and it leads to another delegate
    have hpointer : (s.tracer.startTrace pid root child d).1.findAncestor child = a := by
      rw [ProcessTracer.findAncestor, ProcessTracer.startTrace, lookup_emplace_self, ha]
      rfl
    have hforwards := hserves.forwards hnext (show Tracing.run _ _ [] = some _ from rfl) child
      (mem_singleton_self child) (.exec child)
    rw [ProcessTracer.forward, hpointer] at hforwards
    cases hd : a.delegate with
    | none =>
      rw [hd] at hforwards
      cases hforwards
    | some d' =>
      rw [hd] at hforwards
      obtain rfl := (DelegateAction.call.inj (singleton_inj.mp hforwards)).1
      exact h.only (.pointer ha hd)
  · intro hnone
    constructor
    · intro hdestroy
      exact h.only (.destroyed hdestroy)
    · refine ⟨_, _, hthread, ?_⟩
      rw [ProcessTracer.startTrace, hnumbered.pointers hnone]
      simp
    · intro s₁ s₂ inputs hnext' hrun i hi call
      cases hnext.symm.trans hnext'
      have hstart : Forwards ⟨child, some d⟩ [child] { s with
          tracer := (s.tracer.startTrace pid root child d).1
          actions := s.actions ++ (s.tracer.startTrace pid root child d).2
          live := child :: s.live } := by
        intro i hi
        obtain rfl := mem_singleton.mp hi
        exact (lookup_emplace_self _ _ _).trans (by rw [hnone]; rfl)
      rw [ProcessTracer.forward, ProcessTracer.findAncestor, hstart.run rfl hrun i hi]
      rfl

theorem actions_subset_of_happens (hstep : s.Happens input s') : s.actions ⊆ s'.actions := by
  cases hstep with
  | accept | ignore | terminateUntraced => exact List.Subset.refl _
  | refuse | addThread | startTrace | terminate | forward => exact subset_append_left _ _

/-- A request is served if and only if no older one waits under the pid and the thread is not
traced already. -/
theorem trace_request_served_iff {inputs between : List TracerInput} {s s₁ s₂ : Tracing} {pid : Int32}
    {root child : UInt64} (hbefore : Tracing.run (fun _ _ => true) {} inputs = some s)
    (hrequest : s.next (.traceProcess pid root) = .ok s₁) (hbetween : s₁.run (keepsWaiting pid root) between = some s₂)
    (hchild : child ≠ root) (hroot : (s₂.tracer.findAncestor root).delegate = none) :
    Serves pid root child s.created s₂ ↔
      s.tracer.toBeTraced.lookup pid = none ∧ s₂.tracer.ancestorThreads.lookup child = none := by
  have hnumbered : Numbered pid s := (Numbered.initial pid).run hbefore
  have hhappens := happens_of_next hrequest
  have hnumbered₂ : Numbered pid s₂ := (hnumbered.happens hhappens).run hbetween
  cases hhappens with
  | refuse hq =>
    -- the delegate is destroyed at once, and that is never undone
    have hdestroyed : DelegateAction.destroy s.created ∈ s₂.actions :=
      run_invariant (fun _ hstep h => actions_subset_of_happens hstep h)
        (mem_append_right _ (mem_singleton_self _)) hbetween
    constructor
    · intro hserves
      exact absurd hdestroyed hserves.alive
    · intro hnone
      nomatch hq.symm.trans hnone.1
  | accept hnone =>
    have hwaits := run_invariant (fun hkeeps hstep h => Waits.happens h hkeeps hstep) hnumbered.waits hbetween
    rw [hwaits.serves_iff hnumbered₂ hchild hroot]
    exact (and_iff_right hnone).symm

def servedBefore : List TracerInput := [.traceProcess 7 1, .call (.newThread 7 1 2), .call (.terminateThread 2)]

theorem trace_request_served_again : ∃ s s₁, Tracing.run (fun _ _ => true) {} servedBefore = some s ∧
    s.next (.traceProcess 7 3) = .ok s₁ ∧ Serves 7 3 4 s.created s₁ :=
  ⟨_, _, rfl, rfl, (trace_request_served_iff (show Tracing.run _ _ servedBefore = some _ from rfl) rfl
    (show Tracing.run _ _ [] = some _ from rfl) (by decide) rfl).mpr ⟨rfl, rfl⟩⟩

/-- A process asks to be traced and dies before it starts a thread. The next one with its pid asks,
and is not traced. -/
theorem trace_request_is_dropped : ∃ s s₁, Tracing.run (fun _ _ => true) {} [.traceProcess 7 1] = some s ∧
    s.next (.traceProcess 7 2) = .ok s₁ ∧ .destroy s.created ∈ s₁.actions ∧
    s₁.tracer.newThread 7 2 3 = .ok (s₁.tracer, [], .ignore) :=
  ⟨_, _, rfl, rfl, mem_singleton_self _, rfl⟩

end Tracing
end Shuriken
