import Shuriken.Build.MarkDone
import Shuriken.Build.World

/-!
# Scheduling

Every step is accounted for at every point of a build: once its dependencies are done it is in exactly one of
the places that a step can be in, and its counter is the number of edges to steps that are not done yet.
-/
namespace Shuriken
open List Countdown

def Phase.newReadySteps {n : Nat} : Phase n → List (Fin n)
  | .discarding _ newReadySteps _ => newReadySteps
  | _ => []

def Phase.visited {n : Nat} : Phase n → Fin n → Bool
  | .discarding visited _ _ => visited
  | _ => fun _ => false

section
variable {σ : Type} {n : Nat} (params : BuildCommandParameters σ n) (build₀ : Build n)

def BuildCommandParameters.edges : Fin n → List (Fin n) := Build.edges params.manifest params.invocations

/-- The accounting of the steps in a build that was constructed as `build₀`. `holding` are steps
that were taken from a list and not yet put into another one. -/
structure Scheduled (holding : List (Fin n)) (w : World σ n) : Prop where
  shouldBuild : ∀ i, (w.build.stepNodes i).shouldBuild = (build₀.stepNodes i).shouldBuild
  dependents : ∀ i, (w.build.stepNodes i).dependents = (build₀.stepNodes i).dependents
  dependencies : ∀ i, (build₀.stepNodes i).shouldBuild = true →
    (w.build.stepNodes i).dependencies = pending params.edges w.history.done i
  flags : ∀ i, (build₀.stepNodes i).shouldBuild = true → (w.build.stepNodes i).noDirectDependenciesBuilt = true →
      ∀ j ∈ params.edges i, j ∈ w.history.done →
        j ∈ w.history.skipped ∨ stepIsIgnored params.invocations (params.manifest.steps i).hash j = true
  entered : ∀ i, i ∈ w.history.entered ↔
    (build₀.stepNodes i).shouldBuild = true ∧ ∀ j ∈ params.edges i, j ∈ w.history.done
  nodup : w.history.entered.Nodup
  accounted : w.history.entered.Perm (holding ++ w.build.readySteps ++ w.phase.newReadySteps ++
    w.running ++ w.history.done ++ w.history.failed)
  visited : ∀ i, w.phase.visited i = true → i ∈ w.history.done ∨ i ∈ w.phase.newReadySteps ∨ i ∈ holding
  started : ∀ i ∈ w.history.started, i ∈ holding ∨ i ∈ w.running ∨ i ∈ w.history.failed ∨
    i ∈ w.history.done ∧ i ∉ w.history.skipped
  skipped : w.history.skipped ⊆ w.history.done
  running : w.running ⊆ w.history.started
  remaining : 0 ≤ build₀.remainingFailures.toInt → w.build.remainingFailures.toInt =
    max 0 (build₀.remainingFailures.toInt - w.history.failed.length)

variable {params build₀} {holding : List (Fin n)} {w : World σ n} {stepsToBuild : List (Fin n)}

theorem Scheduled.initial (hbuild : Build.Constructed params.manifest params.invocations stepsToBuild build₀)
    (disk : Disk σ) (clock : Int64) :
    Scheduled params build₀ [] (World.initial disk clock build₀) where
  shouldBuild _ := rfl
  dependents _ := rfl
  dependencies i hi := by
    rw [World.initial, pending_nil]
    exact hbuild.dependencies i hi
  flags _ _ _ _ _ h := nomatch h
  entered i := by
    have hmem : i ∈ build₀.readySteps ↔
        (build₀.stepNodes i).shouldBuild = true ∧ (build₀.stepNodes i).dependencies = 0 := by
      rw [hbuild.ready, Build.computeReadySteps, mem_filter]
      simp
    rw [World.initial, hmem]
    refine and_congr_right fun hi => ?_
    rw [hbuild.dependencies i hi, length_eq_zero_iff, eq_nil_iff_forall_not_mem]
    simp [BuildCommandParameters.edges]
  nodup := by
    rw [World.initial, hbuild.ready]
    exact (nodup_finRange n).filter _
  accounted := by simp [World.initial, Phase.newReadySteps]
  visited i h := nomatch h
  started _ h := nomatch h
  skipped _ h := nomatch h
  running _ h := nomatch h
  remaining h := by simp [World.initial, h]

theorem Scheduled.congr (h : Scheduled params build₀ holding w) {w' : World σ n}
    (hnodes : w'.build.stepNodes = w.build.stepNodes) (hready : w'.build.readySteps = w.build.readySteps)
    (hremaining : w'.build.remainingFailures = w.build.remainingFailures)
    (hnew : w'.phase.newReadySteps = w.phase.newReadySteps) (hvisited : w'.phase.visited = w.phase.visited)
    (hrunning : w'.running = w.running) (hhistory : w'.history = w.history) : Scheduled params build₀ holding w' := by
  constructor <;> simp only [hnodes, hready, hremaining, hnew, hvisited, hrunning, hhistory]
  exacts [h.shouldBuild, h.dependents, h.dependencies, h.flags, h.entered, h.nodup, h.accounted,
    h.visited, h.started, h.skipped, h.running, h.remaining]

theorem Scheduled.nodup_accounted (h : Scheduled params build₀ holding w) :
    (holding ++ w.build.readySteps ++ w.phase.newReadySteps ++ w.running ++ w.history.done ++ w.history.failed).Nodup :=
  h.accounted.nodup_iff.mp h.nodup

variable {i : Fin n}

theorem Scheduled.mem_entered (h : Scheduled params build₀ holding w)
    (hi : i ∈ holding ++ w.build.readySteps ++ w.phase.newReadySteps ++ w.running ++ w.history.done ++
      w.history.failed) :
    i ∈ w.history.entered :=
  h.accounted.mem_iff.mpr hi

theorem Scheduled.fresh_of_ready (h : Scheduled params build₀ [] w) (hi : i ∈ w.build.readySteps) :
    i ∉ w.phase.newReadySteps ∧ i ∉ w.history.done ∧ i ∉ w.history.started := by
  have hnodup := h.nodup_accounted
  simp only [nodup_append, mem_append] at hnodup
  have hnew : i ∉ w.phase.newReadySteps := fun h' => hnodup.1.1.1.2.2 i (.inr hi) i h' rfl
  have hdone : i ∉ w.history.done := fun h' => hnodup.1.2.2 i (.inl (.inl (.inr hi))) i h' rfl
  refine ⟨hnew, hdone, fun hstarted => ?_⟩
  rcases h.started i hstarted with h' | h' | h' | ⟨h', -⟩
  · nomatch h'
  · exact hnodup.1.1.2.2 i (.inl (.inr hi)) i h' rfl
  · exact hnodup.2.2 i (.inl (.inl (.inl (.inr hi)))) i h' rfl
  · exact hdone h'

section
variable (h : Scheduled params build₀ holding w)
include h

theorem Scheduled.only_done (hi : i ∈ w.history.done) : i ∉ holding ∧ i ∉ w.running ∧ i ∉ w.history.failed := by
  have hnodup := h.nodup_accounted
  simp only [nodup_append, mem_append] at hnodup
  exact ⟨fun h' => hnodup.1.2.2 i (.inl (.inl (.inl h'))) i hi rfl,
    fun h' => hnodup.1.2.2 i (.inr h') i hi rfl, fun h' => hnodup.2.2 i (.inr hi) i h' rfl⟩

theorem Scheduled.not_failed_of_running (hi : i ∈ w.running) : i ∉ w.history.failed := by
  have hnodup := h.nodup_accounted
  simp only [nodup_append, mem_append] at hnodup
  exact fun h' => hnodup.2.2 i (.inl (.inr hi)) i h' rfl

theorem Scheduled.not_skipped_of_started (hi : i ∈ w.history.started) : i ∉ w.history.skipped := by
  intro hskipped
  obtain ⟨hholding, hrunning, hfailed⟩ := h.only_done (h.skipped hskipped)
  rcases h.started i hi with h' | h' | h' | ⟨-, h'⟩
  exacts [hholding h', hrunning h', hfailed h', h' hskipped]

end

theorem Scheduled.pop (h : Scheduled params build₀ [] w) (hi : w.build.readySteps.getLast? = some i) :
    Scheduled params build₀ [i] { w with build.readySteps := w.build.readySteps.dropLast } := by
  obtain ⟨rest, hrest⟩ := getLast?_eq_some_iff.mp hi
  refine { h with accounted := ?_, visited := ?_, started := ?_ }
  · refine h.accounted.trans (perm_iff_count.mpr fun a => ?_)
    simp only [hrest, dropLast_concat, count_append, count_nil]
    omega
  · exact fun j hj => (h.visited j hj).imp_right fun hj => .inl (hj.resolve_right (by simp))
  · exact fun j hj => .inr ((h.started j hj).resolve_left (by simp))

theorem Scheduled.start (h : Scheduled params build₀ [i] w) (hphase : w.phase.visited i = false) (disk : Disk σ) :
    Scheduled params build₀ [] { w with
      disk
      running := w.running ++ [i]
      history.started := w.history.started ++ [i] } := by
  refine { h with accounted := ?_, visited := ?_, started := ?_, running := ?_ }
  · refine h.accounted.trans (perm_iff_count.mpr fun a => ?_)
    simp only [count_append, count_nil]
    omega
  · intro j hj
    refine (h.visited j hj).imp_right fun hj' => .inl (hj'.resolve_right fun hj' => ?_)
    obtain rfl := mem_singleton.mp hj'
    nomatch hphase.symm.trans hj
  · intro j hj
    have hlast : j ∈ [i] → j ∈ w.running ++ [i] := fun hj => mem_append_right _ hj
    refine .inr ((mem_append.mp hj).elim (fun hj => ?_) fun hj => .inl (hlast hj))
    rcases h.started j hj with hj | hj | hj
    · exact .inl (hlast hj)
    · exact .inl (mem_append_left _ hj)
    · exact .inr hj
  · exact append_subset.mpr ⟨fun j hj => mem_append_left _ (h.running hj), subset_append_right _ _⟩

theorem Scheduled.takeRunning (h : Scheduled params build₀ [] w) (hi : i ∈ w.running) (hphase : w.phase = .waiting)
    (disk : Disk σ) (phase : Phase n) (hnew : phase.newReadySteps = []) (hvisited : phase.visited = fun _ => false) :
    Scheduled params build₀ [i] { w with disk, phase, running := w.running.erase i } := by
  refine { h with accounted := ?_, visited := ?_, started := ?_, running := ?_ }
  · refine h.accounted.trans (perm_iff_count.mpr fun a => ?_)
    have hcount := (perm_cons_erase hi).count_eq a
    have hold : w.phase.newReadySteps = [] := by
      rw [hphase]
      rfl
    simp only [hnew, hold, count_append, count_nil, count_cons] at hcount ⊢
    omega
  · intro j hj
    nomatch (congrFun hvisited j).symm.trans hj
  · intro j hj
    rcases h.started j hj with hj | hj | hj
    · nomatch hj
    · by_cases hji : j = i
      · exact .inl (mem_singleton.mpr hji)
      · exact .inr (.inl ((mem_erase_of_ne hji).mpr hj))
    · exact .inr (.inr hj)
  · exact fun j hj => h.running (mem_of_mem_erase hj)

/-- The step is marked as done. -/
theorem Scheduled.markDone (hbuild : Build.Constructed params.manifest params.invocations stepsToBuild build₀)
    {s : Fin n} (h : Scheduled params build₀ [s] w) (fileIds : List FileId) (stepWasSkipped : Bool)
    (hskip : stepWasSkipped = true → s ∉ w.history.started) :
    w.build.markStepNodeAsDone params.manifest params.invocations s fileIds stepWasSkipped =
        .error (.buildError "More than one step wrote to the same file") ∨
      ∃ build, w.build.markStepNodeAsDone params.manifest params.invocations s fileIds stepWasSkipped =
          .ok build ∧ Scheduled params build₀ [] (w.markDone s stepWasSkipped build) := by
  have hdone : s ∉ w.history.done := by
    have := h.nodup_accounted
    simp only [nodup_append, mem_append, mem_singleton] at this
    exact fun hs => this.1.2.2 s (.inl (.inl (.inl rfl))) s hs rfl
  have hcount : ∀ i, (w.build.stepNodes s).dependents.count i =
      if (build₀.stepNodes i).shouldBuild = true then (params.edges i).count s else 0 := fun i =>
    (congrArg (count i) (h.dependents s)).trans (hbuild.dependents s i)
  have hdependent : ∀ i, i ∈ (w.build.stepNodes s).dependents ↔
      (build₀.stepNodes i).shouldBuild = true ∧ s ∈ params.edges i := by
    intro i
    rw [← count_pos_iff, hcount]
    split <;> simp_all [count_pos_iff]
  refine (Build.markStepNodeAsDone_spec params.manifest params.invocations s stepWasSkipped
    (fun i => ?_) fileIds).imp_right ?_
  · rw [hcount]
    split
    · next hi =>
      rw [h.dependencies i hi]
      exact (pending_concat params.edges hdone i) ▸ Nat.le_add_left _ _
    · exact Nat.zero_le _
  · rintro ⟨outputFiles, ready, _, hok, hready, hmem⟩
    refine ⟨_, hok, ?_⟩
    have hnew : ∀ i, i ∈ ready ↔ (build₀.stepNodes i).shouldBuild = true ∧ s ∈ params.edges i ∧
        ∀ j ∈ params.edges i, j ∈ w.history.done ++ [s] := by
      intro i
      rw [hmem, hdependent, and_assoc]
      refine and_congr_right fun hi => and_congr_right fun _ => ?_
      rw [← pending_eq_zero, h.dependencies i hi, hcount, if_pos hi, ← pending_concat params.edges hdone i]
      omega
    have hdrop : (w.build.readySteps ++ ready).drop w.build.readySteps.length = ready := drop_left
    constructor <;> simp only [World.markDone, Build.released, hdrop]
    case shouldBuild => exact h.shouldBuild
    case dependents => exact h.dependents
    case dependencies =>
      intro i hi
      have := pending_concat params.edges hdone i
      rw [h.dependencies i hi, hcount, if_pos hi]
      omega
    case flags =>
      intro i hi hflag j hj hj'
      rw [Bool.and_eq_true] at hflag
      rcases mem_append.mp hj' with hj' | hj'
      · refine (h.flags i hi hflag.1 j hj hj').imp_left fun hskipped => ?_
        split
        · exact mem_append_left _ hskipped
        · exact hskipped
      · obtain rfl := mem_singleton.mp hj'
        have hwaits := (hdependent i).mpr ⟨hi, hj⟩
        simp only [hwaits, not_true_eq_false, decide_false, Bool.false_or, Build.keepsFlag, Bool.or_eq_true] at hflag
        refine hflag.2.imp_left fun hskipped => ?_
        rw [if_pos hskipped]
        exact mem_append_right _ (mem_singleton_self j)
    case entered =>
      intro i
      rw [mem_append, h.entered, hnew, ← and_or_left]
      refine and_congr_right fun _ => ⟨?_, fun hall => ?_⟩
      · rintro (hall | ⟨-, hall⟩) j hj
        · exact mem_append_left _ (hall j hj)
        · exact hall j hj
      · by_cases hs : s ∈ params.edges i
        · exact .inr ⟨hs, hall⟩
        · refine .inl fun j hj => (mem_append.mp (hall j hj)).resolve_right fun hj' => hs ?_
          exact mem_singleton.mp hj' ▸ hj
    case nodup =>
      -- a step that has become ready had an edge to the step that was not done
      refine h.nodup.append hready fun i hi hi' => hdone ?_
      exact ((h.entered i).mp hi).2 s ((hnew i).mp hi').2.1
    case accounted =>
      refine (h.accounted.append_right ready).trans (perm_iff_count.mpr fun a => ?_)
      simp only [count_append, count_nil]
      omega
    case visited =>
      intro i hi
      rcases h.visited i hi with hi | hi | hi
      · exact .inl (mem_append_left _ hi)
      · exact .inr (.inl hi)
      · exact .inl (mem_append_right _ hi)
    case started =>
      intro i hi
      rcases h.started i hi with his | hrunning | hfailed | ⟨hi', hnot⟩
      · obtain rfl := mem_singleton.mp his
        refine .inr (.inr (.inr ⟨mem_append_right _ his, ?_⟩))
        rw [if_neg fun hskipped => hskip hskipped hi]
        exact fun hskipped => hdone (h.skipped hskipped)
      · exact .inr (.inl hrunning)
      · exact .inr (.inr (.inl hfailed))
      · refine .inr (.inr (.inr ⟨mem_append_left _ hi', ?_⟩))
        split
        · refine fun hskipped => (mem_append.mp hskipped).elim hnot fun his => hdone ?_
          exact mem_singleton.mp his ▸ hi'
        · exact hnot
    case skipped =>
      split
      · exact append_subset.mpr ⟨fun i hi => mem_append_left _ (h.skipped hi), subset_append_right _ _⟩
      · exact fun i hi => mem_append_left _ (h.skipped hi)
    case running => exact h.running
    case remaining => exact h.remaining

theorem toInt_countFailure (build : Build n) (h : 0 ≤ build.remainingFailures.toInt) :
    build.countFailure.remainingFailures.toInt = max 0 (build.remainingFailures.toInt - 1) := by
  rw [Build.countFailure]
  split
  · next hne =>
    have hpos : build.remainingFailures.toInt ≠ 0 := fun heq => hne (Int32.toInt_inj.mp heq)
    have hlt := build.remainingFailures.toInt_lt
    rw [Int32.toInt_sub, show (1 : Int32).toInt = 1 from rfl, Int.bmod_eq_of_le (by omega) (by omega)]
    omega
  · next heq =>
    rw [not_not.mp heq]
    rfl

theorem Scheduled.fail {s : Fin n} (h : Scheduled params build₀ [s] w)
    (hphase : w.phase.visited = fun _ => false) (writtenFiles : Finmap fun _ : FileId => Hash) :
    Scheduled params build₀ [] { w with
      build := Build.countFailure { w.build with writtenFiles }
      history.failed := w.history.failed ++ [s] } := by
  refine { h with accounted := ?_, visited := ?_, started := ?_, remaining := ?_ }
  · refine h.accounted.trans (perm_iff_count.mpr fun a => ?_)
    simp only [Build.countFailure, count_append, count_nil]
    omega
  · exact fun i hi => nomatch (congrFun hphase i).symm.trans hi
  · intro i hi
    rcases h.started i hi with hi | hi | hi | hi
    · exact .inr (.inr (.inl (mem_append_right _ hi)))
    · exact .inr (.inl hi)
    · exact .inr (.inr (.inl (mem_append_left _ hi)))
    · exact .inr (.inr (.inr hi))
  · intro hnonneg
    have hremaining := h.remaining hnonneg
    rw [toInt_countFailure _ (by rw [hremaining]; omega)]
    simp only [hremaining, length_append, length_singleton]
    omega

end
end Shuriken
