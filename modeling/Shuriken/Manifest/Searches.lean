import Shuriken.Manifest.Converted

/-!
# The searches of the step graph

`getDependencyCycle` finds a cycle if there is one. In a graph without cycles,
`searchStepDependencies` finds for each step a step of the kind looked for that
can be reached from it.
-/
namespace Shuriken
open Option Function Search List Relation

section
variable {n : Nat}

/-- An input of the first step is an output of the second one. -/
def PathEdge (map : PathToStepMap n) (rawSteps : Fin n → RawStep) (i j : Fin n) : Prop :=
  ∃ path ∈ (rawSteps i).allInputs, map.find path = some j

theorem cycleErrorMessage_ne (cycle : List PathObject) : cycleErrorMessage cycle ≠ "" := by
  have hgrows : ∀ (paths : List PathObject) (error : String), error ≠ "" →
      paths.foldl (fun error path => error ++ (displayPath path.original ++ " -> ")) error ≠ "" := by
    intro paths
    induction paths with
    | nil => exact fun _ h => h
    | cons path paths ih => exact fun error h => ih _ fun hempty => h (String.append_eq_empty_iff.mp hempty).1
  cases cycle with
  | nil => decide
  | cons front rest =>
    have hfirst : "" ++ (displayPath front.original ++ " -> ") ≠ "" := by
      simp [String.append_eq_empty_iff]
    exact fun hempty => hgrows rest _ hfirst (String.append_eq_empty_iff.mp hempty).1

namespace CycleSearch
variable {edge : Fin n → Fin n → Prop} {search search' : CycleSearch n}

/-- No cycle can be reached from a step that has been left again. -/
def Sound (edge : Fin n → Fin n → Prop) (search : CycleSearch n) : Prop :=
  ∀ i, search.alreadyVisited i = true → search.currentlyVisited i = false → Grounded edge i

/-- What a visit without an answer has done. -/
structure Passes (edge : Fin n → Fin n → Prop) (search search' : CycleSearch n) : Prop where
  sound : search'.Sound edge
  current : search'.currentlyVisited = search.currentlyVisited
  already : ∀ i, search.alreadyVisited i = true → search'.alreadyVisited i = true

def VisitSpec (edge : Fin n → Fin n → Prop) (depth : Nat)
    (visit : CycleSearch n → Fin n → CycleSearch n × Option String) : Prop :=
  ∀ search idx, search.Sound edge → (∀ i, search.currentlyVisited i = true → TransGen edge i idx) →
    unmarked search.alreadyVisited < depth →
    Outcome (fun search' => Passes edge search search' ∧ search.currentlyVisited idx = false ∧
        search'.alreadyVisited idx = true)
      (fun cycle _ => cycle ≠ "" ∧ ¬ Acyclic edge) (visit search idx)

end CycleSearch
open CycleSearch

variable {map : PathToStepMap n} {rawSteps : Fin n → RawStep}

variable {edge : Fin n → Fin n → Prop} {depth : Nat} {visit : CycleSearch n → Fin n → CycleSearch n × Option String}
    {search : CycleSearch n} {idx i : Fin n} {generatorDependency nonGeneratorDependency : Fin n → Option (Fin n)}

theorem processInput_outcome (hvisit : VisitSpec edge depth visit) {input : PathObject} (hsound : search.Sound edge)
    (hedge : ∀ j, map.find input = some j → ∀ i, search.currentlyVisited i = true → TransGen edge i j)
    (hdepth : unmarked search.alreadyVisited < depth) :
    Outcome (fun search' => Passes edge search search' ∧ ∀ j, map.find input = some j →
        search'.alreadyVisited j = true ∧ search.currentlyVisited j = false)
      (fun cycle _ => cycle ≠ "" ∧ ¬ Acyclic edge) (processInput visit map search input) := by
  rw [processInput]
  cases hfind : map.find input with
  | none => exact ⟨⟨hsound, rfl, fun _ hi => hi⟩, nofun⟩
  | some idx =>
    have hcalled := hvisit { search with cyclePaths := search.cyclePaths ++ [input] } idx hsound
      (hedge idx hfind) hdepth
    simp only
    generalize visit _ idx = result at hcalled ⊢
    obtain ⟨search₁, answer⟩ := result
    cases answer with
    | some cycle => exact hcalled
    | none =>
      obtain ⟨hpasses, hcurrent, halready⟩ := hcalled
      refine ⟨⟨hpasses.sound, hpasses.current, hpasses.already⟩, fun j hj => ?_⟩
      cases hj
      exact ⟨halready, hcurrent⟩

theorem processInputs_outcome (hvisit : VisitSpec edge depth visit) {inputs : List PathObject}
    (hsound : search.Sound edge)
    (hedges : ∀ input ∈ inputs, ∀ j, map.find input = some j → ∀ i, search.currentlyVisited i = true →
      TransGen edge i j)
    (hdepth : unmarked search.alreadyVisited < depth) :
    Outcome (fun search' => Passes edge search search' ∧ ∀ input ∈ inputs, ∀ j, map.find input = some j →
        search'.alreadyVisited j = true ∧ search.currentlyVisited j = false)
      (fun cycle _ => cycle ≠ "" ∧ ¬ Acyclic edge) (firstSome (processInput visit map) search inputs) := by
  refine (firstSome_outcome (I := Passes edge search)
    (D := fun input s => ∀ j, map.find input = some j →
      s.alreadyVisited j = true ∧ search.currentlyVisited j = false) ?_ ⟨hsound, rfl, fun _ hi => hi⟩).imp
    (fun _ h => ⟨h.1, h.2.1⟩) fun _ _ h => h
  intro s input hinput hs
  have hedge : ∀ j, map.find input = some j → ∀ i, s.currentlyVisited i = true → TransGen edge i j :=
    fun j hj i hi => hedges input hinput j hj i (hs.current ▸ hi)
  refine (processInput_outcome hvisit hs.sound hedge ((unmarked_anti hs.already).trans_lt hdepth)).imp
    ?_ fun _ _ h => h
  rintro s' ⟨hpasses, hdone⟩
  refine ⟨⟨hpasses.sound, hpasses.current.trans hs.current, fun i hi => hpasses.already i (hs.already i hi)⟩,
    fun j hj => ?_, fun y hy j hj => ?_⟩
  · exact ⟨(hdone j hj).1, hs.current ▸ (hdone j hj).2⟩
  · exact ⟨hpasses.already j (hy j hj).1, (hy j hj).2⟩

def CycleSearch.enter (search : CycleSearch n) (idx : Fin n) : CycleSearch n := { search with
    alreadyVisited := update search.alreadyVisited idx true
    currentlyVisited := update search.currentlyVisited idx true }

theorem CycleSearch.Sound.enter (h : search.Sound edge) (idx : Fin n) : (search.enter idx).Sound edge := by
  intro i hi hleft
  by_cases hidx : i = idx
  · subst hidx
    nomatch hleft.symm.trans (update_self ..)
  · exact h i ((update_of_ne hidx ..).symm.trans hi) ((update_of_ne hidx ..).symm.trans hleft)

theorem CycleSearch.transGen_enter
    (hstack : ∀ i, search.currentlyVisited i = true → TransGen (PathEdge map rawSteps) i idx) :
    ∀ input ∈ (rawSteps idx).allInputs, ∀ j, map.find input = some j → ∀ i,
      (search.enter idx).currentlyVisited i = true → TransGen (PathEdge map rawSteps) i j := by
  intro input hinput j hj i hi
  by_cases hidx : i = idx
  · exact .single ⟨input, hidx ▸ hinput, hj⟩
  · exact (hstack i ((update_of_ne hidx ..).symm.trans hi)).tail ⟨input, hinput, hj⟩

theorem CycleSearch.Passes.leave {search₁ : CycleSearch n}
    (h : Passes (PathEdge map rawSteps) (search.enter idx) search₁)
    (hinputs : ∀ input ∈ (rawSteps idx).allInputs, ∀ j, map.find input = some j → search₁.alreadyVisited j = true ∧
      (search.enter idx).currentlyVisited j = false)
    (hcurrent : search.currentlyVisited idx = false) :
    Passes (PathEdge map rawSteps) search
      { search₁ with currentlyVisited := update search₁.currentlyVisited idx false } := by
  refine ⟨fun i hi hleft => ?_, ?_, fun i hi => h.already i ?_⟩
  · by_cases hidx : i = idx
    · subst hidx
      refine grounded_of_edges fun j hj => ?_
      obtain ⟨input, hinput, hfind⟩ := hj
      obtain ⟨hj, hjleft⟩ := hinputs input hinput j hfind
      exact h.sound j hj (h.current ▸ hjleft)
    · exact h.sound i hi ((update_of_ne hidx ..).symm.trans hleft)
  · rw [h.current, enter, update_idem, ← hcurrent, update_eq_self]
  · by_cases hidx : i = idx
    · exact hidx ▸ update_self ..
    · exact (update_of_ne hidx ..).trans hi

theorem hasDependencyCycle_outcome (depth : Nat) :
    VisitSpec (PathEdge map rawSteps) depth (hasDependencyCycle map rawSteps depth) := by
  induction depth with
  | zero => exact fun _ _ _ _ hdepth => absurd hdepth (Nat.not_lt_zero _)
  | succ depth ih =>
    intro search idx hsound hstack hdepth
    rw [hasDependencyCycle]
    split
    · next hcurrent => exact ⟨cycleErrorMessage_ne _, fun hacyclic => hacyclic idx (hstack idx hcurrent)⟩
    · next hcurrent =>
      have hcurrent : search.currentlyVisited idx = false := Bool.eq_false_iff.mpr hcurrent
      split
      · next halready => exact ⟨⟨hsound, rfl, fun _ hi => hi⟩, hcurrent, halready⟩
      · next halready =>
        have hroom := unmarked_update_lt (Bool.eq_false_iff.mpr halready)
        have hloop := processInputs_outcome ih (hsound.enter idx) (transGen_enter hstack)
          (hroom.trans_le (Nat.le_of_lt_succ hdepth))
        simp only [CycleSearch.enter] at hloop ⊢
        generalize firstSome _ _ _ = result at hloop ⊢
        obtain ⟨search₁, answer⟩ := result
        cases answer with
        | some cycle => exact hloop
        | none =>
          obtain ⟨hpasses, hinputs⟩ := hloop
          exact ⟨hpasses.leave hinputs hcurrent, hcurrent, hpasses.already idx (update_self ..)⟩

theorem hasDependencyCycles_outcome (l : List (Fin n)) :
    Outcome (fun search => (search.Sound (PathEdge map rawSteps) ∧ ∀ i, search.currentlyVisited i = false) ∧
        ∀ i ∈ l, search.alreadyVisited i = true) (fun cycle _ => cycle ≠ "" ∧ ¬ Acyclic (PathEdge map rawSteps))
      (firstSome (hasDependencyCycle map rawSteps (n + 1)) {} l) := by
  refine (firstSome_outcome (l := l) (f := hasDependencyCycle map rawSteps (n + 1))
    (I := fun s => s.Sound (PathEdge map rawSteps) ∧ ∀ i, s.currentlyVisited i = false)
    (D := fun i s => s.alreadyVisited i = true) ?_
    (s := {}) ⟨fun _ hi => (Bool.false_ne_true hi).elim, fun _ => rfl⟩).imp (fun _ h => ⟨h.1, h.2.1⟩) fun _ _ h => h
  rintro s idx - ⟨hsound, hcurrent⟩
  have hdepth : unmarked s.alreadyVisited < n + 1 :=
    Nat.lt_succ_of_le ((unmarked_le_card _).trans_eq (Fintype.card_fin n))
  refine (hasDependencyCycle_outcome (n + 1) s idx hsound (fun i hi => nomatch (hcurrent i).symm.trans hi)
    hdepth).imp ?_ fun _ _ h => h
  rintro s' ⟨hpasses, -, halready⟩
  exact ⟨⟨hpasses.sound, fun i => hpasses.current ▸ hcurrent i⟩, halready, hpasses.already⟩

theorem getDependencyCycle_eq_empty_iff : getDependencyCycle map rawSteps = "" ↔ Acyclic (PathEdge map rawSteps) := by
  have hsearch := @hasDependencyCycles_outcome n map rawSteps (finRange n)
  rw [getDependencyCycle]
  generalize firstSome _ _ _ = result at hsearch ⊢
  obtain ⟨search, answer⟩ := result
  cases answer with
  | none =>
    obtain ⟨⟨hsound, hcurrent⟩, hall⟩ := hsearch
    exact iff_of_true rfl fun i => (hsound i (hall i (mem_finRange i)) (hcurrent i)).not_transGen
  | some cycle => exact iff_of_false hsearch.1 hsearch.2

def StepEdge (steps : Fin n → Step n) (i j : Fin n) : Prop := j ∈ (steps i).dependencies

variable {steps : Fin n → Step n} {predicate : Step n → Bool}

/-- The step is one of those looked for, and can be reached from the first one. -/
def LeadsTo (steps : Fin n → Step n) (predicate : Step n → Bool) (i j : Fin n) : Prop :=
  ReflTransGen (StepEdge steps) i j ∧ predicate (steps j) = true

namespace StepSearch
variable {busy : Fin n → Prop} {search search' : StepSearch n}

/-- The results of all steps that were visited are right, apart from those that are being visited. -/
structure Sound (steps : Fin n → Step n) (predicate : Step n → Bool) (busy : Fin n → Prop)
    (search : StepSearch n) : Prop where
  fresh : ∀ i, search.alreadyVisited i = false → search.result i = none
  pending : ∀ i, busy i → search.alreadyVisited i = true ∧ search.result i = none
  found : ∀ i j, search.result i = some j → LeadsTo steps predicate i j
  missed : ∀ i, search.alreadyVisited i = true → ¬ busy i → search.result i = none → ∀ j, ¬ LeadsTo steps predicate i j

structure Extends (search search' : StepSearch n) : Prop where
  already : ∀ i, search.alreadyVisited i = true → search'.alreadyVisited i = true
  result : ∀ i, search.alreadyVisited i = true → search'.result i = search.result i

theorem Extends.refl (search : StepSearch n) : search.Extends search := ⟨fun _ h => h, fun _ _ => rfl⟩

theorem Extends.trans {search'' : StepSearch n} (h : search.Extends search') (h' : search'.Extends search'') :
    search.Extends search'' :=
  ⟨fun i hi => h'.already i (h.already i hi), fun i hi => (h'.result i (h.already i hi)).trans (h.result i hi)⟩

def enter (search : StepSearch n) (idx : Fin n) : StepSearch n :=
  { search with alreadyVisited := update search.alreadyVisited idx true }

variable {idx : Fin n} {answer : Option (Fin n)}

theorem enter_already {i : Fin n} :
    (search.enter idx).alreadyVisited i = true ↔ i = idx ∨ search.alreadyVisited i = true := by
  rw [enter]
  by_cases hi : i = idx
  · simp [hi]
  · simp [hi]

theorem Sound.enter (h : search.Sound steps predicate busy) (hidx : search.alreadyVisited idx = false) :
    (search.enter idx).Sound steps predicate fun i => i = idx ∨ busy i where
  fresh i hi := by
    refine h.fresh i (Bool.eq_false_iff.mpr fun hi' => ?_)
    nomatch hi.symm.trans (enter_already.mpr (.inr hi'))
  pending i hi := by
    refine ⟨enter_already.mpr ?_, ?_⟩
    · exact hi.imp_right fun hi => (h.pending i hi).1
    · rcases hi with rfl | hi
      · exact h.fresh i hidx
      · exact (h.pending i hi).2
  found := h.found
  missed i hi hbusy := by
    obtain ⟨hne, hbusy⟩ := not_or.mp hbusy
    exact h.missed i ((enter_already.mp hi).resolve_left hne) hbusy

theorem Sound.leave (h : search.Sound steps predicate fun i => i = idx ∨ busy i) (hidx : ¬ busy idx)
    (hfound : ∀ j, answer = some j → LeadsTo steps predicate idx j)
    (hmissed : answer = none → ∀ j, ¬ LeadsTo steps predicate idx j) :
    Sound steps predicate busy { search with result := update search.result idx answer } where
  fresh i hi := by
    have hne : i ≠ idx := by
      rintro rfl
      nomatch hi.symm.trans (h.pending i (.inl rfl)).1
    exact (update_of_ne hne ..).trans (h.fresh i hi)
  pending i hi := by
    have hne : i ≠ idx := fun heq => hidx (heq ▸ hi)
    exact ⟨(h.pending i (.inr hi)).1, (update_of_ne hne ..).trans (h.pending i (.inr hi)).2⟩
  found i j hi := by
    by_cases hne : i = idx
    · subst hne
      exact hfound j ((update_self i answer search.result).symm.trans hi)
    · exact h.found i j ((update_of_ne hne ..).symm.trans hi)
  missed i hi hbusy hnone := by
    by_cases hne : i = idx
    · subst hne
      exact hmissed ((update_self i answer search.result).symm.trans hnone)
    · exact h.missed i hi (not_or.mpr ⟨hne, hbusy⟩) ((update_of_ne hne ..).symm.trans hnone)

theorem Extends.leave (h : (search.enter idx).Extends search') (hidx : search.alreadyVisited idx = false) :
    search.Extends { search' with result := update search'.result idx answer } where
  already i hi := h.already i (enter_already.mpr (.inr hi))
  result i hi := by
    have hne : i ≠ idx := by
      rintro rfl
      nomatch hidx.symm.trans hi
    exact (update_of_ne hne ..).trans (h.result i (enter_already.mpr (.inr hi)))

def VisitSpec (steps : Fin n → Step n) (predicate : Step n → Bool) (depth : Nat)
    (visit : StepSearch n → Fin n → StepSearch n × Option (Fin n)) : Prop :=
  ∀ search idx busy, search.Sound steps predicate busy → (∀ i, busy i → TransGen (StepEdge steps) i idx) →
    unmarked search.alreadyVisited < depth →
    (visit search idx).1.Sound steps predicate busy ∧ search.Extends (visit search idx).1 ∧
      (visit search idx).1.alreadyVisited idx = true ∧
      (visit search idx).2 = (visit search idx).1.result idx

end StepSearch
open StepSearch

theorem leadsTo_iff {j : Fin n} : LeadsTo steps predicate i j ↔
    (i = j ∧ predicate (steps i) = true) ∨ ∃ k ∈ (steps i).dependencies, LeadsTo steps predicate k j := by
  constructor
  · rintro ⟨hpath, hj⟩
    rcases hpath.cases_head with rfl | ⟨k, hk, hrest⟩
    · exact .inl ⟨rfl, hj⟩
    · exact .inr ⟨k, hk, hrest, hj⟩
  · rintro (⟨rfl, hi⟩ | ⟨k, hk, hrest, hj⟩)
    · exact ⟨.refl, hi⟩
    · exact ⟨hrest.head hk, hj⟩

theorem searchDependencies_outcome {visit : StepSearch n → Fin n → StepSearch n × Option (Fin n)}
    (hvisit : StepSearch.VisitSpec steps predicate depth visit) {search : StepSearch n} {busy : Fin n → Prop}
    (hsound : search.Sound steps predicate busy) (idx : Fin n)
    (hbusy : ∀ j ∈ (steps idx).dependencies, ∀ i, busy i → TransGen (StepEdge steps) i j)
    (hdepth : unmarked search.alreadyVisited < depth) :
    Outcome (fun search' => (search'.Sound steps predicate busy ∧ search.Extends search') ∧
        ∀ j ∈ (steps idx).dependencies, search'.alreadyVisited j = true ∧ search'.result j = none)
      (fun found search' => (search'.Sound steps predicate busy ∧ search.Extends search') ∧
        ∃ j ∈ (steps idx).dependencies, LeadsTo steps predicate j found)
      (firstSome visit search (steps idx).dependencies) := by
  refine (firstSome_outcome (I := fun s => s.Sound steps predicate busy ∧ search.Extends s)
    (D := fun j s => s.alreadyVisited j = true ∧ s.result j = none) ?_ ⟨hsound, .refl search⟩).imp
    (fun _ h => ⟨h.1, h.2.1⟩) fun _ _ h => h
  rintro s j hj ⟨hs, hextends⟩
  obtain ⟨hs', hextends', halready, hanswer⟩ := hvisit s j busy hs (hbusy j hj)
    ((unmarked_anti hextends.already).trans_lt hdepth)
  generalize visit s j = result at hs' hextends' halready hanswer ⊢
  obtain ⟨s', answer⟩ := result
  cases answer with
  | some found => exact ⟨⟨hs', hextends.trans hextends'⟩, j, hj, hs'.found j found hanswer.symm⟩
  | none =>
    refine ⟨⟨hs', hextends.trans hextends'⟩, ⟨halready, hanswer.symm⟩, ?_⟩
    rintro k ⟨hk, hnone⟩
    exact ⟨hextends'.already k hk, (hextends'.result k hk).trans hnone⟩

section
variable (hacyclic : Acyclic (StepEdge steps))
include hacyclic

theorem searchStepDependenciesHelper_outcome (depth : Nat) :
    StepSearch.VisitSpec steps predicate depth (searchStepDependenciesHelper steps predicate depth) := by
  induction depth with
  | zero => exact fun _ _ _ _ _ hdepth => absurd hdepth (Nat.not_lt_zero _)
  | succ depth ih =>
    intro search idx busy hsound hbusy hdepth
    have hidx : ¬ busy idx := fun h => hacyclic idx (hbusy idx h)
    rw [searchStepDependenciesHelper]
    split
    · next halready => exact ⟨hsound, .refl search, halready, rfl⟩
    · next halready =>
      have halready : search.alreadyVisited idx = false := Bool.eq_false_iff.mpr halready
      have hroom := (unmarked_update_lt halready).trans_le (Nat.le_of_lt_succ hdepth)
      have hentered := hsound.enter halready
      split
      · next hpredicate =>
        refine ⟨hentered.leave hidx (fun j hj => ?_) nofun, (Extends.refl _).leave halready,
          update_self .., (update_self idx (some idx) search.result).symm⟩
        exact some.inj hj ▸ leadsTo_iff.mpr (.inl ⟨rfl, hpredicate⟩)
      · next hpredicate =>
        have hloop := searchDependencies_outcome ih hentered idx (fun j hj i hi => ?_) hroom
        · simp only [StepSearch.enter] at hloop ⊢
          generalize firstSome _ _ _ = result at hloop ⊢
          obtain ⟨search₁, answer⟩ := result
          cases answer with
          | some found =>
            obtain ⟨⟨hsound₁, hextends⟩, hfound⟩ := hloop
            refine ⟨hsound₁.leave hidx (fun j hj => ?_) nofun, hextends.leave halready,
              (hsound₁.pending idx (.inl rfl)).1,
              (update_self idx (some found) search₁.result).symm⟩
            exact some.inj hj ▸ leadsTo_iff.mpr (.inr hfound)
          | none =>
            obtain ⟨⟨hsound₁, hextends⟩, hall⟩ := hloop
            obtain ⟨hidx₁, hnone⟩ := hsound₁.pending idx (.inl rfl)
            have hsame : { search₁ with result := update search₁.result idx none } = search₁ := by
              rw [← hnone, update_eq_self]
            have hmissed : ∀ j, ¬ LeadsTo steps predicate idx j := by
              intro j hj
              rcases leadsTo_iff.mp hj with ⟨-, h⟩ | ⟨k, hk, hleads⟩
              · exact hpredicate h
              · refine hsound₁.missed k (hall k hk).1 (fun hbusyk => ?_) (hall k hk).2 j hleads
                rcases hbusyk with rfl | hbusyk
                · exact hacyclic k (.single hk)
                · exact hacyclic k ((hbusy k hbusyk).tail hk)
            exact ⟨hsame ▸ hsound₁.leave hidx nofun fun _ => hmissed, hsame ▸ hextends.leave halready,
              hidx₁, hnone.symm⟩
        · rcases hi with rfl | hi
          · exact .single hj
          · exact (hbusy i hi).tail hj

theorem searchAll_sound (indices : List (Fin n)) {search : StepSearch n}
    (hsound : search.Sound steps predicate fun _ => False) : let search' := indices.foldl (fun search idx =>
      (searchStepDependenciesHelper steps predicate (n + 1) search idx).1) search
    search'.Sound steps predicate (fun _ => False) ∧ search.Extends search' ∧
      ∀ idx ∈ indices, search'.alreadyVisited idx = true := by
  induction indices generalizing search with
  | nil => exact ⟨hsound, .refl search, nofun⟩
  | cons idx indices ih =>
    have hdepth : unmarked search.alreadyVisited < n + 1 :=
      Nat.lt_succ_of_le ((unmarked_le_card _).trans_eq (Fintype.card_fin n))
    obtain ⟨hsound₁, hextends₁, halready, -⟩ :=
      searchStepDependenciesHelper_outcome hacyclic (n + 1) search idx _ hsound nofun hdepth
    obtain ⟨hsound', hextends, hall⟩ := ih hsound₁
    exact ⟨hsound', hextends₁.trans hextends, forall_mem_cons.mpr ⟨hextends.already idx halready, hall⟩⟩

theorem searchStepDependencies_spec (i : Fin n) : match searchStepDependencies steps predicate i with
    | some j => LeadsTo steps predicate i j
    | none => ∀ j, ¬ LeadsTo steps predicate i j := by
  have hstart : Sound steps predicate (fun _ => False) ({} : StepSearch n) := ⟨fun _ _ => rfl, nofun, nofun, nofun⟩
  obtain ⟨hsound, -, hall⟩ := searchAll_sound hacyclic (finRange n) hstart
  rw [searchStepDependencies]
  split
  · next j hresult => exact hsound.found i j hresult
  · next hresult => exact hsound.missed i (hall i (mem_finRange i)) id hresult

end

theorem badGeneratorDependency_eq_none :
    badGeneratorDependency steps generatorDependency nonGeneratorDependency idx = none ↔ (steps idx).phony = true ∨
        (if (steps idx).generator then nonGeneratorDependency else generatorDependency) idx = none := by
  rw [badGeneratorDependency]
  split
  · next hphony => exact iff_of_true rfl (.inl hphony)
  · next hphony =>
    rw [or_iff_right hphony]
    cases (if (steps idx).generator then nonGeneratorDependency else generatorDependency) idx with
    | none => exact iff_of_true rfl rfl
    | some j => exact iff_of_false nofun nofun

theorem badGeneratorDependency_ne {message : String}
    (h : badGeneratorDependency steps generatorDependency nonGeneratorDependency idx = some message) :
    message ≠ "" := by
  rw [badGeneratorDependency] at h
  split at h
  · nomatch h
  · split at h
    · nomatch h
    · cases h
      split <;> simp [String.append_eq_empty_iff]

section
variable (hacyclic : Acyclic (StepEdge steps))
include hacyclic

theorem searchStepDependencies_eq_none_iff (hi : predicate (steps i) = false) :
    searchStepDependencies steps predicate i = none ↔
      ∀ j, TransGen (StepEdge steps) i j → predicate (steps j) = false := by
  have hleads : ∀ j, LeadsTo steps predicate i j ↔ TransGen (StepEdge steps) i j ∧ predicate (steps j) = true := by
    intro j
    rw [LeadsTo, reflTransGen_iff_eq_or_transGen]
    refine ⟨fun ⟨hpath, hj⟩ => ⟨hpath.resolve_left ?_, hj⟩, fun ⟨hpath, hj⟩ => ⟨.inr hpath, hj⟩⟩
    rintro rfl
    nomatch hi.symm.trans hj
  have hspec := @searchStepDependencies_spec n steps predicate hacyclic i
  split at hspec
  · next j hresult =>
    obtain ⟨hpath, hj⟩ := (hleads j).mp hspec
    refine iff_of_false (fun hnone => nomatch hresult.symm.trans hnone) fun hall => ?_
    nomatch (hall j hpath).symm.trans hj
  · next hresult =>
    refine iff_of_true hresult fun j hpath => Bool.eq_false_iff.mpr fun hj => ?_
    exact hspec j ((hleads j).mpr ⟨hpath, hj⟩)

theorem badGeneratorDependency_eq_none_iff :
    badGeneratorDependency steps (searchStepDependencies steps fun step => !step.phony && step.generator)
        (searchStepDependencies steps fun step => !step.phony && !step.generator) i = none ↔
      ((steps i).phony = false → ∀ j, TransGen (StepEdge steps) i j → (steps j).phony = false →
        (steps j).generator = (steps i).generator) := by
  rw [badGeneratorDependency_eq_none]
  cases hphony : (steps i).phony with
  | true => exact iff_of_true (.inl rfl) nofun
  | false =>
    simp only [Bool.false_eq_true, false_or, true_imp_iff]
    cases hgenerator : (steps i).generator with
    | true =>
      rw [if_pos rfl, searchStepDependencies_eq_none_iff hacyclic (by simp [hgenerator])]
      refine forall₂_congr fun j _ => ?_
      cases (steps j).phony <;> simp
    | false =>
      rw [if_neg Bool.false_ne_true, searchStepDependencies_eq_none_iff hacyclic (by simp [hgenerator])]
      refine forall₂_congr fun j _ => ?_
      cases (steps j).phony <;> simp

theorem getBadGeneratorDependency_eq_empty_iff :
    getBadGeneratorDependency steps = "" ↔ ∀ i j, TransGen (StepEdge steps) i j →
      (steps i).phony = false → (steps j).phony = false → (steps j).generator = (steps i).generator := by
  simp only [getBadGeneratorDependency]
  cases hfind : (finRange n).findSome? _ with
  | none =>
    refine iff_of_true rfl fun i j hij hi => ?_
    exact (badGeneratorDependency_eq_none_iff hacyclic).mp
      (findSome?_eq_none_iff.mp hfind i (mem_finRange i)) hi j hij
  | some message =>
    obtain ⟨i, -, hi⟩ := exists_of_findSome?_eq_some hfind
    refine iff_of_false (badGeneratorDependency_ne hi) fun hall => ?_
    have hnone := (badGeneratorDependency_eq_none_iff hacyclic).mpr fun hphony j hij => hall i j hij hphony
    nomatch hi.symm.trans hnone

end

end
end Shuriken
