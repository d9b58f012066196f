import Shuriken.Manifest.Compiled

/-!
# The cycle that is reported

A search that meets a step again reports all paths from where it started, also those that lead to the cycle
and are not part of it.
-/
namespace Shuriken
open Option Search List Relation Nat

namespace RawManifest
variable (manifest : RawManifest)

def LeadsToCycle (i : Fin manifest.steps.length) : Prop :=
  ∃ j, ReflTransGen manifest.Edge i j ∧ TransGen manifest.Edge j j

/-- The path is the first input of the first step that leads to a cycle, and the second step builds it. -/
def FirstBad (i : Fin manifest.steps.length) (path : PathObject) (j : Fin manifest.steps.length) : Prop :=
  ∃ before after, (manifest.steps.get i).allInputs = before ++ path :: after ∧ manifest.Builds j path ∧
    manifest.LeadsToCycle j ∧ ∀ input ∈ before, ∀ k, manifest.Builds k input → ¬ manifest.LeadsToCycle k

/-- The steps that are passed, each with the input that is followed. -/
inductive BadWalk : Fin manifest.steps.length → List (Fin manifest.steps.length × PathObject) →
    Fin manifest.steps.length → Prop where
  | nil (i) : BadWalk i [] i
  | cons {i j k path walk} : manifest.FirstBad i path j → BadWalk j walk k → BadWalk i ((i, path) :: walk) k

structure FirstCycle (start : Fin manifest.steps.length) (walk : List (Fin manifest.steps.length × PathObject))
    (met : Fin manifest.steps.length) : Prop where
  leads : manifest.LeadsToCycle start
  first : ∀ i, manifest.LeadsToCycle i → start ≤ i
  walks : manifest.BadWalk start walk met
  nodup : (walk.map Prod.fst).Nodup
  again : met ∈ walk.map Prod.fst

/-- For each path, the next one is an input of the step that builds it, and the first one comes after
the last one. -/
def ClosedWalk (paths : List PathObject) : Prop :=
  ∀ i p q, paths[i]? = some p → paths[(i + 1) % paths.length]? = some q →
    ∃ j, manifest.Builds j p ∧ ∃ input ∈ (manifest.steps.get j).allInputs, input.isSame q = true

variable {manifest} {i : Fin manifest.steps.length}

theorem leadsToCycle_iff : manifest.LeadsToCycle i ↔ ¬ Grounded manifest.Edge i := by
  rw [grounded_iff_no_cycle_ahead, LeadsToCycle]
  push Not
  rfl

variable {path : PathObject} {j : Fin manifest.steps.length}

theorem FirstBad.edge (h : manifest.FirstBad i path j) :
    path ∈ (manifest.steps.get i).allInputs ∧ manifest.Builds j path := by
  obtain ⟨before, after, hinputs, hbuilds, -⟩ := h
  exact ⟨hinputs ▸ mem_append_right before mem_cons_self, hbuilds⟩

namespace BadWalk
variable {i k : Fin manifest.steps.length} {walk : List (Fin manifest.steps.length × PathObject)}

variable {p : PathObject}

section
variable (h : manifest.BadWalk i walk k)
include h

theorem head (hp : (walk.map Prod.snd)[0]? = some p) : p ∈ (manifest.steps.get i).allInputs := by
  cases h with
  | nil => nomatch hp
  | cons hbad _ =>
    cases hp
    exact hbad.edge.1

theorem next {t : Nat} {q : PathObject} (hp : (walk.map Prod.snd)[t]? = some p)
    (hq : (walk.map Prod.snd)[t + 1]? = some q) : ∃ j, manifest.Builds j p ∧ q ∈ (manifest.steps.get j).allInputs := by
  induction h generalizing t with
  | nil => nomatch hp
  | @cons i j k path walk hbad hwalk ih =>
    cases t with
    | zero =>
      cases hp
      exact ⟨j, hbad.edge.2, hwalk.head hq⟩
    | succ t => exact ih hp hq

theorem last {t : Nat} (hp : (walk.map Prod.snd)[t]? = some p) (ht : t + 1 = walk.length) : manifest.Builds k p := by
  induction h generalizing t with
  | nil => nomatch hp
  | @cons i j k path walk hbad hwalk ih =>
    cases t with
    | zero =>
      cases hp
      obtain rfl := length_eq_zero_iff.mp (succ.inj ht).symm
      cases hwalk
      exact hbad.edge.2
    | succ t => exact ih hp (succ.inj ht)

end

end BadWalk

variable {map : PathToStepMap manifest.steps.length} {start met : Fin manifest.steps.length}
  {walk : List (Fin manifest.steps.length × PathObject)}

section
variable (hmap : computeOutputPathMap manifest.steps = .ok map)
include hmap

theorem eq_of_builds (hi : manifest.Builds i path) (hj : manifest.Builds j path) : i = j :=
  some.inj (((find_eq_some_iff hmap).mpr hi).symm.trans ((find_eq_some_iff hmap).mpr hj))

/-- The walk is closed if the step that is met again has the first path among its inputs. -/
theorem FirstCycle.closedWalk_iff (h : manifest.FirstCycle start walk met) : manifest.ClosedWalk (walk.map Prod.snd) ↔
      ∃ input ∈ (manifest.steps.get met).allInputs, ∃ path ∈ (walk.map Prod.snd).head?, input.isSame path = true := by
  have hlength : 0 < walk.length := by
    rw [← length_map (f := Prod.fst)]
    exact length_pos_of_mem h.again
  obtain ⟨last, hlast⟩ : ∃ p, (walk.map Prod.snd)[walk.length - 1]? = some p :=
    ⟨_, List.getElem?_eq_getElem (by rw [length_map]; omega)⟩
  obtain ⟨first, hfirst⟩ : ∃ p, (walk.map Prod.snd)[0]? = some p := ⟨_, List.getElem?_eq_getElem (by rwa [length_map])⟩
  have hround : (walk.length - 1 + 1) % (walk.map Prod.snd).length = 0 := by
    rw [length_map, Nat.sub_add_cancel hlength, Nat.mod_self]
  have hmet := h.walks.last hlast (Nat.sub_add_cancel hlength)
  constructor
  · intro hclosed
    obtain ⟨j, hbuilds, input, hinput, hsame⟩ := hclosed _ _ _ hlast (by rw [hround]; exact hfirst)
    obtain rfl := eq_of_builds hmap hbuilds hmet
    exact ⟨input, hinput, _, by rw [head?_eq_getElem?]; exact hfirst, hsame⟩
  · rintro ⟨input, hinput, path, hpath, hsame⟩ t p q hp hq
    have ht : t < walk.length := by
      rw [← length_map (f := Prod.snd)]
      exact (List.getElem?_eq_some_iff.mp hp).1
    by_cases hend : t + 1 = walk.length
    · rw [hend, length_map, mod_self, ← head?_eq_getElem?] at hq
      cases hpath.symm.trans hq
      exact ⟨met, h.walks.last hp hend, input, hinput, hsame⟩
    · rw [length_map, mod_eq_of_lt (by omega)] at hq
      obtain ⟨j, hbuilds, hq⟩ := h.walks.next hp hq
      exact ⟨j, hbuilds, q, hq, PathObject.isSame_iff.mpr rfl⟩

theorem FirstBad.unique {j' : Fin manifest.steps.length}
    {path' : PathObject} (h : manifest.FirstBad i path j) (h' : manifest.FirstBad i path' j') :
    path = path' ∧ j = j' := by
  obtain ⟨before, after, hinputs, hbuilds, hleads, hbefore⟩ := h
  obtain ⟨before', after', hinputs', hbuilds', hleads', hbefore'⟩ := h'
  rw [hinputs] at hinputs'
  have hpath : path = path' := by
    rcases append_eq_append_iff.mp hinputs' with ⟨between, rfl, hrest⟩ | ⟨between, rfl, hrest⟩
    · cases between with
      | nil => exact (cons.inj hrest).1
      | cons x between =>
        obtain rfl := (cons.inj hrest).1
        exact absurd hleads (hbefore' path (mem_append_right _ mem_cons_self) j hbuilds)
    · cases between with
      | nil => exact (cons.inj hrest).1.symm
      | cons x between =>
        obtain rfl := (cons.inj hrest).1
        exact absurd hleads' (hbefore path' (mem_append_right _ mem_cons_self) j' hbuilds')
  subst hpath
  exact ⟨rfl, eq_of_builds hmap hbuilds hbuilds'⟩

theorem BadWalk.extends {k k' : Fin manifest.steps.length}
    {walk walk' : List (Fin manifest.steps.length × PathObject)} (h : manifest.BadWalk i walk k)
    (h' : manifest.BadWalk i walk' k') : (∃ more, walk' = walk ++ more ∧ manifest.BadWalk k more k') ∨
      ∃ more, walk = walk' ++ more ∧ manifest.BadWalk k' more k := by
  induction h generalizing walk' with
  | nil i => exact .inl ⟨walk', rfl, h'⟩
  | @cons i j k path walk hbad hwalk ih =>
    cases h' with
    | nil => exact .inr ⟨_, rfl, .cons hbad hwalk⟩
    | cons hbad' hwalk' =>
      obtain ⟨rfl, rfl⟩ := hbad.unique hmap hbad'
      rcases ih hwalk' with ⟨more, rfl, hmore⟩ | ⟨more, rfl, hmore⟩
      · exact .inl ⟨more, rfl, hmore⟩
      · exact .inr ⟨more, rfl, hmore⟩

end

theorem BadWalk.eq_nil_of_again {more : List (Fin manifest.steps.length × PathObject)}
    (hmore : manifest.BadWalk met more start) (hagain : met ∈ walk.map Prod.fst)
    (hnodup : ((walk ++ more).map Prod.fst).Nodup) : more = [] := by
  cases hmore with
  | nil => rfl
  | cons _ _ =>
    rw [map_append, map_cons] at hnodup
    exact absurd mem_cons_self (disjoint_left.mp (nodup_append'.mp hnodup).2.2 hagain)

theorem FirstCycle.unique (hmap : computeOutputPathMap manifest.steps = .ok map)
    {start' met' : Fin manifest.steps.length} {walk' : List (Fin manifest.steps.length × PathObject)}
    (h : manifest.FirstCycle start walk met) (h' : manifest.FirstCycle start' walk' met') :
    start = start' ∧ walk = walk' ∧ met = met' := by
  obtain rfl := le_antisymm (h.first start' h'.leads) (h'.first start h.leads)
  rcases h.walks.extends hmap h'.walks with ⟨more, rfl, hmore⟩ | ⟨more, rfl, hmore⟩
  · obtain rfl := hmore.eq_nil_of_again h.again h'.nodup
    cases hmore
    exact ⟨rfl, (append_nil walk).symm, rfl⟩
  · obtain rfl := hmore.eq_nil_of_again h'.again h.nodup
    cases hmore
    exact ⟨rfl, append_nil walk', rfl⟩

end RawManifest

section
variable {n : Nat} {map : PathToStepMap n} {rawSteps : Fin n → RawStep}

variable {visit : CycleSearch n → Fin n → CycleSearch n × Option String} {input : PathObject}

theorem processInput_cyclePaths
    (hvisit : ∀ search idx search', visit search idx = (search', none) → search'.cyclePaths = search.cyclePaths)
    {search search' : CycleSearch n} (h : search.processInput visit map input = (search', none)) :
    search'.cyclePaths = search.cyclePaths := by
  rw [CycleSearch.processInput] at h
  cases hfind : map.find input with
  | none =>
    rw [hfind] at h
    rw [(Prod.mk.inj h).1]
  | some idx =>
    rw [hfind] at h
    simp only at h
    cases hcall : visit { search with cyclePaths := search.cyclePaths ++ [input] } idx with
    | mk search₁ answer =>
      rw [hcall] at h
      cases answer with
      | some cycle => cases h
      | none =>
        rw [← (Prod.mk.inj h).1, hvisit _ _ _ hcall]
        exact dropLast_concat

theorem processInput_eq_some {search search' : CycleSearch n} {cycle : String}
    (h : search.processInput visit map input = (search', some cycle)) :
    ∃ idx, map.find input = some idx ∧
      visit { search with cyclePaths := search.cyclePaths ++ [input] } idx = (search', some cycle) := by
  rw [CycleSearch.processInput] at h
  cases hfind : map.find input with
  | none =>
    rw [hfind] at h
    cases h
  | some idx =>
    rw [hfind] at h
    simp only at h
    refine ⟨idx, rfl, ?_⟩
    cases hcall : visit { search with cyclePaths := search.cyclePaths ++ [input] } idx with
    | mk search₁ answer =>
      rw [hcall] at h
      cases answer with
      | some cycle' => exact h
      | none => cases h

theorem hasDependencyCycle_cyclePaths (depth : Nat) :
    ∀ search idx search', hasDependencyCycle map rawSteps depth search idx = (search', none) →
      search'.cyclePaths = search.cyclePaths := by
  induction depth with
  | zero =>
    intro search idx search' h
    rw [← (Prod.mk.inj h).1]
  | succ depth ih =>
    intro search idx search' h
    rw [hasDependencyCycle] at h
    cases hcurrent : search.currentlyVisited idx with
    | true =>
      rw [hcurrent, if_pos rfl] at h
      cases h
    | false =>
      cases halready : search.alreadyVisited idx with
      | true =>
        rw [hcurrent, halready, if_neg Bool.false_ne_true, if_pos rfl] at h
        rw [(Prod.mk.inj h).1]
      | false =>
        rw [hcurrent, halready, if_neg Bool.false_ne_true, if_neg Bool.false_ne_true] at h
        obtain ⟨hstate, hanswer⟩ := Prod.mk.inj h
        rw [← hstate]
        exact firstSome_keeps (P := fun s => s.cyclePaths = search.cyclePaths)
          (fun s x s' hcall hs => (processInput_cyclePaths ih hcall).trans hs) (Prod.ext rfl hanswer) rfl

end

namespace RawManifest
variable {manifest : RawManifest} {map : PathToStepMap manifest.steps.length}

/-- What is reported of a visit that has an answer: the stack, and a walk from the step to one that
is being visited. -/
structure Reports (manifest : RawManifest) (search : CycleSearch manifest.steps.length)
    (idx : Fin manifest.steps.length) (cycle : String) (walk : List (Fin manifest.steps.length × PathObject))
    (met : Fin manifest.steps.length) : Prop where
  leads : manifest.LeadsToCycle idx
  walks : manifest.BadWalk idx walk met
  nodup : (walk.map Prod.fst).Nodup
  fresh : ∀ i ∈ walk.map Prod.fst, search.currentlyVisited i = false
  again : search.currentlyVisited met = true ∨ met ∈ walk.map Prod.fst
  message : cycle = cycleErrorMessage (search.cyclePaths ++ walk.map Prod.snd)

variable {path : PathObject}

theorem firstBad_of_passes (hmap : computeOutputPathMap manifest.steps = .ok map)
    {search search₁ : CycleSearch manifest.steps.length}
    {before after : List PathObject} (hpasses : CycleSearch.Passes (PathEdge map manifest.steps.get) search search₁)
    (hbefore : ∀ input ∈ before, ∀ k, map.find input = some k → search₁.alreadyVisited k = true ∧
      search.currentlyVisited k = false)
    (hinputs : (manifest.steps.get i).allInputs = before ++ path :: after) (hfind : map.find path = some j)
    (hleads : manifest.LeadsToCycle j) : manifest.FirstBad i path j := by
  refine ⟨before, after, hinputs, (find_eq_some_iff hmap).mp hfind, hleads, fun input hinput k hk => ?_⟩
  obtain ⟨halready, hcurrent⟩ := hbefore input hinput k ((find_eq_some_iff hmap).mpr hk)
  have hgrounded := hpasses.sound k halready (hpasses.current ▸ hcurrent)
  rw [pathEdge_eq hmap] at hgrounded
  exact fun hbad => leadsToCycle_iff.mp hbad hgrounded

/-- A step that is entered reports what one of its inputs reports. -/
theorem Reports.enter {search search₁ : CycleSearch manifest.steps.length}
    {cycle : String} {walk : List (Fin manifest.steps.length × PathObject)} {met : Fin manifest.steps.length}
    (hbad : manifest.FirstBad i path j) (hcurrent : search.currentlyVisited i = false)
    (hentered : search₁.currentlyVisited = (search.enter i).currentlyVisited)
    (hpaths : search₁.cyclePaths = search.cyclePaths ++ [path]) (h : manifest.Reports search₁ j cycle walk met) :
    manifest.Reports search i cycle ((i, path) :: walk) met := by
  have hother : ∀ k ∈ walk.map Prod.fst, k ≠ i ∧ search.currentlyVisited k = false := by
    intro k hk
    have hfresh := h.fresh k hk
    rw [hentered, CycleSearch.enter] at hfresh
    have hne : k ≠ i := by
      rintro rfl
      cases hfresh.symm.trans (Function.update_self ..)
    exact ⟨hne, (Function.update_of_ne hne ..).symm.trans hfresh⟩
  refine ⟨?_, .cons hbad h.walks, nodup_cons.mpr ⟨fun hi => (hother i hi).1 rfl, h.nodup⟩, ?_, ?_, ?_⟩
  · obtain ⟨k, hpath, hcycle⟩ := h.leads
    exact ⟨k, hpath.head (edge_iff.mpr ⟨path, hbad.edge⟩), hcycle⟩
  · exact forall_mem_cons.mpr ⟨hcurrent, fun k hk => (hother k hk).2⟩
  · rcases h.again with hmet | hmet
    · by_cases heq : met = i
      · exact .inr (heq ▸ mem_cons_self)
      · rw [hentered, CycleSearch.enter] at hmet
        exact .inl ((Function.update_of_ne heq ..).symm.trans hmet)
    · exact .inr (mem_cons_of_mem i hmet)
  · rw [h.message, hpaths, append_assoc]
    rfl

theorem hasDependencyCycle_reports (hmap : computeOutputPathMap manifest.steps = .ok map) (depth : Nat) :
    ∀ search idx search' cycle, search.Sound (PathEdge map manifest.steps.get) →
      (∀ i, search.currentlyVisited i = true → TransGen (PathEdge map manifest.steps.get) i idx) →
      unmarked search.alreadyVisited < depth →
      hasDependencyCycle map manifest.steps.get depth search idx = (search', some cycle) →
      ∃ walk met, manifest.Reports search idx cycle walk met := by
  induction depth with
  | zero => exact fun _ _ _ _ _ _ hdepth => absurd hdepth (not_lt_zero _)
  | succ depth ih =>
    intro search idx search' cycle hsound hstack hdepth h
    rw [hasDependencyCycle] at h
    cases hcurrent : search.currentlyVisited idx with
    | true =>
      rw [hcurrent, if_pos rfl] at h
      have hcycle := hstack idx hcurrent
      rw [pathEdge_eq hmap] at hcycle
      refine ⟨[], idx, ⟨idx, .refl, hcycle⟩, .nil idx, nodup_nil, by simp, .inl hcurrent, ?_⟩
      rw [map_nil, append_nil]
      exact (some.inj (Prod.mk.inj h).2).symm
    | false =>
      cases halready : search.alreadyVisited idx with
      | true =>
        rw [hcurrent, halready, if_neg Bool.false_ne_true, if_pos rfl] at h
        cases h
      | false =>
        rw [hcurrent, halready, if_neg Bool.false_ne_true, if_neg Bool.false_ne_true] at h
        obtain ⟨before, path, after, s, hinputs, hbefore, hanswer⟩ := firstSome_eq_some (Prod.ext rfl (Prod.mk.inj h).2)
        have hroom := (unmarked_update_lt halready).trans_le (le_of_lt_succ hdepth)
        have hedges := CycleSearch.transGen_enter hstack
        -- The inputs before the one with the answer.
        have hloop := processInputs_outcome (hasDependencyCycle_outcome depth) (hsound.enter idx)
          (fun input hinput => hedges input (hinputs ▸ mem_append_left _ hinput)) hroom
        have hloop : Outcome _ _ (s, none) := hbefore ▸ hloop
        obtain ⟨hpasses, hvisited⟩ := hloop
        have hpaths : s.cyclePaths = search.cyclePaths :=
          firstSome_keeps (P := fun s => s.cyclePaths = search.cyclePaths)
            (fun s x s' hcall hs =>
              (processInput_cyclePaths (hasDependencyCycle_cyclePaths depth) hcall).trans hs) hbefore rfl
        obtain ⟨j, hfind, hvisit⟩ := processInput_eq_some hanswer
        obtain ⟨walk, met, hreports⟩ := ih { s with cyclePaths := s.cyclePaths ++ [path] } j _ cycle hpasses.sound
          (fun i hi => hedges path (hinputs ▸ mem_append_right _ mem_cons_self) j hfind i (hpasses.current ▸ hi))
          ((unmarked_anti hpasses.already).trans_lt hroom) hvisit
        have hbad := firstBad_of_passes hmap hpasses hvisited hinputs hfind hreports.leads
        have hstacked : s.cyclePaths ++ [path] = search.cyclePaths ++ [path] := by rw [hpaths]
        refine ⟨(idx, path) :: walk, met, Reports.enter hbad hcurrent ?_ ?_ hreports⟩
        · exact hpasses.current
        · exact hstacked

theorem firstCycle_of_getDependencyCycle (hmap : computeOutputPathMap manifest.steps = .ok map)
    (hcyclic : ∃ i, TransGen manifest.Edge i i) :
    ∃ start walk met, manifest.FirstCycle start walk met ∧
      getDependencyCycle map manifest.steps.get = cycleErrorMessage (walk.map Prod.snd) := by
  have hne : getDependencyCycle map manifest.steps.get ≠ "" := by
    rw [Ne, getDependencyCycle_eq_empty_iff, pathEdge_eq hmap]
    exact fun hacyclic => hcyclic.elim hacyclic
  cases hanswer : (firstSome (hasDependencyCycle map manifest.steps.get (manifest.steps.length + 1)) {}
      (finRange manifest.steps.length)).2 with
  | none =>
    rw [getDependencyCycle, hanswer] at hne
    exact absurd rfl hne
  | some cycle =>
    obtain ⟨before, start, after, s, hsteps, hbefore, hvisit⟩ := firstSome_eq_some (Prod.ext rfl hanswer)
    have hloop := @hasDependencyCycles_outcome _ map manifest.steps.get before
    rw [hbefore] at hloop
    obtain ⟨⟨hsound, hcurrent⟩, hvisited⟩ := hloop
    obtain ⟨walk, met, hreports⟩ := hasDependencyCycle_reports hmap _ s start _ cycle hsound
      (fun i hi => by cases (hcurrent i).symm.trans hi)
      (lt_succ_of_le ((unmarked_le_card _).trans_eq (Fintype.card_fin _))) hvisit
    have hfirst : ∀ i, manifest.LeadsToCycle i → start ≤ i := by
      intro i hi
      have hmem : i ∈ before ++ start :: after := hsteps ▸ mem_finRange i
      rcases mem_append.mp hmem with hbefore | hafter
      · have hgrounded := hsound i (hvisited i hbefore) (hcurrent i)
        rw [pathEdge_eq hmap] at hgrounded
        exact absurd hgrounded (leadsToCycle_iff.mp hi)
      · have hsorted := pairwise_lt_finRange manifest.steps.length
        rw [hsteps] at hsorted
        have hrest := (pairwise_cons.mp (pairwise_append.mp hsorted).2.1).1
        rcases mem_cons.mp hafter with rfl | hafter
        · exact le_rfl
        · exact (hrest i hafter).le
    refine ⟨start, walk, met, ⟨hreports.leads, hfirst, hreports.walks, hreports.nodup, ?_⟩, ?_⟩
    · exact hreports.again.resolve_left fun hmet => by cases (hcurrent met).symm.trans hmet
    · have hpaths : s.cyclePaths = [] := firstSome_keeps (P := fun s => s.cyclePaths = [])
        (fun s x s' hcall hs => (hasDependencyCycle_cyclePaths _ s x s' hcall).trans hs) hbefore rfl
      rw [getDependencyCycle, hanswer, getD_some, hreports.message, hpaths, nil_append]

end RawManifest

/-- The error names the paths of a walk in which each path is an input of the step that builds the one
before it. They are a cycle if the step that is met again has the first of them among its inputs, as it
has if it is the step from which the search started. -/
theorem dependency_cycle_reported {manifest : RawManifest} {map : PathToStepMap manifest.steps.length}
    (hmap : computeOutputPathMap manifest.steps = .ok map) (hcyclic : ∃ i, TransGen manifest.Edge i i) :
    (∃ start walk met, manifest.FirstCycle start walk met) ∧ ∀ start walk met, manifest.FirstCycle start walk met →
      getDependencyCycle map manifest.steps.get = cycleErrorMessage (walk.map Prod.snd) ∧
      (manifest.ClosedWalk (walk.map Prod.snd) ↔ ∃ input ∈ (manifest.steps.get met).allInputs,
        ∃ path ∈ (walk.map Prod.snd).head?, input.isSame path = true) ∧
      (met = start → manifest.ClosedWalk (walk.map Prod.snd)) := by
  obtain ⟨start, walk, met, hfirst, hmessage⟩ := RawManifest.firstCycle_of_getDependencyCycle hmap hcyclic
  refine ⟨⟨start, walk, met, hfirst⟩, fun start' walk' met' h => ?_⟩
  obtain ⟨rfl, rfl, rfl⟩ := hfirst.unique hmap h
  refine ⟨hmessage, h.closedWalk_iff hmap, ?_⟩
  rintro rfl
  refine (h.closedWalk_iff hmap).mpr ?_
  cases walk with
  | nil => nomatch h.again
  | cons first rest => exact ⟨first.2, h.walks.head rfl, first.2, rfl, PathObject.isSame_iff.mpr rfl⟩

def loopManifest : RawManifest where
  steps := [{ inputs := [⟨1, [98]⟩], outputs := [⟨0, [97]⟩], command := [120] },
    { inputs := [⟨0, [97]⟩], outputs := [⟨1, [98]⟩], command := [121] }]

theorem dependency_cycle_reported_of_loop :
    ∃ map, computeOutputPathMap loopManifest.steps = .ok map ∧
      getDependencyCycle map loopManifest.steps.get = "b -> a -> b" ∧
      loopManifest.ClosedWalk [⟨1, [98]⟩, ⟨0, [97]⟩] := by
  have hok : (computeOutputPathMap loopManifest.steps).toOption.isSome = true := by decide +kernel
  obtain ⟨map, hmap⟩ := isSome_iff_exists.mp hok
  have hmap := Except.toOption_eq_some.mp hmap
  have hbuildsA : loopManifest.Builds ⟨0, by decide⟩ ⟨0, [97]⟩ := ⟨_, mem_cons_self, rfl⟩
  have hbuildsB : loopManifest.Builds ⟨1, by decide⟩ ⟨1, [98]⟩ := ⟨_, mem_cons_self, rfl⟩
  have hforth : loopManifest.Edge ⟨0, by decide⟩ ⟨1, by decide⟩ := ⟨_, .inl mem_cons_self, hbuildsB⟩
  have hback : loopManifest.Edge ⟨1, by decide⟩ ⟨0, by decide⟩ := ⟨_, .inl mem_cons_self, hbuildsA⟩
  have hfirst : loopManifest.FirstCycle ⟨0, by decide⟩ [(⟨0, by decide⟩, ⟨1, [98]⟩), (⟨1, by decide⟩, ⟨0, [97]⟩)]
      ⟨0, by decide⟩ := by
    have hleads : loopManifest.LeadsToCycle ⟨0, by decide⟩ := ⟨_, .refl, .tail (.single hforth) hback⟩
    refine ⟨hleads, fun _ _ => Nat.zero_le _, .cons ⟨[], [], rfl, hbuildsB, ?_, nofun⟩
      (.cons ⟨[], [], rfl, hbuildsA, hleads, nofun⟩ (.nil _)), by decide, mem_cons_self⟩
    exact ⟨_, .refl, .tail (.single hback) hforth⟩
  obtain ⟨-, hall⟩ := dependency_cycle_reported hmap ⟨_, .tail (.single hforth) hback⟩
  obtain ⟨hmessage, -, hclosed⟩ := hall _ _ _ hfirst
  exact ⟨map, hmap, hmessage.trans (by decide +kernel), hclosed rfl⟩

def leadInManifest : RawManifest where
  steps := [{ inputs := [⟨1, [98]⟩], outputs := [⟨0, [97]⟩], command := [120] },
    { inputs := [⟨2, [99]⟩], outputs := [⟨1, [98]⟩], command := [121] },
    { inputs := [⟨1, [98]⟩], outputs := [⟨2, [99]⟩], command := [122] }]

theorem dependency_cycle_names_lead_in :
    ∃ map, computeOutputPathMap leadInManifest.steps = .ok map ∧ (∃ i, TransGen leadInManifest.Edge i i) ∧
      getDependencyCycle map leadInManifest.steps.get = "b -> c -> b -> b" ∧
      cycleErrorMessage [⟨1, [98]⟩, ⟨2, [99]⟩, ⟨1, [98]⟩] = "b -> c -> b -> b" ∧
      ¬ leadInManifest.ClosedWalk [⟨1, [98]⟩, ⟨2, [99]⟩, ⟨1, [98]⟩] := by
  have hok : ∃ map, computeOutputPathMap leadInManifest.steps = .ok map ∧
      getDependencyCycle map leadInManifest.steps.get = "b -> c -> b -> b" := by decide +kernel
  obtain ⟨map, hmap, hcycle⟩ := hok
  refine ⟨map, hmap, ?_, hcycle, by decide +kernel, fun hclosed => ?_⟩
  · by_contra hacyclic
    have hempty := getDependencyCycle_eq_empty_iff.mpr
      ((RawManifest.pathEdge_eq hmap).symm ▸ fun i hi => hacyclic ⟨i, hi⟩)
    rw [hcycle] at hempty
    exact absurd hempty (by decide)
  · obtain ⟨j, hbuilds, input, hinput, hsame⟩ := hclosed 2 _ _ rfl rfl
    have hnone : ∀ j, (∃ output ∈ (leadInManifest.steps.get j).outputs, (⟨1, [98]⟩ : PathObject).isSame output = true) →
        ∀ input ∈ (leadInManifest.steps.get j).allInputs, input.isSame ⟨1, [98]⟩ = false := by decide +kernel
    nomatch (hnone j hbuilds input hinput).symm.trans hsame

end Shuriken
