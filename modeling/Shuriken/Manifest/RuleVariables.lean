import Mathlib.Data.Set.Finite.Basic
import Shuriken.Lib.Search
import Shuriken.Manifest.Parser

/-!
# The expansion of rule variables

The value of a variable is defined by recursion on the depth of the references, without the list of names.
-/
namespace Shuriken
open Option Except List

namespace StepEnv

/-- The value of a string, and the names of rule bindings that are looked up for it, in order. -/
def expandTokens (expand : Bytes → Option (Bytes × List Bytes)) : EvalString → Option (Bytes × List Bytes)
  | [] => some ([], [])
  | .raw text :: rest => do
      let (value, names) ← expandTokens expand rest
      return (text ++ value, names)
  | .special var :: rest => do
      let (first, firstNames) ← expand var
      let (value, names) ← expandTokens expand rest
      return (first ++ value, firstNames ++ names)

/-- The value of a variable: the lists of inputs and outputs, then the binding of the build statement,
then that of the rule with its references expanded, then the scopes around. It is `none` for
references that are nested deeper than the first argument. -/
def expand (E : StepEnv) : Nat → Bytes → Option (Bytes × List Bytes)
  | 0, _ => none
  | depth + 1, var =>
    match E.inOrOut var with
    | some value => some (value, [])
    | none =>
      match E.env.bindings.lookup var, E.rule.getBinding var with
      | some value, some _ => some (value, [var])
      | some value, none => some (value, [])
      | none, some eval => do
          let (value, names) ← expandTokens (E.expand depth) eval
          return (value, var :: names)
      | none, none => some (E.env.lookupInParent var, [])

/-- The binding of the rule for the first variable is used, and has a reference to the second one. -/
def Refers (E : StepEnv) (v w : Bytes) : Prop := E.inOrOut v = none ∧ E.env.bindings.lookup v = none ∧
    ∃ eval ∈ E.rule.getBinding v, Token.special w ∈ eval

def Cyclic (E : StepEnv) (v : Bytes) : Prop := ∃ w, Relation.ReflTransGen E.Refers v w ∧ Relation.TransGen E.Refers w w

section
variable {E : StepEnv} {f : Bytes → Option (Bytes × List Bytes)}

theorem expandTokens_succeeds_iff {tokens : EvalString} :
    (∃ x, expandTokens f tokens = some x) ↔ ∀ w, Token.special w ∈ tokens → ∃ x, f w = some x := by
  induction tokens with
  | nil => exact iff_of_true ⟨_, rfl⟩ nofun
  | cons token tokens ih =>
    cases token with
    | raw text =>
      simp only [mem_cons, reduceCtorEq, false_or, ← ih, expandTokens]
      constructor
      · rintro ⟨x, hx⟩
        obtain ⟨y, hy, -⟩ := bind_eq_some_iff.mp hx
        exact ⟨y, hy⟩
      · rintro ⟨y, hy⟩
        exact ⟨_, bind_eq_some_iff.mpr ⟨y, hy, rfl⟩⟩
    | special var =>
      simp only [mem_cons, Token.special.injEq, forall_eq_or_imp, ← ih, expandTokens]
      constructor
      · rintro ⟨x, hx⟩
        obtain ⟨y, hy, hx⟩ := bind_eq_some_iff.mp hx
        obtain ⟨z, hz, -⟩ := bind_eq_some_iff.mp hx
        exact ⟨⟨y, hy⟩, z, hz⟩
      · rintro ⟨⟨y, hy⟩, z, hz⟩
        exact ⟨_, bind_eq_some_iff.mpr ⟨y, hy, bind_eq_some_iff.mpr ⟨z, hz, rfl⟩⟩⟩

variable {names : List Bytes}

theorem expandTokens_cons {token : Token} {tokens : EvalString} {value : Bytes}
    (h : expandTokens f (token :: tokens) = some (value, names)) :
    ∃ rest restNames, expandTokens f tokens = some (rest, restNames) ∧
      match token with
      | .raw text => value = text ++ rest ∧ names = restNames
      | .special var => ∃ first firstNames, f var = some (first, firstNames) ∧ value = first ++ rest ∧
          names = firstNames ++ restNames := by
  cases token with
  | raw text =>
    obtain ⟨⟨rest, restNames⟩, hrest, h⟩ := bind_eq_some_iff.mp h
    obtain ⟨rfl, rfl⟩ := Prod.mk.inj (some.inj h)
    exact ⟨rest, restNames, hrest, rfl, rfl⟩
  | special var =>
    obtain ⟨⟨first, firstNames⟩, hfirst, h⟩ := bind_eq_some_iff.mp h
    obtain ⟨⟨rest, restNames⟩, hrest, h⟩ := bind_eq_some_iff.mp h
    cases h
    exact ⟨rest, restNames, hrest, first, firstNames, hfirst, rfl, rfl⟩

variable {x : Bytes × List Bytes} {g : Bytes → Option (Bytes × List Bytes)}

theorem expandTokens_mono (hfg : ∀ w x, f w = some x → g w = some x) {tokens : EvalString}
    (h : expandTokens f tokens = some x) : expandTokens g tokens = some x := by
  induction tokens generalizing x with
  | nil => exact h
  | cons token tokens ih =>
    obtain ⟨value, names⟩ := x
    obtain ⟨rest, restNames, hrest, hparts⟩ := expandTokens_cons h
    cases token with
    | raw text =>
      obtain ⟨rfl, rfl⟩ := hparts
      exact bind_eq_some_iff.mpr ⟨_, ih hrest, rfl⟩
    | special var =>
      obtain ⟨first, firstNames, hfirst, rfl, rfl⟩ := hparts
      exact bind_eq_some_iff.mpr ⟨_, hfg _ _ hfirst, bind_eq_some_iff.mpr ⟨_, ih hrest, rfl⟩⟩

inductive Source (E : StepEnv) (f : Bytes → Option (Bytes × List Bytes)) (var : Bytes) : Bytes → List Bytes → Prop where
  | inOrOut {value} : E.inOrOut var = some value → Source E f var value []
  | step {value} : E.inOrOut var = none → E.env.bindings.lookup var = some value →
      Source E f var value (if (E.rule.getBinding var).isSome then [var] else [])
  | rule {eval value names} : E.inOrOut var = none → E.env.bindings.lookup var = none →
      E.rule.getBinding var = some eval → expandTokens f eval = some (value, names) →
      Source E f var value (var :: names)
  | parent : E.inOrOut var = none → E.env.bindings.lookup var = none → E.rule.getBinding var = none →
      Source E f var (E.env.lookupInParent var) []

variable {var : Bytes} {depth : Nat}

theorem expand_succ_iff {value : Bytes} :
    E.expand (depth + 1) var = some (value, names) ↔ Source E (E.expand depth) var value names := by
  constructor
  · intro h
    rw [expand] at h
    cases hin : E.inOrOut var with
    | some value' =>
      rw [hin] at h
      cases h
      exact .inOrOut hin
    | none =>
      rw [hin] at h
      cases hstep : E.env.bindings.lookup var with
      | some value' =>
        have hsource := Source.step (f := E.expand depth) hin hstep
        cases hrule : E.rule.getBinding var with
        | some eval =>
          rw [hstep, hrule] at h
          rw [hrule] at hsource
          cases h
          exact hsource
        | none =>
          rw [hstep, hrule] at h
          rw [hrule] at hsource
          cases h
          exact hsource
      | none =>
        cases hrule : E.rule.getBinding var with
        | some eval =>
          rw [hstep, hrule] at h
          obtain ⟨⟨value', names'⟩, htokens, h⟩ := bind_eq_some_iff.mp h
          cases h
          exact .rule hin hstep hrule htokens
        | none =>
          rw [hstep, hrule] at h
          cases h
          exact .parent hin hstep hrule
  · intro h
    rw [expand]
    cases h with
    | inOrOut hin => rw [hin]
    | step hin hstep =>
      rw [hin, hstep]
      cases E.rule.getBinding var with
      | some | none => rfl
    | rule hin hstep hrule htokens =>
      rw [hin, hstep, hrule]
      exact bind_eq_some_iff.mpr ⟨_, htokens, rfl⟩
    | parent hin hstep hrule => rw [hin, hstep, hrule]

theorem Source.mono (hfg : ∀ w x, f w = some x → g w = some x)
    {value : Bytes} (h : Source E f var value names) : Source E g var value names := by
  cases h with
  | inOrOut hin => exact .inOrOut hin
  | step hin hstep => exact .step hin hstep
  | rule hin hstep hrule htokens => exact .rule hin hstep hrule (expandTokens_mono hfg htokens)
  | parent hin hstep hrule => exact .parent hin hstep hrule

theorem expand_succ (h : E.expand depth var = some x) : E.expand (depth + 1) var = some x := by
  induction depth generalizing var x with
  | zero => nomatch h
  | succ depth ih =>
    obtain ⟨value, names⟩ := x
    exact expand_succ_iff.mpr ((expand_succ_iff.mp h).mono fun _ _ => ih)

theorem expand_mono {depth' : Nat} (hle : depth ≤ depth')
    (h : E.expand depth var = some x) : E.expand depth' var = some x := by
  induction hle with
  | refl => exact h
  | step _ ih => exact expand_succ ih

theorem expand_unique {depth' : Nat} {value value' : Bytes} {names' : List Bytes}
    (h : E.expand depth var = some (value, names)) (h' : E.expand depth' var = some (value', names')) :
    value = value' ∧ names = names' := by
  have hx := expand_mono (le_max_left depth depth') h
  have hx' := expand_mono (le_max_right depth depth') h'
  exact Prod.mk.inj (some.inj (hx.symm.trans hx'))

theorem grounded_of_expand (h : E.expand depth var = some x) : Search.Grounded E.Refers var := by
  induction depth generalizing var x with
  | zero => nomatch h
  | succ depth ih =>
    refine Search.grounded_of_edges fun w hw => ?_
    obtain ⟨hin, hstep, eval, heval, htoken⟩ := hw
    obtain ⟨value, names⟩ := x
    cases expand_succ_iff.mp h with
    | inOrOut hin' => nomatch hin.symm.trans hin'
    | step _ hstep' => nomatch hstep.symm.trans hstep'
    | rule _ _ hrule htokens =>
      cases hrule.symm.trans heval
      obtain ⟨y, hy⟩ := expandTokens_succeeds_iff.mp ⟨_, htokens⟩ w htoken
      exact ih hy
    | parent _ _ hrule => nomatch hrule.symm.trans heval

theorem exists_depth {tokens : EvalString} (h : ∀ w, Token.special w ∈ tokens → ∃ depth x, E.expand depth w = some x) :
    ∃ depth, ∀ w, Token.special w ∈ tokens → ∃ x, E.expand depth w = some x := by
  induction tokens with
  | nil => exact ⟨0, nofun⟩
  | cons token tokens ih =>
    obtain ⟨depth, hrest⟩ := ih fun w hw => h w (mem_cons_of_mem _ hw)
    cases token with
    | raw text => exact ⟨depth, fun w hw => hrest w (by simpa using hw)⟩
    | special var =>
      obtain ⟨depth', x, hvar⟩ := h var mem_cons_self
      refine ⟨max depth depth', fun w hw => ?_⟩
      rcases mem_cons.mp hw with heq | hw
      · cases heq
        exact ⟨x, expand_mono (le_max_right _ _) hvar⟩
      · obtain ⟨y, hy⟩ := hrest w hw
        exact ⟨y, expand_mono (le_max_left _ _) hy⟩

theorem exists_expand (h : Search.Grounded E.Refers var) :
    ∃ depth value names, E.expand depth var = some (value, names) := by
  induction h with
  | intro var _ ih =>
    cases hin : E.inOrOut var with
    | some value => exact ⟨1, value, [], expand_succ_iff.mpr (.inOrOut hin)⟩
    | none =>
      cases hstep : E.env.bindings.lookup var with
      | some value => exact ⟨1, value, _, expand_succ_iff.mpr (.step hin hstep)⟩
      | none =>
        cases hrule : E.rule.getBinding var with
        | none => exact ⟨1, _, [], expand_succ_iff.mpr (.parent hin hstep hrule)⟩
        | some eval =>
          have hrefers : ∀ w, Token.special w ∈ eval → ∃ depth x, E.expand depth w = some x := by
            intro w hw
            obtain ⟨depth, value, names, hvalue⟩ := ih w ⟨hin, hstep, eval, hrule, hw⟩
            exact ⟨depth, _, hvalue⟩
          obtain ⟨depth, hdepth⟩ := exists_depth hrefers
          obtain ⟨⟨value, names⟩, htokens⟩ := expandTokens_succeeds_iff.mpr hdepth
          exact ⟨depth + 1, value, _, expand_succ_iff.mpr (.rule hin hstep hrule htokens)⟩

theorem mem_keys_of_isSome {rule : Rule} (h : (rule.getBinding var).isSome = true) :
    var ∈ rule.bindings.map Prod.fst := by
  rw [Rule.getBinding, lookup_isSome_iff] at h
  obtain ⟨binding, hbinding, hvar⟩ := h
  exact mem_map.mpr ⟨binding, hbinding, (beq_iff_eq.mp hvar).symm⟩

theorem cyclic_iff : E.Cyclic var ↔ ¬ Search.Grounded E.Refers var := by
  have hsources : ∀ v w, E.Refers v w → v ∈ {v | v ∈ E.rule.bindings.map Prod.fst} := by
    rintro v w ⟨-, -, eval, heval, -⟩
    exact mem_keys_of_isSome (isSome_of_mem heval)
  have hfinite : Finite {v | v ∈ E.rule.bindings.map Prod.fst} := (List.finite_toSet _).to_subtype
  rw [Search.grounded_iff_of_finite hsources, Cyclic]
  push Not
  rfl

end

section
variable {E : StepEnv}

structure Entered (E : StepEnv) (s : Lookups) : Prop where
  recursive : s.recursive = true
  nodup : s.lookups.Nodup
  bound : ∀ name ∈ s.lookups, (E.rule.getBinding name).isSome = true

/-- The lookup returns the value unless a name comes up again. -/
def Follows (s : Lookups) (value : Bytes) (names : List Bytes) : Except Stop (Bytes × Lookups) → Prop
  | .ok (value', s') => (s.lookups ++ names).Nodup ∧ value' = value ∧ s' = ⟨s.lookups ++ names, true⟩
  | .error (.fatal what) => ¬ (s.lookups ++ names).Nodup ∧ ∃ cycle, what = "cycle in rule variables: " ++ cycle
  | .error .tooDeep => True

theorem names_bound {value : Bytes}
    (h : E.expand depth var = some (value, names)) : ∀ name ∈ names, (E.rule.getBinding name).isSome = true := by
  induction depth generalizing var value names with
  | zero => nomatch h
  | succ depth ih =>
    cases expand_succ_iff.mp h with
    | inOrOut => nofun
    | step =>
      intro name hname
      split at hname
      · next hrule => exact mem_singleton.mp hname ▸ hrule
      · nomatch hname
    | @rule eval _ names' _ _ hrule htokens =>
      refine forall_mem_cons.mpr ⟨hrule ▸ rfl, ?_⟩
      clear hrule h
      induction eval generalizing value names' with
      | nil =>
        cases htokens
        nofun
      | cons token tokens ihTokens =>
        obtain ⟨rest, restNames, hrest, hparts⟩ := expandTokens_cons htokens
        cases token with
        | raw text =>
          obtain ⟨-, rfl⟩ := hparts
          exact ihTokens hrest
        | special var =>
          obtain ⟨first, firstNames, hfirst, -, rfl⟩ := hparts
          exact forall_mem_append.mpr ⟨ih hfirst, ihTokens hrest⟩
    | parent => nofun

variable {s : Lookups} {result : Except Stop (Bytes × Lookups)}

theorem Follows.later {value : Bytes} {first rest : List Bytes}
    (h : Follows ⟨s.lookups ++ first, true⟩ value rest result) : Follows s value (first ++ rest) result := by
  rcases result with stop | ⟨value', s'⟩
  · cases stop with
    | tooDeep => trivial
    | fatal what => exact ⟨append_assoc s.lookups first rest ▸ h.1, h.2⟩
  · exact ⟨append_assoc s.lookups first rest ▸ h.1, h.2.1, append_assoc s.lookups first rest ▸ h.2.2⟩

namespace Entered
variable {s : Lookups} {var : Bytes}

section
variable (hs : Entered E s)
include hs

theorem eq_mk : s = ⟨s.lookups, true⟩ := by
  rw [← hs.recursive]

theorem enter_bound {eval : EvalString} (hrule : E.rule.getBinding var = some eval) :
    E.enter s var = ⟨s.lookups ++ [var], true⟩ := by
  rw [enter, if_pos ⟨hs.recursive, hrule ▸ rfl⟩]

theorem enter_unbound (hrule : E.rule.getBinding var = none) : E.enter s var = s := by
  have hunbound : ¬ (s.recursive = true ∧ (E.rule.getBinding var).isSome = true) := by
    rw [hrule]
    exact fun h => nomatch h.2
  rw [enter, if_neg hunbound]
  exact hs.eq_mk.symm

theorem bind {eval : EvalString} (hrule : E.rule.getBinding var = some eval)
    (hnew : var ∉ s.lookups) : Entered E ⟨s.lookups ++ [var], true⟩ where
  recursive := rfl
  nodup := by
    rw [← concat_eq_append]
    exact hs.nodup.concat hnew
  bound := forall_mem_append.mpr ⟨hs.bound, forall_mem_singleton.mpr (hrule ▸ rfl)⟩

theorem follows_nil (value : Bytes) : Follows s value [] (.ok (value, s)) := by
  refine ⟨?_, rfl, ?_⟩
  · rw [append_nil]
    exact hs.nodup
  · rw [append_nil]
    exact hs.eq_mk

end

end Entered

variable {lookupVariable : Lookups → Bytes → Except Stop (Bytes × Lookups)}

/-- The lookups below a string. -/
theorem evaluate_follows (hlookup : ∀ s var value names, Entered E s → E.expand depth var = some (value, names) →
      Follows s value names (lookupVariable s var))
    {tokens : EvalString} (result : Bytes) {value : Bytes} (hs : Entered E s)
    (htokens : expandTokens (E.expand depth) tokens = some (value, names)) :
    Follows s (result ++ value) names (tokens.foldlM (EvalString.evaluateToken lookupVariable) (result, s)) := by
  induction tokens generalizing s result value names with
  | nil =>
    cases htokens
    rw [append_nil]
    exact hs.follows_nil result
  | cons token tokens ih =>
    obtain ⟨rest, restNames, hrest, hparts⟩ := expandTokens_cons htokens
    rw [foldlM_cons]
    cases token with
    | raw text =>
      obtain ⟨rfl, rfl⟩ := hparts
      rw [← append_assoc]
      exact ih _ hs hrest
    | special var =>
      obtain ⟨first, firstNames, hfirst, rfl, rfl⟩ := hparts
      have hvar := hlookup s var first firstNames hs hfirst
      simp only [EvalString.evaluateToken, bind, bind]
      cases hcall : lookupVariable s var with
      | error stop =>
        rw [hcall] at hvar
        cases stop with
        | tooDeep => trivial
        | fatal what =>
          refine ⟨fun hnodup => hvar.1 ?_, hvar.2⟩
          rw [← append_assoc] at hnodup
          exact hnodup.of_append_left
      | ok found =>
        rw [hcall] at hvar
        obtain ⟨value', s'⟩ := found
        obtain ⟨hnodup, rfl, rfl⟩ := hvar
        have hs' : Entered E ⟨s.lookups ++ firstNames, true⟩ :=
          ⟨rfl, hnodup, forall_mem_append.mpr ⟨hs.bound, names_bound hfirst⟩⟩
        have hfollows := ih (result ++ value') hs' hrest
        rw [append_assoc] at hfollows
        exact hfollows.later

theorem lookupVariable_follows (depth : Nat) :
    ∀ depth' s var value names, Entered E s → E.expand depth' var = some (value, names) →
      Follows s value names (E.lookupVariable depth s var) := by
  induction depth with
  | zero => exact fun _ _ _ _ _ _ _ => trivial
  | succ depth ih =>
    intro depth' s var value names hs hexpand
    cases depth' with
    | zero => nomatch hexpand
    | succ depth' =>
      have hagain : ∀ rest, var ∈ s.lookups →
          Follows s value (var :: rest) (.error (.fatal (cycleMessage s.lookups var))) := fun rest hmem =>
        ⟨fun hnodup => disjoint_left.mp (nodup_append'.mp hnodup).2.2 hmem mem_cons_self, _, rfl⟩
      have hnew : E.rule.getBinding var = none → var ∉ s.lookups := fun hrule hmem =>
        nomatch (hrule ▸ hs.bound var hmem : (none : Option EvalString).isSome = true)
      rw [lookupVariable]
      cases expand_succ_iff.mp hexpand with
      | inOrOut hin =>
        rw [hin]
        exact hs.follows_nil value
      | step hin hstep =>
        simp only [hin, hs.recursive, true_and, BindingEnv.lookupWithFallback, hstep]
        cases hrule : E.rule.getBinding var with
        | none =>
          rw [if_neg (hnew hrule), hs.enter_unbound hrule]
          exact hs.follows_nil value
        | some eval =>
          by_cases hmem : var ∈ s.lookups
          · rw [if_pos hmem]
            exact hagain [] hmem
          · rw [if_neg hmem, hs.enter_bound hrule]
            exact ((hs.bind hrule hmem).follows_nil value).later
      | rule hin hstep hrule htokens =>
        simp only [hin, hs.recursive, true_and, BindingEnv.lookupWithFallback, hstep, hrule]
        by_cases hmem : var ∈ s.lookups
        · rw [if_pos hmem]
          exact hagain _ hmem
        · rw [if_neg hmem, hs.enter_bound hrule]
          exact (evaluate_follows (ih depth') [] (hs.bind hrule hmem) htokens).later
      | parent hin hstep hrule =>
        simp only [hin, hs.recursive, true_and, BindingEnv.lookupWithFallback, hstep, hrule,
          if_neg (hnew hrule), hs.enter_unbound hrule]
        exact hs.follows_nil _

variable {s' : Lookups}

theorem lookupVariable_eq_ok {value : Bytes} (h : E.lookupVariable (depth + 1) s var = .ok (value, s')) :
    E.inOrOut var = some value ∨ E.inOrOut var = none ∧ (E.env.bindings.lookup var = some value ∨
      E.env.bindings.lookup var = none ∧ ((∃ eval, E.rule.getBinding var = some eval ∧
          eval.evaluate (E.lookupVariable depth) (E.enter s var) = .ok (value, s')) ∨
        E.rule.getBinding var = none ∧ value = E.env.lookupInParent var)) := by
  rw [lookupVariable] at h
  cases hin : E.inOrOut var with
  | some value' =>
    rw [hin] at h
    exact .inl (congrArg some (Prod.mk.inj (ok.inj h)).1)
  | none =>
    simp only [hin] at h
    split at h
    · nomatch h
    · refine .inr ⟨rfl, ?_⟩
      unfold BindingEnv.lookupWithFallback at h
      cases hstep : E.env.bindings.lookup var with
      | some value' =>
        rw [hstep] at h
        exact .inl (congrArg some (Prod.mk.inj (ok.inj h)).1)
      | none =>
        refine .inr ⟨rfl, ?_⟩
        cases hrule : E.rule.getBinding var with
        | some eval =>
          rw [hstep, hrule] at h
          exact .inl ⟨eval, rfl, h⟩
        | none =>
          rw [hstep, hrule] at h
          exact .inr ⟨rfl, (Prod.mk.inj (ok.inj h)).1.symm⟩

theorem expandTokens_of_evaluate {f : Bytes → Option (Bytes × List Bytes)}
    (hlookup : ∀ s var value s', lookupVariable s var = .ok (value, s') → ∃ names, f var = some (value, names))
    {tokens : EvalString} {result final : Bytes}
    (h : tokens.foldlM (EvalString.evaluateToken lookupVariable) (result, s) = .ok (final, s')) :
    ∃ value names, expandTokens f tokens = some (value, names) ∧ final = result ++ value := by
  induction tokens generalizing s result with
  | nil =>
    cases h
    exact ⟨[], [], rfl, (append_nil _).symm⟩
  | cons token tokens ih =>
    rw [foldlM_cons] at h
    obtain ⟨⟨result₁, s₁⟩, htoken, h⟩ := bind_eq_ok.mp h
    obtain ⟨rest, restNames, hrest, rfl⟩ := ih h
    cases token with
    | raw text =>
      cases htoken
      exact ⟨text ++ rest, restNames, bind_eq_some_iff.mpr ⟨_, hrest, rfl⟩, append_assoc ..⟩
    | special var =>
      obtain ⟨⟨first, s₂⟩, hfirst, htoken⟩ := bind_eq_ok.mp htoken
      cases htoken
      obtain ⟨firstNames, hnames⟩ := hlookup _ _ _ _ hfirst
      exact ⟨first ++ rest, firstNames ++ restNames,
        bind_eq_some_iff.mpr ⟨_, hnames, bind_eq_some_iff.mpr ⟨_, hrest, rfl⟩⟩, append_assoc ..⟩

theorem expand_of_lookupVariable (depth : Nat) : ∀ s var value s',
    E.lookupVariable depth s var = .ok (value, s') → ∃ names, E.expand depth var = some (value, names) := by
  induction depth with
  | zero => exact fun _ _ _ _ h => nomatch h
  | succ depth ih =>
    intro s var value s' h
    rcases lookupVariable_eq_ok h with hin | ⟨hin, hstep | ⟨hstep, ⟨eval, hrule, heval⟩ | ⟨hrule, rfl⟩⟩⟩
    · exact ⟨_, expand_succ_iff.mpr (.inOrOut hin)⟩
    · exact ⟨_, expand_succ_iff.mpr (.step hin hstep)⟩
    · obtain ⟨value', names, htokens, hvalue⟩ := expandTokens_of_evaluate ih heval
      obtain rfl : value = value' := hvalue
      exact ⟨_, expand_succ_iff.mpr (.rule hin hstep hrule htokens)⟩
    · exact ⟨_, expand_succ_iff.mpr (.parent hin hstep hrule)⟩

/-- The bindings of the rule that have not been looked up. -/
def room (E : StepEnv) (s : Lookups) : Nat := ((E.rule.bindings.map Prod.fst).toFinset \ s.lookups.toFinset).card

theorem unused_subset (E : StepEnv) (h : s.lookups ⊆ s'.lookups) :
    (E.rule.bindings.map Prod.fst).toFinset \ s'.lookups.toFinset ⊆
      (E.rule.bindings.map Prod.fst).toFinset \ s.lookups.toFinset :=
  Finset.sdiff_subset_sdiff (Finset.Subset.refl _) fun _ hmem => mem_toFinset.mpr (h (mem_toFinset.mp hmem))

/-- Within the bound, with more names than before. -/
def Ends (s : Lookups) : Except Stop (Bytes × Lookups) → Prop
  | .ok (_, s') => s'.recursive = true ∧ s.lookups ⊆ s'.lookups
  | .error stop => ∃ cycle, stop = .fatal ("cycle in rule variables: " ++ cycle)

theorem Ends.mono {s₀ : Lookups} (hsubset : s₀.lookups ⊆ s.lookups) (h : Ends s result) : Ends s₀ result := by
  rcases result with stop | ⟨value, s'⟩
  · exact h
  · exact ⟨h.1, List.Subset.trans hsubset h.2⟩

theorem evaluate_ends (hlookup : ∀ s var, s.recursive = true → E.room s < depth → Ends s (lookupVariable s var))
    {tokens : EvalString} (result : Bytes) (hs : s.recursive = true) (hroom : E.room s < depth) :
    Ends s (tokens.foldlM (EvalString.evaluateToken lookupVariable) (result, s)) := by
  induction tokens generalizing s result with
  | nil => exact ⟨hs, List.Subset.refl _⟩
  | cons token tokens ih =>
    rw [foldlM_cons]
    cases token with
    | raw text => exact ih _ hs hroom
    | special var =>
      have hvar := hlookup s var hs hroom
      simp only [EvalString.evaluateToken, bind, bind]
      cases hcall : lookupVariable s var with
      | error stop =>
        rw [hcall] at hvar
        exact hvar
      | ok found =>
        rw [hcall] at hvar
        obtain ⟨value, s'⟩ := found
        exact (ih (result ++ value) hvar.1 ((Finset.card_le_card (E.unused_subset hvar.2)).trans_lt hroom)).mono hvar.2

theorem lookupVariable_ends (depth : Nat) :
    ∀ s var, s.recursive = true → E.room s < depth → Ends s (E.lookupVariable depth s var) := by
  induction depth with
  | zero => exact fun _ _ _ h => absurd h (Nat.not_lt_zero _)
  | succ depth ih =>
    intro s var hs hroom
    have hsubset : s.lookups ⊆ (E.enter s var).lookups := by
      rw [enter]
      split
      · exact subset_append_left ..
      · exact List.Subset.refl _
    rw [lookupVariable]
    cases hin : E.inOrOut var with
    | some value => exact ⟨hs, List.Subset.refl _⟩
    | none =>
      simp only [hs, true_and]
      split
      · exact ⟨_, rfl⟩
      · next hnew =>
        unfold BindingEnv.lookupWithFallback
        cases hstep : E.env.bindings.lookup var with
        | some value => exact ⟨rfl, hsubset⟩
        | none =>
          cases hrule : E.rule.getBinding var with
          | none => exact ⟨rfl, hsubset⟩
          | some eval =>
            have hbound : (E.rule.getBinding var).isSome = true := hrule ▸ rfl
            have hvar : var ∈ (E.enter s var).lookups := by
              rw [enter, if_pos ⟨hs, hbound⟩]
              exact mem_append_right _ mem_cons_self
            have hless : E.room (E.enter s var) < E.room s := by
              refine Finset.card_lt_card ((Finset.ssubset_iff_of_subset (E.unused_subset hsubset)).mpr ⟨var, ?_, ?_⟩)
              · exact Finset.mem_sdiff.mpr
                  ⟨mem_toFinset.mpr (mem_keys_of_isSome hbound), fun hmem => hnew (mem_toFinset.mp hmem)⟩
              · exact fun hmem => (Finset.mem_sdiff.mp hmem).2 (mem_toFinset.mpr hvar)
            exact (evaluate_ends ih [] rfl (hless.trans_le (Nat.le_of_lt_succ hroom))).mono hsubset

theorem lookup_eq (E : StepEnv) (var : Bytes) : E.lookup var =
      match E.inOrOut var with
      | some value => .ok value
      | none => (E.env.lookupWithFallback var (E.rule.getBinding var)
          (fun s eval => eval.evaluate (E.lookupVariable (E.rule.bindings.length + 1)) s) ⟨[], true⟩).map Prod.fst := by
  rw [lookup, lookupVariable]
  cases E.inOrOut var with
  | some | none => rfl

theorem room_lt_length (E : StepEnv) (s : Lookups) : E.room s < E.rule.bindings.length + 1 := by
  have hle := Finset.card_le_card (Finset.sdiff_subset (s := (E.rule.bindings.map Prod.fst).toFinset)
    (t := s.lookups.toFinset))
  have hkeys := toFinset_card_le (E.rule.bindings.map Prod.fst)
  rw [length_map] at hkeys
  exact Nat.lt_succ_of_le (hle.trans hkeys)

theorem evaluate_ends_first (E : StepEnv) (eval : EvalString) :
    Ends ⟨[], true⟩ (eval.evaluate (E.lookupVariable (E.rule.bindings.length + 1)) ⟨[], true⟩) :=
  evaluate_ends (lookupVariable_ends _) [] rfl (E.room_lt_length _)

theorem lookup_ends (E : StepEnv) (var : Bytes) : (∃ value, E.lookup var = .ok value) ∨
      ∃ cycle, E.lookup var = .error (.fatal ("cycle in rule variables: " ++ cycle)) := by
  rw [lookup_eq]
  cases E.inOrOut var with
  | some value => exact .inl ⟨value, rfl⟩
  | none =>
    unfold BindingEnv.lookupWithFallback
    cases E.env.bindings.lookup var with
    | some value => exact .inl ⟨value, rfl⟩
    | none =>
      cases E.rule.getBinding var with
      | none => exact .inl ⟨_, rfl⟩
      | some eval =>
        have hends := E.evaluate_ends_first eval
        simp only
        generalize eval.evaluate _ _ = result at hends ⊢
        rcases result with stop | ⟨value, s'⟩
        · obtain ⟨cycle, rfl⟩ := hends
          exact .inr ⟨cycle, rfl⟩
        · exact .inl ⟨value, rfl⟩

/-- It returns the value if no name is looked up twice below it. -/
theorem lookup_of_expand {value : Bytes}
    (h : E.expand depth var = some (value, names)) : E.lookup var = .ok value ↔ names.tail.Nodup := by
  cases depth with
  | zero => nomatch h
  | succ depth =>
    rw [lookup_eq]
    cases expand_succ_iff.mp h with
    | inOrOut hin =>
      rw [hin]
      exact iff_of_true rfl nodup_nil
    | step hin hstep =>
      simp only [hin, BindingEnv.lookupWithFallback, hstep]
      refine iff_of_true rfl ?_
      split
      · exact nodup_nil
      · exact nodup_nil
    | @rule eval _ names' hin hstep hrule htokens =>
      simp only [hin, BindingEnv.lookupWithFallback, hstep, hrule, tail_cons]
      have hfirst : Entered E ⟨[], true⟩ := ⟨rfl, nodup_nil, nofun⟩
      have hfollows : Follows ⟨[], true⟩ value names'
          (eval.evaluate (E.lookupVariable (E.rule.bindings.length + 1)) ⟨[], true⟩) :=
        evaluate_follows (lookupVariable_follows _ depth) [] hfirst htokens
      have hends := E.evaluate_ends_first eval
      generalize eval.evaluate _ _ = result at hfollows hends ⊢
      rcases result with stop | ⟨value', s'⟩
      · obtain ⟨cycle, rfl⟩ := hends
        exact iff_of_false nofun hfollows.1
      · obtain ⟨hnodup, rfl, -⟩ := hfollows
        exact iff_of_true rfl hnodup
    | parent hin hstep hrule =>
      simp only [hin, BindingEnv.lookupWithFallback, hstep, hrule]
      exact iff_of_true rfl nodup_nil

theorem expand_of_lookup {value : Bytes} (h : E.lookup var = .ok value) :
    ∃ depth names, E.expand depth var = some (value, names) := by
  obtain ⟨⟨value', s'⟩, hlookup, rfl⟩ := map_eq_ok.mp h
  exact ⟨_, expand_of_lookupVariable _ _ _ _ _ hlookup⟩

end
end StepEnv

/-- A lookup always ends, and what it returns is the value of the variable. It reports exactly the
cycles, and returns the value of each variable without one, if and only if no binding of the rule is
looked up twice below the variable. -/
theorem lookup_reports_cycles_iff (E : StepEnv) (var : Bytes) : E.lookup var ≠ .error .tooDeep ∧
    (∀ value, E.lookup var = .ok value → ∃ depth names, E.expand depth var = some (value, names)) ∧
    ((((∃ cycle, E.lookup var = .error (.fatal ("cycle in rule variables: " ++ cycle))) ↔ E.Cyclic var) ∧
        (¬ E.Cyclic var → ∃ depth value names, E.expand depth var = some (value, names) ∧ E.lookup var = .ok value)) ↔
      ∀ depth value names, E.expand depth var = some (value, names) → names.tail.Nodup) := by
  have hends := E.lookup_ends var
  refine ⟨?_, fun value => StepEnv.expand_of_lookup, ⟨fun h depth value names hexpand => ?_, fun hnodup => ?_⟩⟩
  · rcases hends with ⟨value, h⟩ | ⟨cycle, h⟩
    · rw [h]
      nofun
    · rw [h]
      nofun
  · have hacyclic : ¬ E.Cyclic var := fun hcyclic => StepEnv.cyclic_iff.mp hcyclic (StepEnv.grounded_of_expand hexpand)
    obtain ⟨depth', value', names', hexpand', hvalue⟩ := h.2 hacyclic
    obtain ⟨rfl, rfl⟩ := StepEnv.expand_unique hexpand hexpand'
    exact (StepEnv.lookup_of_expand hexpand).mp hvalue
  · have hreturns : ¬ E.Cyclic var →
        ∃ depth value names, E.expand depth var = some (value, names) ∧ E.lookup var = .ok value := by
      intro hacyclic
      obtain ⟨depth, value, names, hexpand⟩ := StepEnv.exists_expand (not_not.mp (mt StepEnv.cyclic_iff.mpr hacyclic))
      exact ⟨depth, value, names, hexpand, (StepEnv.lookup_of_expand hexpand).mpr (hnodup _ _ _ hexpand)⟩
    refine ⟨⟨?_, fun hcyclic => hends.resolve_left ?_⟩, hreturns⟩
    · rintro ⟨cycle, hfatal⟩
      by_contra hacyclic
      obtain ⟨_, _, _, -, hvalue⟩ := hreturns hacyclic
      nomatch hfatal.symm.trans hvalue
    · rintro ⟨value, hvalue⟩
      obtain ⟨depth, names, hexpand⟩ := StepEnv.expand_of_lookup hvalue
      exact StepEnv.cyclic_iff.mp hcyclic (StepEnv.grounded_of_expand hexpand)

def twiceEnv : StepEnv where
  rule := { bindings := [(commandVar, [.special depsVar, .raw [32], .special depsVar]), (depsVar, [.raw [120]])] }
  env := .root []

/-- There is no cycle, and the value is `x x`, but the lookup of the command ends with an error. -/
theorem lookup_reports_second_reference :
    ¬ twiceEnv.Cyclic commandVar ∧
      twiceEnv.expand 2 commandVar = some ([120, 32, 120], [commandVar, depsVar, depsVar]) ∧
      twiceEnv.lookup commandVar = .error (.fatal "cycle in rule variables: deps -> deps") := by
  have hexpand : twiceEnv.expand 2 commandVar = some ([120, 32, 120], [commandVar, depsVar, depsVar]) := by
    decide +kernel
  refine ⟨fun hcyclic => StepEnv.cyclic_iff.mp hcyclic (StepEnv.grounded_of_expand hexpand), hexpand, ?_⟩
  decide +kernel

end Shuriken
