import Mathlib.Data.List.Basic

/-!
# What a stream emits

A stream that is read to its end emits items, and then it completes or fails.
The operators that are made of others here carry a state from item to item, as
functions with captured variables do.
-/

/-- The items of a stream and the failure that ends it, if any. -/
structure Emission (ε α : Type*) where
  items : List α := []
  failure : Option ε := none
  deriving DecidableEq

namespace Emission
variable {ε α β σ : Type*}

def just (a : α) : Emission ε α where
  items := [a]

def throw (e : ε) : Emission ε α where
  failure := some e

/-- The second stream is used when the first one has completed. -/
def concat (first second : Emission ε α) : Emission ε α :=
  match first.failure with
  | none => ⟨first.items ++ second.items, second.failure⟩
  | some _ => first

def concatMapList (f : σ → α → σ × Emission ε β) : σ → List α → σ × Emission ε β
  | s, [] => (s, {})
  | s, a :: as =>
    let (s, inner) := f s a
    match inner.failure with
    | some _ => (s, inner)
    | none =>
      let (s, rest) := concatMapList f s as
      (s, inner.concat rest)

def concatMap (f : σ → α → σ × Emission ε β) (s : σ) (source : Emission ε α) : σ × Emission ε β :=
  let (s, out) := concatMapList f s source.items
  (s, out.concat { failure := source.failure })

/-- A function that throws ends the stream. -/
def map (f : σ → α → Except ε (σ × β)) (s : σ) (source : Emission ε α) : Emission ε β := (concatMap (fun s a =>
    match f s a with
    | .ok (s, b) => (s, just b)
    | .error e => (s, throw e)) s source).2

def ifEmpty (source other : Emission ε α) : Emission ε α :=
  if source.items = [] then source.concat other else source

/-- The items are reduced, and the accumulator is emitted whenever it should be, and at the end. -/
def reduceMultiple (initial empty : β) (reducer : β → α → β) (shouldEmit : β → α → Bool)
    (source : Emission ε α) : Emission ε β :=
  let (accum, out) := source.concatMap (fun accum value =>
    if shouldEmit accum value then (reducer empty value, just accum)
    else (reducer accum value, {})) initial
  out.concat (just accum)

def reduce (initial : β) (reducer : β → α → β) (source : Emission ε α) : Emission ε β :=
  match source.failure with
  | none => just (source.items.foldl reducer initial)
  | some e => throw e

theorem map_cons_error {f : σ → α → Except ε (σ × β)} {s : σ} {a : α} {e : ε} (h : f s a = .error e)
    (as : List α) (failure : Option ε) : map f s ⟨a :: as, failure⟩ = throw e := by
  simp [map, concatMap, concatMapList, h, throw, concat]

theorem map_nil (f : σ → α → Except ε (σ × β)) (s : σ) (failure : Option ε) :
    map f s ⟨[], failure⟩ = ⟨[], failure⟩ := by
  simp [map, concatMap, concatMapList, concat]

theorem reduceMultiple_ne_empty {initial empty : β} {reducer : β → α → β} {shouldEmit : β → α → Bool}
    {source : Emission ε α} :
    (source.reduceMultiple initial empty reducer shouldEmit).items ≠ [] ∨
      ((source.reduceMultiple initial empty reducer shouldEmit).failure.isSome = true) := by
  rw [reduceMultiple]
  generalize source.concatMap _ initial = result
  obtain ⟨accum, out⟩ := result
  simp only
  cases hfailure : out.failure with
  | some e =>
    rw [concat, hfailure]
    exact .inr (by rw [hfailure]; rfl)
  | none =>
    rw [concat, hfailure]
    exact .inl (by simp [just])

end Emission
