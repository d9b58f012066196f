import Shuriken.Lib.Finmap
import Shuriken.Fs.Canonical

/-!
# Path objects

`Paths::get` makes a path object from a string. Two objects are the same when the inode of the longest part of
the path that exists and the canonicalized rest are the same.
-/
namespace Shuriken
open Names Lexical List

/-- The two calls of the file system that are used, while it does not change. -/
structure Stater where
  stat : Path → Stat
  lstat : Path → Stat

structure StatMemo where
  stat : Finmap fun _ : Path => Stat := ∅
  lstat : Finmap fun _ : Path => Stat := ∅

def memoized (statFn : Path → Stat) (memo : Finmap fun _ : Path => Stat) (path : Path) :
    Stat × Finmap fun _ : Path => Stat :=
  match memo.lookup path with
  | none => (statFn path, memo.insert path (statFn path))
  | some stat => (stat, memo)

def Stater.call (S : Stater) (useLstat : Bool) (memo : StatMemo) (path : Path) : Stat × StatMemo :=
  if useLstat then
    let (stat, lstat) := memoized S.lstat memo.lstat path
    (stat, { memo with lstat })
  else
    let (stat, statMemo) := memoized S.stat memo.stat path
    (stat, { memo with stat := statMemo })

def skipSlashes (path : Path) : Nat → Nat × Bool
  | 0 => (0, path[0]? = some slash)
  | pos + 1 => if path[pos + 1]? = some slash then skipSlashes path pos else (pos + 1, false)

def skipName (path : Path) : Nat → Nat × Bool
  | 0 => (0, path[0]? ≠ some slash)
  | pos + 1 => if path[pos + 1]? ≠ some slash then skipName path pos else (pos + 1, false)

/-- The loop of `makeCanonicalizedPath`, with the position that it ends at. The position gets
smaller in each round, and the first argument bounds the rounds. -/
def findExisting (S : Stater) (path : Path) : Nat → StatMemo → Nat → Bool →
    StatMemo × Except PathError (Stat × Nat × Bool)
  | 0, memo, _, _ => (memo, .error ⟨"None of the path components can be accessed and exist", path⟩)
  | rounds + 1, memo, pos, atRelativeRoot =>
    let useLstat := pos == path.length - 1
    let (pos, atRoot) := skipSlashes path pos
    let pathToTry := if atRelativeRoot then dotName else path.take (pos + 1)
    let (stat, memo) := S.call useLstat memo pathToTry
    if stat.result = 0 then
      if pos ≠ path.length - 1 && !sIsDir stat.metadata.mode then
        (memo, .error ⟨"Encountered file in a directory component of a path", path⟩)
      else (memo, .ok (stat, pos, atRelativeRoot))
    else if atRoot || atRelativeRoot then
      (memo, .error ⟨"None of the path components can be accessed and exist", path⟩)
    else
      let (pos, atRelativeRoot) := skipName path pos
      findExisting S path rounds memo pos atRelativeRoot

def restAt (path : Path) (pos : Nat) (atRelativeRoot : Bool) : Bytes :=
  if atRelativeRoot then path.drop pos else (path.drop (pos + 1)).dropWhile (· == slash)

def nonexistingPart (S : Stater) (memo : StatMemo) (path : Path) : StatMemo × Except PathError (Stat × Bytes) :=
  if path = [] then (memo, .error ⟨"Empty path", path⟩)
  else
    match findExisting S path (path.length + 1) memo (path.length - 1) false with
    | (memo, .error error) => (memo, .error error)
    | (memo, .ok (stat, pos, atRelativeRoot)) =>
      (memo, .ok (stat, restAt path pos atRelativeRoot))

structure CanonicalizedPath where
  ino : UInt64
  dev : UInt64
  path : Bytes
  deriving DecidableEq

def makeCanonicalizedPath (S : Stater) (memo : StatMemo) (path : Path) :
    StatMemo × Except PathError CanonicalizedPath :=
  match nonexistingPart S memo path with
  | (memo, .error error) => (memo, .error error)
  | (memo, .ok (stat, rest)) =>
    (memo, (canonicalizeInPlace rest).map fun rest => ⟨stat.metadata.ino, stat.metadata.dev, rest⟩)

/-- The class `Path`. The address of the canonicalized path is its place in the set of them. -/
structure PathObject where
  canonicalizedPath : Nat
  original : Path
  deriving DecidableEq

def PathObject.isSame (a b : PathObject) : Bool := a.canonicalizedPath == b.canonicalizedPath

structure Paths where
  statMemo : StatMemo := {}
  canonicalizedPaths : List CanonicalizedPath := []

def intern (set : List CanonicalizedPath) (path : CanonicalizedPath) : List CanonicalizedPath × Nat :=
  if path ∈ set then (set, set.idxOf path) else (set ++ [path], set.length)

namespace Paths

def get (S : Stater) (paths : Paths) (path : Path) : Paths × Except PathError PathObject :=
  match makeCanonicalizedPath S paths.statMemo path with
  | (statMemo, .error error) => ({ paths with statMemo }, .error error)
  | (statMemo, .ok canonicalized) =>
    let (canonicalizedPaths, address) := intern paths.canonicalizedPaths canonicalized
    ({ statMemo, canonicalizedPaths }, .ok ⟨address, path⟩)

def getAll (S : Stater) : Paths → List Path → Paths × List (Path × Except PathError PathObject)
  | paths, [] => (paths, [])
  | paths, path :: rest =>
    let (paths, result) := paths.get S path
    let (paths, results) := getAll S paths rest
    (paths, (path, result) :: results)

end Paths

structure StatMemo.Agrees (S : Stater) (memo : StatMemo) : Prop where
  stat : ∀ {path stat}, memo.stat.lookup path = some stat → stat = S.stat path
  lstat : ∀ {path stat}, memo.lstat.lookup path = some stat → stat = S.lstat path

theorem StatMemo.agrees_empty (S : Stater) : StatMemo.Agrees S {} where
  stat h := by simp at h
  lstat h := by simp at h

theorem memoized_spec {statFn : Path → Stat} {memo : Finmap fun _ : Path => Stat}
    (h : ∀ {path stat}, memo.lookup path = some stat → stat = statFn path) (path : Path) :
    (memoized statFn memo path).1 = statFn path ∧
      ∀ {path' stat}, (memoized statFn memo path).2.lookup path' = some stat → stat = statFn path' := by
  rw [memoized]
  split
  · refine ⟨rfl, fun {path' stat} hstat => ?_⟩
    rcases Finmap.lookup_of_insert hstat with ⟨rfl, rfl⟩ | hstat
    · rfl
    · exact h hstat
  · next hmemo => exact ⟨h hmemo, h⟩

variable {S : Stater}

theorem Stater.call_spec {memo : StatMemo} (h : memo.Agrees S) (useLstat : Bool) (path : Path) :
    (S.call useLstat memo path).1 = (if useLstat then S.lstat path else S.stat path) ∧
      (S.call useLstat memo path).2.Agrees S := by
  cases useLstat with
  | true =>
    obtain ⟨hstat, hmemo⟩ := memoized_spec h.lstat path
    exact ⟨hstat, ⟨h.stat, hmemo⟩⟩
  | false =>
    obtain ⟨hstat, hmemo⟩ := memoized_spec h.stat path
    exact ⟨hstat, ⟨hmemo, h.lstat⟩⟩

variable {path : Path}

theorem findExisting_memo {rounds : Nat} {memo memo' : StatMemo}
    (h : memo.Agrees S) (h' : memo'.Agrees S) (pos : Nat) (atRelativeRoot : Bool) :
    (findExisting S path rounds memo pos atRelativeRoot).1.Agrees S ∧
      (findExisting S path rounds memo pos atRelativeRoot).2 =
        (findExisting S path rounds memo' pos atRelativeRoot).2 := by
  induction rounds generalizing memo memo' pos atRelativeRoot with
  | zero => exact ⟨h, rfl⟩
  | succ rounds ih =>
    simp only [findExisting]
    generalize (if atRelativeRoot = true then dotName else path.take ((skipSlashes path pos).1 + 1)) = tried
    have hcall := Stater.call_spec h (pos == path.length - 1) tried
    have hcall' := Stater.call_spec h' (pos == path.length - 1) tried
    rw [hcall.1, hcall'.1]
    generalize (if (pos == path.length - 1) = true then S.lstat tried else S.stat tried) = stat
    split
    · split
      · exact ⟨hcall.2, rfl⟩
      · exact ⟨hcall.2, rfl⟩
    · split
      · exact ⟨hcall.2, rfl⟩
      · exact ih hcall.2 hcall'.2 _ _

theorem skipSlashes_spec (path : Path) (pos : Nat) :
    (∃ n, path.take (pos + 1) = path.take ((skipSlashes path pos).1 + 1) ++ replicate n slash) ∧
      (skipSlashes path pos).1 ≤ pos ∧
      if (skipSlashes path pos).2 then (skipSlashes path pos).1 = 0 ∧ path[0]? = some slash
      else path[(skipSlashes path pos).1]? ≠ some slash := by
  induction pos with
  | zero => exact ⟨⟨0, by simp [skipSlashes]⟩, le_rfl, by simp [skipSlashes]⟩
  | succ pos ih =>
    rw [skipSlashes]
    split
    · next hslash =>
      obtain ⟨⟨n, hn⟩, hle, hif⟩ := ih
      refine ⟨⟨n + 1, ?_⟩, Nat.le_succ_of_le hle, hif⟩
      rw [take_add_one, hslash, hn, replicate_succ', append_assoc]
      rfl
    · next hslash => exact ⟨⟨0, by simp⟩, le_rfl, by simpa using hslash⟩

theorem skipName_spec (path : Path) (pos : Nat) : (skipName path pos).1 ≤ pos ∧
      if (skipName path pos).2 then (skipName path pos).1 = 0 ∧ path[0]? ≠ some slash
      else path[(skipName path pos).1]? = some slash := by
  induction pos with
  | zero => exact ⟨le_rfl, by by_cases h : path[0]? = some slash <;> simp [skipName, h]⟩
  | succ pos ih =>
    rw [skipName]
    split
    · exact ⟨Nat.le_succ_of_le ih.1, ih.2⟩
    · next hslash => exact ⟨le_rfl, by simpa using hslash⟩

/-- What is known about the part of a path that was found, and the rest. -/
inductive Found (S : Stater) (path : Path) : Stat → Bytes → Prop
  | whole {tried : Path} {n : Nat} : path = tried ++ replicate n slash → tried ≠ [] →
      (tried = [slash] ∨ tried.getLast? ≠ some slash) → (S.lstat tried).result = 0 →
      (n ≠ 0 → sIsDir (S.lstat tried).metadata.mode = true) → Found S path (S.lstat tried) []
  | below {tried rest : Path} {n : Nat} : path = tried ++ replicate n slash ++ rest → tried ≠ [] →
      (tried = [slash] ∨ tried.getLast? ≠ some slash ∧ n ≠ 0) → rest.head? ≠ some slash →
      (S.stat tried).result = 0 → sIsDir (S.stat tried).metadata.mode = true →
      Found S path (S.stat tried) rest
  | relative {stat : Stat} : path.head? ≠ some slash → (stat = S.stat dotName ∨ stat = S.lstat dotName) →
      stat.result = 0 → Found S path stat path

theorem dropWhile_slash_spec (text : Bytes) : (∃ n, text = replicate n slash ++ text.dropWhile (· == slash)) ∧
      (text.dropWhile (· == slash)).head? ≠ some slash := by
  induction text with
  | nil => exact ⟨⟨0, rfl⟩, nofun⟩
  | cons c text ih =>
    by_cases hc : c = slash
    · obtain ⟨⟨n, hn⟩, hhead⟩ := ih
      rw [dropWhile_cons_of_pos (by simpa using hc), hc]
      exact ⟨⟨n + 1, congrArg (slash :: ·) hn⟩, hhead⟩
    · rw [dropWhile_cons_of_neg (by simpa using hc)]
      exact ⟨⟨0, rfl⟩, by simpa using hc⟩

/-- The search has ended with a part of the path that is there. -/
theorem found_of_take {pos : Nat} (hpos : pos < path.length)
    (hslash : pos = path.length - 1 ∨ path[pos]? = some slash) {stat : Stat}
    (hstat : stat = if pos == path.length - 1 then S.lstat (path.take ((skipSlashes path pos).1 + 1))
      else S.stat (path.take ((skipSlashes path pos).1 + 1)))
    (hresult : stat.result = 0)
    (hdir : (skipSlashes path pos).1 ≠ path.length - 1 → sIsDir stat.metadata.mode = true) :
    Found S path stat (restAt path (skipSlashes path pos).1 false) := by
  obtain ⟨⟨n, htake⟩, hle, hif⟩ := skipSlashes_spec path pos
  generalize hpos₁ : (skipSlashes path pos).1 = pos₁ at htake hle hif hstat hdir ⊢
  have hlt : pos₁ < path.length := lt_of_le_of_lt hle hpos
  have hlength : (path.take (pos₁ + 1)).length = pos₁ + 1 := by
    rw [length_take]
    omega
  have hnonempty : path.take (pos₁ + 1) ≠ [] := ne_nil_of_length_pos (by omega)
  have hn : pos = pos₁ + n := by
    have hlengths := congrArg length htake
    rw [length_append, hlength, length_replicate, length_take] at hlengths
    omega
  have hlast : (path.take (pos₁ + 1)).getLast? = path[pos₁]? := by
    rw [getLast?_eq_getElem?, hlength, getElem?_take]
    simp
  have htried : path.take (pos₁ + 1) = [slash] ∨
      (path.take (pos₁ + 1)).getLast? ≠ some slash ∧ path[pos₁]? ≠ some slash := by
    split at hif
    · obtain ⟨rfl, hroot⟩ := hif
      refine .inl ?_
      rw [take_add_one, hroot]
      rfl
    · exact .inr ⟨hlast ▸ hif, hif⟩
  rw [restAt, if_neg Bool.false_ne_true]
  obtain ⟨⟨m, hdrop⟩, hhead⟩ := dropWhile_slash_spec (path.drop (pos₁ + 1))
  by_cases hend : pos = path.length - 1
  · -- The whole path was tried, without the slashes at its end.
    have hpath : path = path.take (pos₁ + 1) ++ replicate n slash := by
      rw [← htake, take_of_length_le (by omega)]
    have hrest : path.drop (pos₁ + 1) = replicate n slash := by
      conv_lhs => rw [hpath]
      rw [drop_left' hlength]
    rw [hrest, dropWhile_replicate]
    obtain rfl : stat = S.lstat (path.take (pos₁ + 1)) := by simpa [hend] using hstat
    simp only [beq_self_eq_true, if_true]
    exact .whole hpath hnonempty (htried.imp_right And.left) hresult fun hn₀ => hdir (by omega)
  · have hpath : path = path.take (pos₁ + 1) ++ replicate m slash ++
        (path.drop (pos₁ + 1)).dropWhile (· == slash) := by
      rw [append_assoc, ← hdrop, take_append_drop]
    obtain rfl : stat = S.stat (path.take (pos₁ + 1)) := by simpa [hend] using hstat
    refine .below hpath hnonempty (htried.imp_right fun ⟨hlast, hne⟩ => ⟨hlast, ?_⟩) hhead hresult
      (hdir (by omega))
    -- The search has passed a slash on its way here.
    rintro rfl
    have hslash := hslash.resolve_left hend
    have hne : pos₁ ≠ pos := fun h => hne (h ▸ hslash)
    have hnext : path[pos₁ + 1]? = some slash := by
      rw [← getElem?_take_of_lt (show pos₁ + 1 < pos + 1 by omega), htake,
        getElem?_append_right hlength.le, hlength, Nat.sub_self, getElem?_replicate]
      exact if_pos (by omega)
    rw [replicate_zero, nil_append] at hdrop
    rw [← hdrop, head?_drop] at hhead
    exact hhead hnext

theorem findExisting_found {rounds : Nat} {memo : StatMemo} (hmemo : memo.Agrees S) {pos : Nat}
    (hpos : pos < path.length) {atRelativeRoot : Bool}
    (hinv : if atRelativeRoot then pos = 0 ∧ path[0]? ≠ some slash else pos = path.length - 1 ∨ path[pos]? = some slash)
    {stat : Stat} {pos' : Nat} {atRelativeRoot' : Bool}
    (h : (findExisting S path rounds memo pos atRelativeRoot).2 = .ok (stat, pos', atRelativeRoot')) :
    Found S path stat (restAt path pos' atRelativeRoot') := by
  induction rounds generalizing memo pos atRelativeRoot with
  | zero => nomatch h
  | succ rounds ih =>
    simp only [findExisting] at h
    have hcall := Stater.call_spec hmemo (pos == path.length - 1)
      (if atRelativeRoot = true then dotName else path.take ((skipSlashes path pos).1 + 1))
    generalize S.call (pos == path.length - 1) memo
      (if atRelativeRoot = true then dotName else path.take ((skipSlashes path pos).1 + 1)) = called at h hcall
    obtain ⟨hstat, hmemo⟩ := hcall
    split at h
    · next hresult =>
      split at h
      · nomatch h
      · next hcheck =>
        obtain ⟨rfl, rfl, rfl⟩ : called.1 = stat ∧ (skipSlashes path pos).1 = pos' ∧
            atRelativeRoot = atRelativeRoot' := by simpa using h
        cases atRelativeRoot with
        | true =>
          obtain ⟨rfl, hhead⟩ := hinv
          have hzero : (skipSlashes path 0).1 = 0 := Nat.le_zero.mp (skipSlashes_spec path 0).2.1
          rw [restAt, if_pos rfl, hzero, drop_zero]
          refine .relative (by rwa [head?_eq_getElem?]) ?_ hresult
          rw [hstat, if_pos rfl]
          split
          · exact .inr rfl
          · exact .inl rfl
        | false =>
          refine found_of_take hpos hinv (by simpa using hstat) hresult fun hne => ?_
          simpa [hne] using hcheck
    · split at h
      · nomatch h
      · obtain ⟨hle, hif⟩ := skipName_spec path (skipSlashes path pos).1
        have hle' := (skipSlashes_spec path pos).2.1
        refine ih hmemo (by omega) ?_ h
        split
        · next hrelative => rwa [if_pos hrelative] at hif
        · next hrelative =>
          rw [if_neg hrelative] at hif
          exact .inr hif

theorem nonexistingPart_found {memo : StatMemo} (hmemo : memo.Agrees S) {stat : Stat} {rest : Bytes}
    (h : (nonexistingPart S memo path).2 = .ok (stat, rest)) : path ≠ [] ∧ Found S path stat rest := by
  rw [nonexistingPart] at h
  split at h
  · nomatch h
  · next hpath =>
    refine ⟨hpath, ?_⟩
    have hpos : path.length - 1 < path.length := Nat.sub_lt (length_pos_of_ne_nil hpath) Nat.one_pos
    have hfound := @findExisting_found S path (path.length + 1) memo hmemo (path.length - 1) hpos false
      (.inl rfl)
    split at h
    · nomatch h
    · next heq =>
      cases h
      exact hfound (congrArg Prod.snd heq)

theorem nonexistingPart_memo {memo memo' : StatMemo} (h : memo.Agrees S) (h' : memo'.Agrees S) (path : Path) :
    (nonexistingPart S memo path).1.Agrees S ∧ (nonexistingPart S memo path).2 = (nonexistingPart S memo' path).2 := by
  obtain ⟨hmemo, hresult⟩ := @findExisting_memo S path (path.length + 1) memo memo' h h' (path.length - 1) false
  rw [nonexistingPart, nonexistingPart]
  split
  · exact ⟨h, rfl⟩
  · generalize findExisting S path (path.length + 1) memo (path.length - 1) false = found at hmemo hresult
    generalize findExisting S path (path.length + 1) memo' (path.length - 1) false = found' at hresult
    obtain ⟨memo₁, result⟩ := found
    obtain ⟨memo₂, result'⟩ := found'
    obtain rfl : result = result' := hresult
    cases result with
    | error | ok => exact ⟨hmemo, rfl⟩

theorem makeCanonicalizedPath_memo {memo memo' : StatMemo} (h : memo.Agrees S) (h' : memo'.Agrees S) (path : Path) :
    (makeCanonicalizedPath S memo path).1.Agrees S ∧
      (makeCanonicalizedPath S memo path).2 = (makeCanonicalizedPath S memo' path).2 := by
  obtain ⟨hmemo, hresult⟩ := nonexistingPart_memo h h' path
  rw [makeCanonicalizedPath, makeCanonicalizedPath]
  generalize nonexistingPart S memo path = found at hmemo hresult
  generalize nonexistingPart S memo' path = found' at hresult
  obtain ⟨memo₁, result⟩ := found
  obtain ⟨memo₂, result'⟩ := found'
  obtain rfl : result = result' := hresult
  cases result with
  | error | ok => exact ⟨hmemo, rfl⟩

theorem intern_spec (set : List CanonicalizedPath) (path : CanonicalizedPath) :
    set <+: (intern set path).1 ∧ (intern set path).1[(intern set path).2]? = some path := by
  rw [intern]
  split
  · next hmem => exact ⟨prefix_rfl, getElem?_idxOf hmem⟩
  · exact ⟨prefix_append _ _, by simp⟩

namespace Paths
variable {S : Stater} {paths : Paths}

section
variable (h : paths.statMemo.Agrees S)
include h

theorem get_spec (path : Path) : (paths.get S path).1.statMemo.Agrees S ∧
      paths.canonicalizedPaths <+: (paths.get S path).1.canonicalizedPaths ∧
      ∀ object, (paths.get S path).2 = .ok object →
        ∃ canonicalized, (makeCanonicalizedPath S {} path).2 = .ok canonicalized ∧
          (paths.get S path).1.canonicalizedPaths[object.canonicalizedPath]? = some canonicalized := by
  obtain ⟨hmemo, hresult⟩ := makeCanonicalizedPath_memo h (StatMemo.agrees_empty S) path
  rw [get]
  generalize makeCanonicalizedPath S paths.statMemo path = made at hmemo hresult
  obtain ⟨memo, result⟩ := made
  cases result with
  | error error => exact ⟨hmemo, prefix_rfl, nofun⟩
  | ok canonicalized =>
    obtain ⟨hextends, haddress⟩ := intern_spec paths.canonicalizedPaths canonicalized
    refine ⟨hmemo, hextends, fun object hobject => ⟨canonicalized, hresult.symm, ?_⟩⟩
    cases hobject
    exact haddress

theorem getAll_extends (strings : List Path) :
    paths.canonicalizedPaths <+: (paths.getAll S strings).1.canonicalizedPaths := by
  induction strings generalizing paths with
  | nil => exact prefix_rfl
  | cons path strings ih =>
    obtain ⟨hmemo, hextends, -⟩ := get_spec h path
    exact hextends.trans (ih hmemo)

theorem getAll_spec {strings : List Path}
    {object : PathObject} (hobject : (path, .ok object) ∈ (paths.getAll S strings).2) :
    ∃ canonicalized, (makeCanonicalizedPath S {} path).2 = .ok canonicalized ∧
      (paths.getAll S strings).1.canonicalizedPaths[object.canonicalizedPath]? = some canonicalized := by
  induction strings generalizing paths with
  | nil => nomatch hobject
  | cons string strings ih =>
    obtain ⟨hmemo, -, hget⟩ := get_spec h string
    rcases mem_cons.mp hobject with heq | hobject
    · obtain ⟨rfl, hresult⟩ := Prod.mk.inj heq
      obtain ⟨canonicalized, hmake, haddress⟩ := hget object hresult.symm
      refine ⟨canonicalized, hmake, ?_⟩
      obtain ⟨more, hmore⟩ := getAll_extends hmemo strings
      show (getAll S (paths.get S path).1 strings).1.canonicalizedPaths[_]? = _
      rw [← hmore]
      exact List.getElem?_append_left (List.getElem?_eq_some_iff.mp haddress).1 ▸ haddress
    · exact ih hmemo hobject

end

theorem get_nodup (h : paths.canonicalizedPaths.Nodup) (path : Path) :
    (paths.get S path).1.canonicalizedPaths.Nodup := by
  rw [get]
  split
  · exact h
  · next canonicalized _ =>
    simp only [intern]
    split
    · exact h
    · next hnew =>
      rw [← concat_eq_append]
      exact h.concat hnew

theorem getAll_nodup (h : paths.canonicalizedPaths.Nodup) (strings : List Path) :
    (paths.getAll S strings).1.canonicalizedPaths.Nodup := by
  induction strings generalizing paths with
  | nil => exact h
  | cons path strings ih => exact ih (get_nodup h path)

theorem isSame_iff_of_getAll {strings : List Path} {p q : Path} {a b : PathObject}
    (ha : (p, .ok a) ∈ (getAll S {} strings).2) (hb : (q, .ok b) ∈ (getAll S {} strings).2) :
    a.isSame b = true ↔ (makeCanonicalizedPath S {} p).2 = (makeCanonicalizedPath S {} q).2 := by
  obtain ⟨canonicalized, hmake, haddress⟩ := getAll_spec (StatMemo.agrees_empty S) ha
  obtain ⟨canonicalized', hmake', haddress'⟩ := getAll_spec (StatMemo.agrees_empty S) hb
  rw [hmake, hmake', PathObject.isSame, beq_iff_eq]
  constructor
  · intro h
    rw [h] at haddress
    rw [Option.some.inj (haddress.symm.trans haddress')]
  · intro h
    cases h
    have hnodup := @getAll_nodup S {} nodup_nil strings
    have hlt := (List.getElem?_eq_some_iff.mp haddress).1
    exact (getElem?_inj hlt hnodup).mp (haddress.trans haddress'.symm)

end Paths
end Shuriken
