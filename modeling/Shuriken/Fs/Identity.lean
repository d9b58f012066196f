import Shuriken.Fs.Paths
import Shuriken.Fs.Tree

/-!
# The identity of paths

Path objects that are the same have the same directory to start from and the same canonicalized rest.
-/
namespace Shuriken
open Option List Names Lexical

namespace FileTree
variable {t : FileTree}

def stater (t : FileTree) : Stater where
  stat := t.stat
  lstat := t.lstat

theorem statOf_eq_zero {found : Option FileId} (h : (t.statOf found).result = 0) :
    ∃ i, found = some i ∧ FileId.ofStat (t.statOf found) = i ∧
      (sIsDir (t.statOf found).metadata.mode = true → t.isDirectory i = true) := by
  cases found with
  | none => exact absurd h (by simp [statOf, ENOENT])
  | some i =>
    refine ⟨i, rfl, rfl, fun hmode => ?_⟩
    rw [isDirectory]
    simp only [statOf, mode] at hmode
    cases hnode : t.node i with
    | directory => rfl
    | file =>
      rw [hnode] at hmode
      exact absurd hmode (by decide)
    | symlink =>
      rw [hnode] at hmode
      exact absurd hmode (by decide : ¬ sIsDir S_IFLNK = true)

theorem names_replicate_slash (n : Nat) (rest : Path) : names slash (replicate n slash ++ rest) = names slash rest := by
  induction n with
  | zero => rfl
  | succ n ih => rw [replicate_succ, cons_append, names_sep, ih]

variable {tried rest : Path} {n : Nat} {i : FileId} {path : Path} {stat : Stat}

section
variable (h : tried = [slash] ∨ tried.getLast? ≠ some slash ∧ n ≠ 0)
include h

theorem names_append_slashes :
    names slash (tried ++ replicate n slash ++ rest) = names slash tried ++ names slash rest := by
  rcases h with rfl | ⟨-, hn⟩
  · rw [append_assoc, singleton_append, names_sep, names_replicate_slash]
    rfl
  · obtain ⟨n, rfl⟩ := Nat.exists_eq_succ_of_ne_zero hn
    rw [append_assoc, replicate_succ, cons_append, names_append_sep, names_replicate_slash]

theorem components_append_slashes : components (tried ++ replicate n slash ++ rest) =
      names slash tried ++ if rest = [] then [dotName] else components rest := by
  rw [components, names_append_slashes h, append_assoc]
  congr 1
  by_cases hrest : rest = []
  · have hlast : (tried ++ replicate n slash ++ rest).getLast? = some slash := by
      rw [hrest, append_nil]
      cases n with
      | zero => rw [h.resolve_right fun h => h.2 rfl]; rfl
      | succ n => rw [replicate_succ', ← append_assoc, getLast?_concat]
    rw [hlast, hrest]
    rfl
  · rw [getLast?_append_of_ne_nil _ hrest, if_neg hrest, components]

end

theorem resolve_of_statNode (htried : tried = [slash] ∨ tried.getLast? ≠ some slash) (h : t.statNode tried = some i) :
    (names slash tried).foldlM t.resolve (t.start t.cwd tried) = some i := by
  rw [statNode] at h
  split at h
  · nomatch h
  · rcases htried with rfl | hlast
    · have hroot : t.resolve t.root dotName = some t.root := by
        obtain ⟨parent, entries, hnode⟩ := isDirectory_iff.mp t.root_directory
        rw [resolve, lookup, hnode]
        exact follow_of_isDirectory t.root_directory _ _
      have hresolve : t.resolve t.root dotName = some i := by
        simpa [components, names, dotName, start] using h
      exact hroot.symm.trans hresolve
    · rwa [components, if_neg hlast, append_nil] at h

theorem statNode_of_lstatNode (h : t.lstatNode path = some i) (hi : t.isDirectory i = true) :
    t.statNode path = some i := by
  rw [lstatNode] at h
  obtain ⟨name, hname, h⟩ := bind_eq_some_iff.mp h
  obtain ⟨dir, hresolve, hlookup⟩ := bind_eq_some_iff.mp h
  have hpath : path ≠ [] := by
    rintro rfl
    cases hname
  have hfollow : t.resolve dir name = some i := by
    rw [resolve, hlookup]
    exact follow_of_isDirectory hi _ _
  rw [statNode, if_neg hpath, ← dropLast_append_getLast? name hname, foldlM_append, hresolve]
  simpa using hfollow

theorem start_append {more : Path} (h : tried ≠ []) (dir : FileId) :
    t.start dir (tried ++ more) = t.start dir tried := by
  rw [start, start, head?_append_of_ne_nil _ h]

theorem place_of_resolve (htried : tried ≠ []) (h : tried = [slash] ∨ tried.getLast? ≠ some slash ∧ n ≠ 0)
    (hresolve : (names slash tried).foldlM t.resolve (t.start t.cwd tried) = some i) (hi : t.isDirectory i = true) :
    t.place (tried ++ replicate n slash ++ rest) = t.walk (i, []) (components rest) := by
  have hcomponents : ∀ {rest : Path}, rest ≠ [] → components rest ≠ [] := by
    intro rest hrest hnil
    obtain ⟨hnames, hlast⟩ := append_eq_nil_iff.mp hnil
    rw [if_pos] at hlast
    · nomatch hlast
    · rw [getLast?_eq_some_getLast hrest, eq_sep_of_names_eq_nil hnames (getLast_mem hrest)]
  have hpath : tried ++ replicate n slash ++ rest ≠ [] := by simp [htried]
  rw [place, if_neg hpath, components_append_slashes h, append_assoc, start_append htried,
    walk_append (enter_of_resolve hresolve hi)]
  · split
    · next hrest =>
      rw [hrest, show components [] = [] from rfl]
      exact show t.final (i, []) dotName = some (i, []) from entry_dotName _ hi
    · rfl
  · split
    · exact cons_ne_nil _ _
    · next hrest => exact hcomponents hrest

theorem lookup_dotName (h : t.isDirectory i = true) : t.lookup i dotName = some i := by
  obtain ⟨parent, entries, hnode⟩ := isDirectory_iff.mp h
  rw [lookup, hnode]
  rfl

theorem ofStat_dotName (h : stat = t.stater.stat dotName ∨ stat = t.stater.lstat dotName) :
    FileId.ofStat stat = t.cwd := by
  have hlookup := lookup_dotName t.cwd_directory
  have hresolve : t.resolve t.cwd dotName = some t.cwd := by
    rw [resolve, hlookup]
    exact follow_of_isDirectory t.cwd_directory _ _
  rcases h with rfl | rfl
  · show FileId.ofStat (t.statOf ((components dotName).foldlM t.resolve t.cwd)) = t.cwd
    rw [show components dotName = [dotName] from rfl, foldlM_cons, hresolve]
    rfl
  · show FileId.ofStat (t.statOf (t.lookup t.cwd dotName)) = t.cwd
    rw [hlookup]
    rfl

/-- The place that a path names is where the rest of it leads to, from what is found. -/
theorem place_of_found (hpath : path ≠ []) {rest : Bytes} (h : Found t.stater path stat rest) :
    t.place path = t.walk (FileId.ofStat stat, []) (components rest) ∧
      (rest ≠ [] → t.isDirectory (FileId.ofStat stat) = true) ∧ rest.head? ≠ some slash ∧
      rest <:+ path := by
  cases h with
  | @whole tried n hsplit htried hlast hresult hdir =>
    obtain ⟨i, hlstat, hi, hmode⟩ := statOf_eq_zero hresult
    refine ⟨?_, fun h => absurd rfl h, nofun, nil_suffix⟩
    rw [show FileId.ofStat (t.stater.lstat tried) = i from hi]
    cases n with
    | zero =>
      rw [hsplit, replicate_zero, append_nil]
      exact place_of_lstatNode hlstat
    | succ n =>
      have hdirectory := hmode (hdir n.succ_ne_zero)
      have hresolve := resolve_of_statNode hlast (statNode_of_lstatNode hlstat hdirectory)
      rw [hsplit, ← append_nil (tried ++ _)]
      exact place_of_resolve htried (hlast.imp_right (⟨·, n.succ_ne_zero⟩)) hresolve hdirectory
  | @below tried rest n hsplit htried hlast hhead hresult hdir =>
    obtain ⟨i, hstat, hi, hmode⟩ := statOf_eq_zero hresult
    have hdirectory := hmode hdir
    refine ⟨?_, fun _ => ?_, hhead, hsplit ▸ suffix_append _ _⟩
    · rw [hsplit, show FileId.ofStat (t.stater.stat tried) = i from hi]
      exact place_of_resolve htried hlast (resolve_of_statNode (hlast.imp_right And.left) hstat) hdirectory
    · exact hi ▸ hdirectory
  | relative hhead hdot hresult =>
    have hcwd := ofStat_dotName hdot
    refine ⟨?_, fun _ => hcwd ▸ t.cwd_directory, hhead, suffix_rfl⟩
    rw [place, if_neg hpath, start, if_neg hhead, hcwd]

def SameFile (t : FileTree) (p q : Path) : Prop := ∃ i, t.lstatNode p = some i ∧ t.lstatNode q = some i

/-- They name the same entry, when the missing directories have been created. -/
def SameEntry (t : FileTree) (p q : Path) : Prop := ∃ place, t.place p = some place ∧ t.place q = some place

/-- The directory at which the part of a path starts that does not exist, and this part. -/
def missing (t : FileTree) (path : Path) : Option (FileId × Bytes) :=
  (nonexistingPart t.stater {} path).2.toOption.map fun found => (FileId.ofStat found.1, found.2)

/-- No link is followed in the part that does not exist, when the missing directories have been created. -/
def PlainBelow (t : FileTree) (path : Path) : Prop :=
  ∀ found ∈ t.missing path, t.PlainWalk (found.1, []) (components found.2)

instance (path : Path) : Decidable (t.PlainBelow path) := inferInstanceAs (Decidable (∀ found ∈ t.missing path, _))

theorem SameFile.sameEntry {p q : Path} (h : t.SameFile p q) : t.SameEntry p q := by
  obtain ⟨i, hp, hq⟩ := h
  exact ⟨(i, []), place_of_lstatNode hp, place_of_lstatNode hq⟩

theorem missing_spec {canonicalized : CanonicalizedPath}
    (h : (makeCanonicalizedPath t.stater {} path).2 = .ok canonicalized) :
    ∃ rest, t.missing path = some (⟨canonicalized.ino, canonicalized.dev⟩, rest) ∧
      canonicalizeInPlace rest = .ok canonicalized.path ∧
      t.place path = t.walk (⟨canonicalized.ino, canonicalized.dev⟩, []) (components rest) ∧
      (rest ≠ [] → t.isDirectory ⟨canonicalized.ino, canonicalized.dev⟩ = true) ∧
      rest.head? ≠ some slash ∧ rest <:+ path := by
  rw [makeCanonicalizedPath] at h
  have hfound := @nonexistingPart_found t.stater path {} (StatMemo.agrees_empty _)
  rw [missing]
  split at h
  · cases h
  · next stat rest heq =>
    rw [heq] at hfound ⊢
    obtain ⟨hpath, hfound⟩ := hfound rfl
    obtain ⟨result, hresult, rfl⟩ := Except.map_eq_ok.mp h
    exact ⟨rest, rfl, hresult, place_of_found hpath hfound⟩

/-- Walks that follow no link lead to the same place when the canonicalized rests are the same. -/
theorem walk_congr {dir : FileId} {rest₁ rest₂ canonicalized : Bytes} (hdir₁ : rest₁ ≠ [] → t.isDirectory dir = true)
    (hdir₂ : rest₂ ≠ [] → t.isDirectory dir = true) (hzero₁ : 0 ∉ rest₁) (hzero₂ : 0 ∉ rest₂)
    (h₁ : canonicalizeInPlace rest₁ = .ok canonicalized) (h₂ : canonicalizeInPlace rest₂ = .ok canonicalized)
    (hplain₁ : t.PlainWalk (dir, []) (components rest₁)) (hplain₂ : t.PlainWalk (dir, []) (components rest₂)) :
    ∃ place, t.walk (dir, []) (components rest₁) = some place ∧ t.walk (dir, []) (components rest₂) = some place := by
  have hform : ∀ rest : Bytes, form dotName dotDotName (components rest) =
      form dotName dotDotName (names slash rest) := by
    intro rest
    rw [components]
    split
    · rw [form_append_singleton, step_here]
    · rw [append_nil]
  have hcomponents : ∀ {rest : Bytes}, components rest ≠ [] → rest ≠ [] := by
    rintro rest h rfl
    exact h rfl
  have hwritten := (names_canonicalizeInPlace hzero₁ h₁).symm.trans
    (names_canonicalizeInPlace hzero₂ h₂)
  have hforms := written_injective (proper_of_mem_form _) (proper_of_mem_form _) hwritten
  obtain ⟨place₁, hwalk₁, hfollow₁⟩ := walk_of_plainWalk (fun h => hdir₁ (hcomponents h)) hplain₁
  obtain ⟨place₂, hwalk₂, hfollow₂⟩ := walk_of_plainWalk (fun h => hdir₂ (hcomponents h)) hplain₂
  rw [hform, hforms, ← hform] at hfollow₁
  cases hfollow₁.symm.trans hfollow₂
  exact ⟨place₁, hwalk₁, hwalk₂⟩

end FileTree

def linkedTree : FileTree where
  node i :=
    if i = ⟨1, 1⟩ then .directory ⟨1, 1⟩ [([101], ⟨2, 1⟩), ([103], ⟨4, 1⟩)]
    else if i = ⟨2, 1⟩ then .directory ⟨1, 1⟩ [([102], ⟨3, 1⟩)]
    else if i = ⟨3, 1⟩ then .directory ⟨2, 1⟩ []
    else if i = ⟨4, 1⟩ then .symlink [101, 47, 102]
    else .file
  root := ⟨1, 1⟩
  cwd := ⟨1, 1⟩
  links := 1
  root_directory := rfl
  cwd_directory := rfl
  parent_directory {i parent entries} h := by
    split at h
    · cases h; rfl
    · split at h
      · cases h; rfl
      · split at h
        · cases h; rfl
        · split at h <;> cases h
  parent_of_entry {i parent entries name j parent' entries'} h hlookup hj := by
    obtain ⟨l₁, l₂, hentries, -⟩ := lookup_eq_some_iff.mp hlookup
    have hmem : (name, j) ∈ entries := hentries ▸ mem_append_right _ mem_cons_self
    split at h
    · next hi =>
      cases h
      rcases mem_cons.mp hmem with hmem | hmem
      · cases hmem
        cases hj
        exact hi.symm
      · obtain ⟨rfl, rfl⟩ := Prod.mk.inj (mem_singleton.mp hmem)
        cases hj
    · split at h
      · next hi =>
        cases h
        obtain ⟨rfl, rfl⟩ := Prod.mk.inj (mem_singleton.mp hmem)
        cases hj
        exact hi.symm
      · split at h
        · cases h
          nomatch hmem
        · split at h <;> cases h

/-- The path `e/x/../h`. -/
def upBelow : Path := [101, 47, 120, 47, 46, 46, 47, 104]

/-- The path `x/../g/../h`. -/
def upBeside : Path := [120, 47, 46, 46, 47, 103, 47, 46, 46, 47, 104]

def objectsBelow : List (Path × Except PathError PathObject) :=
  (Paths.getAll linkedTree.stater {} [upBelow, [101, 47, 104]]).2

def objectsBeside : List (Path × Except PathError PathObject) :=
  (Paths.getAll linkedTree.stater {} [upBeside, [104]]).2

/-- A link that both paths follow is harmless: `x/../g/h` and `y/../g/h`. -/
example : linkedTree.place [120, 47, 46, 46, 47, 103, 47, 104] = some (⟨3, 1⟩, [[104]]) ∧
    linkedTree.place [121, 47, 46, 46, 47, 103, 47, 104] = some (⟨3, 1⟩, [[104]]) ∧
    ¬ linkedTree.PlainBelow [120, 47, 46, 46, 47, 103, 47, 104] := by
  decide +kernel

end Shuriken
