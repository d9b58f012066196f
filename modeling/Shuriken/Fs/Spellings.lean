import Shuriken.Fs.Identity
import Shuriken.Fs.NormalForm

/-!
# Spellings of a path

When there are no links, a path means what its normal form means.
-/
namespace Shuriken
open Option Except List Names Lexical

/-- The part of the path that ends with the name after a position was not found. -/
structure FailsAt (S : Stater) (path : Path) (k : Nat) (name : Name) (after : Bytes) : Prop where
  starts : path.take k = [] ∨ (path.take k).getLast? = some slash
  split : path.drop k = name ++ after
  isName : IsName slash name
  ends : after.head?.getD slash = slash
  fails : (S.stat (path.take k ++ name)).result ≠ 0 ∨ (S.lstat (path.take k ++ name)).result ≠ 0

theorem take_skipName {path : Path} {pos : Nat} (hpos : pos < path.length) :
    ∃ name, path.take (pos + 1) = path.take (if (skipName path pos).2 then 0 else (skipName path pos).1 + 1) ++ name ∧
      slash ∉ name := by
  induction pos with
  | zero =>
    rw [skipName]
    by_cases hslash : path[0]? = some slash
    · exact ⟨[], by simp [hslash], not_mem_nil⟩
    · refine ⟨path.take 1, by simp [hslash], fun hmem => hslash ?_⟩
      obtain ⟨c, path, rfl⟩ := exists_cons_of_length_pos hpos
      rw [take_one, head?_cons] at hmem
      rw [mem_singleton.mp hmem]
      rfl
  | succ pos ih =>
    rw [skipName]
    split
    · next hslash =>
      obtain ⟨name, hname, hmem⟩ := ih (Nat.lt_of_succ_lt hpos)
      refine ⟨name ++ [path[pos + 1]], ?_, fun h => ?_⟩
      · rw [take_succ_eq_append_getElem hpos, hname, append_assoc]
      · rcases mem_append.mp h with h | h
        · exact hmem h
        · refine hslash ?_
          rw [getElem?_eq_getElem hpos, mem_singleton.mp h]
    · exact ⟨[], by simp, not_mem_nil⟩

/-- A part of the path that was not found ends with a name. -/
theorem failsAt_skipName {S : Stater} {path : Path} {pos : Nat} (hpos : pos < path.length)
    (hslash : pos = path.length - 1 ∨ path[pos]? = some slash) (hroot : (skipSlashes path pos).2 = false)
    (hfails : (S.stat (path.take ((skipSlashes path pos).1 + 1))).result ≠ 0 ∨
      (S.lstat (path.take ((skipSlashes path pos).1 + 1))).result ≠ 0) :
    ∃ name after, FailsAt S path (if (skipName path (skipSlashes path pos).1).2 then 0
      else (skipName path (skipSlashes path pos).1).1 + 1) name after := by
  obtain ⟨⟨n, htake⟩, hle, hif⟩ := skipSlashes_spec path pos
  rw [hroot] at hif
  generalize (skipSlashes path pos).1 = pos₁ at htake hle hif hfails ⊢
  have hlt : pos₁ < path.length := lt_of_le_of_lt hle hpos
  obtain ⟨name, hname, hmem⟩ := take_skipName hlt
  obtain ⟨hle', hif'⟩ := skipName_spec path pos₁
  generalize skipName path pos₁ = skipped at hname hle' hif' ⊢
  obtain ⟨pos₂, atRelativeRoot⟩ := skipped
  simp only at hname hle' hif' ⊢
  generalize hk : (if atRelativeRoot = true then 0 else pos₂ + 1) = k at hname ⊢
  have hsplit : path = path.take k ++ (name ++ path.drop (pos₁ + 1)) := by
    rw [← append_assoc, ← hname, take_append_drop]
  have hk' : (path.take k).length = k := by
    rw [length_take]
    split at hk <;> omega
  refine ⟨name, path.drop (pos₁ + 1), ?_, ?_, ⟨?_, hmem⟩, ?_, hname ▸ hfails⟩
  · cases atRelativeRoot with
    | true =>
      simp only [if_true] at hk
      exact .inl (hk ▸ take_zero)
    | false =>
      simp only [Bool.false_eq_true, if_false] at hk hif'
      right
      rw [← hk, take_add_one, hif']
      exact getLast?_concat
  · conv_lhs => rw [hsplit]
    rw [drop_left' hk']
  · -- the last byte of the name is no slash
    rintro rfl
    have hlengths := congrArg length hname
    rw [append_nil, hk', length_take] at hlengths
    cases atRelativeRoot with
    | true =>
      simp only [if_true] at hk
      omega
    | false =>
      simp only [Bool.false_eq_true, if_false] at hk hif'
      obtain rfl : pos₂ = pos₁ := by omega
      exact hif hif'
  · cases n with
    | zero =>
      have hpos₁ : pos₁ = pos := by
        have hlengths := congrArg length htake
        simp only [replicate_zero, append_nil, length_take] at hlengths
        omega
      rcases hslash with hend | hslash
      · rw [drop_eq_nil_of_le (by omega)]
        rfl
      · exact absurd (hpos₁ ▸ hslash) hif
    | succ n =>
      have hnext : path[pos₁ + 1]? = some slash := by
        have hlengths := congrArg length htake
        simp only [length_append, length_take, length_replicate] at hlengths
        rw [← getElem?_take_of_lt (show pos₁ + 1 < pos + 1 by omega), htake,
          getElem?_append_right (by simp), length_take, getElem?_replicate]
        exact if_pos (by omega)
      rw [head?_drop, hnext]
      rfl

theorem restAt_of_take {path : Path} {pos pos₁ n : Nat} (hpos : pos < path.length) (hle : pos₁ ≤ pos)
    (htake : path.take (pos + 1) = path.take (pos₁ + 1) ++ replicate n slash)
    (hhead : (path.drop (pos + 1)).head? ≠ some slash) : restAt path pos₁ false = path.drop (pos + 1) := by
  have hdrop : path.drop (pos₁ + 1) = replicate n slash ++ path.drop (pos + 1) := by
    have hsplit : path = path.take (pos₁ + 1) ++ (replicate n slash ++ path.drop (pos + 1)) := by
      rw [← append_assoc, ← htake, take_append_drop]
    conv_lhs => rw [hsplit]
    rw [drop_left' (by rw [length_take]; omega)]
  rw [restAt, if_neg Bool.false_ne_true, hdrop, dropWhile_append_of_pos (by simp)]
  cases hrest : path.drop (pos + 1) with
  | nil => rfl
  | cons c rest =>
    rw [hrest] at hhead
    exact dropWhile_cons_of_neg (by simpa using hhead)

/-- When something is left, the name that it starts with was not found. -/
theorem findExisting_fails {S : Stater} {path : Path} {rounds : Nat} {memo : StatMemo}
    (hmemo : memo.Agrees S) {pos : Nat} (hpos : pos < path.length) {atRelativeRoot : Bool}
    (hinv : if atRelativeRoot then pos = 0 ∧ path[0]? ≠ some slash
      else pos = path.length - 1 ∨ path[pos]? = some slash)
    (hfails : pos = path.length - 1 ∧ atRelativeRoot = false ∨
      ∃ name after, FailsAt S path (if atRelativeRoot then 0 else pos + 1) name after)
    {stat : Stat} {pos' : Nat} {atRelativeRoot' : Bool}
    (h : (findExisting S path rounds memo pos atRelativeRoot).2 = .ok (stat, pos', atRelativeRoot')) :
    restAt path pos' atRelativeRoot' = [] ∨ ∃ k name after, FailsAt S path k name after ∧
      restAt path pos' atRelativeRoot' = path.drop k := by
  induction rounds generalizing memo pos atRelativeRoot with
  | zero => cases h
  | succ rounds ih =>
    simp only [findExisting] at h
    have hcall := Stater.call_spec hmemo (pos == path.length - 1)
      (if atRelativeRoot = true then dotName else path.take ((skipSlashes path pos).1 + 1))
    generalize S.call (pos == path.length - 1) memo
      (if atRelativeRoot = true then dotName else path.take ((skipSlashes path pos).1 + 1)) = called at h hcall
    obtain ⟨hstat, hmemo⟩ := hcall
    split at h
    · split at h
      · cases h
      · obtain ⟨rfl, rfl, rfl⟩ : called.1 = stat ∧ (skipSlashes path pos).1 = pos' ∧
            atRelativeRoot = atRelativeRoot' := by simpa using h
        obtain ⟨⟨n, htake⟩, hle, -⟩ := skipSlashes_spec path pos
        rcases hfails with ⟨hend, rfl⟩ | ⟨name, after, hfails⟩
        · -- the whole path was found
          have hnil : path.drop (pos + 1) = [] := drop_eq_nil_of_le (by omega)
          exact .inl ((restAt_of_take hpos hle htake (by simp [hnil])).trans hnil)
        · refine .inr ⟨_, name, after, hfails, ?_⟩
          cases atRelativeRoot with
          | true =>
            obtain ⟨rfl, -⟩ := hinv
            rw [restAt, if_pos rfl, if_pos rfl, Nat.le_zero.mp hle]
          | false =>
            refine restAt_of_take hpos hle htake fun hhead => ?_
            obtain ⟨c, name, rfl⟩ := exists_cons_of_ne_nil hfails.isName.1
            rw [show path.drop (pos + 1) = _ from hfails.split] at hhead
            exact hfails.isName.2 (some.inj hhead ▸ mem_cons_self)
    · next hresult =>
      split at h
      · cases h
      · next hroot =>
        obtain ⟨hatRoot, rfl⟩ : (skipSlashes path pos).2 = false ∧ atRelativeRoot = false := by
          simpa using hroot
        obtain ⟨hle, hif⟩ := skipName_spec path (skipSlashes path pos).1
        have hle' := (skipSlashes_spec path pos).2.1
        refine ih hmemo (by omega) ?_ (.inr (failsAt_skipName hpos hinv hatRoot ?_)) h
        · split
          · next hrelative => rwa [if_pos hrelative] at hif
          · next hrelative =>
            rw [if_neg hrelative] at hif
            exact .inr hif
        · rw [hstat] at hresult
          simp only [Bool.false_eq_true, if_false] at hresult
          split at hresult
          · exact .inr hresult
          · exact .inl hresult

variable {rest : Bytes}

theorem nonexistingPart_fails {S : Stater} {path : Path} {stat : Stat}
    (h : (nonexistingPart S {} path).2 = .ok (stat, rest)) :
    rest = [] ∨ ∃ k name after, FailsAt S path k name after ∧ rest = path.drop k := by
  rw [nonexistingPart] at h
  split at h
  · cases h
  · next hpath =>
    have hpos : path.length - 1 < path.length := Nat.sub_lt (length_pos_of_ne_nil hpath) Nat.one_pos
    have hfails := @findExisting_fails S path (path.length + 1) {} (StatMemo.agrees_empty S) (path.length - 1) hpos
      false (.inl rfl) (.inl ⟨rfl, rfl⟩)
    split at h
    · cases h
    · next heq =>
      cases h
      exact hfails (congrArg Prod.snd heq)

namespace FileTree
variable {t : FileTree}

def NoSymlinks (t : FileTree) : Prop := ∀ i target, t.node i ≠ .symlink target

/-- The missing part leads to something that is missing in the directory that was found, or to the
directory itself. -/
def Settled (t : FileTree) (path : Path) : Prop :=
  ∃ dir rest, t.missing path = some (dir, rest) ∧ (pathForm rest).1 = 0 ∧
    ∀ name ∈ (pathForm rest).2.getLast?, t.lookup dir name = none

section
variable (hlinks : t.NoSymlinks)
include hlinks

theorem NoSymlinks.follow_eq (links : Nat) (dir i : FileId) : t.follow links dir i = some i := by
  rw [follow]
  split
  · next target hnode => exact absurd hnode (hlinks i target)
  · rfl

theorem NoSymlinks.resolve_eq (i : FileId) (name : Name) : t.resolve i name = t.lookup i name := by
  rw [resolve]
  cases t.lookup i name with
  | none => rfl
  | some j => exact hlinks.follow_eq _ _ _

theorem NoSymlinks.enter_eq : t.enter = t.plainEnter := by
  rw [enter, plainEnter]
  congr 1
  funext i j
  rw [hlinks.follow_eq]
  rfl

theorem NoSymlinks.statNode_eq {path : Path} {i : FileId} (h : t.lstatNode path = some i) :
    t.statNode path = some i := by
  rw [lstatNode] at h
  obtain ⟨name, hname, h⟩ := bind_eq_some_iff.mp h
  obtain ⟨dir, hresolve, hlookup⟩ := bind_eq_some_iff.mp h
  have hpath : path ≠ [] := by
    rintro rfl
    cases hname
  rw [statNode, if_neg hpath, ← dropLast_append_getLast? name hname, foldlM_append, hresolve]
  simpa [hlinks.resolve_eq] using hlookup

theorem NoSymlinks.found_leads {path : Path} {stat : Stat} (h : Found t.stater path stat rest) :
    ∃ ns, names slash path = ns ++ names slash rest ∧
      ns.foldlM t.resolve (t.start t.cwd path) = some (FileId.ofStat stat) := by
  cases h with
  | @whole tried n hsplit htried hlast hresult =>
    obtain ⟨i, hlstat, hi, -⟩ := statOf_eq_zero hresult
    refine ⟨names slash tried, ?_, ?_⟩
    · rw [hsplit, names_nil, append_nil]
      cases n with
      | zero => rw [replicate_zero, append_nil]
      | succ n =>
        rw [← append_nil (tried ++ _), names_append_slashes (hlast.imp_right (⟨·, n.succ_ne_zero⟩)),
          names_nil, append_nil]
    · rw [show FileId.ofStat (t.stater.lstat tried) = i from hi, hsplit, start_append htried]
      exact resolve_of_statNode hlast (hlinks.statNode_eq hlstat)
  | @below tried rest n hsplit htried hlast hhead hresult =>
    obtain ⟨i, hstat, hi, -⟩ := statOf_eq_zero hresult
    refine ⟨names slash tried, hsplit ▸ names_append_slashes hlast, ?_⟩
    rw [show FileId.ofStat (t.stater.stat tried) = i from hi, hsplit, append_assoc, start_append htried]
    exact resolve_of_statNode (hlast.imp_right And.left) hstat
  | relative hhead hdot hresult =>
    refine ⟨[], rfl, ?_⟩
    rw [ofStat_dotName hdot, start, if_neg hhead]
    rfl

end

/-- Where the normal form of a path leads from the root, when the path is made absolute. -/
def target (t : FileTree) (cwd path : Path) : Option Place :=
  Lexical.follow t.plainEnter t.final t.above (t.root, []) (pathForm (joinPath cwd path))

variable {dir : FileId}

theorem leads_missing (hdir : t.isDirectory dir = true) {f : Form Name}
    (hf : Leads t.plainEnter t.above (t.root, []) f (dir, [])) {entered : List Name}
    (hproper : ∀ name ∈ entered, Proper dotName dotDotName name)
    (hmissing : ∀ name ∈ entered.getLast?, t.lookup dir name = none) :
    Leads t.plainEnter t.above (t.root, []) (f.1, entered ++ f.2) (dir, entered) := by
  obtain ⟨parent, entries, hnode⟩ := isDirectory_iff.mp hdir
  induction entered with
  | nil => exact hf
  | cons name entered ih =>
    obtain ⟨hname, hproper⟩ := forall_mem_cons.mp hproper
    refine leads_cons.mpr ⟨(dir, entered), ?_, ?_⟩
    · refine ih hproper fun name' hname' => hmissing name' ?_
      rw [getLast?_cons, mem_def.mp hname']
      rfl
    · cases entered with
      | nil =>
        have hnone := hmissing name rfl
        rw [lookup, hnode] at hnone
        simp only [if_neg hname.1, if_neg hname.2] at hnone
        rw [plainEnter, entry, hnode]
        simp only [if_neg hname.1, if_neg hname.2, hnone]
      | cons top below => rw [plainEnter, entry, if_neg hname.1, if_neg hname.2]

theorem found_of_missing {path : Path} (h : t.missing path = some (dir, rest)) :
    ∃ stat, FileId.ofStat stat = dir ∧ path ≠ [] ∧ Found t.stater path stat rest := by
  obtain ⟨⟨stat, rest'⟩, hpart, hpair⟩ := map_eq_some_iff.mp h
  cases hpair
  exact ⟨stat, rfl, nonexistingPart_found (StatMemo.agrees_empty _) (toOption_eq_some.mp hpart)⟩

theorem NoSymlinks.missing_leads (hlinks : t.NoSymlinks) {cwd path : Path}
    (hcwd : (names slash cwd).foldlM t.resolve t.root = some t.cwd) (h : t.missing path = some (dir, rest)) :
    ∃ ns, names slash (joinPath cwd path) = ns ++ names slash rest ∧
      ns.foldlM t.resolve t.root = some dir ∧ (rest ≠ [] → t.isDirectory dir = true) := by
  obtain ⟨stat, rfl, hpath, hfound⟩ := found_of_missing h
  obtain ⟨ns, hnames, hleads⟩ := hlinks.found_leads hfound
  refine ⟨(if path.head? = some slash then [] else names slash cwd) ++ ns, ?_, ?_, (place_of_found hpath hfound).2.1⟩
  · rw [names_joinPath, hnames, append_assoc]
  · rw [foldlM_append]
    rw [start] at hleads
    split
    · next habsolute =>
      rw [if_pos habsolute] at hleads
      exact hleads
    · next hrelative =>
      rw [if_neg hrelative] at hleads
      rw [hcwd]
      exact hleads

/-- The object of a path that is settled is where its normal form leads. -/
theorem NoSymlinks.target_of_settled (hlinks : t.NoSymlinks) {cwd path : Path}
    (hcwd : (names slash cwd).foldlM t.resolve t.root = some t.cwd) (hmissing : t.missing path = some (dir, rest))
    (hups : (pathForm rest).1 = 0) (hfirst : ∀ name ∈ (pathForm rest).2.getLast?, t.lookup dir name = none) :
    t.target cwd path = some (dir, (pathForm rest).2) := by
  obtain ⟨ns, hnames, hleads, hrest⟩ := hlinks.missing_leads hcwd hmissing
  have hroot : t.isDirectory (t.root, ([] : List Name)).1 = true := t.root_directory
  rw [target, pathForm, hnames]
  by_cases hdir : t.isDirectory dir = true
  · have henter := enter_of_resolve hleads hdir
    rw [hlinks.enter_eq] at henter
    rw [form, foldl_append, foldl_step_of_form hups]
    exact t.reversible.follow_of_leads (leads_missing hdir (t.reversible.leads_form hroot henter)
      (proper_of_mem_pathForm rest) hfirst)
  · -- a file that exists, named by the last name
    obtain rfl : rest = [] := by
      by_contra hne
      exact hdir (hrest hne)
    rw [names_nil, append_nil]
    rcases eq_nil_or_concat' ns with rfl | ⟨init, last, rfl⟩
    · exact absurd (some.inj hleads ▸ t.root_directory) hdir
    · rw [foldlM_append] at hleads
      obtain ⟨middle, hmiddle, hlast⟩ := bind_eq_some_iff.mp hleads
      have hlookup : t.lookup middle last = some dir := by
        rw [← hlinks.resolve_eq]
        simpa using hlast
      have henter := enter_of_resolve hmiddle (isDirectory_of_lookup hlookup)
      rw [hlinks.enter_eq] at henter
      exact t.reversible.follow_form hroot henter
        (@entry_of_lookup t (fun _ j => some j) middle dir dir last hlookup (fun _ _ => rfl) rfl)

theorem names_append_of_ends {text more : Path} (h : text = [] ∨ text.getLast? = some slash) :
    names slash (text ++ more) = names slash text ++ names slash more := by
  rcases h with rfl | hslash
  · rfl
  · obtain ⟨text, rfl⟩ := getLast?_eq_some_iff.mp hslash
    rw [append_assoc, singleton_append, names_append_sep, names_append_singleton_sep]

theorem components_of_isName {text : Path} {name : Name} (h : IsName slash name)
    (htext : text = [] ∨ text.getLast? = some slash) : components (text ++ name) = names slash text ++ [name] := by
  have hlast : (text ++ name).getLast? ≠ some slash := by
    rw [getLast?_append_of_ne_nil _ h.1]
    intro hslash
    exact h.2 (mem_of_getLast? hslash)
  rw [components, if_neg hlast, append_nil, names_append_of_ends htext, names_of_isName h]

/-- The name at which the search stops is missing in the directory that was found. -/
theorem NoSymlinks.lookup_first (hlinks : t.NoSymlinks) {path : Path} (h : t.missing path = some (dir, rest))
    (hrest : rest ≠ []) : ∃ name ns, names slash rest = name :: ns ∧ t.lookup dir name = none := by
  obtain ⟨stat, rfl, hpath, hfound⟩ := found_of_missing h
  obtain ⟨⟨stat', rest'⟩, hpart, hpair⟩ := map_eq_some_iff.mp h
  obtain ⟨-, rfl⟩ := Prod.mk.inj hpair
  obtain ⟨k, name, after, hfails, rfl⟩ := (nonexistingPart_fails (toOption_eq_some.mp hpart)).resolve_left hrest
  obtain ⟨ns, hnames, hleads⟩ := hlinks.found_leads hfound
  refine ⟨name, names slash (after.drop 1), ?_, ?_⟩
  · rw [hfails.split, names_append_of_isName hfails.isName hfails.ends]
  · have hns : ns = names slash (path.take k) := by
      have hsplit := @names_append_of_ends _ (path.drop k) hfails.starts
      rw [take_append_drop, hnames] at hsplit
      exact append_cancel_right hsplit
    have hcomponents := components_of_isName hfails.isName hfails.starts
    have htried : path.take k ++ name ≠ [] := by simp [hfails.isName.1]
    have hstart : t.start t.cwd (path.take k ++ name) = t.start t.cwd path := by
      rw [← @start_append t _ after htried, append_assoc, ← hfails.split, take_append_drop]
    by_contra hfound
    obtain ⟨j, hj⟩ := ne_none_iff_exists'.mp hfound
    have hlstat : t.lstatNode (path.take k ++ name) = some j := by
      rw [lstatNode, hcomponents, getLast?_concat, dropLast_concat, hstart, ← hns, bind_some, hleads]
      exact hj
    have hstat := hlinks.statNode_eq hlstat
    rcases hfails.fails with hresult | hresult
    · refine hresult (show (t.statOf (t.statNode (path.take k ++ name))).result = 0 from ?_)
      rw [hstat]
      rfl
    · refine hresult (show (t.statOf (t.lstatNode (path.take k ++ name))).result = 0 from ?_)
      rw [hlstat]
      rfl

theorem NoSymlinks.settled (hlinks : t.NoSymlinks) {path : Path}
    (h : t.missing path = some (dir, rest)) (hup : dotDotName ∉ names slash rest) : t.Settled path := by
  have hform : pathForm rest = (0, ((names slash rest).filter (· ≠ dotName)).reverse) := form_of_not_mem hup
  refine ⟨dir, rest, h, congrArg Prod.fst hform, ?_⟩
  intro name hname
  rw [hform, getLast?_reverse] at hname
  by_cases hrest : rest = []
  · rw [hrest] at hname
    nomatch hname
  · obtain ⟨stat, rfl, hpath, hfound⟩ := found_of_missing h
    obtain ⟨first, ns, hnames, hfirst⟩ := hlinks.lookup_first h hrest
    have hne : first ≠ dotName := by
      rintro rfl
      rw [lookup_dotName ((place_of_found hpath hfound).2.1 hrest)] at hfirst
      nomatch hfirst
    rw [hnames, filter_cons_of_pos (by simpa using hne)] at hname
    exact some.inj hname ▸ hfirst

end FileTree

def plainTree : FileTree where
  node i :=
    if i = ⟨1, 1⟩ then .directory ⟨1, 1⟩ [([101], ⟨2, 1⟩)]
    else if i = ⟨2, 1⟩ then .directory ⟨1, 1⟩ []
    else .file
  root := ⟨1, 1⟩
  cwd := ⟨1, 1⟩
  links := 0
  root_directory := rfl
  cwd_directory := rfl
  parent_directory {i parent entries} h := by
    split at h
    · cases h; rfl
    · split at h
      · cases h; rfl
      · cases h
  parent_of_entry {i parent entries name j parent' entries'} h hlookup hj := by
    obtain ⟨l₁, l₂, hentries, -⟩ := lookup_eq_some_iff.mp hlookup
    have hmem : (name, j) ∈ entries := hentries ▸ mem_append_right _ mem_cons_self
    split at h
    · next hi =>
      cases h
      obtain ⟨rfl, rfl⟩ := Prod.mk.inj (mem_singleton.mp hmem)
      cases hj
      exact hi.symm
    · split at h
      · cases h
        nomatch hmem
      · cases h

theorem plainTree_noSymlinks : plainTree.NoSymlinks := by
  intro i target h
  simp only [plainTree] at h
  split at h
  · cases h
  · split at h <;> cases h

def objectsPlain : List (Path × Except PathError PathObject) :=
  (Paths.getAll plainTree.stater {} [[101, 47, 46, 47, 104], [47, 101, 47, 47, 104]]).2

def objectsBack : List (Path × Except PathError PathObject) :=
  (Paths.getAll plainTree.stater {} [[120, 47, 46, 46, 47, 101, 47, 104], [101, 47, 104]]).2

end Shuriken
