import Shuriken.Fs.Canonical

/-!
# Directories, links and what paths name

A tree of directories with symbolic links and hard links, and how paths are resolved in it.
-/
namespace Shuriken
open Option Names Lexical List

inductive Node where
  | file
  | symlink (target : Path)
  | directory (parent : FileId) (entries : List (Name × FileId))

def Node.isDirectory : Node → Bool
  | .directory .. => true
  | _ => false

/-- The names of a path. A path that ends with a slash names a directory, as if a dot followed. -/
def components (path : Path) : List Name := names slash path ++ if path.getLast? = some slash then [dotName] else []

/-- Files are identified by inode and device, so that a file with two entries has two hard links.
Links are followed to the depth `links`. -/
structure FileTree where
  node : FileId → Node
  root : FileId
  cwd : FileId
  links : Nat
  root_directory : (node root).isDirectory = true
  cwd_directory : (node cwd).isDirectory = true
  parent_directory : ∀ {i parent entries}, node i = .directory parent entries → (node parent).isDirectory = true
  /-- There are no hard links to directories. -/
  parent_of_entry : ∀ {i parent entries name j parent' entries'}, node i = .directory parent entries →
    entries.lookup name = some j → node j = .directory parent' entries' → parent' = i

namespace FileTree
variable (t : FileTree)

def isDirectory (i : FileId) : Bool := (t.node i).isDirectory

def start (dir : FileId) (path : Path) : FileId := if path.head? = some slash then t.root else dir

def lookup (i : FileId) (name : Name) : Option FileId :=
  match t.node i with
  | .directory parent entries =>
    if name = dotName then some i
    else if name = dotDotName then some parent
    else entries.lookup name
  | _ => none

def follow : Nat → FileId → FileId → Option FileId
  | links, dir, i =>
    match t.node i with
    | .symlink target =>
      match links with
      | 0 => none
      | links + 1 =>
        (components target).foldlM (fun i name => (t.lookup i name).bind (follow links i))
          (t.start dir target)
    | _ => some i

def resolve (i : FileId) (name : Name) : Option FileId := (t.lookup i name).bind (t.follow t.links i)

def statNode (path : Path) : Option FileId :=
  if path = [] then none else (components path).foldlM t.resolve (t.start t.cwd path)

def lstatNode (path : Path) : Option FileId := (components path).getLast?.bind fun name =>
    ((components path).dropLast.foldlM t.resolve (t.start t.cwd path)).bind (t.lookup · name)

def mode (i : FileId) : UInt32 :=
  match t.node i with
  | .file => S_IFREG
  | .symlink _ => S_IFLNK
  | .directory .. => S_IFDIR

def statOf : Option FileId → Stat
  | none => { result := ENOENT }
  | some i => { metadata := { mode := t.mode i, ino := i.ino, dev := i.dev } }

def stat (path : Path) : Stat := t.statOf (t.statNode path)

def lstat (path : Path) : Stat := t.statOf (t.lstatNode path)

/-- A node, or else a name below a directory that is there, the last name first. -/
abbrev Place := FileId × List Name

/-- The place that a name leads to, when `found` tells what an entry leads to. Missing directories
are created. -/
def entry (found : FileId → FileId → Option FileId) : Place → Name → Option Place
  | (i, []), name =>
    match t.node i with
    | .directory parent entries =>
      if name = dotName then some (i, [])
      else if name = dotDotName then some (parent, [])
      else
        match entries.lookup name with
        | none => some (i, [name])
        | some j => (found i j).map (·, [])
    | _ => none
  | (i, top :: below), name =>
    if name = dotName then some (i, top :: below)
    else if name = dotDotName then some (i, below)
    else some (i, name :: top :: below)

def enter : Place → Name → Option Place := t.entry fun i j => (t.follow t.links i j).filter (t.isDirectory ·)

/-- The last name of a path names an entry, whatever it is. -/
def final : Place → Name → Option Place := t.entry fun _ j => some j

def walk (place : Place) (names : List Name) : Option Place :=
  match names.getLast? with
  | none => some place
  | some name => (names.dropLast.foldlM t.enter place).bind (t.final · name)

/-- The place that a path names when every missing directory in it has been created. -/
def place (path : Path) : Option Place :=
  if path = [] then none else t.walk (t.start t.cwd path, []) (components path)

def plainEnter : Place → Name → Option Place := t.entry fun _ j => if t.isDirectory j then some j else none

def PlainWalk (place : Place) (names : List Name) : Prop := (names.dropLast.foldlM t.plainEnter place).isSome = true

instance (place : Place) (names : List Name) : Decidable (t.PlainWalk place names) :=
  inferInstanceAs (Decidable (_ = true))

def above : Place → Place
  | (i, []) =>
    match t.node i with
    | .directory parent _ => (parent, [])
    | _ => (i, [])
  | (i, _ :: below) => (i, below)

variable {t}

theorem isDirectory_iff {i : FileId} :
    t.isDirectory i = true ↔ ∃ parent entries, t.node i = .directory parent entries := by
  rw [isDirectory]
  cases t.node i with
  | file | symlink => exact ⟨by rintro ⟨⟩, by rintro ⟨_, _, ⟨⟩⟩⟩
  | directory parent entries => exact ⟨fun _ => ⟨parent, entries, rfl⟩, fun _ => rfl⟩

theorem follow_of_isDirectory {i : FileId} (h : t.isDirectory i = true) (links : Nat) (dir : FileId) :
    t.follow links dir i = some i := by
  obtain ⟨parent, entries, hnode⟩ := isDirectory_iff.mp h
  rw [follow, hnode]

theorem isDirectory_of_lookup {i j : FileId} {name : Name} (h : t.lookup i name = some j) : t.isDirectory i = true := by
  rw [lookup] at h
  split at h
  · next hnode => exact isDirectory_iff.mpr ⟨_, _, hnode⟩
  · nomatch h

theorem entry_of_lookup {found : FileId → FileId → Option FileId} {i j k : FileId} {name : Name}
    (h : t.lookup i name = some j) (hself : ∀ d, t.isDirectory d = true → found i d = some d)
    (hj : found i j = some k) : t.entry found (i, []) name = some (k, []) := by
  rw [lookup] at h
  rw [entry]
  split at h
  · next parent entries hnode =>
    have hfound : ∀ d, t.isDirectory d = true → some d = some j → d = k := by
      intro d hd hdj
      obtain rfl := some.inj hdj
      exact some.inj ((hself d hd).symm.trans hj)
    split at h
    · next hdot =>
      rw [if_pos hdot]
      rw [hfound i (isDirectory_iff.mpr ⟨parent, entries, hnode⟩) h]
    · next hdot =>
      rw [if_neg hdot]
      split at h
      · next hdotDot =>
        rw [if_pos hdotDot]
        rw [hfound parent (t.parent_directory hnode) h]
      · next hdotDot => simp only [if_neg hdotDot, h, hj, map_some]
  · nomatch h

variable {names : List Name}

theorem foldlM_resolve_cons {i k : FileId} {name : Name} (h : (name :: names).foldlM t.resolve i = some k) :
    ∃ j found, t.lookup i name = some found ∧ t.follow t.links i found = some j ∧
      names.foldlM t.resolve j = some k := by
  rw [foldlM_cons] at h
  obtain ⟨j, hj, hrest⟩ := bind_eq_some_iff.mp h
  obtain ⟨found, hlookup, hfollow⟩ := bind_eq_some_iff.mp hj
  exact ⟨j, found, hlookup, hfollow, hrest⟩

theorem enter_of_resolve {i k : FileId} (h : names.foldlM t.resolve i = some k)
    (hk : t.isDirectory k = true) : names.foldlM t.enter (i, []) = some (k, []) := by
  induction names generalizing i with
  | nil =>
    cases h
    rfl
  | cons name names ih =>
    obtain ⟨j, found, hlookup, hfollow, hrest⟩ := foldlM_resolve_cons h
    have hdir : t.isDirectory j = true := by
      cases names with
      | nil => exact some.inj hrest ▸ hk
      | cons name' names =>
        obtain ⟨j', found', hlookup', -⟩ := foldlM_resolve_cons hrest
        exact isDirectory_of_lookup hlookup'
    have henter : t.enter (i, []) name = some (j, []) := by
      refine entry_of_lookup hlookup (fun d hd => ?_) ?_
      · rw [follow_of_isDirectory hd, filter_some_pos hd]
      · rw [hfollow, filter_some_pos hdir]
    rw [foldlM_cons, henter]
    exact ih hrest

theorem walk_append_singleton (place : Place) (names : List Name) (name : Name) :
    t.walk place (names ++ [name]) = (names.foldlM t.enter place).bind (t.final · name) := by
  rw [walk, getLast?_concat, dropLast_concat]

variable {place : Place}

theorem walk_append {middle : Place} {names₁ names₂ : List Name} (h : names₁.foldlM t.enter place = some middle)
    (hne : names₂ ≠ []) : t.walk place (names₁ ++ names₂) = t.walk middle names₂ := by
  obtain ⟨names, name, rfl⟩ := (eq_nil_or_concat' names₂).resolve_left hne
  rw [← append_assoc, walk_append_singleton, walk_append_singleton, foldlM_append, h]
  rfl

theorem place_of_lstatNode {path : Path} {i : FileId} (h : t.lstatNode path = some i) :
    t.place path = some (i, []) := by
  rw [lstatNode] at h
  obtain ⟨name, hname, h⟩ := bind_eq_some_iff.mp h
  obtain ⟨dir, hresolve, hlookup⟩ := bind_eq_some_iff.mp h
  have henter := enter_of_resolve hresolve (isDirectory_of_lookup hlookup)
  have hpath : path ≠ [] := by
    rintro rfl
    nomatch hname
  rw [place, if_neg hpath, walk, hname]
  simp only
  rw [henter]
  exact @entry_of_lookup t (fun _ j => some j) dir i i name hlookup (fun _ _ => rfl) rfl

variable {place' : Place}

theorem entry_mono {found found' : FileId → FileId → Option FileId}
    (h : ∀ {i j k}, found i j = some k → found' i j = some k) {name : Name}
    (hentry : t.entry found place name = some place') : t.entry found' place name = some place' := by
  obtain ⟨i, below⟩ := place
  cases below with
  | cons top below => exact hentry
  | nil =>
    rw [entry] at hentry ⊢
    split at hentry
    · split at hentry
      · next hdot => rw [if_pos hdot, hentry]
      · next hdot =>
        rw [if_neg hdot]
        split at hentry
        · next hdotDot => rw [if_pos hdotDot, hentry]
        · next hdotDot =>
          rw [if_neg hdotDot]
          split at hentry
          · exact hentry
          · obtain ⟨k, hk, rfl⟩ := map_eq_some_iff.mp hentry
            rw [h hk, map_some]
    · nomatch hentry

theorem entry_dotName (found : FileId → FileId → Option FileId)
    (h : t.isDirectory place.1 = true) : t.entry found place dotName = some place := by
  obtain ⟨i, below⟩ := place
  obtain ⟨parent, entries, hnode⟩ := isDirectory_iff.mp h
  cases below with
  | nil => simp [entry, show t.node i = _ from hnode]
  | cons top below => simp [entry]

theorem entry_dotDotName (found : FileId → FileId → Option FileId)
    (h : t.isDirectory place.1 = true) : t.entry found place dotDotName = some (t.above place) := by
  obtain ⟨i, below⟩ := place
  obtain ⟨parent, entries, hnode⟩ := isDirectory_iff.mp h
  cases below with
  | nil => simp [entry, above, show t.node i = _ from hnode, dotDotName, dotName]
  | cons top below => simp [entry, above, dotDotName, dotName]

theorem isDirectory_above (h : t.isDirectory place.1 = true) : t.isDirectory (t.above place).1 = true := by
  obtain ⟨i, below⟩ := place
  obtain ⟨parent, entries, hnode⟩ := isDirectory_iff.mp h
  cases below with
  | nil =>
    simp only [above, show t.node i = _ from hnode]
    exact t.parent_directory hnode
  | cons top below => exact h

theorem plainEnter_proper {name : Name} (hproper : Proper dotName dotDotName name)
    (h : t.plainEnter place name = some place') :
    t.above place' = place ∧ (t.isDirectory place.1 = true → t.isDirectory place'.1 = true) := by
  obtain ⟨i, below⟩ := place
  cases below with
  | nil =>
    rw [plainEnter, entry] at h
    split at h
    · next hnode =>
      rw [if_neg hproper.1, if_neg hproper.2] at h
      split at h
      · cases h
        exact ⟨rfl, id⟩
      · next j hlookup =>
        obtain ⟨k, hk, rfl⟩ := map_eq_some_iff.mp h
        split at hk
        · next hdir =>
          cases hk
          obtain ⟨parent', entries', hnode'⟩ := isDirectory_iff.mp hdir
          refine ⟨?_, fun _ => hdir⟩
          rw [above, hnode']
          exact congrArg (·, []) (t.parent_of_entry hnode hlookup hnode')
        · nomatch hk
    · nomatch h
  | cons top below =>
    rw [plainEnter, entry, if_neg hproper.1, if_neg hproper.2] at h
    cases h
    exact ⟨rfl, id⟩

theorem reversible (t : FileTree) :
    Reversible dotName dotDotName (fun place => t.isDirectory place.1 = true) t.plainEnter t.final t.above where
  stay hplace := entry_dotName _ hplace
  rise hplace := entry_dotDotName _ hplace
  dir {place name place'} hplace h := by
    by_cases hdot : name = dotName
    · rw [hdot, plainEnter, entry_dotName _ hplace] at h
      exact some.inj h ▸ hplace
    by_cases hdotDot : name = dotDotName
    · rw [hdotDot, plainEnter, entry_dotDotName _ hplace] at h
      exact some.inj h ▸ isDirectory_above hplace
    exact (plainEnter_proper ⟨hdot, hdotDot⟩ h).2 hplace
  back hproper h := (plainEnter_proper hproper h).1
  last h := by
    refine entry_mono (fun {i j k} hfound => ?_) h
    split at hfound
    · exact hfound
    · nomatch hfound

theorem enter_of_plainEnter
    (h : names.foldlM t.plainEnter place = some place') : names.foldlM t.enter place = some place' := by
  induction names generalizing place with
  | nil => exact h
  | cons name names ih =>
    rw [foldlM_cons] at h ⊢
    obtain ⟨middle, hname, hrest⟩ := bind_eq_some_iff.mp h
    have henter : t.enter place name = some middle := by
      refine entry_mono (fun {i j k} hfound => ?_) hname
      split at hfound
      · next hdir =>
        cases hfound
        rw [follow_of_isDirectory hdir, filter_some_pos hdir]
      · nomatch hfound
    rw [henter]
    exact ih hrest

theorem final_isSome (h : t.isDirectory place.1 = true) (name : Name) : ∃ place', t.final place name = some place' := by
  by_cases hdot : name = dotName
  · exact ⟨_, hdot ▸ entry_dotName _ h⟩
  by_cases hdotDot : name = dotDotName
  · exact ⟨_, hdotDot ▸ entry_dotDotName _ h⟩
  obtain ⟨i, below⟩ := place
  obtain ⟨parent, entries, hnode⟩ := isDirectory_iff.mp h
  cases below with
  | nil =>
    simp only [final, entry, show t.node i = _ from hnode, if_neg hdot, if_neg hdotDot]
    cases entries.lookup name with
    | none | some => exact ⟨_, rfl⟩
  | cons top below => exact ⟨_, by rw [final, entry, if_neg hdot, if_neg hdotDot]⟩

theorem walk_of_plainWalk (hdir : names ≠ [] → t.isDirectory place.1 = true) (h : t.PlainWalk place names) :
    ∃ place', t.walk place names = some place' ∧
      Lexical.follow t.plainEnter t.final t.above place (form dotName dotDotName names) = some place' := by
  obtain ⟨middle, hmiddle⟩ := isSome_iff_exists.mp h
  rcases eq_nil_or_concat' names with rfl | ⟨names, name, rfl⟩
  · exact ⟨place, rfl, rfl⟩
  · rw [dropLast_concat] at hmiddle
    have hplace := hdir (append_ne_nil_of_right_ne_nil _ (cons_ne_nil _ _))
    have hdir : t.isDirectory middle.1 = true := t.reversible.leads_dir hplace (t.reversible.leads_form hplace hmiddle)
    obtain ⟨place', hfinal⟩ := final_isSome hdir name
    refine ⟨place', ?_, t.reversible.follow_form hplace hmiddle hfinal⟩
    rw [walk_append_singleton, enter_of_plainEnter hmiddle]
    exact hfinal

end FileTree
end Shuriken
