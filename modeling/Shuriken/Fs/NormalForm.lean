import Shuriken.Fs.Canonical

/-!
# The normal form of a path

`canonicalizePath` is meant to give the lexical normal form of a path.
-/
namespace Shuriken
open List Names Lexical Nat

def pathForm (path : Path) : Form Name := form dotName dotDotName (names slash path)

def normalForm (path : Path) : Path :=
  let ns := written dotDotName (pathForm path)
  if path.head? = some slash then slash :: [slash].intercalate ns
  else if ns = [] then dotName
  else [slash].intercalate ns

def joinPath (dir path : Path) : Path :=
  if path.head? = some slash then path
  else if path = [] then dir
  else dir ++ (if dir.getLast? = some slash then [] else [slash]) ++ path

/-- At most `kMaxPathComponents` components are open at the same time. -/
def Shallow (path : Path) : Prop :=
  ∀ ns, ns <+: names slash path → (form dotName dotDotName ns).2.length ≤ kMaxPathComponents

def EndsAbove (path : Path) : Prop := (pathForm path).2 = [] ∧ 0 < (pathForm path).1

instance (path : Path) : Decidable (EndsAbove path) := inferInstanceAs (Decidable (_ ∧ _))

def HasRoom (form : Form Name) (src : Bytes) : Prop := ∀ ns, ns <+: names slash src →
    (ns.foldl (Lexical.step dotName dotDotName) form).2.length ≤ kMaxPathComponents

theorem HasRoom.of_name {form : Form Name} {name : Name} {src : Bytes} (hname : IsName slash name)
    (hsrc : src.head?.getD slash = slash) (h : HasRoom form (name ++ src)) :
    HasRoom (Lexical.step dotName dotDotName form name) (src.drop 1) := by
  intro ns hns
  refine h (name :: ns) ?_
  rw [names_append_of_isName hname hsrc]
  exact cons_prefix_cons.mpr ⟨rfl, hns⟩

variable {path : Path}

/-- The loop does not throw when there is room. -/
theorem canonicalizeLoop_ok {rounds : Nat} {src dst : Bytes} {components : List Nat}
    {form : Form Name} (hrounds : src.length ≤ rounds) (hcomponents : components.length = form.2.length)
    (h : HasRoom form src) : ∃ result, canonicalizeLoop path rounds src dst components = .ok result := by
  induction src using text_induction generalizing rounds dst components form with
  | nil => exact ⟨_, canonicalizeLoop_nil _ _ _ _⟩
  | skip src ih =>
    obtain ⟨rounds, rfl⟩ := exists_eq_succ_of_ne_zero (pos_iff_ne_zero.mp (zero_lt_of_lt hrounds))
    rw [canonicalizeLoop_slash]
    rw [HasRoom, names_sep] at h
    exact ih (le_of_succ_le_succ hrounds) hcomponents h
  | name name src hname hsrc ih =>
    obtain ⟨rounds, rfl, hrest⟩ := rounds_of_name hname hrounds
    have hroomy := h.of_name hname hsrc
    by_cases hdot : name = dotName
    · subst hdot
      rw [canonicalizeLoop_dot _ _ _ _ hsrc]
      rw [step_here] at hroomy
      exact ih hrest hcomponents hroomy
    · by_cases hdotDot : name = dotDotName
      · subst hdotDot
        rw [canonicalizeLoop_dotDot _ _ _ _ hsrc]
        obtain ⟨ups, entered⟩ := form
        cases entered with
        | nil =>
          obtain rfl := length_eq_zero_iff.mp hcomponents
          exact ih hrest rfl hroomy
        | cons name entered =>
          obtain ⟨start, components, rfl⟩ := exists_cons_of_length_eq_add_one hcomponents
          exact ih hrest (succ.inj hcomponents) hroomy
      · rw [canonicalizeLoop_proper _ _ _ _ hsrc hname ⟨hdot, hdotDot⟩]
        rw [step_proper ⟨hdot, hdotDot⟩] at hroomy
        have hroom : components.length ≠ kMaxPathComponents := by
          have hlength := hroomy [] ⟨_, rfl⟩
          simp only [foldl_nil, length_cons] at hlength
          omega
        rw [if_neg hroom]
        refine ih hrest ?_ hroomy
        rw [length_cons, length_cons, hcomponents]

theorem Shallow.canonicalizeInPlace_ok (h : Shallow path) : ∃ result, canonicalizeInPlace path = .ok result := by
  rw [canonicalizeInPlace]
  split
  · next hslash =>
    obtain ⟨text, rfl⟩ := head?_eq_some_iff.mp hslash
    rw [Shallow, names_sep] at h
    obtain ⟨result, hresult⟩ := @canonicalizeLoop_ok (slash :: text) (slash :: text).length text [slash] []
      (0, []) (le_succ _) rfl h
    exact ⟨_, Except.bind_eq_ok.mpr ⟨result, hresult, rfl⟩⟩
  · obtain ⟨result, hresult⟩ := @canonicalizeLoop_ok path path.length path [] [] (0, []) le_rfl rfl h
    exact ⟨_, Except.bind_eq_ok.mpr ⟨result, hresult, rfl⟩⟩

theorem isName_of_mem_pathForm {name : Name} (h : name ∈ written dotDotName (pathForm path)) : IsName slash name :=
  (isName_of_mem_written h).1

theorem proper_of_mem_pathForm (path : Path) : ∀ name ∈ (pathForm path).2, Proper dotName dotDotName name :=
  proper_of_mem_form _

theorem intercalate_ne_nil {ns : List Name} (h : ∀ name ∈ ns, IsName slash name) (hne : ns ≠ []) :
    [slash].intercalate ns ≠ [] := by
  obtain ⟨name, ns, rfl⟩ := exists_cons_of_ne_nil hne
  have hname := (h name mem_cons_self).1
  cases ns with
  | nil => simpa [intercalate] using hname
  | cons name' ns =>
    rw [intercalate_cons_cons]
    simp

theorem normalForm_eq (path : Path) : normalForm path =
      if lead path ++ [slash].intercalate (written dotDotName (pathForm path)) = [] then dotName
      else lead path ++ [slash].intercalate (written dotDotName (pathForm path)) := by
  rw [normalForm, lead]
  split
  · rw [if_neg (by simp)]
    rfl
  · rw [nil_append]
    split
    · next hnil => simp [hnil]
    · next hne => rw [if_neg (intercalate_ne_nil (fun _ => isName_of_mem_pathForm) hne)]

theorem canonicalizeInPlace_eq {result : Bytes} (h : canonicalizeInPlace path = .ok result)
    (hpath : ¬ EndsAbove path) : result = lead path ++ [slash].intercalate (written dotDotName (pathForm path)) := by
  obtain ⟨body, rfl, hbody⟩ := canonicalizeInPlace_spec h
  rw [← dropLast_terminate]
  congr 1
  by_cases hentered : (pathForm path).2 = []
  · have hups : (pathForm path).1 = 0 := by
      by_contra hups
      exact hpath ⟨hentered, pos_of_ne_zero hups⟩
    have hform : pathForm path = (0, []) := Prod.ext hups hentered
    rw [hform]
    exact outputs_zero (hform ▸ hbody.climbs hentered)
  · exact hbody.enters hentered

variable {result : Path}

theorem eq_normalForm_of_ok (h : canonicalizePath path = .ok result)
    (hpath : ¬ EndsAbove path) : result = normalForm path := by
  rw [canonicalizePath_eq] at h
  obtain ⟨inPlace, hinPlace, rfl⟩ := Except.map_eq_ok.mp h
  rw [normalForm_eq, canonicalizeInPlace_eq hinPlace hpath]

theorem Shallow.canonicalizePath_ok (h : Shallow path) : ∃ result, canonicalizePath path = .ok result := by
  obtain ⟨result, hresult⟩ := h.canonicalizeInPlace_ok
  rw [canonicalizePath_eq, hresult]
  exact ⟨_, rfl⟩

theorem canonicalizePath_eq_normalForm (hshallow : Shallow path) (hpath : ¬ EndsAbove path) :
    canonicalizePath path = .ok (normalForm path) := by
  obtain ⟨result, hresult⟩ := hshallow.canonicalizePath_ok
  rw [hresult, eq_normalForm_of_ok hresult hpath]

theorem canonicalizePath_ne_normalForm (hpath : EndsAbove path) : canonicalizePath path ≠ .ok (normalForm path) := by
  intro h
  rw [canonicalizePath_eq] at h
  obtain ⟨result, hresult, h⟩ := Except.map_eq_ok.mp h
  obtain ⟨body, rfl, hbody⟩ := canonicalizeInPlace_spec hresult
  have hlength := (hbody.climbs hpath.1).length_eq
  have hpositive : 0 < (output (pathForm path)).length := by
    obtain ⟨ups, hups⟩ := exists_eq_succ_of_ne_zero hpath.2.ne'
    rw [show pathForm path = (ups + 1, []) from Prod.ext hups hpath.1, output_succ]
    simp
  have hbyte : ([slash].intercalate (written dotDotName (pathForm path))).length + 1 = body.length := by
    rw [← dropLast_terminate, length_dropLast, hlength]
    exact Nat.sub_add_cancel hpositive
  have hne : [slash].intercalate (written dotDotName (pathForm path)) ≠ [] := by
    refine intercalate_ne_nil (fun _ => isName_of_mem_pathForm) fun hnil => ?_
    rw [output, hnil] at hpositive
    exact absurd hpositive (lt_irrefl 0)
  have hbody' : body ≠ [] := length_pos_iff.mp (by omega)
  rw [normalForm_eq, if_neg (by simp [hbody']), if_neg (by simp [hne])] at h
  have hcontra := congrArg length (append_cancel_left h)
  omega

variable {ns : List Name}

theorem names_intercalate (h : ∀ name ∈ ns, IsName slash name) : names slash ([slash].intercalate ns) = ns := by
  have hnames := names_terminate h
  cases ns using reverseRecOn with
  | nil => rfl
  | append_singleton ns name =>
    rw [← dropLast_terminate]
    rw [terminate_append, terminate_singleton, ← append_assoc] at hnames ⊢
    rw [dropLast_concat, ← names_append_singleton_sep, hnames]

theorem names_lead_append (path : Path) (body : Bytes) : names slash (lead path ++ body) = names slash body := by
  rw [lead]
  split
  · exact names_sep _
  · rfl

theorem names_joinPath (dir path : Path) : names slash (joinPath dir path) =
      (if path.head? = some slash then [] else names slash dir) ++ names slash path := by
  rw [joinPath]
  split
  · rfl
  · split
    · next hpath => rw [hpath, names_nil, append_nil]
    · split
      · next hslash =>
        obtain ⟨dir, rfl⟩ := getLast?_eq_some_iff.mp hslash
        rw [append_nil, append_assoc, singleton_append, names_append_sep, names_append_singleton_sep]
      · rw [append_assoc, singleton_append, names_append_sep]

theorem head?_terminate_ne (h : ∀ name ∈ ns, IsName slash name) : (terminate slash ns).head? ≠ some slash := by
  cases ns with
  | nil => nofun
  | cons name ns =>
    obtain ⟨hne, hslash⟩ := h name mem_cons_self
    obtain ⟨c, name, rfl⟩ := exists_cons_of_ne_nil hne
    intro hc
    exact hslash (Option.some.inj hc ▸ mem_cons_self)

theorem head?_intercalate_ne (h : ∀ name ∈ ns, IsName slash name) : ([slash].intercalate ns).head? ≠ some slash := by
  rw [← dropLast_terminate, head?_dropLast]
  split
  · exact head?_terminate_ne h
  · nofun

theorem lead_result {body : Bytes} (hbody : body.head? ≠ some slash) :
    lead (if lead path ++ body = [] then dotName else lead path ++ body) = lead path := by
  rw [lead.eq_def path]
  split
  · rw [if_neg (by simp)]
    rfl
  · rw [nil_append]
    split
    · rfl
    · exact if_neg hbody

theorem pathForm_result (path : Path) (body : Bytes) :
    pathForm (if lead path ++ body = [] then dotName else lead path ++ body) =
      form dotName dotDotName (names slash body) := by
  rw [pathForm]
  split
  · next hnil =>
    rw [(append_eq_nil_iff.mp hnil).2]
    rfl
  · rw [names_lead_append]

theorem lead_normalForm (path : Path) : lead (normalForm path) = lead path := by
  rw [normalForm_eq]
  exact lead_result (head?_intercalate_ne fun _ => isName_of_mem_pathForm)

theorem pathForm_normalForm (path : Path) : pathForm (normalForm path) = pathForm path := by
  rw [normalForm_eq, pathForm_result, names_intercalate fun _ => isName_of_mem_pathForm]
  exact form_written (by decide) (proper_of_mem_pathForm path)

theorem normalForm_congr {other : Path} (hlead : lead path = lead other)
    (hform : pathForm path = pathForm other) : normalForm path = normalForm other := by
  rw [normalForm_eq, normalForm_eq, hlead, hform]

theorem shallow_of_countP {text : Path}
    (h : (names slash text).countP (fun name => name ≠ dotName ∧ name ≠ dotDotName) ≤ kMaxPathComponents) :
    Shallow text := by
  intro ns hns
  exact (length_form_le ns).trans ((hns.sublist.countP_le).trans h)

theorem countP_written_le (form : Form Name) :
    (written dotDotName form).countP (fun name => name ≠ dotName ∧ name ≠ dotDotName) ≤ form.2.length := by
  obtain ⟨ups, entered⟩ := form
  rw [written, countP_append, countP_replicate, if_neg (by simp), zero_add]
  exact countP_le_length.trans (length_reverse).le

theorem Shallow.normalForm (h : Shallow path) : Shallow (normalForm path) := by
  rw [normalForm_eq]
  split
  · exact shallow_of_countP (by decide)
  · apply shallow_of_countP
    rw [names_lead_append, names_intercalate fun _ => isName_of_mem_pathForm]
    exact (countP_written_le _).trans (h _ (prefix_refl _))

theorem canonicalizeLoop_ups (path : Path) (ups rounds : Nat) (dst : Bytes)
    (hrounds : (output (ups, [])).length ≤ rounds) :
    canonicalizeLoop path rounds (output (ups, [])) dst [] = .ok (dst ++ output (ups, []), []) := by
  induction ups generalizing rounds dst with
  | zero =>
    rw [show output (0, []) = [] from rfl, canonicalizeLoop_nil, append_nil]
  | succ ups ih =>
    have houtput : output (ups + 1, []) = dotDotName ++ slash :: output (ups, []) := by
      simp [output, written, replicate_succ, terminate]
    rw [houtput] at hrounds ⊢
    obtain ⟨rounds, rfl, hrest⟩ := rounds_of_name isName_dotDotName hrounds
    rw [canonicalizeLoop_dotDot _ _ _ _ rfl, drop_one, tail_cons, ih _ _ hrest]
    simp

theorem canonicalizePath_ups (path : Path) {ups : Nat} (hups : 0 < ups) :
    canonicalizePath (lead path ++ output (ups, [])) = .ok (lead path ++ output (ups, [])) := by
  have hne : lead path ++ output (ups, []) ≠ [] := by
    obtain ⟨ups, rfl⟩ := exists_eq_succ_of_ne_zero hups.ne'
    simp [output_succ]
  have hinPlace : canonicalizeInPlace (lead path ++ output (ups, [])) = .ok (lead path ++ output (ups, [])) := by
    rw [canonicalizeInPlace, lead]
    split
    · have hrounds : (output (ups, [])).length ≤ (slash :: output (ups, [])).length := le_succ _
      rw [singleton_append, if_pos head?_cons, drop_one, tail_cons, canonicalizeLoop_ups _ _ _ _ hrounds]
      simp [bind, Except.bind, pure, Except.pure]
    · have hhead : (output (ups, [])).head? ≠ some slash := by
        refine head?_terminate_ne fun name hname => ?_
        rcases mem_written hname with rfl | hname
        · exact isName_dotDotName
        · cases hname
      rw [nil_append, if_neg hhead, canonicalizeLoop_ups _ _ _ _ le_rfl]
      simp [bind, Except.bind, pure, Except.pure]
  rw [canonicalizePath_eq, hinPlace]
  simp [Except.map, hne]

theorem canonicalizePath_written (path : Path) {form : Form Name}
    (hnames : ∀ name ∈ written dotDotName form, IsName slash name)
    (hproper : ∀ name ∈ form.2, Proper dotName dotDotName name) (hentered : form.2 ≠ [])
    (hlength : form.2.length ≤ kMaxPathComponents) :
    canonicalizePath (lead path ++ [slash].intercalate (written dotDotName form)) =
      .ok (lead path ++ [slash].intercalate (written dotDotName form)) := by
  have hwritten : written dotDotName form ≠ [] := by simp [written, hentered]
  have hne : lead path ++ [slash].intercalate (written dotDotName form) ≠ [] := by
    simp [intercalate_ne_nil hnames hwritten]
  have hlead := @lead_result path _ (head?_intercalate_ne hnames)
  have hform := pathForm_result path ([slash].intercalate (written dotDotName form))
  rw [if_neg hne] at hlead hform
  rw [names_intercalate hnames, form_written (by decide) hproper] at hform
  have hshallow : Shallow (lead path ++ [slash].intercalate (written dotDotName form)) := by
    apply shallow_of_countP
    rw [names_lead_append, names_intercalate hnames]
    exact (countP_written_le form).trans hlength
  rw [canonicalizePath_eq_normalForm hshallow fun habove => hentered (hform ▸ habove.1), normalForm_eq, hform,
    hlead, if_neg hne]

/-- The result is left as it is when it is canonicalized again. -/
theorem canonicalizePath_twice (hshallow : Shallow path)
    (h : canonicalizePath path = .ok result) : canonicalizePath result = .ok result := by
  by_cases habove : EndsAbove path
  · rw [canonicalizePath_eq] at h
    obtain ⟨inPlace, hinPlace, rfl⟩ := Except.map_eq_ok.mp h
    obtain ⟨body, rfl, hbody⟩ := canonicalizeInPlace_spec hinPlace
    obtain ⟨ups, hups⟩ := exists_eq_succ_of_ne_zero habove.2.ne'
    have hform : pathForm path = (ups + 1, []) := Prod.ext hups habove.1
    have houtputs := hbody.climbs habove.1
    rw [← pathForm, hform] at houtputs
    have hne : lead path ++ body ≠ [] := by
      have hlength := houtputs.length_eq
      rw [output_succ] at hlength
      refine append_ne_nil_of_right_ne_nil _ (length_pos_iff.mp ?_)
      simp [hlength]
    rw [if_neg hne]
    rcases houtputs with rfl | ⟨front, hfront, rfl⟩
    · exact canonicalizePath_ups path (succ_pos ups)
    · -- the last way up has become a name, since it is followed by a zero
      have hname : ∀ name ∈ written dotDotName (ups, [dotDotName ++ [0]]), IsName slash name := by
        intro name hname
        rcases mem_written hname with rfl | hname
        · exact isName_dotDotName
        · rw [mem_singleton.mp hname]
          simp [IsName, dotDotName, dot, slash]
      have htext : front ++ [0] = [slash].intercalate (written dotDotName (ups, [dotDotName ++ [0]])) := by
        have hsplit : output (ups + 1, []) = (output (ups, []) ++ dotDotName) ++ [slash] := by
          simp [output_succ, dotDotName]
        obtain rfl := append_cancel_right (hfront.symm.trans hsplit)
        rw [← dropLast_terminate, written_cons, terminate_append, terminate_singleton,
          append_assoc, ← append_assoc _ _ [slash], dropLast_concat]
        rfl
      rw [htext]
      exact canonicalizePath_written path hname (by simp [Proper, dotName, dotDotName]) (cons_ne_nil _ _)
        (by simp [kMaxPathComponents])
  · rw [canonicalizePath_eq_normalForm hshallow habove] at h
    cases h
    have habove' : ¬ EndsAbove (normalForm path) := by
      rw [EndsAbove, pathForm_normalForm]
      exact habove
    rw [canonicalizePath_eq_normalForm hshallow.normalForm habove',
      normalForm_congr (lead_normalForm _) (pathForm_normalForm _)]

theorem Renders.head?_ne {body : Bytes} (h : Renders (pathForm path) body) : body.head? ≠ some slash := by
  have hnames : ∀ name ∈ written dotDotName (pathForm path), IsName slash name := fun _ => isName_of_mem_pathForm
  by_cases hentered : (pathForm path).2 = []
  · rcases h.climbs hentered with rfl | ⟨front, hfront, rfl⟩
    · exact head?_terminate_ne hnames
    · intro hhead
      cases front with
      | nil => exact absurd hhead (by decide)
      | cons c front =>
        refine head?_terminate_ne hnames ?_
        rw [← output, hfront]
        exact hhead
  · rw [h.enters hentered, output, dropLast_terminate]
    exact head?_intercalate_ne hnames

theorem normalForm_of_result (hzero : 0 ∉ path) (h : canonicalizePath path = .ok result) :
    lead result = lead path ∧ form dotName dotDotName (names slash (result.filter (· ≠ 0))) = pathForm path := by
  rw [canonicalizePath_eq] at h
  obtain ⟨inPlace, hinPlace, rfl⟩ := Except.map_eq_ok.mp h
  have hnames := names_canonicalizeInPlace hzero hinPlace
  have hform := form_written (by decide) (proper_of_mem_pathForm path)
  obtain ⟨body, rfl, hbody⟩ := canonicalizeInPlace_spec hinPlace
  refine ⟨lead_result hbody.head?_ne, ?_⟩
  rw [pathForm, ← hnames, ← pathForm] at hform
  split
  · next hnil =>
    rw [hnil] at hform
    exact hform
  · exact hform

theorem zero_not_mem_normalForm (h : 0 ∉ path) : 0 ∉ normalForm path := by
  have hnames : ∀ name ∈ written dotDotName (pathForm path), 0 ∉ name := by
    intro name hname
    exact (isName_of_mem_written hname).2 h
  have hbody : 0 ∉ [slash].intercalate (written dotDotName (pathForm path)) := by
    rw [← dropLast_terminate]
    intro hmem
    obtain ⟨name, hname, hmem⟩ := mem_flatMap.mp ((dropLast_sublist _).mem hmem)
    rcases mem_append.mp hmem with hmem | hmem
    · exact hnames name hname hmem
    · exact absurd (mem_singleton.mp hmem) (by decide)
  have hlead : 0 ∉ lead path := by
    rw [lead]
    split <;> decide
  rw [normalForm_eq]
  split
  · decide
  · exact fun hmem => (mem_append.mp hmem).elim hlead hbody

theorem zero_not_mem_joinPath {dir : Path} (hdir : 0 ∉ dir) (hpath : 0 ∉ path) : 0 ∉ joinPath dir path := by
  rw [joinPath]
  split
  · exact hpath
  · split
    · exact hdir
    · intro hmem
      rcases mem_append.mp hmem with hmem | hmem
      · rcases mem_append.mp hmem with hmem | hmem
        · exact hdir hmem
        · split at hmem
          · nomatch hmem
          · exact absurd (mem_singleton.mp hmem) (by decide)
      · exact hpath hmem

theorem canonicalizePath_eq_normalForm_iff {text : Path} (htext : 0 ∉ text) (hpath : 0 ∉ path) :
    canonicalizePath text = .ok (normalForm path) ↔
      (∃ result, canonicalizePath text = .ok result) ∧ ¬ EndsAbove text ∧ normalForm text = normalForm path := by
  constructor
  · intro h
    obtain ⟨hlead, hform⟩ := normalForm_of_result htext h
    have hfilter : (normalForm path).filter (· ≠ 0) = normalForm path := by
      refine filter_eq_self.mpr fun c hc => decide_eq_true ?_
      rintro rfl
      exact zero_not_mem_normalForm hpath hc
    rw [hfilter, ← pathForm, pathForm_normalForm] at hform
    rw [lead_normalForm] at hlead
    have hnormal := normalForm_congr hlead.symm hform.symm
    refine ⟨⟨_, h⟩, fun habove => canonicalizePath_ne_normalForm habove ?_, hnormal⟩
    rw [h, hnormal]
  · rintro ⟨⟨result, h⟩, habove, hnormal⟩
    rw [h, eq_normalForm_of_ok h habove, hnormal]

/-- What `canonicalizePath` makes of shallow paths. The result is the normal form but for the paths
that end above. It is not changed any more, and different normal forms have different results. -/
theorem canonicalizePath_normalizes {path other : Path} (hzero : 0 ∉ path) (hshallow : Shallow path)
    (hzero' : 0 ∉ other) (hshallow' : Shallow other) :
    (canonicalizePath path = .ok (normalForm path) ↔ ¬ EndsAbove path) ∧
      (∃ result, canonicalizePath path = .ok result ∧ canonicalizePath result = .ok result) ∧
      (canonicalizePath path = canonicalizePath other → normalForm path = normalForm other) ∧
      (¬ EndsAbove path → normalForm path = normalForm other → canonicalizePath path = canonicalizePath other) := by
  obtain ⟨result, hresult⟩ := hshallow.canonicalizePath_ok
  refine ⟨⟨fun h habove => canonicalizePath_ne_normalForm habove h, canonicalizePath_eq_normalForm hshallow⟩,
    ⟨_, hresult, canonicalizePath_twice hshallow hresult⟩, ?_, ?_⟩
  · intro hsame
    obtain ⟨hlead, hform⟩ := normalForm_of_result hzero hresult
    obtain ⟨hlead', hform'⟩ := normalForm_of_result hzero' (hsame ▸ hresult)
    exact normalForm_congr (hlead.symm.trans hlead') (hform.symm.trans hform')
  · intro habove hnormal
    have hform : pathForm path = pathForm other := by
      rw [← pathForm_normalForm path, hnormal, pathForm_normalForm]
    have habove' : ¬ EndsAbove other := by
      rwa [EndsAbove, ← hform]
    rw [canonicalizePath_eq_normalForm hshallow habove, canonicalizePath_eq_normalForm hshallow' habove', hnormal]

/-- The paths `a/./b//../c/` and `a/c` -/
theorem canonicalizePath_normalizes_dots :
    canonicalizePath [97, 47, 46, 47, 98, 47, 47, 46, 46, 47, 99, 47] = .ok [97, 47, 99] ∧
      canonicalizePath [97, 47, 46, 47, 98, 47, 47, 46, 46, 47, 99, 47] = canonicalizePath [97, 47, 99] := by
  have hdots := @canonicalizePath_normalizes [97, 47, 46, 47, 98, 47, 47, 46, 46, 47, 99, 47] [97, 47, 99]
    (by decide) (shallow_of_countP (by decide)) (by decide) (shallow_of_countP (by decide))
  exact ⟨hdots.1.mpr (by decide), hdots.2.2.2 (by decide) (by decide)⟩

/-- The paths `..` and `../` have the same normal form. The zero at the end of the first becomes a
part of the result. -/
theorem canonicalizePath_keeps_zero : normalForm [46, 46] = [46, 46] ∧ canonicalizePath [46, 46] = .ok [46, 46, 0] ∧
      normalForm [46, 46, 47] = [46, 46] ∧ canonicalizePath [46, 46, 47] = .ok [46, 46, 47] ∧
      Shallow [46, 46] ∧ Shallow [46, 46, 47] :=
  ⟨by decide, by decide, by decide, by decide, shallow_of_countP (by decide), shallow_of_countP (by decide)⟩

end Shuriken
