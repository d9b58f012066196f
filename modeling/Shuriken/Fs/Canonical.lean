import Shuriken.Fs.Directories
import Shuriken.Lib.Except
import Shuriken.Lib.Lexical
import Shuriken.Lib.Names

/-!
# Lexical canonicalization

What `canonicalizePath` makes of a relative path is the lexical normal form of its names.
-/
namespace Shuriken
open Except List Names Lexical

abbrev Name := Bytes

def dotName : Name := [dot]
def dotDotName : Name := [dot, dot]

def canonicalizeInPlace (path : Path) : Except PathError Bytes := do
  let (dst, components) ←
    if path.head? = some slash then canonicalizeLoop path path.length (path.drop 1) [slash] []
    else canonicalizeLoop path path.length path [] []
  return dst.take (dst.length - if components = [] then 0 else 1)

theorem canonicalizePath_eq (path : Path) :
    canonicalizePath path = (canonicalizeInPlace path).map fun result => if result = [] then dotName else result := by
  simp only [canonicalizePath, canonicalizeInPlace]
  split
  all_goals
    cases canonicalizeLoop path path.length _ _ [] <;> rfl

def output (form : Form Name) : Bytes := terminate slash (written dotDotName form)

def starts (ups : Nat) : List Name → List Nat
  | [] => []
  | _ :: entered => (output (ups, entered)).length :: starts ups entered

theorem output_cons (ups : Nat) (name : Name) (entered : List Name) :
    output (ups, name :: entered) = output (ups, entered) ++ (name ++ [slash]) := by
  simp [output]

theorem output_succ (ups : Nat) : output (ups + 1, []) = output (ups, []) ++ [dot, dot, slash] := by
  simp [output, written_succ, dotDotName]

def Outputs (form : Form Name) (dst : Bytes) : Prop :=
  dst = output form ∨ ∃ front, output form = front ++ [slash] ∧ dst = front ++ [0]

def advanceForm (form : Form Name) (src : Bytes) : Form Name :=
  (names slash src).foldl (Lexical.step dotName dotDotName) form

@[simp] theorem canonicalizeLoop_nil (path : Path) (rounds : Nat) (dst : Bytes) (components : List Nat) :
    canonicalizeLoop path rounds [] dst components = .ok (dst, components) := by
  cases rounds <;> rfl

theorem isName_dotDotName : IsName slash dotDotName := by simp [IsName, dotDotName, dot, slash]

/-! What the loop does with a slash and with each kind of name -/

section
variable (path : Path) (rounds : Nat) (dst : Bytes) (components : List Nat)

theorem canonicalizeLoop_slash (src : Bytes) : canonicalizeLoop path (rounds + 1) (slash :: src) dst components =
      canonicalizeLoop path rounds src dst components := rfl

variable {src : Bytes} (hsrc : src.head?.getD slash = slash)
include hsrc

theorem canonicalizeLoop_dot : canonicalizeLoop path (rounds + 1) (dotName ++ src) dst components =
      canonicalizeLoop path rounds (src.drop 1) dst components :=
  if_pos ⟨rfl, hsrc⟩

theorem canonicalizeLoop_dotDot : canonicalizeLoop path (rounds + 1) (dotDotName ++ src) dst components =
      match components with
      | start :: components => canonicalizeLoop path rounds (src.drop 1) (dst.take start) components
      | [] => canonicalizeLoop path rounds (src.drop 1) (dst ++ dotDotName ++ [src.head?.getD 0]) [] := by
  rw [show dotDotName ++ src = dot :: dot :: src from rfl, canonicalizeLoop.eq_def]
  simp only
  rw [if_neg (by simp [dot, slash]), if_pos (by simpa using hsrc)]
  cases components with
  | nil => simp [dotDotName]
  | cons start components => rfl

theorem canonicalizeLoop_proper {name : Name} (hname : IsName slash name) (hproper : Proper dotName dotDotName name) :
    canonicalizeLoop path (rounds + 1) (name ++ src) dst components =
      if components.length = kMaxPathComponents then .error ⟨"path has too many components", path⟩
      else canonicalizeLoop path rounds (src.drop 1) (dst ++ name ++ [src.head?.getD 0])
        (dst.length :: components) := by
  have hbytes : ∀ c ∈ name, (c != slash) = true := by
    intro c hc
    exact bne_iff_ne.mpr fun h => hname.2 (h ▸ hc)
  have htake : (name ++ src).takeWhile (· != slash) = name := by
    rw [takeWhile_append_of_pos hbytes]
    rcases head?_getD_sep hsrc with rfl | ⟨rest, rfl⟩ <;> simp
  have hdrop : (name ++ src).dropWhile (· != slash) = src := by
    rw [dropWhile_append_of_pos hbytes]
    rcases head?_getD_sep hsrc with rfl | ⟨rest, rfl⟩ <;> simp
  cases name with
  | nil => exact absurd rfl hname.1
  | cons c name =>
    have hc : c ≠ slash := fun h => hname.2 (h ▸ mem_cons_self)
    have hdot : ¬ (c = dot ∧ (name ++ src).head?.getD slash = slash) := by
      rintro ⟨rfl, hnext⟩
      cases name with
      | nil => exact hproper.1 rfl
      | cons d name => exact hname.2 (by simp [show d = slash from hnext])
    have hdotDot : ¬ (c = dot ∧ (name ++ src).head? = some dot ∧ ((name ++ src).drop 1).head?.getD slash = slash) := by
      rintro ⟨rfl, hsecond, hnext⟩
      cases name with
      | nil => exact absurd (hsecond ▸ hsrc) (by decide)
      | cons d name =>
        obtain rfl : d = dot := Option.some.inj hsecond
        cases name with
        | nil => exact hproper.2 rfl
        | cons e name => exact hname.2 (by simp [show e = slash from hnext])
    rw [cons_append] at htake hdrop ⊢
    rw [canonicalizeLoop.eq_def]
    simp only
    rw [if_neg hdot, if_neg hdotDot, if_neg hc, htake, hdrop]

end

variable {dst : Bytes} {path : Path} {rounds : Nat}

theorem outputs_name {form : Form Name} {components : List Nat}
    {src : Bytes} {result : Bytes × List Nat} (hsrc : src.head?.getD slash = slash)
    (hdst : output form = dst ++ [slash]) (hcomponents : components = starts form.1 form.2)
    (h : canonicalizeLoop path rounds (src.drop 1) (dst ++ [src.head?.getD 0]) components = .ok result)
    (ih : canonicalizeLoop path rounds (src.drop 1) (output form) (starts form.1 form.2) = .ok result →
      Outputs (advanceForm form (src.drop 1)) result.1 ∧
        result.2 = starts (advanceForm form (src.drop 1)).1 (advanceForm form (src.drop 1)).2) :
    Outputs (advanceForm form (src.drop 1)) result.1 ∧
      result.2 = starts (advanceForm form (src.drop 1)).1 (advanceForm form (src.drop 1)).2 := by
  rcases head?_getD_sep hsrc with rfl | ⟨rest, rfl⟩
  · rw [drop_nil, canonicalizeLoop_nil] at h
    cases h
    exact ⟨.inr ⟨dst, hdst, rfl⟩, hcomponents⟩
  · refine ih ?_
    rw [hdst, ← hcomponents]
    exact h

theorem rounds_of_name {name : Name} (hname : IsName slash name) {src : Bytes}
    (h : (name ++ src).length ≤ rounds) : ∃ rounds', rounds = rounds' + 1 ∧ (src.drop 1).length ≤ rounds' := by
  have hpositive := length_pos_iff.mpr hname.1
  rw [length_append] at h
  refine ⟨rounds - 1, by omega, ?_⟩
  rw [length_drop]
  omega

theorem canonicalizeLoop_spec {src : Bytes} {form : Form Name}
    {result : Bytes × List Nat} (hrounds : src.length ≤ rounds)
    (h : canonicalizeLoop path rounds src (output form) (starts form.1 form.2) = .ok result) :
    Outputs (advanceForm form src) result.1 ∧ result.2 = starts (advanceForm form src).1 (advanceForm form src).2 := by
  induction src using text_induction generalizing form rounds with
  | nil =>
    rw [canonicalizeLoop_nil] at h
    cases h
    exact ⟨.inl rfl, rfl⟩
  | skip src ih =>
    obtain ⟨rounds, rfl⟩ := Nat.exists_eq_succ_of_ne_zero (Nat.pos_iff_ne_zero.mp (Nat.zero_lt_of_lt hrounds))
    rw [canonicalizeLoop_slash] at h
    rw [advanceForm, names_sep]
    exact ih (Nat.le_of_succ_le_succ hrounds) h
  | name name src hname hsrc ih =>
    obtain ⟨rounds, rfl, hrest⟩ := rounds_of_name hname hrounds
    rw [advanceForm, names_append_of_isName hname hsrc, foldl_cons, ← advanceForm]
    by_cases hdot : name = dotName
    · subst hdot
      rw [canonicalizeLoop_dot _ _ _ _ hsrc] at h
      rw [Lexical.step_here]
      exact ih hrest h
    · by_cases hdotDot : name = dotDotName
      · subst hdotDot
        rw [canonicalizeLoop_dotDot _ _ _ _ hsrc] at h
        obtain ⟨ups, entered⟩ := form
        cases entered with
        | nil =>
          rw [show Lexical.step dotName dotDotName (ups, []) dotDotName = (ups + 1, []) from rfl]
          refine outputs_name hsrc ?_ rfl h (ih hrest)
          simp [output_succ, dotDotName]
        | cons name entered =>
          rw [show Lexical.step dotName dotDotName (ups, name :: entered) dotDotName = (ups, entered)
            from rfl]
          refine ih hrest ?_
          simpa [starts, output_cons] using h
      · rw [canonicalizeLoop_proper _ _ _ _ hsrc hname ⟨hdot, hdotDot⟩] at h
        rw [step_proper ⟨hdot, hdotDot⟩]
        split at h
        · nomatch h
        · refine outputs_name hsrc ?_ rfl h (ih hrest)
          simp [output_cons]

theorem canonicalizeLoop_cons (path : Path) (c : UInt8) (rounds : Nat) (src dst : Bytes) (components : List Nat) :
    canonicalizeLoop path rounds src (c :: dst) (components.map (· + 1)) =
      (canonicalizeLoop path rounds src dst components).map fun (dst, components) =>
        (c :: dst, components.map (· + 1)) := by
  induction rounds generalizing src dst components with
  | zero => cases src <;> rfl
  | succ rounds ih =>
    cases src with
    | nil => rfl
    | cons d src =>
      simp only [canonicalizeLoop, length_map]
      split
      · exact ih _ _ _
      · split
        · cases components with
          | nil => exact ih _ _ []
          | cons start components => exact ih _ (dst.take start) components
        · split
          · exact ih _ _ _
          · split
            · rfl
            · exact ih _ _ (dst.length :: components)

def lead (path : Path) : Bytes := if path.head? = some slash then [slash] else []

/-- The last slash is only removed when a component is open. -/
structure Renders (form : Form Name) (body : Bytes) : Prop where
  climbs : form.2 = [] → Outputs form body
  enters : form.2 ≠ [] → body = (output form).dropLast

theorem outputs_zero (h : Outputs (0, []) dst) : dst = [] := by
  rcases h with hdst | ⟨front, hfront, -⟩
  · exact hdst
  · exact absurd (congrArg length hfront) (by simp [output, written, terminate])

theorem Outputs.length_eq {form : Form Name} (h : Outputs form dst) : dst.length = (output form).length := by
  rcases h with rfl | ⟨front, hfront, rfl⟩
  · rfl
  · simp [hfront]

theorem Outputs.dropLast {form : Form Name} (h : Outputs form dst) : dst.dropLast = (output form).dropLast := by
  rcases h with rfl | ⟨front, hfront, rfl⟩
  · rfl
  · simp [hfront]

theorem renders_take (pre : Bytes) (f : Nat → Nat) {form : Form Name} (h : Outputs form dst) :
    ∃ body, (pre ++ dst).take ((pre ++ dst).length - if (starts form.1 form.2).map f = [] then 0 else 1) =
      pre ++ body ∧ Renders form body := by
  obtain ⟨ups, entered⟩ := form
  cases entered with
  | nil =>
    refine ⟨dst, ?_, fun _ => h, fun hne => absurd rfl hne⟩
    rw [starts, map_nil, if_pos rfl, Nat.sub_zero, take_length]
  | cons name entered =>
    have hne : dst ≠ [] := by
      intro hdst
      have hlength := h.length_eq
      simp [hdst, output_cons] at hlength
    refine ⟨dst.dropLast, ?_, nofun, fun _ => h.dropLast⟩
    rw [if_neg (by simp [starts]), ← dropLast_eq_take, dropLast_append_of_ne_nil hne]

theorem canonicalizeInPlace_spec {result : Bytes} (h : canonicalizeInPlace path = .ok result) :
    ∃ body, result = lead path ++ body ∧ Renders (form dotName dotDotName (names slash path)) body := by
  rw [canonicalizeInPlace] at h
  rw [lead]
  split at h
  · next hslash =>
    obtain ⟨⟨dst, components⟩, hloop, h⟩ := bind_eq_ok.mp h
    cases h
    obtain ⟨text, rfl⟩ := head?_eq_some_iff.mp hslash
    have hshift := canonicalizeLoop_cons (slash :: text) slash (slash :: text).length text [] []
    rw [map_nil] at hshift
    rw [drop_one, tail_cons, hshift] at hloop
    obtain ⟨⟨dst, components⟩, hbelow, hpair⟩ := map_eq_ok.mp hloop
    cases hpair
    obtain ⟨houtputs, rfl⟩ := @canonicalizeLoop_spec (slash :: text) _ text (0, []) _ (Nat.le_succ _) hbelow
    rw [if_pos head?_cons, names_sep]
    exact renders_take [slash] (· + 1) houtputs
  · next hslash =>
    obtain ⟨⟨dst, components⟩, hloop, h⟩ := bind_eq_ok.mp h
    cases h
    obtain ⟨houtputs, rfl⟩ := @canonicalizeLoop_spec path _ path (0, []) _ le_rfl hloop
    rw [if_neg hslash, ← map_id (starts _ _)]
    exact renders_take [] id houtputs

theorem isName_of_mem_written {name : Name}
    (h : name ∈ written dotDotName (form dotName dotDotName (names slash path))) :
    IsName slash name ∧ (0 ∉ path → 0 ∉ name) := by
  rcases mem_written h with rfl | h
  · exact ⟨isName_dotDotName, fun _ => by decide⟩
  · have hname := mem_of_mem_form h
    exact ⟨isName_of_mem_names hname, fun hzero hmem => hzero (mem_of_mem_names hname hmem)⟩

theorem names_filter_lead (path : Path) (body : Bytes) :
    names slash ((lead path ++ body).filter (· ≠ 0)) = names slash (body.filter (· ≠ 0)) := by
  rw [lead]
  split
  · exact names_sep _
  · rfl

/-- The form is read back from what is left of a path, up to the zero. -/
theorem names_canonicalizeInPlace (hzero : 0 ∉ path) {result : Bytes} (h : canonicalizeInPlace path = .ok result) :
    names slash (result.filter (· ≠ 0)) = written dotDotName (form dotName dotDotName (names slash path)) := by
  obtain ⟨body, rfl, hbody⟩ := canonicalizeInPlace_spec h
  rw [names_filter_lead]
  have hwritten := @isName_of_mem_written path
  generalize form dotName dotDotName (names slash path) = f at hbody hwritten ⊢
  have hnames : names slash (output f) = written dotDotName f := names_terminate fun name hname => (hwritten hname).1
  have hfilter : (output f).filter (· ≠ 0) = output f := by
    refine filter_eq_self.mpr fun c hc => decide_eq_true ?_
    rintro rfl
    obtain ⟨name, hname, hc⟩ := mem_flatMap.mp hc
    rcases mem_append.mp hc with hc | hc
    · exact (hwritten hname).2 hzero hc
    · exact absurd (mem_singleton.mp hc) (by decide)
  have hfront : ∀ front, output f = front ++ [slash] → names slash (front.filter (· ≠ 0)) = written dotDotName f := by
    intro front hfront
    rw [hfront, filter_append] at hfilter
    rw [← hnames, hfront, names_append_singleton_sep,
      append_cancel_right (show front.filter (· ≠ 0) ++ [slash] = front ++ [slash] from hfilter)]
  obtain ⟨ups, entered⟩ := f
  cases entered with
  | nil =>
    rcases hbody.climbs rfl with rfl | ⟨front, houtput, rfl⟩
    · rw [hfilter, hnames]
    · rw [filter_append, show [(0 : UInt8)].filter (· ≠ 0) = [] from rfl, append_nil]
      exact hfront front houtput
  | cons name entered =>
    have houtput : output (ups, name :: entered) = output (ups, entered) ++ name ++ [slash] := by
      simp [output_cons]
    rw [hbody.enters (cons_ne_nil _ _), houtput, dropLast_concat]
    exact hfront _ houtput

def absolute (place : List Name) : Path := slash :: (terminate slash place).dropLast

theorem canonicalizePath_absolute {text : Path} {result : Path} (h : canonicalizePath (slash :: text) = .ok result)
    (hroot : (form dotName dotDotName (names slash text)).1 = 0) :
    result = absolute (form dotName dotDotName (names slash text)).2.reverse := by
  rw [canonicalizePath_eq] at h
  obtain ⟨inPlace, hinPlace, rfl⟩ := map_eq_ok.mp h
  obtain ⟨body, rfl, hbody⟩ := canonicalizeInPlace_spec hinPlace
  rw [names_sep] at hbody
  rw [lead, if_pos head?_cons, if_neg (by simp), absolute]
  generalize form dotName dotDotName (names slash text) = f at hbody hroot ⊢
  obtain ⟨ups, entered⟩ := f
  obtain rfl : ups = 0 := hroot
  have hbody : body = (output (0, entered)).dropLast := by
    by_cases hentered : entered = []
    · subst hentered
      exact outputs_zero (hbody.climbs rfl)
    · exact hbody.enters hentered
  simp [hbody, output, written]

end Shuriken
