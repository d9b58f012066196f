import Mathlib.Algebra.Order.BigOperators.Group.List
import Shuriken.Lib.Json
import Shuriken.Trace.EventConsolidator

/-!
# Traces as JSON

`to_json.cpp` replaces the trace in a file by a JSON text with its paths and errors.
-/
namespace Shuriken
open List Names Json

/-- The loop of `escapeJSON`. The span goes from `span_begin` to where the loop is. -/
def escapeJSONLoop (result span : Bytes) : Bytes → Bytes
  | [] => result ++ span
  | ch :: str =>
    if ch = 34 then escapeJSONLoop (result ++ span ++ [92]) [ch] str
    else escapeJSONLoop result (span ++ [ch]) str

def escapeJSON (str : Bytes) : Bytes := escapeJSONLoop [34] [] str ++ [34]

/-- A path is passed as its `c_str()`, which ends at the first null byte. -/
def escapePath (path : Bytes) : Bytes := escapeJSON (path.takeWhile (· ≠ 0))

/-- A closing bracket takes the place of the last comma. -/
def writeJsonPathList (name : Bytes) (paths : List Bytes) (json : Bytes) : Bytes :=
  if paths = [] then json
  else
    (paths.foldl (fun json path => json ++ escapePath path ++ [44])
      (json ++ [34] ++ name ++ [34, 58, 91])).dropLast ++ [93, 44]

/-- `inputs`, `outputs` and `errors` -/
def traceNames : List Bytes :=
  [[105, 110, 112, 117, 116, 115], [111, 117, 116, 112, 117, 116, 115], [101, 114, 114, 111, 114, 115]]

def Trace.members (trace : Trace) : List Member := traceNames.zip [trace.inputs, trace.outputs, trace.errors]

def Trace.json (trace : Trace) : Bytes :=
  let json := trace.members.foldl (fun json m => writeJsonPathList m.1 m.2 json) [123]
  (if json.getLast? = some 44 then json.dropLast else json) ++ [125]

/-- What is written to the file, by the results of the system calls and of the verifier -/
def convertOutputToJson (openForReading : Except String Unit) (read : Except String Bytes)
    (verify : Bytes → Option Trace) (openForWriting write : Except String Unit) : Except String Bytes := do
  openForReading.mapError ("could not open trace file for reading: " ++ ·)
  let file ← read.mapError ("could not read trace file: " ++ ·)
  match verify file with
  | none => throw "trace file did not pass validation"
  | some trace =>
    openForWriting.mapError ("could not open trace file for writing: " ++ ·)
    write.mapError ("could not write trace JSON: " ++ ·)
    return trace.json

def escapeJSONByte (ch : UInt8) : Bytes := if ch = 34 then [92, ch] else [ch]

theorem escapeJSONLoop_eq (result span str : Bytes) :
    escapeJSONLoop result span str = result ++ span ++ str.flatMap escapeJSONByte := by
  induction str generalizing result span with
  | nil => simp [escapeJSONLoop]
  | cons ch str ih =>
    rw [escapeJSONLoop, flatMap_cons, escapeJSONByte]
    split <;> simp [ih]

/-- Neither a backslash nor a control character -/
abbrev NeedsNoEscape (str : Bytes) : Prop := ∀ ch ∈ str, 32 ≤ ch ∧ ch ≠ 92

variable {valid : Bytes → Bool}

theorem foldlM_escapeJSONByte {str : Bytes} (h : NeedsNoEscape str) (s : State) (inKey : Bool) (pieces : List Piece) :
    (str.flatMap escapeJSONByte).foldlM (step valid) { s with place := .text inKey pieces } =
      some { s with place := .text inKey (pieces ++ str.map .byte) } := by
  induction str generalizing pieces with
  | nil => simp
  | cons ch str ih =>
    obtain ⟨⟨hlow, hslash⟩, h⟩ := forall_mem_cons.mp h
    have hch : (escapeJSONByte ch).foldlM (step valid) { s with place := .text inKey pieces } =
        some { s with place := .text inKey (pieces ++ [.byte ch]) } := by
      rw [escapeJSONByte]
      split
      · next hquote =>
        subst hquote
        rfl
      · next hquote => simp [step, hquote, hslash, hlow]
    rw [flatMap_cons, foldlM_append, hch, Option.bind_eq_bind, Option.bind_some, ih h, map_cons, append_assoc,
      singleton_append]

theorem foldlM_escapePath (inKey : Bool) {str : Bytes} (h : NeedsNoEscape str) (hvalid : valid str = true) {s : State}
    (hopen : step valid s 34 = some { s with place := .text inKey [] }) :
    (escapePath str).foldlM (step valid) s = some (s.endText inKey str) := by
  have hnul : str.takeWhile (· ≠ 0) = str := by
    refine takeWhile_eq_self_iff.mpr fun ch hch => decide_eq_true ?_
    rintro rfl
    exact absurd (h 0 hch).1 (by decide)
  rw [escapePath, hnul, escapeJSON, escapeJSONLoop_eq, append_nil, append_assoc, singleton_append, foldlM_cons, hopen,
    Option.bind_eq_bind, Option.bind_some, foldlM_append, foldlM_escapeJSONByte h]
  cases inKey <;> simp [step, assemble_map_byte, hvalid, State.endText]

def memberText (m : Member) : Bytes :=
  [34] ++ m.1 ++ [34] ++ ([58] ++ ([91] ++ ([44].intercalate (m.2.map escapePath) ++ [93])))

theorem writeJsonPathList_eq {m : Member} (h : m.2 ≠ []) (json : Bytes) :
    writeJsonPathList m.1 m.2 json = json ++ (memberText m ++ [44]) := by
  have hitems (start : Bytes) : m.2.foldl (fun json path => json ++ escapePath path ++ [44]) start =
      start ++ terminate 44 (m.2.map escapePath) := by
    simp only [append_assoc, foldl_append_eq_append, terminate, flatMap_def, map_map, Function.comp_def]
  rw [writeJsonPathList, if_neg h, hitems, terminate_eq_intercalate (by simpa using h), ← append_assoc, dropLast_concat,
    memberText]
  simp only [append_assoc, cons_append, nil_append]

theorem foldl_writeJsonPathList (ms : List Member) (json : Bytes) :
    ms.foldl (fun json m => writeJsonPathList m.1 m.2 json) json =
      json ++ terminate 44 ((ms.filter (·.2 ≠ [])).map memberText) := by
  induction ms generalizing json with
  | nil => simp [terminate]
  | cons m ms ih =>
    rw [foldl_cons, ih]
    by_cases hm : m.2 = []
    · rw [filter_cons_of_neg (by simpa using hm), writeJsonPathList, if_pos hm]
    · rw [filter_cons_of_pos (by simpa using hm), writeJsonPathList_eq hm, map_cons, append_assoc]
      rfl

theorem Trace.json_eq (trace : Trace) :
    trace.json = [123] ++ ([44].intercalate ((trace.members.filter (·.2 ≠ [])).map memberText) ++ [125]) := by
  rw [json, foldl_writeJsonPathList]
  generalize (trace.members.filter (·.2 ≠ [])).map memberText = texts
  by_cases htexts : texts = []
  · rw [htexts]
    rfl
  · rw [terminate_eq_intercalate htexts, ← append_assoc, getLast?_concat, if_pos rfl, dropLast_concat, append_assoc]

theorem Trace.decode_json {trace : Trace} (hstrings : ∀ m ∈ trace.members, ∀ str ∈ m.2, NeedsNoEscape str)
    (hvalid : ∀ m ∈ trace.members, valid m.1 = true ∧ ∀ str ∈ m.2, valid str = true) :
    decode valid trace.json = some (trace.members.filter (·.2 ≠ [])) := by
  have hmember : ∀ ms, ∀ m ∈ trace.members.filter (·.2 ≠ []),
      (memberText m).foldlM (step valid) { members := ms, place := .key ms.isEmpty } =
        some { members := ms ++ [m], place := .afterMember } := by
    intro ms m hm
    obtain ⟨hm, hne⟩ := mem_filter.mp hm
    obtain ⟨hname, hstrs⟩ := hvalid m hm
    have hplain : ∀ name ∈ traceNames, [34] ++ name ++ [34] = escapePath name ∧ NeedsNoEscape name := by
      decide +kernel
    obtain ⟨hquoted, hneeds⟩ := hplain m.1 (of_mem_zip hm).1
    have hlist : ([44].intercalate (m.2.map escapePath)).foldlM (step valid) ⟨ms, m.1, [], .item true⟩ =
        some ⟨ms, m.1, m.2, .afterItem⟩ := by
      refine foldlM_intercalate 44 (fun items => State.mk ms m.1 items (.item items.isEmpty))
        (State.mk ms m.1 · .afterItem) (of_decide_eq_true hne) [] (fun items str hstr => ?_) fun items str => ?_
      · exact foldlM_escapePath false (hstrings m hm str hstr) (hstrs str hstr) rfl
      · simp [step, State.sign]
    rw [memberText, hquoted, foldlM_append, foldlM_escapePath true hneeds hname rfl]
    change (_ ++ [93]).foldlM (step valid) (State.mk ms m.1 [] (.item true)) = _
    rw [foldlM_append, hlist]
    rfl
  rw [Trace.json_eq, decode]
  generalize trace.members.filter (·.2 ≠ []) = ms at hmember
  cases ms with
  | nil => rfl
  | cons m ms =>
    have hlist : ([44].intercalate ((m :: ms).map memberText)).foldlM (step valid) ⟨[], [], [], .key true⟩ =
        some ⟨m :: ms, [], [], .afterMember⟩ :=
      foldlM_intercalate 44 (fun ms => State.mk ms [] [] (.key ms.isEmpty)) (State.mk · [] [] .afterMember)
        (cons_ne_nil m ms) [] hmember fun _ _ => by simp [step, State.sign]
    change (foldlM (step valid) (State.mk [] [] [] (.key true)) (_ ++ [125])).bind _ = _
    rw [foldlM_append, hlist]
    rfl

theorem length_intercalate {texts : List Bytes} (h : texts ≠ []) :
    ([44].intercalate texts).length + 1 = (texts.map fun text => text.length + 1).sum := by
  have hlength := congrArg length (terminate_eq_intercalate h : terminate 44 texts = _)
  simpa [terminate, length_flatMap] using hlength.symm

theorem textCost_eq (str : Bytes) :
    textCost str = (str.flatMap escapeJSONByte).length + str.countP fun ch => ch < 32 ∨ ch = 92 := by
  induction str with
  | nil => rfl
  | cons ch str ih =>
    have hch : byteCost ch = (escapeJSONByte ch).length + if ch < 32 ∨ ch = 92 then 1 else 0 := by
      by_cases hquote : ch = 34
      · subst hquote
        rfl
      · by_cases hslash : ch = 92 <;> by_cases hlow : ch < 32 <;> simp [byteCost, escapeJSONByte, hquote, hslash, hlow]
    rw [textCost, map_cons, sum_cons, ← textCost, ih, hch, flatMap_cons, length_append, countP_cons]
    simp only [decide_eq_true_eq]
    omega

theorem length_escapePath (str : Bytes) : (escapePath str).length ≤ textCost str + 2 ∧
    (¬ NeedsNoEscape str → (escapePath str).length < textCost str + 2) := by
  have hlength : (escapePath str).length = ((str.takeWhile (· ≠ 0)).flatMap escapeJSONByte).length + 2 := by
    simp [escapePath, escapeJSON, escapeJSONLoop_eq]
  have hcut : (str.flatMap escapeJSONByte).length = ((str.takeWhile (· ≠ 0)).flatMap escapeJSONByte).length +
      ((str.dropWhile (· ≠ 0)).flatMap escapeJSONByte).length := by
    rw [← length_append, ← flatMap_append, takeWhile_append_dropWhile]
  rw [hlength, textCost_eq]
  refine ⟨by omega, fun hbad => ?_⟩
  have hcount : 0 < str.countP fun ch => ch < 32 ∨ ch = 92 := by
    refine Nat.pos_of_ne_zero fun hzero => hbad fun ch hch => ?_
    simpa using countP_eq_zero.mp hzero ch hch
  omega

theorem length_memberText {m : Member} (hname : m.1 ∈ traceNames) (hne : m.2 ≠ []) :
    (memberText m).length = 4 + textCost m.1 + (m.2.map fun str => (escapePath str).length + 1).sum := by
  have hplain : ∀ name ∈ traceNames, name.length = textCost name := by decide +kernel
  have hitems := @length_intercalate (m.2.map escapePath) (by simpa using hne)
  rw [map_map] at hitems
  simp only [memberText, length_append, length_singleton, hplain m.1 hname]
  simp only [Function.comp_def] at hitems
  omega

/-- What is written is a JSON text of the lists that are not empty exactly if no string has a backslash or a control
character. -/
theorem trace_json_round_trip {trace : Trace} {contents : Bytes} {verify : Bytes → Option Trace}
    (hverify : verify contents = some trace)
    (hvalid : ∀ m ∈ trace.members, valid m.1 = true ∧ ∀ str ∈ m.2, valid str = true) :
    ∃ text, convertOutputToJson (.ok ()) (.ok contents) verify (.ok ()) (.ok ()) = .ok text ∧
      (decode valid text = some (trace.members.filter (·.2 ≠ [])) ↔
        ∀ m ∈ trace.members, ∀ str ∈ m.2, NeedsNoEscape str) := by
  refine ⟨trace.json, ?_, fun hdecode m hm str hstr => ?_, fun hstrings => Trace.decode_json hstrings hvalid⟩
  · simp only [convertOutputToJson, Except.mapError, bind, Except.bind, hverify]
    rfl
  -- the text would be too short
  by_contra hbad
  have hcost := cost_of_decode hdecode
  rw [Trace.json_eq] at hcost
  generalize hms : trace.members.filter (·.2 ≠ []) = ms at hcost
  have hmember (m : Member) (hm : m ∈ ms) : (memberText m).length ≤ memberCost m := by
    obtain ⟨hm, hne⟩ := mem_filter.mp (hms ▸ hm)
    rw [length_memberText (of_mem_zip hm).1 (of_decide_eq_true hne)]
    exact Nat.add_le_add_left (sum_le_sum fun str _ => Nat.add_le_add_right (length_escapePath str).1 1) _
  have hless : (memberText m).length < memberCost m := by
    rw [length_memberText (of_mem_zip hm).1 (ne_nil_of_mem hstr)]
    refine Nat.add_lt_add_left (sum_lt_sum _ _ (fun str _ => Nat.add_le_add_right (length_escapePath str).1 1) ?_) _
    exact ⟨str, hstr, Nat.add_lt_add_right ((length_escapePath str).2 hbad) 1⟩
  have hmem : m ∈ ms := hms ▸ mem_filter.mpr ⟨hm, decide_eq_true (ne_nil_of_mem hstr)⟩
  have hsum : (ms.map fun m => (memberText m).length + 1).sum < (ms.map fun m => memberCost m + 1).sum :=
    sum_lt_sum _ _ (fun m hm => Nat.add_le_add_right (hmember m hm) 1) ⟨m, hmem, Nat.add_lt_add_right hless 1⟩
  have hlength := @length_intercalate (ms.map memberText) (by simpa using ne_nil_of_mem hmem)
  rw [map_map] at hlength
  simp only [length_append, length_singleton] at hcost
  simp only [Function.comp_def] at hlength
  omega

theorem trace_json_round_trip_of_quote : ∃ text,
    convertOutputToJson (.ok ()) (.ok []) (fun _ => some ⟨[[34, 97]], [], [[98], [99]]⟩) (.ok ()) (.ok ()) = .ok text ∧
      decode (fun _ => true) text = some ((Trace.mk [[34, 97]] [] [[98], [99]]).members.filter (·.2 ≠ [])) := by
  obtain ⟨text, htext, hiff⟩ := @trace_json_round_trip (fun _ => true) ⟨[[34, 97]], [], [[98], [99]]⟩ []
    (fun _ => some ⟨[[34, 97]], [], [[98], [99]]⟩) rfl (by decide)
  exact ⟨text, htext, hiff.mpr (by decide +kernel)⟩

/-- A file whose name is a backslash makes the text invalid. One with a backslash before an `n` in its name is
read as another file, with a newline. -/
theorem backslash_is_not_escaped : decode (fun _ => true) (Trace.mk [[92]] [] []).json = none ∧
    decode (fun _ => true) (Trace.mk [[92, 110]] [] []).json = some [([105, 110, 112, 117, 116, 115], [[10]])] := by
  decide

end Shuriken
