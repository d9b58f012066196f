import Shuriken.Log.Records

/-!
# Parsing arbitrary bytes

What one entry of any log can do to the parser, accepted or rejected. From it
follow the ways in which a whole parse can end, and when a rejected record
leaves nothing behind.
-/
namespace Shuriken
open Option LittleEndian RecordStream List Except Finmap

/-- The computation does not reach a `fatal`. -/
def NoFatal {α : Type} (x : Except ParseFailure α) : Prop := ∀ what, x ≠ .error (.fatal what)

section
variable {α β : Type} {view : Bytes}

theorem NoFatal.bind {x : Except ParseFailure α} {f : α → Except ParseFailure β} (hx : NoFatal x)
    (hf : ∀ a, x = .ok a → NoFatal (f a)) : NoFatal (x >>= f) := by
  cases x with
  | error e =>
    intro what h
    exact hx what (by cases h; rfl)
  | ok a => exact hf a rfl

theorem noFatal_ok (a : α) : NoFatal (.ok a) := fun _ h => nomatch h

theorem noFatal_parseError (what : String) : NoFatal (.error (.parseError what) : Except _ α) := fun _ h => nomatch h

theorem noFatal_ensureEntryLen (minSize : Nat) : NoFatal (ensureEntryLen view minSize) := by
  unfold ensureEntryLen
  split
  · exact noFatal_parseError _
  · exact noFatal_ok _

theorem noFatal_nextEntry : NoFatal (nextEntry view) := by
  unfold nextEntry
  split
  · exact noFatal_parseError _
  · exact (noFatal_ensureEntryLen _).bind fun _ _ => noFatal_ok _

theorem noFatal_readUInt32 : NoFatal (readUInt32 view) := (noFatal_ensureEntryLen _).bind fun _ _ => noFatal_ok _

theorem noFatal_readHash : NoFatal (readHash view) := (noFatal_ensureEntryLen _).bind fun _ _ => noFatal_ok _

theorem noFatal_readIndices (endIndex : UInt32) : NoFatal (readIndices endIndex view) := by
  unfold readIndices
  simp only
  split
  · exact noFatal_parseError _
  · exact noFatal_ok _

theorem noFatal_readHashes (count : Nat) : NoFatal (readHashes view count) := by
  unfold readHashes
  split
  · exact noFatal_parseError _
  · exact noFatal_ok _

theorem noFatal_readPath (pathsById : List Path) : NoFatal (readPath pathsById view) := by
  refine noFatal_readUInt32.bind fun pathId _ => ?_
  split
  · exact noFatal_ok _
  · exact noFatal_parseError _

theorem noFatal_pathSize : NoFatal (pathSize view) := by
  unfold pathSize
  simp only
  repeat' split
  all_goals first | exact noFatal_ok _ | exact noFatal_parseError _

theorem noFatal_advance {len : Nat} (h : len ≤ view.length) : NoFatal (advance view len) := by
  rw [advance, if_neg (by omega)]
  exact noFatal_ok _

theorem le_length_of_readUInt32 {word : UInt32} (h : readUInt32 view = .ok word) : sizeofUInt32 ≤ view.length := by
  obtain ⟨u, hlen, -⟩ := bind_eq_ok.mp h
  exact ensureEntryLen_ok.mp hlen

theorem wordsAt_length (count : Nat) (view : Bytes) : (wordsAt count view).length = count := by
  induction count generalizing view with
  | zero => rfl
  | succ count ih => rw [wordsAt, length_cons, ih]

theorem hashesAt_length (count : Nat) (view : Bytes) : (hashesAt count view).length = count := by
  induction count generalizing view with
  | zero => rfl
  | succ count ih => rw [hashesAt, length_cons, ih]

theorem readIndices_ok {endIndex : UInt32} {ids : List UInt32} (h : readIndices endIndex view = .ok ids) :
    ids.length = view.length / sizeofUInt32 ∧ IndicesBelow endIndex ids := by
  unfold readIndices at h
  simp only at h
  split at h
  · cases h
  · rename_i hvalid
    cases h
    refine ⟨wordsAt_length _ _, fun hend id hid => UInt32.not_le.mp fun hle => hvalid ⟨hend, ?_⟩⟩
    exact any_eq_true.mpr ⟨id, hid, decide_eq_true hle⟩

theorem readHashes_ok {count : Nat} {hashes : List Hash} (h : readHashes view count = .ok hashes) :
    hashes.length * kHashSize ≤ view.length := by
  unfold readHashes at h
  split at h
  · cases h
  · cases h
    rw [hashesAt_length]
    omega

end

theorem noFatal_readInvocationParts (entry : Bytes) : NoFatal (readInvocationParts entry) := by
  unfold readInvocationParts
  refine noFatal_readHash.bind fun hash hhash => ?_
  refine (noFatal_advance (ensureEntryLen_ok.mp (bind_eq_ok.mp hhash).choose_spec.1)).bind fun entry _ => ?_
  refine noFatal_readUInt32.bind fun ignored hignored => ?_
  refine (noFatal_advance (le_length_of_readUInt32 hignored)).bind fun entry _ => ?_
  simp only
  split
  · exact noFatal_parseError _
  · rename_i hignoredSize
    refine (noFatal_readIndices _).bind fun ids hids => ?_
    have hidsLen : ids.length * sizeofUInt32 ≤ entry.length := by
      rw [(readIndices_ok hids).1, length_take, sizeofUInt32]
      omega
    refine (noFatal_advance hidsLen).bind fun entry _ => ?_
    refine noFatal_readUInt32.bind fun additional hadditional => ?_
    refine (noFatal_advance (le_length_of_readUInt32 hadditional)).bind fun entry _ => ?_
    refine (noFatal_readHashes _).bind fun hashes hhashes => ?_
    refine (noFatal_advance (readHashes_ok hhashes)).bind fun entry _ => ?_
    refine noFatal_readUInt32.bind fun outputs houtputs => ?_
    refine (noFatal_advance (le_length_of_readUInt32 houtputs)).bind fun entry _ => ?_
    split
    · exact noFatal_parseError _
    · exact noFatal_ok _

theorem InvocationParts.noFatal_read (parts : InvocationParts) (count : UInt32) : NoFatal (parts.read count) := by
  refine (noFatal_readIndices _).bind fun outputs _ => ?_
  refine (noFatal_advance parts.outputs_fit).bind fun refs _ => ?_
  exact (noFatal_readIndices _).bind fun inputs _ => noFatal_ok _

theorem InvocationParts.read_ok {parts : InvocationParts} {count : UInt32} {entry : InvocationEntry}
    (h : parts.read count = .ok entry) : IndicesBelow count (entry.outputFiles ++ entry.inputFiles) := by
  obtain ⟨outputs, houtputs, h⟩ := bind_eq_ok.mp h
  obtain ⟨refs, -, h⟩ := bind_eq_ok.mp h
  obtain ⟨inputs, hinputs, h⟩ := bind_eq_ok.mp h
  obtain rfl := pure_eq_ok.mp h
  intro hcount id hid
  rcases mem_append.mp hid with hid | hid
  · exact (readIndices_ok houtputs).2 hcount id hid
  · exact (readIndices_ok hinputs).2 hcount id hid

namespace Parsing
variable {order : EvalOrder} {lstat : Path → Stat} {st st' : Parsing} {raw : RawEntry}

inductive Effect (lstat : Path → Stat) (st : Parsing) : Parsing → Prop where
  | addPath (path : Path) : Effect lstat st (st.addPath path)
  | createdDirectory (path : Path) : Effect lstat st (st.createdDirectory lstat path)
  | addFingerprint (path : Path) (fp : Fingerprint) : Effect lstat st (st.addFingerprint path fp)
  | setEntry (hash : Hash) (entry : InvocationEntry) : IndicesBelow (UInt32.ofNat st.invocations.fingerprints.length)
        (entry.outputFiles ++ entry.inputFiles) → Effect lstat st (st.setEntry hash entry)
  | deletedDirectory (path : Path) : Effect lstat st (st.deletedDirectory lstat path)
  | deleteEntry (hash : Hash) : Effect lstat st (st.deleteEntry hash)

theorem parseInvocation_ok {entry : Bytes} :
    st.parseInvocation order entry = .ok st' ↔ ∃ parts value, readInvocationParts entry = .ok parts ∧
      parts.read (UInt32.ofNat st.invocations.fingerprints.length) = .ok value ∧
      st' = st.setEntry parts.hash value := by
  have hslot : ∀ (hash : Hash) (value : InvocationEntry),
      (if order = .slotFirst then st.touchEntry hash else st).setEntry hash value = st.setEntry hash value := by
    intro hash value
    split <;> simp only [setEntry, touchEntry, insert_emplace]
  constructor
  · intro h
    obtain ⟨parts, hparts, h⟩ := bind_eq_ok.mp h
    obtain ⟨value, hvalue, h⟩ := bind_eq_ok.mp h
    rw [hslot] at h
    exact ⟨parts, value, mapError_eq_ok.mp hparts, mapError_eq_ok.mp hvalue,
      (pure_eq_ok.mp h).symm⟩
  · rintro ⟨parts, value, hparts, hvalue, rfl⟩
    refine bind_eq_ok.mpr ⟨parts, mapError_eq_ok.mpr hparts, ?_⟩
    refine bind_eq_ok.mpr ⟨value, mapError_eq_ok.mpr hvalue, ?_⟩
    rw [hslot]
    rfl

theorem parseEntry_ok (h : st.parseEntry order lstat raw = .ok st') :
    ∃ next, Effect lstat st next ∧ st' = next.counted := by
  obtain ⟨next, hnext, h⟩ := bind_eq_ok.mp h
  refine ⟨next, ?_, (pure_eq_ok.mp h).symm⟩
  unfold dispatch at hnext
  split at hnext
  · obtain ⟨size, -, hnext⟩ := bind_eq_ok.mp (mapError_eq_ok.mp hnext)
    obtain rfl := pure_eq_ok.mp hnext
    exact .addPath _
  · split at hnext
    · obtain ⟨path, -, hnext⟩ := bind_eq_ok.mp (mapError_eq_ok.mp hnext)
      obtain rfl := pure_eq_ok.mp hnext
      exact .createdDirectory path
    · split at hnext
      · obtain ⟨path, -, hnext⟩ := bind_eq_ok.mp (mapError_eq_ok.mp hnext)
        obtain ⟨view, -, hnext⟩ := bind_eq_ok.mp hnext
        obtain rfl := pure_eq_ok.mp hnext
        exact .addFingerprint path _
      · cases hnext
  · obtain ⟨parts, value, -, hvalue, rfl⟩ := parseInvocation_ok.mp hnext
    exact .setEntry parts.hash value (InvocationParts.read_ok hvalue)
  · have hnext := mapError_eq_ok.mp hnext
    unfold parseDeleted at hnext
    split at hnext
    · obtain ⟨path, -, hnext⟩ := bind_eq_ok.mp hnext
      obtain rfl := pure_eq_ok.mp hnext
      exact .deletedDirectory path
    · split at hnext
      · obtain ⟨hash, -, hnext⟩ := bind_eq_ok.mp hnext
        obtain rfl := pure_eq_ok.mp hnext
        exact .deleteEntry hash
      · cases hnext

/-- The entry is an invocation of the step that is rejected for its fingerprint refs. -/
def RejectedRefs (st : Parsing) (raw : RawEntry) (hash : Hash) : Prop :=
  raw.type = .invocation ∧ ∃ parts e, readInvocationParts raw.entry = .ok parts ∧ parts.hash = hash ∧
    parts.read (UInt32.ofNat st.invocations.fingerprints.length) = .error e

private theorem harmless_mapError {α : Type} {x : Except ParseFailure α} (hx : NoFatal x) {e : ParseFailure}
    (h : x.mapError (·, st) = .error (e, st')) : st' = st ∧ ∃ what, e = .parseError what := by
  obtain ⟨e', rfl, heq⟩ := mapError_eq_error.mp h
  cases heq
  refine ⟨rfl, ?_⟩
  cases e with
  | parseError what => exact ⟨what, rfl⟩
  | fatal what => exact absurd rfl (hx what)

theorem noFatal_parseFingerprint (entry : Bytes) : NoFatal (st.parseFingerprint entry) := by
  refine (noFatal_readPath _).bind fun path hpath => ?_
  obtain ⟨pathId, hread, -⟩ := bind_eq_ok.mp hpath
  exact (noFatal_advance (le_length_of_readUInt32 hread)).bind fun _ _ => noFatal_ok _

theorem noFatal_parseDeleted (entry : Bytes) : NoFatal (st.parseDeleted lstat entry) := by
  unfold parseDeleted
  split
  · exact (noFatal_readPath _).bind fun _ _ => noFatal_ok _
  · split
    · exact noFatal_readHash.bind fun _ _ => noFatal_ok _
    · exact noFatal_parseError _

theorem parseEntry_valueFirst_error {e : ParseFailure} (h : st.parseEntry .valueFirst lstat raw = .error (e, st')) :
    st' = st ∧ ∃ what, e = .parseError what := by
  rcases bind_eq_error.mp h with h | ⟨next, -, h⟩
  swap
  · cases h
  unfold dispatch at h
  split at h
  · exact harmless_mapError (noFatal_pathSize.bind fun _ _ => noFatal_ok _) h
  · split at h
    · exact harmless_mapError ((noFatal_readPath _).bind fun _ _ => noFatal_ok _) h
    · split at h
      · exact harmless_mapError (noFatal_parseFingerprint _) h
      · cases h
        exact ⟨rfl, _, rfl⟩
  · rcases bind_eq_error.mp h with h | ⟨parts, -, h⟩
    · exact harmless_mapError (noFatal_readInvocationParts _) h
    · rcases bind_eq_error.mp h with h | ⟨value, -, h⟩
      · exact harmless_mapError (parts.noFatal_read _) h
      · cases h
  · exact harmless_mapError (noFatal_parseDeleted _) h

theorem parseEntry_order (h : ∀ hash, ¬ st.RejectedRefs raw hash) :
    st.parseEntry .slotFirst lstat raw = st.parseEntry .valueFirst lstat raw := by
  unfold parseEntry dispatch
  cases htype : raw.type with
  | invocation =>
    simp only
    congr 1
    unfold parseInvocation
    cases hparts : readInvocationParts raw.entry with
    | error e => rfl
    | ok parts =>
      cases hvalue : parts.read (UInt32.ofNat st.invocations.fingerprints.length) with
      | error e => exact absurd ⟨htype, parts, e, hparts, rfl, hvalue⟩ (h parts.hash)
      | ok value =>
        simp only [Except.mapError, bind, Except.bind, pure, Except.pure, hvalue, if_true,
          reduceCtorEq, if_false, setEntry, touchEntry, insert_emplace]
  | _ => rfl

variable {hash : Hash}

theorem parseEntry_of_rejectedRefs (h : st.RejectedRefs raw hash) :
    ∃ what, st.parseEntry .slotFirst lstat raw = .error (.parseError what, st.touchEntry hash) ∧
      st.parseEntry .valueFirst lstat raw = .error (.parseError what, st) := by
  obtain ⟨htype, parts, e, hparts, rfl, hvalue⟩ := h
  have hwhat : ∃ what, e = .parseError what := by
    cases e with
    | parseError what => exact ⟨what, rfl⟩
    | fatal what => exact absurd hvalue (parts.noFatal_read _ what)
  obtain ⟨what, rfl⟩ := hwhat
  refine ⟨what, ?_, ?_⟩ <;>
    simp only [parseEntry, dispatch, htype, parseInvocation, hparts, hvalue, Except.mapError, bind,
      Except.bind, if_true, if_false, reduceCtorEq]

theorem touchEntry_of_lookup {entry : InvocationEntry} (h : st.invocations.entries.lookup hash = some entry) :
    st.touchEntry hash = st := by
  simp only [touchEntry, emplace, h]

theorem parseEntry_ok_order (order : EvalOrder) (h : st.parseEntry .valueFirst lstat raw = .ok st') :
    st.parseEntry order lstat raw = .ok st' := by
  cases order with
  | valueFirst => exact h
  | slotFirst =>
    rw [parseEntry_order, h]
    intro hash hrejected
    have herrors : ∃ what, _ ∧ st.parseEntry .valueFirst lstat raw = .error (.parseError what, st) :=
      parseEntry_of_rejectedRefs hrejected
    obtain ⟨what, -, herror⟩ := herrors
    rw [h] at herror
    cases herror

end Parsing

theorem parseInvocationLogSignature_ok {contents view : Bytes} :
    parseInvocationLogSignature contents = .ok view ↔ contents = fileHeader ++ view := by
  unfold parseInvocationLogSignature
  constructor
  · intro h
    split at h
    · cases h
    · rename_i hlen
      split at h
      · cases h
      · rename_i hsignature
        split at h
        · cases h
        · rename_i hversion
          cases h
          have hread : le32 (read32 (contents.drop kFileSignature.length)) = _ := le32_read32 (by
            rw [length_drop, ← sizeofUInt32]
            omega)
          rw [not_not.mp hversion] at hread
          rw [fileHeader, hread, ← not_not.mp hsignature, append_assoc]
          simp only [length_take]
          rw [Nat.min_eq_left (by omega), sizeofUInt32, ← drop_drop, take_append_drop, take_append_drop]
  · rintro rfl
    have hheader : fileHeader.length = kFileSignature.length + sizeofUInt32 := by decide
    rw [if_neg (by rw [length_append, hheader]; omega)]
    rw [if_neg, if_neg, drop_left' hheader]
    · rw [fileHeader, append_assoc, drop_left, read32_le32]
      exact not_not.mpr rfl
    · rw [fileHeader, append_assoc, take_left]
      exact not_not.mpr rfl

section
variable {lstat : Path → Stat}

theorem reads_order (order : EvalOrder) {st st' : Parsing} {bytes : Bytes}
    (h : Reads logFraming (Parsing.parseEntry .valueFirst lstat) st bytes st') :
    Reads logFraming (Parsing.parseEntry order lstat) st bytes st' := by
  induction h with
  | nil st => exact .nil st
  | cons hframe hact _ ih => exact .cons hframe (Parsing.parseEntry_ok_order order hact) ih

/-- The loop without the effect of a rejected record: whole accepted entries, then a reason
to stop that is a parse error or the end. -/
theorem parseEntries_valueFirst (lstat : Path → Stat) (view : Bytes) :
    ∃ consumed, view = consumed ++ (parseEntries .valueFirst lstat view).rest ∧
      Reads logFraming (Parsing.parseEntry .valueFirst lstat) {} consumed
        (parseEntries .valueFirst lstat view).state ∧
      Stops logFraming (Parsing.parseEntry .valueFirst lstat)
        (parseEntries .valueFirst lstat view).state (parseEntries .valueFirst lstat view).rest
        (parseEntries .valueFirst lstat view).error (parseEntries .valueFirst lstat view).state := by
  obtain ⟨consumed, mid, hview, hreads, hstops⟩ := run_spec logFraming (Parsing.parseEntry .valueFirst lstat) view {}
  have hstate : (parseEntries .valueFirst lstat view).state = mid := by
    change (run logFraming (Parsing.parseEntry .valueFirst lstat) view {}).state = mid
    generalize run logFraming (Parsing.parseEntry .valueFirst lstat) view {} = loop at hstops ⊢
    obtain ⟨state, rest, error⟩ := loop
    cases hstops with
    | done | unframed => rfl
    | rejected _ _ hact => exact (Parsing.parseEntry_valueFirst_error hact).1
  rw [hstate]
  refine ⟨consumed, hview, hreads, ?_⟩
  rw [← hstate] at hstops ⊢
  exact hstops

/-- Parsing stops at an invocation of the step, because of its fingerprint refs. -/
def StopsAtRefs (lstat : Path → Stat) (view : Bytes) (hash : Hash) : Prop :=
  ∃ raw n, nextEntry (parseEntries .valueFirst lstat view).rest = .ok (raw, n) ∧
    (parseEntries .valueFirst lstat view).state.RejectedRefs raw hash

variable {view : Bytes}

theorem parseEntries_order (order : EvalOrder) (h : order = .slotFirst → ∀ hash, ¬ StopsAtRefs lstat view hash) :
    parseEntries order lstat view = parseEntries .valueFirst lstat view := by
  cases order with
  | valueFirst => rfl
  | slotFirst =>
    have hrefs := h rfl
    unfold StopsAtRefs at hrefs
    obtain ⟨consumed, hview, hreads, hstops⟩ := parseEntries_valueFirst lstat view
    generalize parseEntries .valueFirst lstat view = loop at *
    obtain ⟨state, rest, error⟩ := loop
    rw [hview, parseEntries, (reads_order .slotFirst hreads).run_append]
    apply run_of_stops
    cases hstops with
    | done => exact .done
    | unframed hne hframe => exact .unframed hne hframe
    | rejected hne hframe hact =>
      refine .rejected hne hframe ?_
      rw [Parsing.parseEntry_order fun hash hrejected => hrefs hash ⟨_, _, hframe, hrejected⟩]
      exact hact

theorem parseEntries_of_stopsAtRefs {hash : Hash} (h : StopsAtRefs lstat view hash) :
    ∃ what, (parseEntries .valueFirst lstat view).error = some (.parseError what) ∧ parseEntries .slotFirst lstat view =
        ⟨(parseEntries .valueFirst lstat view).state.touchEntry hash,
          (parseEntries .valueFirst lstat view).rest, some (.parseError what)⟩ := by
  obtain ⟨raw, n, hframe, hrejected⟩ := h
  obtain ⟨consumed, hview, hreads, hstops⟩ := parseEntries_valueFirst lstat view
  generalize parseEntries .valueFirst lstat view = loop at *
  obtain ⟨state, rest, error⟩ := loop
  obtain ⟨what, hslot, hvalue⟩ := Parsing.parseEntry_of_rejectedRefs hrejected
  have hne : rest ≠ [] := by
    rintro rfl
    cases hframe
  have hstop : Stops logFraming (Parsing.parseEntry .valueFirst lstat) state rest
      (some (.parseError what)) state := .rejected hne hframe hvalue
  refine ⟨what, ?_, ?_⟩
  · exact congrArg Scan.error ((run_of_stops hstops).symm.trans (run_of_stops hstop))
  · simp only at hview
    rw [hview, parseEntries, (reads_order .slotFirst hreads).run_append]
    exact run_of_stops (.rejected hne hframe hslot)

def warningOf : Option ParseFailure → String
  | some (.parseError what) => what
  | some (.fatal what) => what
  | none => ""

theorem parse_of_loop {order : EvalOrder} {consumed : Bytes} {loop : Scan UInt8 Parsing ParseFailure}
    (hloop : parseEntries order lstat view = loop) (hview : view = consumed ++ loop.rest)
    (herror : ∀ what, loop.error ≠ some (.fatal what)) :
    parsePersistentInvocationLog order lstat (some (fileHeader ++ view)) =
      .ok (loop.state.result (warningOf loop.error), some (fileHeader ++ consumed)) := by
  have hleft : (fileHeader ++ view).take ((fileHeader ++ view).length - loop.rest.length) = fileHeader ++ consumed := by
    rw [hview, ← append_assoc, length_append, Nat.add_sub_cancel, take_left]
  simp only [parsePersistentInvocationLog, parseInvocationLogSignature_ok.mpr rfl, hloop, hleft]
  cases hcase : loop.error with
  | none => rfl
  | some e =>
    cases e with
    | parseError what => rfl
    | fatal what => exact absurd hcase (herror what)

end

/-- Every index is in range, but for the one that is not validated when there are as many
fingerprints as it says. -/
def Parsing.IndicesKnown (st : Parsing) : Prop := ∀ hash entry, st.invocations.entries.lookup hash = some entry →
    ∀ id ∈ entry.outputFiles ++ entry.inputFiles, id.toNat < st.invocations.fingerprints.length ∨
      id = kInvalidEntry ∧ 2 ^ 32 - 1 ≤ st.invocations.fingerprints.length

theorem index_lt_or_unvalidated {count : Nat} {id : UInt32}
    (h : UInt32.ofNat count < kInvalidEntry → id < UInt32.ofNat count) :
    id.toNat < count ∨ id = kInvalidEntry ∧ 2 ^ 32 - 1 ≤ count := by
  have hmod : (UInt32.ofNat count).toNat = count % 2 ^ 32 := UInt32.toNat_ofNat'
  have hmax : kInvalidEntry.toNat = 2 ^ 32 - 1 := by decide
  have hid : id.toNat < 2 ^ 32 := id.toNat_lt
  rw [UInt32.lt_iff_toNat_lt, UInt32.lt_iff_toNat_lt, hmod, hmax] at h
  by_cases hlt : count % 2 ^ 32 < 2 ^ 32 - 1
  · have hbelow := h hlt
    omega
  · by_cases hmaxId : id.toNat = 2 ^ 32 - 1
    · exact .inr ⟨UInt32.toNat_inj.mp (hmaxId.trans hmax.symm), by omega⟩
    · omega

variable {lstat : Path → Stat} {order : EvalOrder}

theorem Parsing.Effect.indicesKnown {st st' : Parsing} (h : Effect lstat st st') (hst : st.IndicesKnown) :
    st'.IndicesKnown := by
  cases h with
  | addPath path => exact hst
  | createdDirectory path =>
    unfold Parsing.createdDirectory
    split <;> exact hst
  | addFingerprint path fp =>
    intro hash entry hentry id hid
    simp only [Parsing.addFingerprint, length_append, length_singleton]
    rcases hst hash entry hentry id hid with hlt | ⟨rfl, hcount⟩
    · exact .inl (by omega)
    · exact .inr ⟨rfl, by omega⟩
  | setEntry hash entry hbelow =>
    intro hash' entry' hentry id hid
    rcases lookup_of_insert hentry with ⟨-, rfl⟩ | hentry
    · exact index_lt_or_unvalidated fun hcount => hbelow hcount id hid
    · exact hst hash' entry' hentry id hid
  | deletedDirectory path =>
    unfold Parsing.deletedDirectory
    split <;> exact hst
  | deleteEntry hash => exact fun hash' entry' hentry => hst hash' entry' (lookup_of_erase hentry).2

theorem reads_indicesKnown {st st' : Parsing} {bytes : Bytes}
    (h : Reads logFraming (Parsing.parseEntry order lstat) st bytes st') (hst : st.IndicesKnown) :
    st'.IndicesKnown := by
  induction h with
  | nil st => exact hst
  | cons _ hact _ ih =>
    obtain ⟨next, heffect, rfl⟩ := Parsing.parseEntry_ok hact
    exact ih (heffect.indicesKnown hst)

theorem Parsing.IndicesKnown.in_range_iff {st : Parsing} (h : st.IndicesKnown) :
    (∀ hash entry, st.invocations.entries.lookup hash = some entry → ∀ id ∈ entry.outputFiles ++ entry.inputFiles,
        id.toNat < st.invocations.fingerprints.length) ↔
    (st.invocations.fingerprints.length = 2 ^ 32 - 1 → ∀ hash entry, st.invocations.entries.lookup hash = some entry →
        kInvalidEntry ∉ entry.outputFiles ++ entry.inputFiles) := by
  have hmax : kInvalidEntry.toNat = 2 ^ 32 - 1 := by decide
  constructor
  · intro hrange hcount hash entry hentry hmem
    have hlt := hrange hash entry hentry kInvalidEntry hmem
    omega
  · intro hnone hash entry hentry id hid
    rcases h hash entry hentry id hid with hlt | ⟨rfl, hcount⟩
    · exact hlt
    · by_contra hge
      exact hnone (by omega) hash entry hentry hid

theorem parseEntries_eq_valueFirst {view : Bytes}
    (h : order = .slotFirst → ∀ hash, StopsAtRefs lstat view hash →
      (parseEntries .valueFirst lstat view).state.invocations.entries.lookup hash ≠ none) :
    parseEntries order lstat view = parseEntries .valueFirst lstat view := by
  by_cases hrefs : ∃ hash, order = .slotFirst ∧ StopsAtRefs lstat view hash
  · obtain ⟨hash, rfl, hstop⟩ := hrefs
    obtain ⟨entry, hentry⟩ := ne_none_iff_exists'.mp (h rfl hash hstop)
    obtain ⟨what, herror, hslot⟩ := parseEntries_of_stopsAtRefs hstop
    rw [hslot, Parsing.touchEntry_of_lookup hentry, ← herror]
  · exact parseEntries_order order fun horder hash hstop => hrefs ⟨hash, horder, hstop⟩

theorem parseEntries_not_fatal (lstat : Path → Stat) (view : Bytes) (what : String) :
    (parseEntries .valueFirst lstat view).error ≠ some (.fatal what) := by
  obtain ⟨consumed, -, -, hstops⟩ := parseEntries_valueFirst lstat view
  generalize parseEntries .valueFirst lstat view = loop at hstops
  obtain ⟨state, rest, error⟩ := loop
  rintro rfl
  cases hstops with
  | unframed hne hframe => exact noFatal_nextEntry what hframe
  | rejected hne hframe hact =>
    obtain ⟨-, what', hwhat⟩ := Parsing.parseEntry_valueFirst_error hact
    cases hwhat

/-- The parse ends, its indices are in range, and parsing again the part of the file that it
leaves gives the same result without a warning. -/
def AllOrNothing (order : EvalOrder) (lstat : Path → Stat) (file : Option Bytes) : Prop :=
  ∃ result left, parsePersistentInvocationLog order lstat file = .ok (result, left) ∧
    (∀ bytes ∈ left, ∃ contents ∈ file, bytes <+: contents) ∧
    parsePersistentInvocationLog order lstat left = .ok ({ result with warning := "" }, left) ∧
    ∀ hash entry, result.invocations.entries.lookup hash = some entry → ∀ id ∈ entry.outputFiles ++ entry.inputFiles,
        id.toNat < result.invocations.fingerprints.length

private theorem allOrNothing_view (order : EvalOrder) (lstat : Path → Stat) (view : Bytes) :
    AllOrNothing order lstat (some (fileHeader ++ view)) ↔ (order = .slotFirst → ∀ hash, StopsAtRefs lstat view hash →
        (parseEntries .valueFirst lstat view).state.invocations.entries.lookup hash ≠ none) ∧
      ((parseEntries .valueFirst lstat view).state.invocations.fingerprints.length = 2 ^ 32 - 1 → ∀ hash entry,
          (parseEntries .valueFirst lstat view).state.invocations.entries.lookup hash = some entry →
          kInvalidEntry ∉ entry.outputFiles ++ entry.inputFiles) := by
  obtain ⟨consumed, hview, hreads, -⟩ := parseEntries_valueFirst lstat view
  have hagain : parsePersistentInvocationLog order lstat (some (fileHeader ++ consumed)) =
      .ok ((parseEntries .valueFirst lstat view).state.result "", some (fileHeader ++ consumed)) :=
    parse_of_loop (reads_order order hreads).run_eq (append_nil consumed).symm
      fun _ h => nomatch h
  have hknown := reads_indicesKnown hreads fun _ _ h => nomatch h
  rw [← hknown.in_range_iff]
  constructor
  · rintro ⟨result, left, hparse, -, hsecond, hrange⟩
    have htrace : order = .slotFirst → ∀ hash, StopsAtRefs lstat view hash →
        (parseEntries .valueFirst lstat view).state.invocations.entries.lookup hash ≠ none := by
      rintro rfl hash hstop hnone
      obtain ⟨what, -, hslot⟩ := parseEntries_of_stopsAtRefs hstop
      rw [parse_of_loop hslot hview (by simp)] at hparse
      cases hparse
      rw [hagain] at hsecond
      have hentries := congrArg (fun r => r.toOption.map fun r => r.1.invocations.entries.lookup hash) hsecond
      simp [Except.toOption, Parsing.result, Parsing.touchEntry, hnone, lookup_emplace_self] at hentries
    refine ⟨htrace, ?_⟩
    rw [parse_of_loop (parseEntries_eq_valueFirst htrace) hview
      (parseEntries_not_fatal lstat view)] at hparse
    cases hparse
    exact hrange
  · rintro ⟨htrace, hrange⟩
    refine ⟨_, _, parse_of_loop (parseEntries_eq_valueFirst htrace) hview
      (parseEntries_not_fatal lstat view), ?_, hagain, hrange⟩
    rintro bytes ⟨⟩
    refine ⟨_, rfl, ?_⟩
    rw [prefix_append_right_inj]
    exact ⟨_, hview.symm⟩

/-- Parsing is all or nothing unless a record rejected for its fingerprint refs leaves an
empty entry for a step that has none, or an index equal to the number of fingerprints escapes
the validation, which is off for that one number. -/
theorem allOrNothing_iff (order : EvalOrder) (lstat : Path → Stat) (file : Option Bytes) :
    AllOrNothing order lstat file ↔
      ∀ contents view, file = some contents → parseInvocationLogSignature contents = .ok view →
        (order = .slotFirst → ∀ hash, StopsAtRefs lstat view hash →
          (parseEntries .valueFirst lstat view).state.invocations.entries.lookup hash ≠ none) ∧
        ((parseEntries .valueFirst lstat view).state.invocations.fingerprints.length = 2 ^ 32 - 1 → ∀ hash entry,
            (parseEntries .valueFirst lstat view).state.invocations.entries.lookup hash = some entry →
            kInvalidEntry ∉ entry.outputFiles ++ entry.inputFiles) := by
  cases file with
  | none =>
    refine iff_of_true ⟨{}, none, rfl, by simp, rfl, ?_⟩ (by simp)
    intro hash entry hentry
    cases hentry
  | some contents =>
    cases hsignature : parseInvocationLogSignature contents with
    | error err =>
      refine iff_of_true ⟨{ warning := err }, none, ?_, by simp, rfl, ?_⟩ ?_
      · simp only [parsePersistentInvocationLog, hsignature]
      · intro hash entry hentry
        cases hentry
      · rintro _ view ⟨⟩ hok
        rw [hsignature] at hok
        cases hok
    | ok view =>
      obtain rfl := parseInvocationLogSignature_ok.mp hsignature
      rw [allOrNothing_view]
      constructor
      · rintro h _ view' ⟨⟩ hok
        rw [hsignature] at hok
        cases hok
        exact h
      · intro h
        exact h _ view rfl hsignature

def danglingLog : Bytes := fileHeader ++ (Record.invocation Hash.zero [] [] [0] []).bytes

/-- The entry is rejected and cut off the file, yet its step is left with an empty entry,
which the second parse does not have. -/
theorem danglingLog_leaves_entry :
    (parsePersistentInvocationLog .slotFirst (fun _ => {}) (some danglingLog)).toOption.map
      (fun r => (r.1.invocations.entries.lookup Hash.zero, r.2)) = some (some {}, some fileHeader) ∧
    (parsePersistentInvocationLog .slotFirst (fun _ => {}) (some fileHeader)).toOption.map
      (fun r => r.1.invocations.entries.lookup Hash.zero) = some none ∧
    ¬ AllOrNothing .slotFirst (fun _ => {}) (some danglingLog) := by
  have hfirst : (parsePersistentInvocationLog .slotFirst (fun _ => {}) (some danglingLog)).toOption.map
      (fun r => (r.1.invocations.entries.lookup Hash.zero, r.2)) = some (some {}, some fileHeader) := by
    decide
  have hsecond : (parsePersistentInvocationLog .slotFirst (fun _ => {}) (some fileHeader)).toOption.map
      (fun r => r.1.invocations.entries.lookup Hash.zero) = some none := by
    decide
  refine ⟨hfirst, hsecond, ?_⟩
  rintro ⟨result, left, hparse, -, hagain, -⟩
  rw [hparse] at hfirst
  simp only [Except.toOption, map_some, some.injEq, Prod.mk.injEq] at hfirst
  obtain ⟨hentry, rfl⟩ := hfirst
  rw [hagain] at hsecond
  simp only [Except.toOption, map_some, some.injEq, hentry, reduceCtorEq] at hsecond

end Shuriken
