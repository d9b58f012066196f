import Shuriken.Fs.Nested
import Shuriken.Lib.Emission

/-!
# The store

An entry is inserted as a stream of messages, of which the first one has the key, the size and the expiry time
of the whole.
-/
namespace Shuriken
open Emission

inductive StatusCode where
  | invalidArgument
  | internal
  | dataLoss
  deriving DecidableEq

structure GrpcError where
  code : StatusCode
  message : String
  deriving DecidableEq

structure StoreInsertRequest where
  key : Bytes := []
  size : Int64 := 0
  expiryTimeMicros : Int64 := 0
  contents : Bytes := []
  deriving DecidableEq

structure StoreGetResponse where
  expiryTimeMicros : Int64 := 0
  size : Int64 := 0
  contents : Bytes := []
  resetRow : Bool := false
  resetCheckpoint : Bool := false
  deriving DecidableEq

structure MultiEntry.Entry where
  start : Int64
  key : Bytes
  deriving DecidableEq

structure MultiEntry where
  size : Int64 := 0
  entry : List MultiEntry.Entry := []
  deriving DecidableEq

structure EntryToWrite where
  key : Bytes := []
  expiryTimeMicros : Int64 := 0
  multiEntry : Bool := false
  contents : Bytes := []
  deriving DecidableEq

def kShkStoreTableTtlMicros : Int64 := 1
def kShkStoreInsertChunkSizeLimit : Nat := 64 * 1024
def kShkStoreCellSplitThreshold : Nat := kShkStoreInsertChunkSizeLimit * 2

/-- The columns of the one family that is used. -/
inductive StoreColumn where
  | data
  | multiEntry
  deriving DecidableEq

structure StoreCell where
  column : StoreColumn
  timestampMicros : Int64
  value : Bytes
  deriving DecidableEq

/-- A part of a cell. The column and the timestamp are set in the first part of a cell only. -/
structure CellChunk where
  column : Option StoreColumn := none
  timestampMicros : Int64 := 0
  value : Bytes := []
  valueSize : Int32 := 0
  resetRow : Bool := false
  deriving DecidableEq

/-- The database, the hash, and the protocol buffer library. -/
structure StoreEnvironment (δ : Type) where
  mutateRow : δ → Bytes → StoreCell → δ
  /-- The responses, each of which has some of the chunks of the row. -/
  readRows : δ → Bytes → List (List CellChunk)
  blake2b : Bytes → Hash
  serializeMultiEntry : MultiEntry → Option Bytes
  parseMultiEntry : Bytes → Option MultiEntry

section
variable {δ : Type} (env : StoreEnvironment δ)

def hashContents (contents : Bytes) : Bytes := (env.blake2b contents).data

inductive InsertValidations where
  | all
  | bypassChunkLimit
  deriving DecidableEq

def validateInsertRequest (insertValidations : InsertValidations) (request : StoreInsertRequest) :
    Except GrpcError StoreInsertRequest :=
  if insertValidations ≠ .bypassChunkLimit ∧ request.contents.length > kShkStoreInsertChunkSizeLimit then
    .error ⟨.invalidArgument, "Got too large StoreInsertRequest"⟩
  else if request.size < 0 then
    .error ⟨.invalidArgument, "Got negative size StoreInsertRequest"⟩
  else if request.expiryTimeMicros < 0 then
    .error ⟨.invalidArgument, "Got negative expiry timestamp in StoreInsertRequest"⟩
  else .ok request

def validateInsertRequests (insertValidations : InsertValidations)
    (input : Emission GrpcError StoreInsertRequest) : Emission GrpcError StoreInsertRequest :=
  (input.ifEmpty (throw ⟨.invalidArgument, "Got RPC with no request messages"⟩)).map
    (fun _ request => (validateInsertRequest insertValidations request).map ((), ·)) ()

def groupInsertRequests (input : Emission GrpcError StoreInsertRequest) : Emission GrpcError StoreInsertRequest :=
  input.reduceMultiple {} {} (fun accum value => { accum with contents := accum.contents ++ value.contents })
    fun accum _ => kShkStoreCellSplitThreshold ≤ accum.contents.length

/-- The variables that the function of `ConvertToEntriesToWrite` captures. `hashed` is what the
hash state was updated with. -/
structure ConvertState where
  numInserts : Nat := 0
  expiry : Int64 := 0
  totalSize : Int64 := 0
  claimedSize : Int64 := 0
  claimedKey : Bytes := []
  hashed : Bytes := []
  multiEntry : MultiEntry := {}

/-- The test for the first request is made twice. -/
def readClaim (state : ConvertState) (request : StoreInsertRequest) : Except GrpcError ConvertState :=
  if state.claimedKey.isEmpty then
    if state.claimedKey.isEmpty then
      .error ⟨.invalidArgument, "key field not set on the first StoreInsertRequest"⟩
    else
      .ok { state with
        expiry := request.expiryTimeMicros
        claimedKey := request.key
        claimedSize := request.size
        hashed := [] }
  else .ok state

def convertInsert (state : ConvertState) (request : StoreInsertRequest) : ConvertState × EntryToWrite :=
  let key := hashContents env request.contents
  ({ state with
      numInserts := state.numInserts + 1
      totalSize := state.totalSize + request.size
      hashed := state.hashed ++ request.contents
      multiEntry :=
        { size := state.multiEntry.size + request.contents.length.toInt64
          entry := state.multiEntry.entry ++ [⟨state.multiEntry.size, key⟩] } },
    { key, expiryTimeMicros := state.expiry, contents := request.contents })

def convertSentinel (state : ConvertState) : Except GrpcError EntryToWrite :=
  let actualKey := hashContents env state.hashed
  if state.claimedKey ≠ actualKey then
    .error ⟨.invalidArgument, "Got key that does not match contents"⟩
  else if state.claimedSize ≠ state.totalSize then
    .error ⟨.invalidArgument, "Claimed size does not match actual size"⟩
  else if state.numInserts > 1 then
    match env.serializeMultiEntry state.multiEntry with
    | none => .error ⟨.internal, "Failed to serialize MultiEntry protobuf message"⟩
    | some contents =>
      .ok { key := actualKey, expiryTimeMicros := state.expiry, multiEntry := true, contents }
  else .ok { expiryTimeMicros := state.expiry }

def convertToEntryToWrite (state : ConvertState) (request : StoreInsertRequest) :
    Except GrpcError (ConvertState × EntryToWrite) := do
  let state ← readClaim state request
  if request.size ≠ -1 then return convertInsert env state request
  else return (state, ← convertSentinel env state)

def convertToEntriesToWrite (input : Emission GrpcError StoreInsertRequest) : Emission GrpcError EntryToWrite :=
  (input.concat (just { size := -1 })).map (convertToEntryToWrite env) {}

def writeInsertsToDb (db : δ) (input : Emission GrpcError EntryToWrite) : δ × Emission GrpcError Unit :=
  input.concatMap (fun db entryToWrite =>
    if entryToWrite.key.isEmpty then (db, {})
    else
      (env.mutateRow db entryToWrite.key
        { column := if entryToWrite.multiEntry then .multiEntry else .data
          timestampMicros := entryToWrite.expiryTimeMicros - kShkStoreTableTtlMicros
          value := entryToWrite.contents }, just ())) db

def swallowInputAndReturnInsertResponse (input : Emission GrpcError Unit) : Emission GrpcError Unit :=
  input.reduce () fun accum _ => accum

def storeInsert (insertValidations : InsertValidations) (db : δ)
    (requests : Emission GrpcError StoreInsertRequest) : δ × Emission GrpcError Unit :=
  let entries := convertToEntriesToWrite env
    (groupInsertRequests (validateInsertRequests insertValidations requests))
  let (db, written) := writeInsertsToDb env db entries
  (db, swallowInputAndReturnInsertResponse written)

def readChunk (buffer : Bytes) (chunk : CellChunk) : Bytes := (if chunk.resetRow then [] else buffer) ++ chunk.value

def cellChunkToStoreGetResponse (chunk : CellChunk) (resetCheckpoint : Bool) : StoreGetResponse :=
  { expiryTimeMicros := if chunk.timestampMicros ≠ 0 then chunk.timestampMicros + kShkStoreTableTtlMicros else 0
    size := if chunk.timestampMicros ≠ 0 then chunk.valueSize.toInt64 else 0
    contents := chunk.value
    resetRow := chunk.resetRow
    resetCheckpoint }

/-- The variables that the function over the chunks captures. `buffer` is that of the reader, whose
timestamp is never set. -/
structure ChunkState where
  multiEntry : Bool := false
  dataEntry : Bool := false
  buffer : Bytes := []

def handleChunk (state : ChunkState) (chunk : CellChunk) : ChunkState × Emission GrpcError StoreGetResponse :=
  let first := !state.multiEntry && !state.dataEntry
  let multiEntry := if first then chunk.column == some .multiEntry else state.multiEntry
  let dataEntry := if first then !multiEntry else state.dataEntry
  if multiEntry then ({ multiEntry, dataEntry, buffer := readChunk state.buffer chunk }, {})
  else ({ state with multiEntry, dataEntry }, just (cellChunkToStoreGetResponse chunk first))

/-- Only the first response of a multi entry has the size and the expiry time. -/
def handleMultiEntryResponse (size expiryTimeMicros : Int64) (first : Bool) (response : StoreGetResponse) :
    Bool × StoreGetResponse :=
  if first then (false, { response with size, expiryTimeMicros })
  else (false, { response with size := 0, expiryTimeMicros := 0 })

/-- `HandleMultiEntry`, given how the entries are read. -/
def handleMultiEntry (get : Bytes → Emission GrpcError StoreGetResponse) (multiEntryData : Bytes)
    (expiryTimeMicros : Int64) : Emission GrpcError StoreGetResponse :=
  match env.parseMultiEntry multiEntryData with
  | none => throw ⟨.dataLoss, "Encountered corrupt MultiEntry"⟩
  | some multiEntry =>
    let entries : Emission GrpcError MultiEntry.Entry := { items := multiEntry.entry }
    (entries.concatMap (fun _ entry => ((), get entry.key)) ()).2.map
      (fun first response => .ok (handleMultiEntryResponse multiEntry.size expiryTimeMicros first response)) true

/-- `Get`. Entries of multi entries are read in the same way, up to a depth. -/
def storeGet (db : δ) : Nat → Bytes → Emission GrpcError StoreGetResponse
  | 0, _ => {}
  | depth + 1, key =>
    let chunks : Emission GrpcError CellChunk := { items := (env.readRows db key).flatten }
    let (state, responses) := chunks.concatMap handleChunk {}
    responses.concat (if state.buffer.isEmpty then {} else handleMultiEntry env (storeGet db depth) state.buffer 0)

def keyNotSet : GrpcError := ⟨.invalidArgument, "key field not set on the first StoreInsertRequest"⟩

theorem convertToEntriesToWrite_of_items {input : Emission GrpcError StoreInsertRequest}
    (h : input.items ≠ []) : convertToEntriesToWrite env input = throw keyNotSet := by
  obtain ⟨items, failure⟩ := input
  obtain ⟨request, requests, rfl⟩ := List.exists_cons_of_ne_nil h
  have herror : convertToEntryToWrite env {} request = .error keyNotSet := rfl
  rw [convertToEntriesToWrite]
  cases failure with
  | none | some => exact map_cons_error herror _ _

theorem convertToEntriesToWrite_of_failure {input : Emission GrpcError StoreInsertRequest} (hitems : input.items = [])
    {error : GrpcError} (hfailure : input.failure = some error) : convertToEntriesToWrite env input = throw error := by
  obtain ⟨items, failure⟩ := input
  subst hitems hfailure
  exact map_nil _ _ _

theorem storeInsert_fails (insertValidations : InsertValidations) (db : δ)
    (requests : Emission GrpcError StoreInsertRequest) :
    ∃ error, storeInsert env insertValidations db requests = (db, throw error) := by
  rw [storeInsert]
  generalize hgroups : groupInsertRequests (validateInsertRequests insertValidations requests) = groups
  have hfails : ∃ error, convertToEntriesToWrite env groups = throw error := by
    by_cases hitems : groups.items = []
    · have hfailure : groups.failure.isSome = true := by
        have hemits := @reduceMultiple_ne_empty GrpcError StoreInsertRequest StoreInsertRequest {} {}
          (fun accum value => { accum with contents := accum.contents ++ value.contents })
          (fun accum _ => kShkStoreCellSplitThreshold ≤ accum.contents.length)
          (validateInsertRequests insertValidations requests)
        rw [← groupInsertRequests, hgroups] at hemits
        exact hemits.resolve_left (absurd hitems)
      obtain ⟨error, herror⟩ := Option.isSome_iff_exists.mp hfailure
      exact ⟨error, convertToEntriesToWrite_of_failure env hitems herror⟩
    · exact ⟨keyNotSet, convertToEntriesToWrite_of_items env hitems⟩
  obtain ⟨error, hentries⟩ := hfails
  exact ⟨error, by rw [hentries]; rfl⟩

/-- The requests are as a client has to send them. -/
structure Insertable (requests : List StoreInsertRequest) : Prop where
  chunks : ∀ request ∈ requests, request.contents.length ≤ kShkStoreInsertChunkSizeLimit
  first : ∃ first rest, requests = first :: rest ∧
    first.key = hashContents env (requests.flatMap (·.contents)) ∧
    first.size = (requests.flatMap (·.contents)).length.toInt64 ∧ 0 ≤ first.expiryTimeMicros ∧
    ∀ request ∈ rest, request = { contents := request.contents }

/-- The requests are inserted, and what is then read has the same contents, and the size and the
expiry time in the first response. -/
def StoreRoundTrips (db : δ) (requests : List StoreInsertRequest) : Prop :=
  ∃ db', storeInsert env .all db { items := requests } = (db', just ()) ∧
    ∃ request rest depth response responses, requests = request :: rest ∧
      storeGet env db' depth request.key = { items := response :: responses } ∧
      (response :: responses).flatMap (·.contents) = requests.flatMap (·.contents) ∧
      response.size = request.size ∧ response.expiryTimeMicros = request.expiryTimeMicros

/-- For every database and all requests. -/
theorem store_never_round_trips (db : δ) (requests : List StoreInsertRequest) :
    (StoreRoundTrips env db requests ↔ False) ∧
      ∃ error, storeInsert env .all db { items := requests } = (db, throw error) := by
  obtain ⟨error, hinsert⟩ := storeInsert_fails env .all db { items := requests }
  refine ⟨iff_of_false ?_ id, error, hinsert⟩
  rintro ⟨db', hok, -⟩
  have hitems := congrArg (fun result => result.2.items) (hinsert.symm.trans hok)
  nomatch hitems

end

/-- A database that keeps the cells as they are written, with a hash that tells short contents
apart. -/
def listStore : StoreEnvironment (List (Bytes × StoreCell)) where
  mutateRow db key cell := (key, cell) :: db
  readRows db key := db.filterMap fun row => if row.1 = key then
    some [{ column := some row.2.column, timestampMicros := row.2.timestampMicros, value := row.2.value }]
    else none
  blake2b := flatFileSystem.blake2b
  serializeMultiEntry _ := none
  parseMultiEntry _ := none

def oneByteRequest : StoreInsertRequest where
  key := hashContents listStore [1]
  size := 1
  expiryTimeMicros := 5
  contents := [1]

/-- One byte is inserted with its key and size. -/
theorem valid_insert_is_rejected :
    Insertable listStore [oneByteRequest] ∧ ¬StoreRoundTrips listStore [] [oneByteRequest] ∧
      storeInsert listStore .all [] { items := [oneByteRequest] } = ([], throw keyNotSet) := by
  have hinsert : storeInsert listStore .all [] { items := [oneByteRequest] } = ([], throw keyNotSet) := by
    decide +kernel
  refine ⟨⟨by decide, oneByteRequest, [], rfl, by decide, by decide, by decide, nofun⟩, ?_, hinsert⟩
  rintro ⟨db', hok, -⟩
  nomatch congrArg (fun result => result.2.items) (hinsert.symm.trans hok)

end Shuriken
