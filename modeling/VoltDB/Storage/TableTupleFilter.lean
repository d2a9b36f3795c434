import Mathlib.Data.String.Basic

/-! The tuple filter of `ee/storage/tabletuplefilter.h`: one marker byte per tuple slot of a
table, the block directory that turns tuple addresses into slots, and the marker iterator.
`init`, `findBlockIndex` and the value of `INVALID_INDEX` live in `tabletuplefilter.cpp`,
which is not among the sources; they follow the spec's description of them.
-/

namespace VoltDB.Storage

/-- Modelled from the spec: `TableTupleFilter::INVALID_INDEX`, defined in
`tabletuplefilter.cpp` as the sentinel "no active tuple", the largest `uint64_t`.
-/
def invalidIndex : UInt64 := UInt64.ofNat (UInt64.size - 1)

/-- `TableTupleFilter::INACTIVE_TUPLE`. Markers are `int8_t`, stored as `char`, which is
signed on the engine's platforms, so a stored byte and a marker compare as one `Int8`.
-/
def inactiveTuple : Int8 := -1

/-- `TableTupleFilter::ACTIVE_TUPLE`. -/
def activeTuple : Int8 := 0

/-- The fields of a `TableTupleFilter`. Sizes and indices are the code's `uint64_t`/`size_t`,
the geometry its two `uint32_t`s.
-/
structure TableTupleFilter where
  /-- `m_tuples`: one marker per slot, active or not. -/
  tuples : List Int8
  /-- `m_blocks`: block addresses in enumeration order. -/
  blocks : List UInt64
  /-- `m_blockIndexes`: block address to the slot offset of the block's first tuple. -/
  blockIndexes : List (UInt64 × UInt64)
  tuplesPerBlock : UInt32
  tupleLength : UInt32
  prevBlockAddress : UInt64
  prevBlockIndex : UInt64
  lastActiveTupleIndex : UInt64
  deriving DecidableEq

namespace TableTupleFilter

-----------------------------------------------------------------------------------------
-- Markers and addresses
-----------------------------------------------------------------------------------------

/-- `getTupleValue`: the marker of a slot; `none` is a failed `tupleIdx < m_tuples.size()`. -/
def getTupleValue (f : TableTupleFilter) (tupleIdx : UInt64) : Option Int8 :=
  f.tuples[tupleIdx.toNat]?

/-- `empty`: no tuple was active at initialization. -/
def empty (f : TableTupleFilter) : Bool :=
  f.lastActiveTupleIndex == invalidIndex

/-- `address` lies in the `tuplesPerBlock * tupleLength` bytes of the block at `block`. -/
def InBlock (f : TableTupleFilter) (block : UInt64) (address : Nat) : Prop :=
  block.toNat ≤ address ∧ address < block.toNat + f.tuplesPerBlock.toNat * f.tupleLength.toNat

instance (f : TableTupleFilter) (block : UInt64) (address : Nat) :
    Decidable (f.InBlock block address) :=
  inferInstanceAs (Decidable (_ ∧ _))

/-- Modelled from the spec: `findBlockIndex`, defined in `tabletuplefilter.cpp`. The cached
block answers when its span holds the address; otherwise the address's block is the
enumerated block whose span holds it, its offset is looked up in `m_blockIndexes` and the
cache is refreshed. An address outside every enumerated block fails.
-/
def findBlockIndex (f : TableTupleFilter) (tupleAddress : UInt64)
    : Option (UInt64 × TableTupleFilter) :=
  if f.InBlock f.prevBlockAddress tupleAddress.toNat then some (f.prevBlockIndex, f)
  else do
    let block ← f.blocks.find? fun block => decide (f.InBlock block tupleAddress.toNat)
    let blockIndex ← f.blockIndexes.lookup block
    pure (blockIndex, { f with prevBlockAddress := block, prevBlockIndex := blockIndex })

/-- `getTupleIndex`: Tuple Index = (Tuple Address - Tuple Block Address) / Tuple Size +
Block Offset, with the block address the one `findBlockIndex` leaves in the cache.
-/
def getTupleIndex (f : TableTupleFilter) (tupleAddress : UInt64)
    : Option (UInt64 × TableTupleFilter) := do
  let (blockIndex, f) ← f.findBlockIndex tupleAddress
  pure ((tupleAddress - f.prevBlockAddress) / f.tupleLength.toUInt64 + blockIndex, f)

/-- The slot `getTupleIndex` resolves for an address, without the refreshed cache. -/
def tupleIndex (f : TableTupleFilter) (tupleAddress : UInt64) : Option UInt64 :=
  (f.getTupleIndex tupleAddress).map Prod.fst

/-- A caller's sequence of `getTupleIndex` calls on one filter, each on the cache the one
before left; `none` when an address is not resolved.
-/
def getTupleIndices (f : TableTupleFilter) : List UInt64 → Option (List UInt64)
  | [] => some []
  | tupleAddress :: rest => (f.getTupleIndex tupleAddress).bind fun (tupleIdx, f) =>
      (f.getTupleIndices rest).map (tupleIdx :: ·)

/-- The slot of an address by the equation of the class comment, computed from the block
list alone: (Tuple Address - Tuple Block Address) / Tuple Size + Block Number * Tuples Per
Block, for the first enumerated block whose span holds the address.
-/
def slotIndex (f : TableTupleFilter) (tupleAddress : UInt64) : Nat :=
  let blockNumber := f.blocks.findIdx fun block => decide (f.InBlock block tupleAddress.toNat)
  (tupleAddress.toNat - (f.blocks.getD blockNumber 0).toNat) / f.tupleLength.toNat
    + blockNumber * f.tuplesPerBlock.toNat

-----------------------------------------------------------------------------------------
-- Initialization and updates
-----------------------------------------------------------------------------------------

/-- Modelled from the spec: `init(blocks, tuplesPerBlock, tupleLength)`. Block `b` starts at
slot `b * tuplesPerBlock`, every slot is `INACTIVE_TUPLE` and no tuple is active. The spec
leaves the cache's first entry open; it starts on the first block.
-/
def init (blocks : List UInt64) (tuplesPerBlock tupleLength : UInt32)
    : TableTupleFilter where
  tuples := List.replicate (blocks.length * tuplesPerBlock.toNat) inactiveTuple
  blocks := blocks
  blockIndexes := blocks.enum.map fun entry =>
    (entry.2, UInt64.ofNat (entry.1 * tuplesPerBlock.toNat))
  tuplesPerBlock := tuplesPerBlock
  tupleLength := tupleLength
  prevBlockAddress := blocks.headD 0
  prevBlockIndex := 0
  lastActiveTupleIndex := invalidIndex

/-- `initActiveTuple`: mark the tuple's slot `ACTIVE_TUPLE` and advance the last active index.
`none` is the failed assertion that the slot was inactive (or an unresolved address).
-/
def initActiveTuple (f : TableTupleFilter) (tupleAddress : UInt64) : Option TableTupleFilter :=
  (f.getTupleIndex tupleAddress).bind fun (tupleIdx, f) =>
    if f.tuples[tupleIdx.toNat]? = some inactiveTuple then
      some { f with
        tuples := f.tuples.set tupleIdx.toNat activeTuple
        lastActiveTupleIndex :=
          if f.lastActiveTupleIndex = invalidIndex ∨ f.lastActiveTupleIndex < tupleIdx then tupleIdx
          else f.lastActiveTupleIndex }
    else none

/-- `init(Table*)`'s loop over the table's active tuples, in the table's order. -/
def initActiveTuples (f : TableTupleFilter) (tupleAddresses : List UInt64)
    : Option TableTupleFilter :=
  tupleAddresses.foldlM initActiveTuple f

/-- `updateTuple`: overwrite an active tuple's marker and return its slot. `none` is a failed
assertion: the slot is past the last active one, or still `INACTIVE_TUPLE`.
-/
def updateTuple (f : TableTupleFilter) (tupleAddress : UInt64) (marker : Int8)
    : Option (UInt64 × TableTupleFilter) :=
  (f.getTupleIndex tupleAddress).bind fun (tupleIdx, f) =>
    if tupleIdx ≤ f.lastActiveTupleIndex ∧ f.lastActiveTupleIndex ≠ invalidIndex then
      match f.tuples[tupleIdx.toNat]? with
      | some value =>
          if value ≠ inactiveTuple then
            some (tupleIdx, { f with tuples := f.tuples.set tupleIdx.toNat marker })
          else none
      | none => none
    else none

/-- A caller's pass of `updateTuple` calls, each tuple address with its new marker. -/
def updateTuples (f : TableTupleFilter) (updates : List (UInt64 × Int8))
    : Option TableTupleFilter :=
  updates.foldlM (fun f update => (f.updateTuple update.1 update.2).map Prod.snd) f

-----------------------------------------------------------------------------------------
-- The marker iterator
-----------------------------------------------------------------------------------------

/-- The do-while loop of `TableTupleFilter_iter::increment`, entered after its first
`++m_tupleIdx`: stop past `lastActiveTupleIndex` or on a slot holding `marker`. `none` is a
failed `getTupleValue` assertion or an exhausted `fuel`.
-/
def incrementLoop (f : TableTupleFilter) (marker : Int8) (lastActiveTupleIndex : UInt64)
    : Nat → UInt64 → Option UInt64
  | 0, _ => none
  | fuel + 1, tupleIdx =>
      if tupleIdx ≤ lastActiveTupleIndex then
        match f.getTupleValue tupleIdx with
        | some value =>
            if value ≠ marker then
              incrementLoop f marker lastActiveTupleIndex fuel (tupleIdx + 1)
            else some tupleIdx
        | none => none
      else some tupleIdx

/-- `increment`. The loop's state is one `uint64_t`, so a loop that runs for `2^64` rounds
never stops: that much fuel loses no terminating run.
-/
def increment (f : TableTupleFilter) (marker : Int8) (tupleIdx : UInt64) : Option UInt64 :=
  f.incrementLoop marker f.lastActiveTupleIndex UInt64.size (tupleIdx + 1)

/-- `begin<MARKER>()`: start at `INVALID_INDEX` and, unless the filter is empty, increment
once, wrapping to slot 0.
-/
def begin (f : TableTupleFilter) (marker : Int8) : Option UInt64 :=
  if f.empty then some invalidIndex else f.increment marker invalidIndex

/-- `end<MARKER>()`: one past the last active slot, or `INVALID_INDEX` when empty. -/
def end' (f : TableTupleFilter) : UInt64 :=
  if f.lastActiveTupleIndex ≠ invalidIndex then f.lastActiveTupleIndex + 1 else invalidIndex

/-- A caller's loop `for (it = begin; it != end; ++it) *it`, from the position `tupleIdx`. -/
def walk (f : TableTupleFilter) (marker : Int8) : Nat → UInt64 → Option (List UInt64)
  | 0, _ => none
  | fuel + 1, tupleIdx =>
      if tupleIdx = f.end' then some []
      else (f.increment marker tupleIdx).bind fun next =>
        (f.walk marker fuel next).map (tupleIdx :: ·)

/-- The slots a full pass of the `MARKER` iterator dereferences, from `begin` to `end`. -/
def markedTuples (f : TableTupleFilter) (marker : Int8) : Option (List UInt64) :=
  (f.begin marker).bind (f.walk marker UInt64.size)

-----------------------------------------------------------------------------------------
-- From slots back to addresses
-----------------------------------------------------------------------------------------

/-- `getTupleAddress`, as written: the tuple's offset in its block is taken as the slot index
minus the block number. `none` is a failed assertion.
-/
def getTupleAddress (f : TableTupleFilter) (tupleIdx : UInt64) : Option UInt64 :=
  if tupleIdx.toNat < f.tuples.length then
    let blockIdx := tupleIdx / f.tuplesPerBlock.toUInt64
    f.blocks[blockIdx.toNat]?.map
      fun block => block + (tupleIdx - blockIdx) * f.tupleLength.toUInt64
  else none

end TableTupleFilter

/-- The failing input of the address inverse: two blocks of four 16-byte tuples at 4096 and
8192. The second tuple of the second block, at 8208, has slot 5, and `getTupleAddress 5`
is 8256 = 8192 + (5 - 1) * 16, the address of no tuple of that block's first four.
-/
theorem getTupleAddress_second_block :
    (TableTupleFilter.init [4096, 8192] 4 16).tupleIndex 8208 = some 5
      ∧ (TableTupleFilter.init [4096, 8192] 4 16).getTupleAddress 5 = some 8256 := by
  decide

end VoltDB.Storage
