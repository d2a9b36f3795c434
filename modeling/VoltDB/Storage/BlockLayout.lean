import VoltDB.Storage.TableTupleFilter
import Mathlib.Data.List.GetD

/-! The block geometry of a tuple filter and the translation of tuple addresses into slots.
Whatever its cache holds, `getTupleIndex` computes the slot of the class comment's equation.
-/

namespace VoltDB.Storage

-----------------------------------------------------------------------------------------
-- Word arithmetic
-----------------------------------------------------------------------------------------

theorem uint64_le_iff {x y : UInt64} : x ≤ y ↔ x.toNat ≤ y.toNat := by
  simp [UInt64.le_def, BitVec.le_def, UInt64.toNat]

theorem uint64_lt_iff {x y : UInt64} : x < y ↔ x.toNat < y.toNat := by
  simp [UInt64.lt_def, BitVec.lt_def, UInt64.toNat]

@[simp] theorem toNat_invalidIndex : invalidIndex.toNat = UInt64.size - 1 :=
  UInt64.toNat_ofNat_of_lt (by decide)

theorem eq_invalidIndex_iff {x : UInt64} : x = invalidIndex ↔ x.toNat = UInt64.size - 1 := by
  rw [UInt64.ext_iff, toNat_invalidIndex]

namespace TableTupleFilter

-----------------------------------------------------------------------------------------
-- Aligned tuples and the layout invariant
-----------------------------------------------------------------------------------------

/-- `tupleAddress` is the address of tuple `k` of block number `b`: an aligned position
inside an enumerated block.
-/
structure TupleAt (f : TableTupleFilter) (tupleAddress : UInt64) (b k : Nat) : Prop where
  block_lt : b < f.blocks.length
  slot_lt : k < f.tuplesPerBlock.toNat
  address_eq : tupleAddress.toNat = (f.blocks.getD b 0).toNat + k * f.tupleLength.toNat

/-- The geometry `init` sets up and every later operation keeps: positive sizes, one slot per
tuple position (a `size_t` count), enumerated blocks that share no byte, the offsets held in
`m_blockIndexes`, and a cache that is a real block with its offset wherever it meets one.
-/
structure Layout (f : TableTupleFilter) : Prop where
  tuplesPerBlock_pos : 0 < f.tuplesPerBlock.toNat
  tupleLength_pos : 0 < f.tupleLength.toNat
  tuples_length : f.tuples.length = f.blocks.length * f.tuplesPerBlock.toNat
  tuples_length_lt : f.tuples.length < UInt64.size
  disjoint : ∀ i j address, i < f.blocks.length → j < f.blocks.length →
    f.InBlock (f.blocks.getD i 0) address → f.InBlock (f.blocks.getD j 0) address → i = j
  blockIndexes : ∀ b, b < f.blocks.length →
    f.blockIndexes.lookup (f.blocks.getD b 0) = some (UInt64.ofNat (b * f.tuplesPerBlock.toNat))
  cache : ∀ b address, b < f.blocks.length →
    f.InBlock f.prevBlockAddress address → f.InBlock (f.blocks.getD b 0) address →
      f.prevBlockAddress = f.blocks.getD b 0 ∧
        f.prevBlockIndex = UInt64.ofNat (b * f.tuplesPerBlock.toNat)

/-- The filter with its cache refreshed to block number `b`, as `findBlockIndex` leaves it. -/
def recache (f : TableTupleFilter) (b : Nat) : TableTupleFilter :=
  { f with
    prevBlockAddress := f.blocks.getD b 0
    prevBlockIndex := UInt64.ofNat (b * f.tuplesPerBlock.toNat) }

@[simp] theorem recache_tuples (f : TableTupleFilter) (b : Nat) : (f.recache b).tuples = f.tuples :=
  rfl

@[simp] theorem recache_blocks (f : TableTupleFilter) (b : Nat) : (f.recache b).blocks = f.blocks :=
  rfl

@[simp] theorem recache_tuplesPerBlock (f : TableTupleFilter) (b : Nat)
    : (f.recache b).tuplesPerBlock = f.tuplesPerBlock :=
  rfl

@[simp] theorem recache_tupleLength (f : TableTupleFilter) (b : Nat)
    : (f.recache b).tupleLength = f.tupleLength :=
  rfl

@[simp] theorem recache_lastActiveTupleIndex (f : TableTupleFilter) (b : Nat)
    : (f.recache b).lastActiveTupleIndex = f.lastActiveTupleIndex :=
  rfl

variable {f : TableTupleFilter} {a : UInt64} {b k : Nat}

/-- A tuple's position does not involve the cache. -/
theorem TupleAt.recache (h : TupleAt f a b k) (b' : Nat) : TupleAt (f.recache b') a b k :=
  ⟨h.block_lt, h.slot_lt, h.address_eq⟩

/-- An aligned tuple lies in its own block's span, as `k < tuplesPerBlock`. -/
theorem TupleAt.inBlock (h : TupleAt f a b k) (hl : 0 < f.tupleLength.toNat)
    : f.InBlock (f.blocks.getD b 0) a.toNat := by
  have := Nat.mul_lt_mul_of_pos_right h.slot_lt hl
  simp only [InBlock, h.address_eq]
  omega

/-- An aligned tuple's slot is below the slot count: `k + b * tpb < (b + 1) * tpb`. -/
theorem Layout.slot_lt (hf : Layout f) (h : TupleAt f a b k)
    : k + b * f.tuplesPerBlock.toNat < f.tuples.length := by
  have := Nat.mul_le_mul_right f.tuplesPerBlock.toNat (Nat.succ_le_of_lt h.block_lt)
  rw [Nat.succ_mul] at this
  have := h.slot_lt
  rw [hf.tuples_length]
  omega

/-- An aligned tuple's slot is a `uint64_t` value, as the slot count is a `size_t`. -/
theorem Layout.toNat_slot (hf : Layout f) (h : TupleAt f a b k)
    : (UInt64.ofNat (k + b * f.tuplesPerBlock.toNat)).toNat = k + b * f.tuplesPerBlock.toNat :=
  UInt64.toNat_ofNat_of_lt (Nat.lt_trans (hf.slot_lt h) hf.tuples_length_lt)

/-- A block that holds an aligned tuple of block `b` is block `b`, by disjointness. -/
theorem Layout.block_unique (hf : Layout f) (h : TupleAt f a b k) {j : Nat}
    (hj : j < f.blocks.length) (hin : f.InBlock (f.blocks.getD j 0) a.toNat)
    : j = b :=
  hf.disjoint j b a.toNat hj h.block_lt hin (h.inBlock hf.tupleLength_pos)

/-- The block search of `findBlockIndex` finds block `b` for its aligned tuples. -/
theorem Layout.find?_block (hf : Layout f) (h : TupleAt f a b k)
    : f.blocks.find? (fun block => decide (f.InBlock block a.toNat))
      = some (f.blocks.getD b 0) := by
  have member : f.blocks.getD b 0 ∈ f.blocks := by
    rw [List.getD_eq_getElem _ _ h.block_lt]
    exact List.getElem_mem _
  have exists_block : (f.blocks.find? fun block => decide (f.InBlock block a.toNat)).isSome :=
    List.find?_isSome.mpr ⟨_, member, decide_eq_true (h.inBlock hf.tupleLength_pos)⟩
  obtain ⟨found, hfound⟩ := Option.isSome_iff_exists.mp exists_block
  obtain ⟨j, hj, rfl⟩ := List.mem_iff_getElem.mp (List.mem_of_find?_eq_some hfound)
  have hin : f.InBlock (f.blocks.getD j 0) a.toNat := by
    rw [List.getD_eq_getElem _ _ hj]
    simpa using List.find?_some hfound
  obtain rfl := hf.block_unique h hj hin
  rw [hfound, List.getD_eq_getElem _ _ hj]

/-- `findBlockIndex` resolves an aligned tuple to its block's offset and caches the block,
from the cache or from the block search alike.
-/
theorem Layout.findBlockIndex_eq (hf : Layout f) (h : TupleAt f a b k)
    : f.findBlockIndex a = some (UInt64.ofNat (b * f.tuplesPerBlock.toNat), f.recache b) := by
  unfold findBlockIndex
  split
  case isTrue hit =>
      obtain ⟨address, index⟩ :=
        hf.cache b a.toNat h.block_lt hit (h.inBlock hf.tupleLength_pos)
      simp only [recache, ← address, ← index]
  case isFalse =>
      simp only [hf.find?_block h, Option.bind_eq_bind, Option.some_bind,
        hf.blockIndexes b h.block_lt, Option.pure_def, recache]

/-- `getTupleIndex` computes slot `k + b * tuplesPerBlock` for tuple `k` of block `b`. -/
theorem Layout.getTupleIndex_eq (hf : Layout f) (h : TupleAt f a b k)
    : f.getTupleIndex a
      = some (UInt64.ofNat (k + b * f.tuplesPerBlock.toNat), f.recache b) := by
  have bound := hf.slot_lt h
  have size := hf.tuples_length_lt
  have offset : k * f.tupleLength.toNat / f.tupleLength.toNat = k :=
    Nat.mul_div_cancel k hf.tupleLength_pos
  have within : (f.blocks.getD b 0) ≤ a := by
    rw [uint64_le_iff, h.address_eq]
    omega
  simp only [getTupleIndex, hf.findBlockIndex_eq h, Option.bind_eq_bind, Option.some_bind,
    Option.pure_def, Option.some.injEq, Prod.mk.injEq, and_true]
  apply UInt64.ext
  simp only [recache, UInt64.toNat_add, UInt64.toNat_div, UInt64.toNat_sub_of_le _ _ within,
    UInt32.toUInt64_toNat, h.address_eq, Nat.add_sub_cancel_left, offset]
  rw [UInt64.toNat_ofNat_of_lt (by omega), UInt64.toNat_ofNat_of_lt (by omega)]
  exact Nat.mod_eq_of_lt (by omega)

/-- The slot `getTupleIndex` resolves for tuple `k` of block `b`. -/
theorem Layout.tupleIndex_eq (hf : Layout f) (h : TupleAt f a b k)
    : f.tupleIndex a = some (UInt64.ofNat (k + b * f.tuplesPerBlock.toNat)) := by
  simp [tupleIndex, hf.getTupleIndex_eq h]

/-- The class comment's equation gives slot `k + b * tuplesPerBlock` to tuple `k` of block `b`:
block `b` is the first one whose span holds the address.
-/
theorem Layout.slotIndex_eq (hf : Layout f) (h : TupleAt f a b k)
    : f.slotIndex a = k + b * f.tuplesPerBlock.toNat := by
  have first : f.blocks.findIdx (fun block => decide (f.InBlock block a.toNat)) = b := by
    rw [List.findIdx_eq h.block_lt]
    refine ⟨by simpa [← List.getD_eq_getElem _ 0 h.block_lt] using
      h.inBlock hf.tupleLength_pos, fun j hj => ?_⟩
    have hjn : j < f.blocks.length := by have := h.block_lt; omega
    simp only [decide_eq_false_iff_not]
    intro hin
    have := hf.block_unique h hjn (by rwa [List.getD_eq_getElem _ _ hjn])
    omega
  simp only [slotIndex, first]
  rw [h.address_eq, Nat.add_sub_cancel_left, Nat.mul_div_cancel _ hf.tupleLength_pos]

/-- Distinct aligned tuples have distinct slots: the slot fixes the block number (the
quotient by `tuplesPerBlock`) and the tuple within it (the remainder).
-/
theorem Layout.tupleAt_inj (hf : Layout f) {a' : UInt64} {b' k' : Nat} (h : TupleAt f a b k)
    (h' : TupleAt f a' b' k') (same : k + b * f.tuplesPerBlock.toNat = k' + b' * f.tuplesPerBlock.toNat)
    : a = a' := by
  have quotient := congrArg (· / f.tuplesPerBlock.toNat) same
  have remainder := congrArg (· % f.tuplesPerBlock.toNat) same
  simp only [Nat.add_mul_div_right _ _ hf.tuplesPerBlock_pos, Nat.add_mul_mod_self_right,
    Nat.div_eq_of_lt h.slot_lt, Nat.div_eq_of_lt h'.slot_lt, Nat.mod_eq_of_lt h.slot_lt,
    Nat.mod_eq_of_lt h'.slot_lt, Nat.zero_add] at quotient remainder
  subst quotient remainder
  exact UInt64.ext (h.address_eq.trans h'.address_eq.symm)

-----------------------------------------------------------------------------------------
-- Operations that keep the layout
-----------------------------------------------------------------------------------------

/-- Refreshing the cache with a real block and its offset keeps the layout. -/
theorem Layout.recache (hf : Layout f) (hb : b < f.blocks.length)
    : Layout (f.recache b) where
  tuplesPerBlock_pos := hf.tuplesPerBlock_pos
  tupleLength_pos := hf.tupleLength_pos
  tuples_length := hf.tuples_length
  tuples_length_lt := hf.tuples_length_lt
  disjoint := hf.disjoint
  blockIndexes := hf.blockIndexes
  cache j address hj hin hjn := by
    obtain rfl := hf.disjoint b j address hb hj hin hjn
    exact ⟨rfl, rfl⟩

/-- Rewriting markers, at the same count, or the last active slot keeps the layout. -/
theorem Layout.withTuples (hf : Layout f) {tuples : List Int8}
    (hlen : tuples.length = f.tuples.length) (last : UInt64)
    : Layout { f with tuples := tuples, lastActiveTupleIndex := last } where
  tuplesPerBlock_pos := hf.tuplesPerBlock_pos
  tupleLength_pos := hf.tupleLength_pos
  tuples_length := hlen.trans hf.tuples_length
  tuples_length_lt := hlen ▸ hf.tuples_length_lt
  disjoint := hf.disjoint
  blockIndexes := hf.blockIndexes
  cache := hf.cache

-----------------------------------------------------------------------------------------
-- The layout `init` builds
-----------------------------------------------------------------------------------------

/-- The block directory `init` builds, `(address, offset)` per enumerated block, finds each
block's own offset when no earlier block has the same address, by induction on the blocks.
-/
theorem lookup_enumFrom (offset : Nat → UInt64) {blocks : List UInt64} {s b : Nat}
    (hb : b < blocks.length) (first : ∀ j < b, blocks.getD j 0 ≠ blocks.getD b 0)
    : ((blocks.enumFrom s).map fun entry => (entry.2, offset entry.1)).lookup (blocks.getD b 0)
      = some (offset (s + b)) := by
  induction blocks generalizing s b with
  | nil => simp at hb
  | cons block rest ih =>
      cases b with
      | zero => simp
      | succ b =>
          have differs : (rest.getD b 0 == block) = false :=
            beq_false_of_ne (first 0 (Nat.succ_pos b)).symm
          simp only [List.enumFrom_cons, List.map_cons, List.getD_cons_succ, List.lookup_cons,
            differs]
          rw [ih (Nat.lt_of_succ_lt_succ hb) fun j hj => first (j + 1) (Nat.succ_lt_succ hj)]
          rw [Nat.add_right_comm, Nat.add_assoc]

/-- Blocks `apart` by at least a span share no byte, so no address lies in two of them. -/
theorem disjoint_of_apart {blocks : List UInt64} {span : Nat}
    (apart : blocks.Pairwise fun x y => x.toNat + span ≤ y.toNat ∨ y.toNat + span ≤ x.toNat)
    {i j address : Nat} (hi : i < blocks.length) (hj : j < blocks.length)
    (ini : (blocks.getD i 0).toNat ≤ address ∧ address < (blocks.getD i 0).toNat + span)
    (inj : (blocks.getD j 0).toNat ≤ address ∧ address < (blocks.getD j 0).toNat + span)
    : i = j := by
  rw [List.getD_eq_getElem _ _ hi] at ini
  rw [List.getD_eq_getElem _ _ hj] at inj
  rcases Nat.lt_trichotomy i j with lt | eq | gt
  · have := List.pairwise_iff_getElem.mp apart i j hi hj lt
    omega
  · exact eq
  · have := List.pairwise_iff_getElem.mp apart j i hj hi gt
    omega

/-- The spec-modelled `init` establishes the layout for positive sizes, a slot count that
fits a `size_t`, and blocks that do not overlap.
-/
theorem init_layout (blocks : List UInt64) (tuplesPerBlock tupleLength : UInt32)
    (positive : 0 < tuplesPerBlock.toNat) (sized : 0 < tupleLength.toNat)
    (fits : blocks.length * tuplesPerBlock.toNat < UInt64.size)
    (apart : blocks.Pairwise fun x y =>
      x.toNat + tuplesPerBlock.toNat * tupleLength.toNat ≤ y.toNat
        ∨ y.toNat + tuplesPerBlock.toNat * tupleLength.toNat ≤ x.toNat)
    : Layout (init blocks tuplesPerBlock tupleLength) := by
  have disjoint : ∀ i j address, i < blocks.length → j < blocks.length →
      (init blocks tuplesPerBlock tupleLength).InBlock (blocks.getD i 0) address →
      (init blocks tuplesPerBlock tupleLength).InBlock (blocks.getD j 0) address → i = j :=
    fun _ _ _ hi hj ini inj => disjoint_of_apart apart hi hj ini inj
  have span := Nat.mul_pos positive sized
  refine ⟨positive, sized, by simp [init], by simpa [init] using fits, disjoint, ?_, ?_⟩
  · intro b hb
    change b < blocks.length at hb
    have distinct : ∀ j < b, blocks.getD j 0 ≠ blocks.getD b 0 := by
      intro j hj same
      have := disjoint j b (blocks.getD b 0).toNat (by omega) hb
        (by simp only [InBlock, init, same]; omega) (by simp only [InBlock, init]; omega)
      omega
    simpa using lookup_enumFrom (fun j => UInt64.ofNat (j * tuplesPerBlock.toNat))
      (s := 0) hb distinct
  · intro b address hb hprev hin
    change b < blocks.length at hb
    cases blocks with
    | nil => simp at hb
    | cons block rest =>
        obtain rfl := disjoint 0 b address (Nat.succ_pos _) hb hprev hin
        simp [init]

-----------------------------------------------------------------------------------------
-- Lookups through the cache
-----------------------------------------------------------------------------------------

/-- The cached lookup agrees with the plain equation over every sequence of lookups: whatever
block the cache holds at the start and however the addresses alternate between blocks, each
`getTupleIndex` of aligned tuples returns the slot of the class comment's equation, by
induction on the lookups.
-/
theorem getTupleIndices_eq (f : TableTupleFilter) (hf : Layout f) (tupleAddresses : List UInt64)
    (aligned : ∀ a ∈ tupleAddresses, ∃ b k, TupleAt f a b k)
    : f.getTupleIndices tupleAddresses
      = some (tupleAddresses.map fun a => UInt64.ofNat (f.slotIndex a)) := by
  induction tupleAddresses generalizing f with
  | nil => rfl
  | cons a rest ih =>
      obtain ⟨b, k, h⟩ := aligned a (List.mem_cons_self a rest)
      have later := ih (f.recache b) (hf.recache h.block_lt) fun a' member => by
        obtain ⟨b', k', h'⟩ := aligned a' (List.mem_cons_of_mem a member)
        exact ⟨b', k', h'.recache b⟩
      simp only [getTupleIndices, hf.getTupleIndex_eq h, Option.some_bind, later,
        Option.map_some', List.map_cons, hf.slotIndex_eq h]
      rfl

end TableTupleFilter

/-- The spec's worked table has a layout: two blocks at 4096 and 8192, four 16-byte tuples
each.
-/
theorem specTable_layout : TableTupleFilter.Layout (TableTupleFilter.init [4096, 8192] 4 16) :=
  TableTupleFilter.init_layout _ _ _ (by decide) (by decide) (by decide) (by decide)

/-- The spec's active tuples sit at slots 0, 1 and 3 of the first block and 2 of the second. -/
theorem specTable_aligned : ∀ a ∈ ([4096, 4112, 4144, 8224] : List UInt64),
    ∃ b k, (TableTupleFilter.init [4096, 8192] 4 16).TupleAt a b k := by
  intro a member
  simp only [List.mem_cons, List.mem_singleton, List.not_mem_nil, or_false] at member
  rcases member with rfl | rfl | rfl | rfl
  exacts [⟨0, 0, by decide, by decide, by decide⟩, ⟨0, 1, by decide, by decide, by decide⟩,
    ⟨0, 3, by decide, by decide, by decide⟩, ⟨1, 2, by decide, by decide, by decide⟩]

/-- Lookups that alternate between the spec table's blocks, in any order, resolve each tuple to
its slot.
-/
theorem getTupleIndices_spec_table :
    TableTupleFilter.Layout (TableTupleFilter.init [4096, 8192] 4 16)
      ∧ (∀ a ∈ ([8224, 4096, 8224, 4144] : List UInt64),
          ∃ b k, (TableTupleFilter.init [4096, 8192] 4 16).TupleAt a b k)
      ∧ (TableTupleFilter.init [4096, 8192] 4 16).getTupleIndices [8224, 4096, 8224, 4144]
        = some (([8224, 4096, 8224, 4144] : List UInt64).map fun a =>
            UInt64.ofNat ((TableTupleFilter.init [4096, 8192] 4 16).slotIndex a)) :=
  have aligned : ∀ a ∈ ([8224, 4096, 8224, 4144] : List UInt64),
      ∃ b k, (TableTupleFilter.init [4096, 8192] 4 16).TupleAt a b k := fun a member =>
    specTable_aligned a (by simp only [List.mem_cons, List.mem_singleton] at member ⊢; tauto)
  ⟨specTable_layout, aligned,
    TableTupleFilter.getTupleIndices_eq _ specTable_layout _ aligned⟩

namespace TableTupleFilter

variable {f : TableTupleFilter} {a : UInt64} {b k : Nat}

-----------------------------------------------------------------------------------------
-- From slots back to addresses
-----------------------------------------------------------------------------------------

/-- The spec's `RecoverAddress`, derived from the forward formula: the block's address plus
the slot's distance from the block's first slot, times the tuple length.
-/
def recoverAddress (f : TableTupleFilter) (tupleIdx : UInt64) : Option UInt64 :=
  if tupleIdx.toNat < f.tuples.length then
    let blockIdx := tupleIdx / f.tuplesPerBlock.toUInt64
    f.blocks[blockIdx.toNat]?.map fun block =>
      block + (tupleIdx - blockIdx * f.tuplesPerBlock.toUInt64) * f.tupleLength.toUInt64
  else none


/-- Dividing the slot of tuple `k` of block `b` by `tuplesPerBlock`, as both inverses do,
gives back block `b`.
-/
theorem Layout.slot_div (hf : Layout f) (h : TupleAt f a b k)
    : (UInt64.ofNat (k + b * f.tuplesPerBlock.toNat) / f.tuplesPerBlock.toUInt64).toNat = b := by
  rw [UInt64.toNat_div, hf.toNat_slot h, UInt32.toUInt64_toNat,
    Nat.add_mul_div_right _ _ hf.tuplesPerBlock_pos, Nat.div_eq_of_lt h.slot_lt, Nat.zero_add]

/-- The block lookup both inverses make on an aligned tuple's slot finds its block. -/
theorem Layout.blocks_slot_div (hf : Layout f) (h : TupleAt f a b k)
    : f.blocks[(UInt64.ofNat (k + b * f.tuplesPerBlock.toNat)
        / f.tuplesPerBlock.toUInt64).toNat]? = some (f.blocks.getD b 0) := by
  rw [hf.slot_div h, List.getD_eq_getElem _ _ h.block_lt, List.getElem?_eq_getElem h.block_lt]

/-- `getTupleAddress` inverts the slot of tuple `k` of block `b` exactly when
`b * (tuplesPerBlock - 1) * tupleLength` is a multiple of `2^64`: it counts `b` slots too many,
one per block before `b` times `tuplesPerBlock - 1`. On block 0, or with one tuple per block,
it is exact; elsewhere it is not.
-/
theorem Layout.getTupleAddress_slot_iff (hf : Layout f) (h : TupleAt f a b k)
    : f.getTupleAddress (UInt64.ofNat (k + b * f.tuplesPerBlock.toNat)) = some a
      ↔ b * (f.tuplesPerBlock.toNat - 1) * f.tupleLength.toNat % UInt64.size = 0 := by
  have fits : a.toNat < UInt64.size := UInt64.toNat_lt_size a
  have slot := hf.toNat_slot h
  have blocks_before : b ≤ k + b * f.tuplesPerBlock.toNat :=
    Nat.le_trans (Nat.le_mul_of_pos_right b hf.tuplesPerBlock_pos) (Nat.le_add_left _ _)
  have steps : (k + b * f.tuplesPerBlock.toNat - b) * f.tupleLength.toNat
      = k * f.tupleLength.toNat + b * (f.tuplesPerBlock.toNat - 1) * f.tupleLength.toNat := by
    rw [Nat.mul_sub_one, ← Nat.add_mul]
    congr 1
    have := Nat.le_mul_of_pos_right b hf.tuplesPerBlock_pos
    omega
  have below : UInt64.ofNat (k + b * f.tuplesPerBlock.toNat) / f.tuplesPerBlock.toUInt64
      ≤ UInt64.ofNat (k + b * f.tuplesPerBlock.toNat) := by
    rw [uint64_le_iff, hf.slot_div h, slot]
    exact blocks_before
  simp only [getTupleAddress, slot, hf.slot_lt h, if_true, hf.blocks_slot_div h,
    Option.map_some', Option.some.injEq, UInt64.ext_iff]
  rw [UInt64.toNat_add, UInt64.toNat_mul, UInt64.toNat_sub_of_le _ _ below, hf.slot_div h, slot,
    UInt32.toUInt64_toNat, steps, h.address_eq]
  rw [h.address_eq] at fits
  simp only [UInt64.size] at fits ⊢
  omega

/-- The inverse the spec derives from the forward formula undoes `getTupleIndex` on every
aligned tuple of every layout, from a slot `m_tuples` holds, and `getTupleAddress` agrees with
it there exactly when `b * (tuplesPerBlock - 1) * tupleLength` is a multiple of `2^64`: the
repair of `getTupleAddress` is to subtract the block's first slot, `blockIdx * tuplesPerBlock`,
instead of `blockIdx`.
-/
theorem Layout.recoverAddress_tupleIndex (hf : Layout f) (h : TupleAt f a b k)
    : ∃ tupleIdx, f.tupleIndex a = some tupleIdx ∧ tupleIdx.toNat < f.tuples.length
        ∧ f.recoverAddress tupleIdx = some a
        ∧ (f.getTupleAddress tupleIdx = f.recoverAddress tupleIdx
          ↔ b * (f.tuplesPerBlock.toNat - 1) * f.tupleLength.toNat % UInt64.size = 0) := by
  have fits := UInt64.toNat_lt_size a
  have slot := hf.toNat_slot h
  rw [h.address_eq] at fits
  have first : ((UInt64.ofNat (k + b * f.tuplesPerBlock.toNat) / f.tuplesPerBlock.toUInt64)
      * f.tuplesPerBlock.toUInt64).toNat = b * f.tuplesPerBlock.toNat := by
    rw [UInt64.toNat_mul, hf.slot_div h, UInt32.toUInt64_toNat, Nat.mod_eq_of_lt]
    have := hf.slot_lt h
    have := hf.tuples_length_lt
    omega
  have below : (UInt64.ofNat (k + b * f.tuplesPerBlock.toNat) / f.tuplesPerBlock.toUInt64)
      * f.tuplesPerBlock.toUInt64 ≤ UInt64.ofNat (k + b * f.tuplesPerBlock.toNat) := by
    rw [uint64_le_iff, first, slot]
    omega
  have within : ((UInt64.ofNat (k + b * f.tuplesPerBlock.toNat)
      - UInt64.ofNat (k + b * f.tuplesPerBlock.toNat) / f.tuplesPerBlock.toUInt64
        * f.tuplesPerBlock.toUInt64) * f.tupleLength.toUInt64).toNat
      = k * f.tupleLength.toNat := by
    rw [UInt64.toNat_mul, UInt64.toNat_sub_of_le _ _ below, first, slot, UInt32.toUInt64_toNat,
      Nat.add_sub_cancel, Nat.mod_eq_of_lt (by omega)]
  have recovered : f.recoverAddress (UInt64.ofNat (k + b * f.tuplesPerBlock.toNat)) = some a := by
    simp only [recoverAddress, slot, hf.slot_lt h, if_true, hf.blocks_slot_div h,
      Option.map_some', Option.some.injEq]
    apply UInt64.ext
    rw [UInt64.toNat_add, within, h.address_eq, Nat.mod_eq_of_lt fits]
  refine ⟨_, hf.tupleIndex_eq h, by rw [slot]; exact hf.slot_lt h, recovered, ?_⟩
  rw [recovered]
  exact hf.getTupleAddress_slot_iff h

/-- On the spec's worked table the inverse takes slot 5, of the tuple at 8208, back to 8208,
which `getTupleAddress` misses: block 1 is a block of four 16-byte tuples.
-/
theorem recoverAddress_spec_table :
    Layout (init [4096, 8192] 4 16) ∧ TupleAt (init [4096, 8192] 4 16) 8208 1 1
      ∧ ∃ tupleIdx, (init [4096, 8192] 4 16).tupleIndex 8208 = some tupleIdx
        ∧ tupleIdx.toNat < (init [4096, 8192] 4 16).tuples.length
        ∧ (init [4096, 8192] 4 16).recoverAddress tupleIdx = some 8208
        ∧ ((init [4096, 8192] 4 16).getTupleAddress tupleIdx
            = (init [4096, 8192] 4 16).recoverAddress tupleIdx
          ↔ 1 * ((init [4096, 8192] 4 16).tuplesPerBlock.toNat - 1)
              * (init [4096, 8192] 4 16).tupleLength.toNat % UInt64.size = 0) :=
  have h : TupleAt (init [4096, 8192] 4 16) 8208 1 1 := ⟨by decide, by decide, by decide⟩
  ⟨specTable_layout, h, Layout.recoverAddress_tupleIndex specTable_layout h⟩

/-- With two blocks or more and several tuples per block, the first tuple of block 1 does not
come back: `getTupleAddress` maps it `tuplesPerBlock - 1` tuples too far, and that offset is
below `2^64` because both sizes are `uint32_t`.
-/
theorem Layout.roundTrip_block_one (hf : Layout f) (second : 1 < f.blocks.length)
    (several : 1 < f.tuplesPerBlock.toNat)
    : TupleAt f (f.blocks.getD 1 0) 1 0
      ∧ (f.tupleIndex (f.blocks.getD 1 0)).bind f.getTupleAddress ≠ some (f.blocks.getD 1 0) := by
  have first : TupleAt f (f.blocks.getD 1 0) 1 0 := ⟨second, hf.tuplesPerBlock_pos, by simp⟩
  refine ⟨first, ?_⟩
  rw [hf.tupleIndex_eq first, Option.some_bind, Ne, hf.getTupleAddress_slot_iff first]
  have narrow : (f.tuplesPerBlock.toNat - 1) * f.tupleLength.toNat < UInt64.size := by
    have := f.tuplesPerBlock.toNat_lt_size
    calc (f.tuplesPerBlock.toNat - 1) * f.tupleLength.toNat
        < UInt32.size * UInt32.size := Nat.mul_lt_mul'' (by omega) f.tupleLength.toNat_lt_size
      _ = UInt64.size := by decide
  have positive := Nat.mul_pos (show 0 < f.tuplesPerBlock.toNat - 1 by omega) hf.tupleLength_pos
  rw [Nat.one_mul, Nat.mod_eq_of_lt narrow]
  omega

/-- `getTupleAddress` undoes `getTupleIndex` on every tuple of a layout exactly when the table
has at most one block or one tuple per block. Otherwise the first tuple of block 1 already
fails: it is mapped `tuplesPerBlock - 1` tuples too far, an offset below `2^64` because both
sizes are `uint32_t`.
-/
theorem getTupleAddress_roundTrip_iff (f : TableTupleFilter) (hf : Layout f)
    : ((∀ a b k, TupleAt f a b k → (f.tupleIndex a).bind f.getTupleAddress = some a)
        ↔ f.blocks.length ≤ 1 ∨ f.tuplesPerBlock.toNat = 1)
      ∧ (1 < f.blocks.length → 1 < f.tuplesPerBlock.toNat →
          TupleAt f (f.blocks.getD 1 0) 1 0
          ∧ (f.tupleIndex (f.blocks.getD 1 0)).bind f.getTupleAddress
            ≠ some (f.blocks.getD 1 0)) := by
  refine ⟨⟨fun roundTrip => ?_, fun small a b k h => ?_⟩, hf.roundTrip_block_one⟩
  · by_contra neither
    obtain ⟨first, fails⟩ := hf.roundTrip_block_one (by omega)
      (by have := hf.tuplesPerBlock_pos; omega)
    exact fails (roundTrip _ _ _ first)
  · rw [hf.tupleIndex_eq h, Option.some_bind, hf.getTupleAddress_slot_iff h]
    rcases small with one_block | one_tuple
    · have := h.block_lt
      obtain rfl : b = 0 := by omega
      simp
    · simp [one_tuple]

end TableTupleFilter

/-- The spec's worked table has two blocks of four tuples, so `getTupleAddress` does not undo
`getTupleIndex` on all of its tuples.
-/
theorem getTupleAddress_roundTrip_spec_table :
    TableTupleFilter.Layout (TableTupleFilter.init [4096, 8192] 4 16)
      ∧ ¬ ∀ a b k, (TableTupleFilter.init [4096, 8192] 4 16).TupleAt a b k →
          ((TableTupleFilter.init [4096, 8192] 4 16).tupleIndex a).bind
            (TableTupleFilter.init [4096, 8192] 4 16).getTupleAddress = some a :=
  ⟨specTable_layout, fun roundTrip => absurd
    ((TableTupleFilter.getTupleAddress_roundTrip_iff _ specTable_layout).1.mp roundTrip)
    (by decide)⟩

end VoltDB.Storage
