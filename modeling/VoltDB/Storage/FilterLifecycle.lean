import VoltDB.Storage.MarkerIterator
import Mathlib.Data.List.Nodup
import Mathlib.Data.List.MinMax

/-! Whole runs of a tuple filter: initialization marks each active tuple once, updates rewrite
markers of active tuples, and the marker iterator then refines the spec's abstract marker map.
-/

namespace VoltDB.Storage

namespace TableTupleFilter

-----------------------------------------------------------------------------------------
-- Runs keep the geometry
-----------------------------------------------------------------------------------------

/-- Two filters over the same blocks and sizes: tuple positions and slots mean the same. -/
structure SameGeometry (f g : TableTupleFilter) : Prop where
  blocks : g.blocks = f.blocks
  tuplesPerBlock : g.tuplesPerBlock = f.tuplesPerBlock
  tupleLength : g.tupleLength = f.tupleLength

variable {f g : TableTupleFilter} {a : UInt64} {b k : Nat}

theorem SameGeometry.refl (f : TableTupleFilter) : SameGeometry f f := ⟨rfl, rfl, rfl⟩

theorem SameGeometry.trans {h : TableTupleFilter} (fg : SameGeometry f g) (gh : SameGeometry g h)
    : SameGeometry f h :=
  ⟨gh.blocks.trans fg.blocks, gh.tuplesPerBlock.trans fg.tuplesPerBlock,
    gh.tupleLength.trans fg.tupleLength⟩

theorem SameGeometry.tupleAt (same : SameGeometry f g) (h : TupleAt f a b k) : TupleAt g a b k :=
  ⟨same.blocks ▸ h.block_lt, same.tuplesPerBlock ▸ h.slot_lt,
    same.blocks ▸ same.tupleLength ▸ h.address_eq⟩

theorem SameGeometry.slotIndex (same : SameGeometry f g) (address : UInt64)
    : g.slotIndex address = f.slotIndex address := by
  simp only [TableTupleFilter.slotIndex, InBlock, same.blocks, same.tuplesPerBlock,
    same.tupleLength]

theorem sameGeometry_recache (f : TableTupleFilter) (b : Nat) : SameGeometry f (f.recache b) :=
  ⟨rfl, rfl, rfl⟩

theorem sameGeometry_with (f : TableTupleFilter) (tuples : List Int8) (last : UInt64)
    : SameGeometry f { f with tuples := tuples, lastActiveTupleIndex := last } :=
  ⟨rfl, rfl, rfl⟩

-----------------------------------------------------------------------------------------
-- One initialization or update step
-----------------------------------------------------------------------------------------

/-- `initActiveTuple` on tuple `k` of block `b`: slot `k + b * tuplesPerBlock` must be
inactive; it becomes active and the last active index advances to it if it is past it.
-/
theorem Layout.initActiveTuple_eq (hf : Layout f) (h : TupleAt f a b k)
    : f.initActiveTuple a
      = if f.tuples[k + b * f.tuplesPerBlock.toNat]? = some inactiveTuple then
          some { f.recache b with
            tuples := f.tuples.set (k + b * f.tuplesPerBlock.toNat) activeTuple
            lastActiveTupleIndex :=
              if f.lastActiveTupleIndex = invalidIndex
                  ∨ f.lastActiveTupleIndex < UInt64.ofNat (k + b * f.tuplesPerBlock.toNat)
              then UInt64.ofNat (k + b * f.tuplesPerBlock.toNat)
              else f.lastActiveTupleIndex }
        else none := by
  simp only [initActiveTuple, hf.getTupleIndex_eq h, Option.some_bind, hf.toNat_slot h,
    recache_tuples, recache_lastActiveTupleIndex]

/-- `updateTuple` on tuple `k` of block `b`: the slot must be at most the last active one, which
must exist, and must not be inactive; it then takes the new marker.
-/
theorem Layout.updateTuple_eq (hf : Layout f) (h : TupleAt f a b k) (marker : Int8)
    : f.updateTuple a marker
      = if UInt64.ofNat (k + b * f.tuplesPerBlock.toNat) ≤ f.lastActiveTupleIndex
            ∧ f.lastActiveTupleIndex ≠ invalidIndex
            ∧ f.tuples[k + b * f.tuplesPerBlock.toNat]? ≠ some inactiveTuple then
          some (UInt64.ofNat (k + b * f.tuplesPerBlock.toNat),
            { f.recache b with tuples := f.tuples.set (k + b * f.tuplesPerBlock.toNat) marker })
        else none := by
  have present := hf.slot_lt h
  simp only [updateTuple, hf.getTupleIndex_eq h, Option.some_bind, hf.toNat_slot h,
    recache_tuples, recache_lastActiveTupleIndex, List.getElem?_eq_getElem present]
  by_cases window : UInt64.ofNat (k + b * f.tuplesPerBlock.toNat) ≤ f.lastActiveTupleIndex
      ∧ f.lastActiveTupleIndex ≠ invalidIndex
  · simp only [if_pos window, ne_eq, Option.some.injEq, window, true_and]
    split <;> simp_all
  · simp only [if_neg window]
    rw [if_neg (fun all => window ⟨all.1, all.2.1⟩)]

-----------------------------------------------------------------------------------------
-- Initialization runs
-----------------------------------------------------------------------------------------

/-- The filter `g` after `initActiveTuple` ran, from `f` with no tuple active, on tuples with
the distinct slots `marked`: those slots are active, the others as in `f`, and the last
active index is the largest of them.
-/
structure InitInv (f g : TableTupleFilter) (marked : List Nat) : Prop where
  layout : Layout g
  same : SameGeometry f g
  length : g.tuples.length = f.tuples.length
  nodup : marked.Nodup
  bounded : ∀ i ∈ marked, i < f.tuples.length
  tuples : ∀ i, g.tuples[i]? = if i ∈ marked then some activeTuple else f.tuples[i]?
  last : (marked = [] ∧ g.lastActiveTupleIndex = invalidIndex)
    ∨ (g.lastActiveTupleIndex.toNat ∈ marked ∧ ∀ i ∈ marked, i ≤ g.lastActiveTupleIndex.toNat)

/-- Nothing is marked before the first `initActiveTuple`. -/
theorem InitInv.start (hf : Layout f) (none_active : f.lastActiveTupleIndex = invalidIndex)
    : InitInv f f [] :=
  ⟨hf, .refl f, rfl, List.nodup_nil, by simp, by simp, .inl ⟨rfl, none_active⟩⟩

/-- A tuple whose slot is already marked fails the assertion of `initActiveTuple`. -/
theorem InitInv.initActiveTuple_marked (inv : InitInv f g marked) (h : TupleAt f a b k)
    (again : k + b * f.tuplesPerBlock.toNat ∈ marked)
    : g.initActiveTuple a = none := by
  rw [inv.layout.initActiveTuple_eq (inv.same.tupleAt h), inv.same.tuplesPerBlock, inv.tuples,
    if_pos again, if_neg (by decide)]

/-- A tuple with an inactive slot not yet marked is marked, and the last active index becomes
the largest marked slot.
-/
theorem InitInv.initActiveTuple_fresh (inv : InitInv f g marked) (hf : Layout f)
    (h : TupleAt f a b k) (fresh : k + b * f.tuplesPerBlock.toNat ∉ marked)
    (inactive : f.tuples[k + b * f.tuplesPerBlock.toNat]? = some inactiveTuple)
    : ∃ g', g.initActiveTuple a = some g'
        ∧ InitInv f g' (marked ++ [k + b * f.tuplesPerBlock.toNat]) := by
  have hg := inv.same.tupleAt h
  have slot := hf.slot_lt h
  have fits := hf.tuples_length_lt
  rw [inv.layout.initActiveTuple_eq hg, inv.same.tuplesPerBlock, inv.tuples, if_neg fresh,
    if_pos inactive]
  refine ⟨_, rfl, ?_⟩
  constructor
  case layout =>
      exact (inv.layout.recache hg.block_lt).withTuples (List.length_set ..) _
  case same => exact inv.same.trans ((sameGeometry_recache g b).trans (sameGeometry_with ..))
  case length => simp [inv.length]
  case nodup =>
      exact inv.nodup.append (List.nodup_singleton _) (List.disjoint_singleton.mpr fresh)
  case bounded =>
      intro i member
      rcases List.mem_append.mp member with old | new
      · exact inv.bounded i old
      · rw [List.mem_singleton.mp new]
        exact slot
  case tuples =>
      intro i
      simp only [recache_tuples, List.getElem?_set, inv.length, slot, if_true, inv.tuples,
        List.mem_append, List.mem_singleton]
      by_cases same : k + b * f.tuplesPerBlock.toNat = i
      · simp [same]
      · simp [same, Ne.symm same]
  case last =>
      simp only [recache_lastActiveTupleIndex, uint64_lt_iff, hf.toNat_slot h, eq_invalidIndex_iff]
      rcases inv.last with ⟨rfl, invalid⟩ | ⟨member, largest⟩
      · rw [eq_invalidIndex_iff] at invalid
        simp [invalid, hf.toNat_slot h]
      · have below := inv.bounded _ member
        have real : g.lastActiveTupleIndex.toNat ≠ UInt64.size - 1 := by omega
        right
        by_cases past : g.lastActiveTupleIndex.toNat < k + b * f.tuplesPerBlock.toNat
        · simp only [real, past, or_true, if_true, hf.toNat_slot h, List.mem_append,
            List.mem_singleton]
          refine ⟨by simp, fun i member => ?_⟩
          rcases member with old | rfl
          · exact Nat.le_of_lt (Nat.lt_of_le_of_lt (largest i old) past)
          · exact le_rfl
        · simp only [real, past, or_false, if_false, List.mem_append, List.mem_singleton]
          refine ⟨.inl member, fun i member => ?_⟩
          rcases member with old | rfl
          · exact largest i old
          · omega

/-- `initActiveTuples` over aligned tuples from an invariant state passes every assertion
exactly when all slots, the marked ones first, are distinct, and then marks them all. By
induction on the tuples.
-/
theorem InitInv.run (hf : Layout f) (fresh : ∀ x ∈ f.tuples, x = inactiveTuple)
    : ∀ (tupleAddresses : List UInt64) {g : TableTupleFilter} {marked : List Nat},
      InitInv f g marked → (∀ a ∈ tupleAddresses, ∃ b k, TupleAt f a b k) →
      ((g.initActiveTuples tupleAddresses).isSome
          ↔ (marked ++ tupleAddresses.map f.slotIndex).Nodup)
        ∧ ∀ g', g.initActiveTuples tupleAddresses = some g'
          → InitInv f g' (marked ++ tupleAddresses.map f.slotIndex)
  | [], g, marked, inv, _ => by
      simpa [initActiveTuples, inv.nodup] using inv
  | a :: rest, g, marked, inv, aligned => by
      obtain ⟨b, k, h⟩ := aligned a (List.mem_cons_self a rest)
      have aligned_rest := fun a' member => aligned a' (List.mem_cons_of_mem a member)
      simp only [initActiveTuples, List.foldlM_cons, List.map_cons, hf.slotIndex_eq h]
      by_cases again : k + b * f.tuplesPerBlock.toNat ∈ marked
      · rw [inv.initActiveTuple_marked h again, List.nodup_middle]
        simp [again]
      · have inactive : f.tuples[k + b * f.tuplesPerBlock.toNat]? = some inactiveTuple := by
          rw [List.getElem?_eq_getElem (hf.slot_lt h), fresh _ (List.getElem_mem _)]
        obtain ⟨g', step, inv'⟩ := inv.initActiveTuple_fresh hf h again inactive
        simp only [step, Option.bind_eq_bind, Option.some_bind]
        simpa only [List.append_assoc, List.singleton_append] using run hf fresh rest inv' aligned_rest

/-- For aligned tuples, `getTupleIndex` gives each its slot by the class comment's equation. -/
theorem Layout.map_tupleIndex (hf : Layout f) {tupleAddresses : List UInt64}
    (aligned : ∀ a ∈ tupleAddresses, ∃ b k, TupleAt f a b k)
    : tupleAddresses.map f.tupleIndex
      = (tupleAddresses.map f.slotIndex).map fun i => some (UInt64.ofNat i) := by
  rw [List.map_map]
  apply List.map_congr_left
  intro a member
  obtain ⟨b, k, h⟩ := aligned a member
  simp [hf.tupleIndex_eq h, hf.slotIndex_eq h]

/-- Slots below `2^64` are distinct exactly when their `uint64_t` values are. -/
theorem nodup_map_ofNat {slots : List Nat} (small : ∀ i ∈ slots, i < UInt64.size)
    : (slots.map fun i => some (UInt64.ofNat i)).Nodup ↔ slots.Nodup := by
  refine ⟨List.Nodup.of_map _, List.Nodup.map_on fun i hi j hj same => ?_⟩
  have := congrArg (fun x => (Option.getD x 0).toNat) same
  simpa [UInt64.toNat_ofNat_of_lt (small i hi), UInt64.toNat_ofNat_of_lt (small j hj)] using this

/-- A `uint64_t` value is among the values of slots below `2^64` exactly when its number is. -/
theorem mem_map_ofNat {slots : List Nat} (small : ∀ i ∈ slots, i < UInt64.size) (x : UInt64)
    : some x ∈ slots.map (fun i => some (UInt64.ofNat i)) ↔ x.toNat ∈ slots := by
  simp only [List.mem_map, Option.some.injEq]
  constructor
  · rintro ⟨i, member, rfl⟩
    rwa [UInt64.toNat_ofNat_of_lt (small i member)]
  · intro member
    exact ⟨x.toNat, member, UInt64.ext (UInt64.toNat_ofNat_of_lt (UInt64.toNat_lt_size x))⟩

/-- Initialization from a filter whose slots are all `INACTIVE_TUPLE` and whose last active
index is `INVALID_INDEX`, over aligned tuples in any order: it passes the assertion of
`initActiveTuple` exactly when the `getTupleIndex` slots are distinct. It then leaves
`ACTIVE_TUPLE` exactly in those slots, and the last active index is their largest, or
`INVALID_INDEX` exactly when there was no tuple; none of this depends on the order.
-/
theorem initActiveTuples_spec (f : TableTupleFilter) (hf : Layout f)
    (fresh : ∀ x ∈ f.tuples, x = inactiveTuple) (none_active : f.lastActiveTupleIndex = invalidIndex)
    (tupleAddresses : List UInt64) (aligned : ∀ a ∈ tupleAddresses, ∃ b k, TupleAt f a b k)
    : ((f.initActiveTuples tupleAddresses).isSome ↔ (tupleAddresses.map f.tupleIndex).Nodup)
      ∧ ∀ g, f.initActiveTuples tupleAddresses = some g →
        g.tuples.length = f.tuples.length
        ∧ (∀ i : UInt64, i.toNat < f.tuples.length → g.tuples[i.toNat]?
            = some (if some i ∈ tupleAddresses.map f.tupleIndex then activeTuple else inactiveTuple))
        ∧ (g.lastActiveTupleIndex = invalidIndex ↔ tupleAddresses = [])
        ∧ (tupleAddresses ≠ [] → some g.lastActiveTupleIndex ∈ tupleAddresses.map f.tupleIndex
            ∧ ∀ i, some i ∈ tupleAddresses.map f.tupleIndex → i ≤ g.lastActiveTupleIndex) := by
  obtain ⟨passes, marks⟩ :=
    InitInv.run hf fresh tupleAddresses (InitInv.start hf none_active) aligned
  simp only [List.nil_append] at passes marks
  have within : ∀ i ∈ tupleAddresses.map f.slotIndex, i < f.tuples.length := by
    intro i member
    obtain ⟨a, listed, rfl⟩ := List.mem_map.mp member
    obtain ⟨b, k, h⟩ := aligned a listed
    rw [hf.slotIndex_eq h]
    exact hf.slot_lt h
  have small := fun i member => Nat.lt_trans (within i member) hf.tuples_length_lt
  rw [hf.map_tupleIndex aligned, nodup_map_ofNat small]
  refine ⟨passes, fun g run => ?_⟩
  have inv := marks g run
  simp only [mem_map_ofNat small]
  refine ⟨inv.length, fun i below => ?_, ?_, fun nonempty => ?_⟩
  · rw [inv.tuples]
    split
    · rfl
    · rw [List.getElem?_eq_getElem below, fresh _ (List.getElem_mem _)]
  · rcases inv.last with ⟨none, invalid⟩ | ⟨member, -⟩
    · simpa [invalid] using none
    · have := within _ member
      have := hf.tuples_length_lt
      constructor
      · intro invalid
        rw [eq_invalidIndex_iff] at invalid
        omega
      · rintro rfl
        simp at member
  · rcases inv.last with ⟨none, -⟩ | ⟨member, largest⟩
    · exact absurd (List.map_eq_nil_iff.mp none) nonempty
    · exact ⟨member, fun i listed => uint64_le_iff.mpr (largest _ listed)⟩

end TableTupleFilter

/-- The spec's table initializes its four active tuples. -/
theorem initActiveTuples_spec_table :
    TableTupleFilter.Layout (TableTupleFilter.init [4096, 8192] 4 16)
      ∧ ((TableTupleFilter.init [4096, 8192] 4 16).initActiveTuples
          [4096, 4112, 4144, 8224]).isSome :=
  ⟨specTable_layout, (TableTupleFilter.initActiveTuples_spec _ specTable_layout (by decide) rfl _
    specTable_aligned).1.mpr (by decide)⟩

namespace TableTupleFilter

variable {f g : TableTupleFilter} {a : UInt64} {b k : Nat}

-----------------------------------------------------------------------------------------
-- The abstract marker map
-----------------------------------------------------------------------------------------

/-- The spec's marker of slot `i` after initializing the tuples `active` and applying
`updates` in order: the marker of the last update to `i`; for a slot no update touched,
`ACTIVE_TUPLE` for an active tuple's slot and `INACTIVE_TUPLE` for any other.
-/
def abstractMarker (f : TableTupleFilter) (active : List UInt64)
    (updates : List (UInt64 × Int8)) (i : Nat)
    : Int8 :=
  match updates.reverse.find? fun update => f.slotIndex update.1 == i with
  | some update => update.2
  | none => if i ∈ active.map f.slotIndex then activeTuple else inactiveTuple

/-- The last active index initialization leaves for `active`: their largest slot, or
`INVALID_INDEX` for none.
-/
def lastActive (f : TableTupleFilter) (active : List UInt64) : UInt64 :=
  if active = [] then invalidIndex else UInt64.ofNat ((active.map f.slotIndex).foldr max 0)

/-- What the spec says a full pass of the `marker` iterator yields: the slots up to the largest
active one whose abstract marker is `marker`, in increasing order.
-/
def abstractMarked (f : TableTupleFilter) (active : List UInt64)
    (updates : List (UInt64 × Int8)) (marker : Int8)
    : List UInt64 :=
  ((List.range ((active.map f.slotIndex).foldr max 0 + 1)).filter
    fun i => decide (f.abstractMarker active updates i = marker)).map UInt64.ofNat

theorem activeTuple_ne_inactiveTuple : activeTuple ≠ inactiveTuple := by decide

@[simp] theorem abstractMarker_nil (active : List UInt64) (i : Nat)
    : f.abstractMarker active [] i
      = if i ∈ active.map f.slotIndex then activeTuple else inactiveTuple :=
  rfl

/-- An update overrides the abstract marker of its own slot and no other. -/
theorem abstractMarker_append (active : List UInt64) (updates : List (UInt64 × Int8))
    (update : UInt64 × Int8) (i : Nat)
    : f.abstractMarker active (updates ++ [update]) i
      = if f.slotIndex update.1 = i then update.2 else f.abstractMarker active updates i := by
  by_cases own : f.slotIndex update.1 = i <;> simp [abstractMarker, own]

/-- Updates with markers other than `INACTIVE_TUPLE` never make an active tuple's slot
inactive.
-/
theorem abstractMarker_ne_inactive {active : List UInt64} {updates : List (UInt64 × Int8)}
    {i : Nat} (member : i ∈ active.map f.slotIndex)
    (markers : ∀ update ∈ updates, update.2 ≠ inactiveTuple)
    : f.abstractMarker active updates i ≠ inactiveTuple := by
  unfold abstractMarker
  split
  case h_1 update found =>
      exact markers update (List.mem_reverse.mp (List.mem_of_find?_eq_some found))
  case h_2 => simpa [member] using activeTuple_ne_inactiveTuple

/-- Updates of active tuples leave every other slot `INACTIVE_TUPLE`. -/
theorem abstractMarker_of_not_mem {active : List UInt64} {updates : List (UInt64 × Int8)}
    {i : Nat} (outside : i ∉ active.map f.slotIndex)
    (targets : ∀ update ∈ updates, update.1 ∈ active)
    : f.abstractMarker active updates i = inactiveTuple := by
  unfold abstractMarker
  split
  case h_1 update found =>
      have hit := List.find?_some found
      simp only [beq_iff_eq] at hit
      exact absurd (hit ▸ List.mem_map_of_mem _
        (targets update (List.mem_reverse.mp (List.mem_of_find?_eq_some found)))) outside
  case h_2 => simp [outside]

-----------------------------------------------------------------------------------------
-- Update runs
-----------------------------------------------------------------------------------------

variable {active : List UInt64} {updates : List (UInt64 × Int8)}

/-- Initialization over `active` ends at the spec's last active index. -/
theorem InitInv.lastActive (inv : InitInv f g (active.map f.slotIndex))
    : g.lastActiveTupleIndex = f.lastActive active := by
  unfold TableTupleFilter.lastActive
  rcases inv.last with ⟨none, invalid⟩ | ⟨member, largest⟩
  · rw [if_pos (List.map_eq_nil_iff.mp none), invalid]
  · have nonempty : active ≠ [] := by
      rintro rfl
      simp at member
    have top : (active.map f.slotIndex).foldr max 0 = _ :=
      Nat.le_antisymm (List.max_le_of_forall_le _ _ largest) (List.le_max_of_le member le_rfl)
    rw [if_neg nonempty, top]
    exact UInt64.ext (UInt64.toNat_ofNat_of_lt (UInt64.toNat_lt_size _)).symm

/-- The largest active slot is a slot of `m_tuples`. -/
theorem Layout.lastSlot_lt (hf : Layout f) (aligned : ∀ a ∈ active, ∃ b k, TupleAt f a b k)
    (nonempty : active ≠ [])
    : (active.map f.slotIndex).foldr max 0 < f.tuples.length := by
  have top : (active.map f.slotIndex).foldr max 0 ∈ active.map f.slotIndex :=
    List.maximum_mem (List.foldr_max_of_ne_nil (mt List.map_eq_nil_iff.mp nonempty)).symm
  obtain ⟨a, listed, same⟩ := List.mem_map.mp top
  obtain ⟨b, k, h⟩ := aligned a listed
  rw [← same, hf.slotIndex_eq h]
  exact hf.slot_lt h

/-- For a non-empty `active`, the spec's last active index is the number of its largest slot. -/
theorem Layout.toNat_lastActive (hf : Layout f) (aligned : ∀ a ∈ active, ∃ b k, TupleAt f a b k)
    (nonempty : active ≠ [])
    : (f.lastActive active).toNat = (active.map f.slotIndex).foldr max 0 := by
  rw [TableTupleFilter.lastActive, if_neg nonempty, UInt64.toNat_ofNat_of_lt]
  exact Nat.lt_trans (hf.lastSlot_lt aligned nonempty) hf.tuples_length_lt

/-- The filter `g` after initializing `active` from `f` and applying `updates`: the geometry
of `f`, the last active index initialization left, and the abstract marker in every slot.
-/
structure UpdateInv (f g : TableTupleFilter) (active : List UInt64)
    (updates : List (UInt64 × Int8)) : Prop where
  layout : Layout g
  same : SameGeometry f g
  length : g.tuples.length = f.tuples.length
  last : g.lastActiveTupleIndex = f.lastActive active
  markers : ∀ i < f.tuples.length, g.tuples[i]? = some (f.abstractMarker active updates i)

/-- After initialization every slot holds its abstract marker for no update. -/
theorem InitInv.updateInv (inv : InitInv f g (active.map f.slotIndex))
    (fresh : ∀ x ∈ f.tuples, x = inactiveTuple)
    : UpdateInv f g active [] where
  layout := inv.layout
  same := inv.same
  length := inv.length
  last := inv.lastActive
  markers i below := by
    rw [inv.tuples, abstractMarker_nil]
    split
    · rfl
    · rw [List.getElem?_eq_getElem below, fresh _ (List.getElem_mem _)]

/-- `updateTuple` on an active tuple passes its assertions exactly when the tuple's abstract
marker is not `INACTIVE_TUPLE`, and then writes the new marker into the abstract map.
-/
theorem UpdateInv.updateTuple_eq (inv : UpdateInv f g active updates) (hf : Layout f)
    (aligned : ∀ a ∈ active, ∃ b k, TupleAt f a b k) {a : UInt64} (listed : a ∈ active)
    (marker : Int8)
    : ∃ g', g.updateTuple a marker
        = (if f.abstractMarker active updates (f.slotIndex a) ≠ inactiveTuple
            then some (UInt64.ofNat (f.slotIndex a), g') else none)
      ∧ UpdateInv f g' active (updates ++ [(a, marker)]) := by
  obtain ⟨b, k, h⟩ := aligned a listed
  have hg := inv.same.tupleAt h
  have nonempty : active ≠ [] := List.ne_nil_of_mem listed
  have member : f.slotIndex a ∈ active.map f.slotIndex := List.mem_map_of_mem _ listed
  have largest : f.slotIndex a ≤ (active.map f.slotIndex).foldr max 0 :=
    List.le_max_of_le member le_rfl
  have top := hf.lastSlot_lt aligned nonempty
  have fits := hf.tuples_length_lt
  rw [hf.slotIndex_eq h] at largest ⊢
  have window : UInt64.ofNat (k + b * f.tuplesPerBlock.toNat) ≤ g.lastActiveTupleIndex
      ∧ g.lastActiveTupleIndex ≠ invalidIndex := by
    rw [inv.last, uint64_le_iff, hf.toNat_slot h, hf.toNat_lastActive aligned nonempty, Ne,
      eq_invalidIndex_iff, hf.toNat_lastActive aligned nonempty]
    omega
  have stored := inv.markers _ (hf.slot_lt h)
  refine ⟨{ g.recache b with
    tuples := g.tuples.set (k + b * f.tuplesPerBlock.toNat) marker }, ?_, ?_⟩
  · rw [inv.layout.updateTuple_eq hg, inv.same.tuplesPerBlock, stored]
    by_cases live : f.abstractMarker active updates (k + b * f.tuplesPerBlock.toNat) ≠ inactiveTuple
    · rw [if_pos ⟨window.1, window.2, by simpa using live⟩, if_pos live]
    · rw [if_neg fun all => live (by simpa using all.2.2), if_neg live]
  · constructor
    case layout =>
        exact (inv.layout.recache hg.block_lt).withTuples (List.length_set ..) _
    case same => exact inv.same.trans ((sameGeometry_recache g b).trans (sameGeometry_with ..))
    case length => simp [inv.length]
    case last => exact inv.last
    case markers =>
        intro i below
        simp only [recache_tuples, List.getElem?_set, inv.length, hf.slot_lt h, if_true,
          abstractMarker_append, hf.slotIndex_eq h, inv.markers i below]
        split <;> rfl

theorem updateTuples_append (g : TableTupleFilter) (updates : List (UInt64 × Int8))
    (update : UInt64 × Int8)
    : g.updateTuples (updates ++ [update])
      = (g.updateTuples updates).bind fun g' => (g'.updateTuple update.1 update.2).map Prod.snd := by
  simp [updateTuples, List.foldlM_append]

/-- Every run of updates of active tuples whose assertions hold ends with the abstract marker
in every slot, by induction on the updates from the last one.
-/
theorem UpdateInv.run (inv : UpdateInv f g active []) (hf : Layout f)
    (aligned : ∀ a ∈ active, ∃ b k, TupleAt f a b k) (updates : List (UInt64 × Int8))
    (targets : ∀ update ∈ updates, update.1 ∈ active)
    : ∀ h, g.updateTuples updates = some h → UpdateInv f h active updates := by
  induction updates using List.reverseRecOn with
  | nil =>
      intro h run
      simp only [updateTuples, List.foldlM_nil, Option.pure_def, Option.some.injEq] at run
      exact run ▸ inv
  | append_singleton updates update ih =>
      intro h run
      rw [updateTuples_append] at run
      obtain ⟨g', first, last⟩ := Option.bind_eq_some.mp run
      have before := ih (fun u member => targets u (List.mem_append_left _ member)) g' first
      obtain ⟨g'', step, after⟩ := before.updateTuple_eq hf aligned
        (targets update (List.mem_append_right _ (List.mem_singleton_self _))) update.2
      rw [step] at last
      split at last
      · simp only [Option.map_some', Option.some.injEq] at last
        exact last ▸ after
      · simp at last

/-- Updates of active tuples with markers other than `INACTIVE_TUPLE` all pass their
assertions, by induction on the updates from the last one.
-/
theorem UpdateInv.run_live (inv : UpdateInv f g active []) (hf : Layout f)
    (aligned : ∀ a ∈ active, ∃ b k, TupleAt f a b k) (updates : List (UInt64 × Int8))
    (targets : ∀ update ∈ updates, update.1 ∈ active ∧ update.2 ≠ inactiveTuple)
    : ∃ h, g.updateTuples updates = some h ∧ UpdateInv f h active updates := by
  induction updates using List.reverseRecOn with
  | nil => exact ⟨g, rfl, inv⟩
  | append_singleton updates update ih =>
      obtain ⟨g', first, before⟩ :=
        ih fun u member => targets u (List.mem_append_left _ member)
      have last := targets update (List.mem_append_right _ (List.mem_singleton_self _))
      obtain ⟨g'', step, after⟩ := before.updateTuple_eq hf aligned last.1 update.2
      have live : f.abstractMarker active updates (f.slotIndex update.1) ≠ inactiveTuple :=
        abstractMarker_ne_inactive (List.mem_map_of_mem _ last.1)
          fun u member => (targets u (List.mem_append_left _ member)).2
      refine ⟨g'', ?_, after⟩
      rw [updateTuples_append, first, Option.some_bind, step, if_pos live]
      rfl

/-- Distinct aligned tuples pass initialization, which marks exactly their slots. -/
theorem Layout.initActiveTuples_distinct (hf : Layout f)
    (fresh : ∀ x ∈ f.tuples, x = inactiveTuple) (none_active : f.lastActiveTupleIndex = invalidIndex)
    (distinct : active.Nodup) (aligned : ∀ a ∈ active, ∃ b k, TupleAt f a b k)
    : ∃ g, f.initActiveTuples active = some g ∧ InitInv f g (active.map f.slotIndex) := by
  obtain ⟨passes, marks⟩ := InitInv.run hf fresh active (InitInv.start hf none_active) aligned
  simp only [List.nil_append] at passes marks
  have slots : (active.map f.slotIndex).Nodup := by
    refine distinct.map_on fun x listed y listed' same => ?_
    obtain ⟨b, k, h⟩ := aligned x listed
    obtain ⟨b', k', h'⟩ := aligned y listed'
    rw [hf.slotIndex_eq h, hf.slotIndex_eq h'] at same
    exact hf.tupleAt_inj h h' same
  obtain ⟨g, run⟩ := Option.isSome_iff_exists.mp (passes.mpr slots)
  exact ⟨g, run, marks g run⟩

/-- From a filter whose slots are all `INACTIVE_TUPLE` and whose last active index is
`INVALID_INDEX`, initialize distinct aligned tuples `active` in any order, then apply updates
of them with markers other than `INACTIVE_TUPLE`. Every such update passes its assertions,
and afterwards the non-inactive slots are exactly the active tuples' slots, the last active
index is still their largest slot (`INVALID_INDEX` for none) and `m_tuples` keeps its size.
-/
theorem activeSlots_after_updates (f : TableTupleFilter) (hf : Layout f)
    (fresh : ∀ x ∈ f.tuples, x = inactiveTuple) (none_active : f.lastActiveTupleIndex = invalidIndex)
    (active : List UInt64) (distinct : active.Nodup)
    (aligned : ∀ a ∈ active, ∃ b k, TupleAt f a b k)
    : ∃ g, f.initActiveTuples active = some g ∧
      ∀ updates : List (UInt64 × Int8),
        (∀ update ∈ updates, update.1 ∈ active ∧ update.2 ≠ inactiveTuple) →
        ∃ h, g.updateTuples updates = some h
          ∧ (∀ i < h.tuples.length,
              h.tuples[i]? ≠ some inactiveTuple ↔ i ∈ active.map f.slotIndex)
          ∧ h.lastActiveTupleIndex = f.lastActive active
          ∧ h.tuples.length = h.blocks.length * h.tuplesPerBlock.toNat := by
  obtain ⟨g, run, inv⟩ := hf.initActiveTuples_distinct fresh none_active distinct aligned
  refine ⟨g, run, fun updates targets => ?_⟩
  obtain ⟨h, updated, after⟩ := (inv.updateInv fresh).run_live hf aligned updates targets
  refine ⟨h, updated, fun i below => ?_, after.last, after.layout.tuples_length⟩
  rw [after.markers i (after.length ▸ below), Ne, Option.some.injEq]
  by_cases member : i ∈ active.map f.slotIndex
  · exact iff_of_true (abstractMarker_ne_inactive member fun u listed => (targets u listed).2)
      member
  · exact iff_of_false (not_not.mpr (abstractMarker_of_not_mem member
      fun u listed => (targets u listed).1)) member

end TableTupleFilter

/-- On the spec's table, updates to markers 5 and 7 pass and leave the last active slot at 6. -/
theorem activeSlots_after_updates_spec_table :
    ∃ g, (TableTupleFilter.init [4096, 8192] 4 16).initActiveTuples [4096, 4112, 4144, 8224]
        = some g
      ∧ ∃ h, g.updateTuples [(4112, 5), (8224, 7)] = some h ∧ h.lastActiveTupleIndex = 6 := by
  obtain ⟨g, run, after⟩ := TableTupleFilter.activeSlots_after_updates _ specTable_layout
    (by decide) rfl _ (by decide) specTable_aligned
  obtain ⟨h, updated, -, last, -⟩ := after [(4112, 5), (8224, 7)] (by decide)
  exact ⟨g, run, h, updated, by rw [last]; decide⟩

/-- An update with the marker `INACTIVE_TUPLE` (-1) passes the assertions of `updateTuple` and
turns the active tuple at 4096 inactive, so no slot stays active; that tuple's next update
then fails the assertion at line 106.
-/
theorem updateTuple_inactive_marker :
    (((TableTupleFilter.init [4096, 8192] 4 16).initActiveTuples [4096]).bind
        (·.updateTuples [(4096, -1)])).map (·.tuples) = some (List.replicate 8 (-1))
      ∧ ((TableTupleFilter.init [4096, 8192] 4 16).initActiveTuples [4096]).bind
        (·.updateTuples [(4096, -1), (4096, 5)]) = none := by
  decide

namespace TableTupleFilter

/-- After initializing distinct aligned tuples `active` from an all-inactive filter, every run
of updates of them with markers other than `INACTIVE_TUPLE` passes its assertions, and after any
run of updates of them whose assertions hold, a full pass of the iterator for any marker yields
the spec's abstract answer: for no active tuple, `begin() == end()` and nothing; otherwise, in
increasing order, the slots up to the largest active one whose abstract marker (the last
update's marker, else `ACTIVE_TUPLE` for an active tuple's slot, else `INACTIVE_TUPLE`) is the
marker.
-/
theorem markedTuples_refines (f : TableTupleFilter) (hf : Layout f)
    (fresh : ∀ x ∈ f.tuples, x = inactiveTuple) (none_active : f.lastActiveTupleIndex = invalidIndex)
    (active : List UInt64) (distinct : active.Nodup)
    (aligned : ∀ a ∈ active, ∃ b k, TupleAt f a b k)
    : ∃ g, f.initActiveTuples active = some g
      ∧ (∀ updates : List (UInt64 × Int8),
          (∀ update ∈ updates, update.1 ∈ active ∧ update.2 ≠ inactiveTuple) →
          ∃ h, g.updateTuples updates = some h)
      ∧ ∀ (updates : List (UInt64 × Int8)) (h : TableTupleFilter),
        (∀ update ∈ updates, update.1 ∈ active) → g.updateTuples updates = some h →
        ∀ marker : Int8,
          (active = [] → h.begin marker = some h.end' ∧ h.markedTuples marker = some [])
          ∧ (active ≠ [] → h.markedTuples marker = some (f.abstractMarked active updates marker)) := by
  obtain ⟨g, run, inv⟩ := hf.initActiveTuples_distinct fresh none_active distinct aligned
  refine ⟨g, run, fun updates live =>
    ((inv.updateInv fresh).run_live hf aligned updates live).imp fun _ => And.left,
    fun updates h targets updated marker => ?_⟩
  have after := (inv.updateInv fresh).run hf aligned updates targets h updated
  constructor
  case left =>
      rintro rfl
      have invalid : h.lastActiveTupleIndex = invalidIndex := by
        simp [after.last, TableTupleFilter.lastActive]
      exact (markedTuples_eq h marker (.inl invalid)).1 (by simp [TableTupleFilter.empty, invalid])
  case right =>
      intro nonempty
      have top := hf.lastSlot_lt aligned nonempty
      have last : h.lastActiveTupleIndex.toNat = (active.map f.slotIndex).foldr max 0 := by
        rw [after.last, hf.toNat_lastActive aligned nonempty]
      have real : h.empty = false := by
        have := hf.tuples_length_lt
        simp only [TableTupleFilter.empty, beq_eq_false_iff_ne, Ne, eq_invalidIndex_iff, last]
        omega
      rw [(markedTuples_eq h marker (.inr (by rw [last, after.length]; exact top))).2 real,
        abstractMarked, last]
      congr 2
      apply List.filter_congr
      intro i member
      rw [after.markers i (by have := List.mem_range.mp member; omega)]
      simp only [Option.some.injEq]

end TableTupleFilter

/-- On the spec's table, the update of the tuple at 4112 to marker 5 passes, and the marker-5
pass then yields slot 1 alone.
-/
theorem markedTuples_refines_spec_table :
    ∃ g, (TableTupleFilter.init [4096, 8192] 4 16).initActiveTuples [4096, 4112, 4144, 8224]
        = some g
      ∧ ∃ h, g.updateTuples [(4112, 5)] = some h ∧ h.markedTuples 5 = some [1] := by
  obtain ⟨g, run, live, refines⟩ := TableTupleFilter.markedTuples_refines _ specTable_layout
    (by decide) rfl _ (by decide) specTable_aligned
  obtain ⟨h, updated⟩ := live [(4112, 5)] (by decide)
  refine ⟨g, run, h, updated, ?_⟩
  rw [((refines _ h (by decide) updated) 5).2 (by decide)]
  decide

end VoltDB.Storage
