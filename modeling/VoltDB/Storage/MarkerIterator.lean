import VoltDB.Storage.BlockLayout

/-! The marker iterator visits, in increasing order and each once, exactly the slots up to the
last active one that hold its marker. `begin` relies on `INVALID_INDEX + 1` wrapping to 0.
-/

namespace VoltDB.Storage

theorem uint64_toNat_ofNat (n : Nat) : (UInt64.ofNat n).toNat = n % UInt64.size := by
  simp [UInt64.ofNat, UInt64.toNat]

theorem uint64_ofNat_add_one (n : Nat) : UInt64.ofNat n + 1 = UInt64.ofNat (n + 1) := by
  apply UInt64.ext
  rw [UInt64.toNat_add, uint64_toNat_ofNat, uint64_toNat_ofNat, UInt64.toNat_ofNat]
  simp only [UInt64.size]
  omega

namespace TableTupleFilter

/-- The slots from `start` up to the last active one that hold `marker`, in increasing order:
what the iterator has still to visit from `start`.
-/
def markedFrom (f : TableTupleFilter) (marker : Int8) (start : Nat) : List Nat :=
  (List.range' start (f.lastActiveTupleIndex.toNat + 1 - start)).filter
    fun i => decide (f.tuples[i]? = some marker)

variable {f : TableTupleFilter} (marker : Int8)

/-- One slot more to scan: the slot `start` itself, if it holds the marker, then the rest. -/
theorem markedFrom_of_le {start : Nat} (h : start ≤ f.lastActiveTupleIndex.toNat)
    : f.markedFrom marker start
      = if f.tuples[start]? = some marker then start :: f.markedFrom marker (start + 1)
        else f.markedFrom marker (start + 1) := by
  have count : f.lastActiveTupleIndex.toNat + 1 - start
      = (f.lastActiveTupleIndex.toNat + 1 - (start + 1)) + 1 := by omega
  rw [markedFrom, count, List.range'_succ, List.filter_cons]
  simp only [decide_eq_true_eq]
  rfl

/-- Past the last active slot nothing is left to visit. -/
theorem markedFrom_end : f.markedFrom marker (f.lastActiveTupleIndex.toNat + 1) = [] := by
  simp [markedFrom]

section NonEmpty

variable (real : f.lastActiveTupleIndex ≠ invalidIndex)
include real

/-- A filter that is not empty has a last active slot below `2^64 - 1`, so `end` does not
wrap.
-/
theorem last_succ_lt : f.lastActiveTupleIndex.toNat + 1 < UInt64.size := by
  have := UInt64.toNat_lt_size f.lastActiveTupleIndex
  rw [Ne, eq_invalidIndex_iff] at real
  omega

theorem end'_eq : f.end' = UInt64.ofNat (f.lastActiveTupleIndex.toNat + 1) := by
  rw [end', if_pos real, ← uint64_ofNat_add_one]
  congr
  exact UInt64.ext (UInt64.toNat_ofNat_of_lt (UInt64.toNat_lt_size _)).symm

variable (bounded : f.lastActiveTupleIndex.toNat < f.tuples.length)
include bounded

/-- The do-while loop of `increment`, entered at slot `start`, stops at the first slot from
`start` that holds the marker, or one past the last active slot, having read only slots up to
the last active one. No marked slot is skipped. By induction on the fuel.
-/
theorem incrementLoop_spec :
    ∀ fuel start, start ≤ f.lastActiveTupleIndex.toNat + 1 →
      f.lastActiveTupleIndex.toNat + 1 - start < fuel →
      ∃ stop, f.incrementLoop marker f.lastActiveTupleIndex fuel (UInt64.ofNat start)
          = some (UInt64.ofNat stop)
        ∧ start ≤ stop ∧ stop ≤ f.lastActiveTupleIndex.toNat + 1
        ∧ (stop ≤ f.lastActiveTupleIndex.toNat → f.tuples[stop]? = some marker)
        ∧ f.markedFrom marker start = f.markedFrom marker stop
  | 0, _, _, budget => absurd budget (Nat.not_lt_zero _)
  | fuel + 1, start, within, budget => by
      have small := last_succ_lt real
      have toNat_start : (UInt64.ofNat start).toNat = start := UInt64.toNat_ofNat_of_lt (by omega)
      unfold incrementLoop
      by_cases active : start ≤ f.lastActiveTupleIndex.toNat
      · have present : start < f.tuples.length := by omega
        have read : f.getTupleValue (UInt64.ofNat start) = some f.tuples[start] := by
          simp only [getTupleValue, toNat_start, List.getElem?_eq_getElem present]
        have inside : UInt64.ofNat start ≤ f.lastActiveTupleIndex := by
          rw [uint64_le_iff, toNat_start]
          exact active
        rw [if_pos inside, read]
        by_cases hit : f.tuples[start] = marker
        · refine ⟨start, by simp [hit], le_rfl, within, fun _ => ?_, rfl⟩
          rw [List.getElem?_eq_getElem, hit]
        · obtain ⟨stop, loop, after, below, marked, rest⟩ :=
            incrementLoop_spec fuel (start + 1) (by omega) (by omega)
          refine ⟨stop, ?_, by omega, below, marked, ?_⟩
          · simpa only [ne_eq, hit, not_false_eq_true, if_true, uint64_ofNat_add_one]
              using loop
          · rw [markedFrom_of_le marker active, List.getElem?_eq_getElem,
              if_neg (by simpa using hit), rest]
      · have past : ¬ UInt64.ofNat start ≤ f.lastActiveTupleIndex := by
          rw [uint64_le_iff, toNat_start]
          exact active
        exact ⟨start, by simp [past], le_rfl, within, fun h => absurd h active, rfl⟩

/-- From a slot that holds the marker (or from `end`), the caller's loop dereferences exactly
the marked slots still to visit, by induction on the fuel.
-/
theorem walk_spec :
    ∀ fuel start, start ≤ f.lastActiveTupleIndex.toNat + 1 →
      (start ≤ f.lastActiveTupleIndex.toNat → f.tuples[start]? = some marker) →
      f.lastActiveTupleIndex.toNat + 1 - start < fuel →
      f.walk marker fuel (UInt64.ofNat start)
        = some ((f.markedFrom marker start).map UInt64.ofNat)
  | 0, _, _, _, budget => absurd budget (Nat.not_lt_zero _)
  | fuel + 1, start, within, marked, budget => by
      have small := last_succ_lt real
      unfold walk
      rw [end'_eq real]
      by_cases finished : start = f.lastActiveTupleIndex.toNat + 1
      · subst finished
        simp [markedFrom_end]
      · have active : start ≤ f.lastActiveTupleIndex.toNat := by omega
        have differs : UInt64.ofNat start ≠ UInt64.ofNat (f.lastActiveTupleIndex.toNat + 1) := by
          intro same
          have := congrArg UInt64.toNat same
          rw [UInt64.toNat_ofNat_of_lt (by omega), UInt64.toNat_ofNat_of_lt small] at this
          exact finished this
        obtain ⟨stop, loop, after, below, stopMarked, rest⟩ :=
          incrementLoop_spec marker real bounded UInt64.size (start + 1) (by omega) (by omega)
        have next : f.increment marker (UInt64.ofNat start) = some (UInt64.ofNat stop) := by
          rw [increment, uint64_ofNat_add_one, loop]
        rw [if_neg differs, next, Option.some_bind,
          walk_spec fuel stop below stopMarked (by omega), markedFrom_of_le marker active,
          marked active]
        simp [rest]

end NonEmpty

/-- The caller's loop stops at once on `end`. -/
theorem walk_end (fuel : Nat) : f.walk marker (fuel + 1) f.end' = some [] := by
  simp [walk]

/-- A full pass of the `MARKER` iterator over a filter whose last active index is
`INVALID_INDEX` or a slot of `m_tuples`. An empty filter has `begin() == end()` and yields
nothing. Otherwise every `increment` terminates, reads only slots of `m_tuples`, and the
pass yields exactly the slots up to the last active one that hold `MARKER`, in increasing
order.
-/
theorem markedTuples_eq (f : TableTupleFilter) (marker : Int8)
    (bounded : f.lastActiveTupleIndex = invalidIndex
      ∨ f.lastActiveTupleIndex.toNat < f.tuples.length)
    : (f.empty = true → f.begin marker = some f.end' ∧ f.markedTuples marker = some [])
      ∧ (f.empty = false → f.markedTuples marker
          = some (((List.range (f.lastActiveTupleIndex.toNat + 1)).filter
              fun i => decide (f.tuples[i]? = some marker)).map UInt64.ofNat)) := by
  constructor
  case left =>
      intro empty
      have last : f.lastActiveTupleIndex = invalidIndex := by simpa [TableTupleFilter.empty] using empty
      have start : f.begin marker = some f.end' := by simp [begin, empty, end', last]
      refine ⟨start, ?_⟩
      rw [markedTuples, start, Option.some_bind, show UInt64.size = (UInt64.size - 1) + 1 from rfl,
        walk_end]
  case right =>
      intro nonempty
      have real : f.lastActiveTupleIndex ≠ invalidIndex := by
        simpa [TableTupleFilter.empty] using nonempty
      have bounded := bounded.resolve_left real
      have small := last_succ_lt real
      obtain ⟨first, loop, -, below, marked, rest⟩ :=
        incrementLoop_spec marker real bounded UInt64.size 0 (by omega) (by omega)
      have start : f.begin marker = some (UInt64.ofNat first) := by
        rw [begin, if_neg (by simp [nonempty]), increment,
          show invalidIndex + 1 = UInt64.ofNat 0 by decide, loop]
      rw [markedTuples, start, Option.some_bind,
        walk_spec marker real bounded _ first below marked (by omega), ← rest]
      simp [markedFrom, List.range_eq_range']

end TableTupleFilter

/-- The spec's table after initialization, slots 0, 1, 3 and 6 active: the active-marker pass
yields them in order.
-/
theorem markedTuples_spec_table :
    let f := { TableTupleFilter.init [4096, 8192] 4 16 with
      tuples := [0, 0, -1, 0, -1, -1, 0, -1], lastActiveTupleIndex := 6 }
    f.lastActiveTupleIndex.toNat < f.tuples.length ∧ f.markedTuples 0 = some [0, 1, 3, 6] :=
  ⟨by decide, by rw [(TableTupleFilter.markedTuples_eq _ 0 (Or.inr (by decide))).2 (by decide)]; decide⟩

end VoltDB.Storage
