import VoltDB.Export.FactorySteps

/-! Safety of the executor factory: every run, in every environment, keeps the shape of the
collections that `allocate` and `release` rely on; with a local sites count that is not
negative and no count overflow, the reference counts stay positive, so `getExecutor` never
throws and `freeExecutor` throws only for an unallocated partition.
-/

namespace VoltDB.Export

variable {s : ExecutorFactory} {pools : Pools}

/-- Every state a run reaches: no executor is shut down before it is made, and initialized
collections keep `PoolInv`.
-/
structure Wellformed (s : ExecutorFactory) : Prop where
  shutdowns_lt : ∀ e ∈ s.shutdowns, e < s.created
  pools : ∀ pools, s.pools = some pools → PoolInv s pools

-----------------------------------------------------------------------------------------
-- Every run keeps the invariant
-----------------------------------------------------------------------------------------

open ExecutorFactory

/-- `PoolInv` implies `m_maxThreads` is set: an uninitialized factory has no collections. -/
theorem Wellformed.pools_eq_none (w : Wellformed s) (h : s.isInitialized = false)
    : s.pools = none := by
  cases hs : s.pools with
  | none => rfl
  | some pools =>
    obtain ⟨m, hm, -⟩ := (w.pools pools hs).maxThreads
    simp [isInitialized, hm] at h

/-- On a factory with its collections, `freeExecutor` is `release`. -/
theorem Wellformed.freeExecutor_eq (w : Wellformed s) (hs : s.pools = some pools) (p : Int)
    (tableName : String)
    : s.freeExecutor p tableName = s.release p tableName := by
  obtain ⟨m, hm, -⟩ := (w.pools pools hs).maxThreads
  rw [ExecutorFactory.freeExecutor, if_pos (by simp [isInitialized, hm])]

theorem wellformed_initial : Wellformed initial :=
  ⟨by simp [initial], by simp [initial]⟩

theorem Wellformed.lazyInit (w : Wellformed s) (env : Environment)
    : Wellformed (s.lazyInit env).2 := by
  rw [lazyInit_eq]
  split_ifs with initialized negative
  · exact w
  · exact ⟨w.shutdowns_lt, by simp [w.pools_eq_none (by simpa using initialized)]⟩
  · refine ⟨w.shutdowns_lt, ?_⟩
    rintro pools ⟨⟩
    have := env.one_le_checkedMaxThreads (by omega)
    exact ⟨⟨_, rfl, this, env.checkedMaxThreads_le, by simp; omega⟩, .nil, by simp,
      .nil, by simp, by simp, by simp, by simp⟩

/-- A new count for an executor of `m_executors` keeps the invariant. -/
theorem PoolInv.put_count (inv : PoolInv s pools) {les : Nat} (mem : les ∈ pools.executors)
    (value : Int)
    : PoolInv { s with pools := some { pools with refCounts := put les value pools.refCounts } }
      { pools with refCounts := put les value pools.refCounts } :=
  ⟨inv.maxThreads, inv.executors_nodup, inv.refCounts_isSome_put mem _, inv.pid2execMap_nodup,
    inv.pid2execMap_mem, inv.nextAlloc, inv.executors_lt, inv.executors_live⟩

/-- `allocate` keeps the invariant, by its three branches. -/
theorem PoolInv.allocate (inv : PoolInv s pools) (hs : s.pools = some pools)
    (shut : ∀ e ∈ s.shutdowns, e < s.created) (p : Int)
    : ∃ pools', (s.allocate p).2.pools = some pools' ∧ PoolInv (s.allocate p).2 pools' ∧
      (s.allocate p).2.shutdowns = s.shutdowns ∧ s.created ≤ (s.allocate p).2.created := by
  obtain ⟨m, hm, one_le, le_max, length_le⟩ := inv.maxThreads
  obtain ⟨les, s', h, mapped | fresh | shared⟩ := allocate_spec inv hs hm p <;> rw [h]
  case inl =>
    obtain ⟨hp, count, -, rfl⟩ := mapped
    exact ⟨_, rfl, inv.put_count (inv.pid2execMap_mem _ (mem_of_lookup_eq_some hp)) _, rfl, le_rfl⟩
  case inr.inl =>
    obtain ⟨hp, room, rfl, rfl⟩ := fresh
    have fresh : s.created ∉ pools.executors := fun h => (inv.executors_lt _ h).false
    refine ⟨_, rfl, ⟨⟨m, hm, one_le, le_max, by simp; omega⟩, inv.executors_nodup.append
      (List.nodup_singleton _) (by simpa using fresh), fun e => ?_,
      nodup_keys_put inv.pid2execMap_nodup _ _, fun entry h => ?_, ?_, fun e h => ?_,
      fun e h => ?_⟩, rfl, Nat.le_succ _⟩
    · rw [isSome_lookup_put, inv.refCounts_isSome]
      simp [or_comm]
    · rcases mem_put.mp h with rfl | ⟨h, -⟩
      · simp
      · exact List.mem_append_left _ (inv.pid2execMap_mem _ h)
    · have := inv.nextAlloc
      simp only [List.length_append, List.length_singleton]
      omega
    · rcases List.mem_append.mp h with h | h
      · exact Nat.lt_succ_of_lt (inv.executors_lt _ h)
      · simp_all
    · rcases List.mem_append.mp h with h | h
      · exact inv.executors_live _ h
      · simp only [List.mem_singleton] at h
        subst h
        exact fun dead => (shut _ dead).false
  case inr.inr =>
    obtain ⟨hp, full, i, count, hi, hnext, -, rfl⟩ := shared
    have mem : les ∈ pools.executors := List.getElem?_mem hi
    have bound : i < pools.executors.length := (List.getElem?_eq_some_iff.mp hi).1
    refine ⟨_, rfl, ⟨inv.maxThreads, inv.executors_nodup, inv.refCounts_isSome_put mem _,
      nodup_keys_put inv.pid2execMap_nodup _ _, fun entry h => ?_, by simp; omega,
      inv.executors_lt, inv.executors_live⟩, rfl, le_rfl⟩
    rcases mem_put.mp h with rfl | ⟨h, -⟩
    · exact mem
    · exact inv.pid2execMap_mem _ h

theorem Wellformed.allocate (w : Wellformed s) (p : Int) : Wellformed (s.allocate p).2 := by
  cases hs : s.pools with
  | none => simpa [ExecutorFactory.allocate, hs] using w
  | some pools =>
    obtain ⟨pools', h, inv, shut, created⟩ := (w.pools pools hs).allocate hs w.shutdowns_lt p
    refine ⟨fun e he => ?_, fun q hq => Option.some.inj (h.symm.trans hq) ▸ inv⟩
    rw [shut] at he
    exact Nat.lt_of_lt_of_le (w.shutdowns_lt e he) created

/-- `release` keeps the invariant: a thrown exception changes nothing, a decrement keeps the
keys, and a shutdown takes the executor out of all three collections.
-/
theorem Wellformed.release (w : Wellformed s) (p : Int) (tableName : String)
    : Wellformed (s.release p tableName).2 := by
  cases hs : s.pools with
  | none => simpa [ExecutorFactory.release, hs] using w
  | some pools =>
    have inv := w.pools pools hs
    rcases release_spec inv hs p tableName with
      ⟨-, h⟩ | ⟨les, count, hp, -, ⟨-, h⟩ | ⟨-, h⟩ | ⟨-, h⟩⟩ <;> rw [h]
    · exact w
    · exact w
    · have mem := inv.pid2execMap_mem _ (mem_of_lookup_eq_some hp)
      have erased : ∀ e, e ∈ pools.executors.erase les ↔ e ≠ les ∧ e ∈ pools.executors :=
        fun e => inv.executors_nodup.mem_erase_iff
      obtain ⟨m, hm, one_le, le_max, length_le⟩ := inv.maxThreads
      refine ⟨fun e he => ?_, ?_⟩
      · rcases List.mem_append.mp he with he | he
        · exact w.shutdowns_lt e he
        · rw [List.mem_singleton.mp he]
          exact inv.executors_lt _ mem
      rintro pools' ⟨⟩
      refine ⟨⟨m, hm, one_le, le_max, ?_⟩, inv.executors_nodup.erase _, fun e => ?_,
        nodup_keys_filter inv.pid2execMap_nodup _, fun entry h => ?_, ?_,
        fun e h => inv.executors_lt _ ((erased e).mp h).2, fun e h => ?_⟩
      · have := List.length_erase_le les pools.executors
        simp only
        omega
      · by_cases he : e = les
        · simp [he, erased]
        · simpa [he, erased] using inv.refCounts_isSome e
      · obtain ⟨h, other⟩ := List.mem_filter.mp h
        exact (erased _).mpr ⟨by simpa using other, inv.pid2execMap_mem _ h⟩
      · have := inv.nextAlloc
        simp only
        split_ifs <;> omega
      · obtain ⟨other, h⟩ := (erased e).mp h
        simpa [other] using inv.executors_live _ h
    · refine ⟨w.shutdowns_lt, ?_⟩
      rintro pools' ⟨⟩
      exact inv.put_count (inv.pid2execMap_mem _ (mem_of_lookup_eq_some hp)) _

theorem Wellformed.getExecutor (w : Wellformed s) (env : Environment) (p : Int)
    : Wellformed (s.getExecutor env p).2 :=
  getExecutor_preserves (w.lazyInit env) (w.lazyInit env).allocate p

theorem Wellformed.step (w : Wellformed s) (env : Environment)
    : ∀ c, Wellformed (step env s c) :=
  step_preserves env w (w.lazyInit env) (w.lazyInit env).allocate fun p t _ => w.release p t

/-- Every run keeps the invariant, in every environment, by induction over the calls. -/
theorem wellformed_run (env : Environment) (calls : List Call) : Wellformed (run env calls) :=
  run_induction env (fun _ => Wellformed) wellformed_initial (fun _ c ih => ih.step env c) calls

-----------------------------------------------------------------------------------------
-- Reference counts
-----------------------------------------------------------------------------------------

/-- Every reference count is a positive `int`. -/
def CountsInRange (refCounts : List (Nat × Int)) : Prop :=
  ∀ entry ∈ refCounts, 1 ≤ entry.2 ∧ entry.2 ≤ intMaxValue

/-- The counts of a factory that has its collections are all below `Integer.MAX_VALUE`: one
more reference does not overflow.
-/
def CountsBelowMax (s : ExecutorFactory) : Prop :=
  ∀ pools ∈ s.pools, ∀ entry ∈ pools.refCounts, entry.2 < intMaxValue

/-- No reference count has reached `Integer.MAX_VALUE` when a `getExecutor` call of the run
starts, so no `intValue() + 1` of the run overflows.
-/
def NoCountOverflow (env : Environment) (calls : List Call) : Prop :=
  ∀ i : Fin calls.length, (calls.get i).isGet → CountsBelowMax (run env (calls.take i))

instance (s : ExecutorFactory) : Decidable (CountsBelowMax s) :=
  inferInstanceAs (Decidable (∀ pools ∈ s.pools, _))

instance (env : Environment) (calls : List Call) : Decidable (NoCountOverflow env calls) :=
  inferInstanceAs (Decidable (∀ i : Fin calls.length,
    (calls.get i).isGet → CountsBelowMax (run env (calls.take i))))

theorem NoCountOverflow.last {env : Environment} {calls : List Call} {c : Call}
    (h : NoCountOverflow env (calls ++ [c])) (hc : c.isGet)
    : CountsBelowMax (run env calls) := by
  simpa using h ⟨calls.length, by simp⟩ (by simpa using hc)

section Counts

variable {refCounts : List (Nat × Int)} {les : Nat} {count : Int}

theorem CountsInRange.put (range : CountsInRange refCounts) {value : Int}
    (h : 1 ≤ value ∧ value ≤ intMaxValue)
    : CountsInRange (put les value refCounts) := by
  intro entry he
  rcases mem_put.mp he with rfl | ⟨he, -⟩
  · exact h
  · exact range entry he

theorem CountsInRange.remove (range : CountsInRange refCounts)
    : CountsInRange (remove les refCounts) :=
  fun entry he => range entry (List.mem_filter.mp he).1

/-- A count in range less one is taken without overflow. -/
theorem CountsInRange.toJavaInt_pred (range : CountsInRange refCounts)
    (hc : refCounts.lookup les = some count)
    : toJavaInt (count - 1) = count - 1 := by
  have inRange := range _ (mem_of_lookup_eq_some hc)
  simp only at inRange
  exact toJavaInt_of_isJavaInt ⟨by omega, by omega⟩

/-- A count below `Integer.MAX_VALUE` plus one is taken without overflow. -/
theorem CountsInRange.toJavaInt_succ (range : CountsInRange refCounts)
    (below : ∀ entry ∈ refCounts, entry.2 < intMaxValue) (hc : refCounts.lookup les = some count)
    : toJavaInt (count + 1) = count + 1 := by
  have inRange := range _ (mem_of_lookup_eq_some hc)
  have below := below _ (mem_of_lookup_eq_some hc)
  simp only at inRange below
  exact toJavaInt_of_isJavaInt ⟨by omega, by omega⟩

theorem CountsInRange.increment (range : CountsInRange refCounts)
    (below : ∀ entry ∈ refCounts, entry.2 < intMaxValue) (hc : refCounts.lookup les = some count)
    : CountsInRange (VoltDB.Export.put les (toJavaInt (count + 1)) refCounts) := by
  have inRange := range _ (mem_of_lookup_eq_some hc)
  have room := below _ (mem_of_lookup_eq_some hc)
  simp only at inRange room
  rw [range.toJavaInt_succ below hc]
  exact range.put ⟨by omega, by omega⟩

end Counts

/-- The counts of a factory that has its collections are in range. -/
def CountsOk (s : ExecutorFactory) : Prop :=
  ∀ pools ∈ s.pools, CountsInRange pools.refCounts

theorem lazyInit_pools (env : Environment)
    : (s.lazyInit env).2.pools = s.pools ∨ (s.lazyInit env).2.pools = some ⟨[], [], []⟩ := by
  rw [lazyInit_eq]
  split_ifs <;> simp

theorem CountsOk.allocate (w : Wellformed s) (ok : CountsOk s) (below : CountsBelowMax s)
    (p : Int)
    : CountsOk (s.allocate p).2 := by
  cases hs : s.pools with
  | none => simpa [ExecutorFactory.allocate, hs] using ok
  | some pools =>
    have inv := w.pools pools hs
    have range := ok pools hs
    have below := below pools hs
    obtain ⟨m, hm, -⟩ := inv.maxThreads
    obtain ⟨les, s', h, ⟨-, count, hc, rfl⟩ | ⟨-, -, rfl, rfl⟩ |
        ⟨-, -, i, count, -, -, hc, rfl⟩⟩ :=
      allocate_spec inv hs hm p <;> rw [h] <;> rintro pools' ⟨⟩
    · exact range.increment below hc
    · exact range.put ⟨le_rfl, by unfold intMaxValue; omega⟩
    · exact range.increment below hc

theorem CountsOk.release (w : Wellformed s) (ok : CountsOk s) (p : Int) (tableName : String)
    : CountsOk (s.release p tableName).2 := by
  cases hs : s.pools with
  | none => simpa [ExecutorFactory.release, hs] using ok
  | some pools =>
    have range := ok pools hs
    rcases release_spec (w.pools pools hs) hs p tableName with
      ⟨-, h⟩ | ⟨les, count, -, hc, ⟨-, h⟩ | ⟨-, h⟩ | ⟨pos, h⟩⟩ <;> rw [h]
    · exact ok
    · exact ok
    · rintro pools' ⟨⟩
      exact range.remove
    · rintro pools' ⟨⟩
      have := range _ (mem_of_lookup_eq_some hc)
      simp only at this
      exact range.put ⟨by omega, by rw [range.toJavaInt_pred hc]; omega⟩

/-- `initialize` keeps the counts, or starts with none. -/
theorem lazyInit_counts (ok : CountsOk s) (below : CountsBelowMax s) (env : Environment)
    : CountsOk (s.lazyInit env).2 ∧ CountsBelowMax (s.lazyInit env).2 := by
  rcases lazyInit_pools (s := s) env with h | h <;> rw [CountsOk, CountsBelowMax, h]
  · exact ⟨ok, below⟩
  · simp [CountsInRange]

/-- One call keeps the counts in range, when a `getExecutor` finds them below the maximum. -/
theorem CountsOk.step (w : Wellformed s) (ok : CountsOk s) (env : Environment) (c : Call)
    (below : c.isGet → CountsBelowMax s)
    : CountsOk (step env s c) := by
  cases c with
  | getExecutor p _ =>
    have ready := lazyInit_counts ok (below rfl) env
    exact getExecutor_preserves ready.1 (ready.1.allocate (w.lazyInit env) ready.2) p
  | freeExecutor p tableName =>
    exact freeExecutor_preserves ok (fun p t _ => ok.release w p t) p tableName

/-- An initialized factory has its collections: `initialize` did not throw. -/
def Ready (s : ExecutorFactory) : Prop :=
  s.isInitialized = true → s.pools.isSome

theorem allocate_pools_isSome (w : Wellformed s) (hs : s.pools = some pools) (p : Int)
    : (s.allocate p).2.pools.isSome := by
  obtain ⟨pools', h, -⟩ := (w.pools pools hs).allocate hs w.shutdowns_lt p
  simp [h]

theorem release_pools_isSome (w : Wellformed s) (hs : s.pools = some pools) (p : Int)
    (tableName : String)
    : (s.release p tableName).2.pools.isSome := by
  rcases release_spec (w.pools pools hs) hs p tableName with
    ⟨-, h⟩ | ⟨les, count, -, -, ⟨-, h⟩ | ⟨-, h⟩ | ⟨-, h⟩⟩ <;> simp [h, hs]

/-- With a local sites count that is not negative, `initialize` returns and leaves the
collections set.
-/
theorem lazyInit_ready (env : Environment) (sites : 0 ≤ env.localSitesCount) (ready : Ready s)
    : (s.lazyInit env).1 = .ok () ∧ ∃ pools, (s.lazyInit env).2.pools = some pools := by
  have := env.checkedMaxThreads_nonneg sites
  rw [lazyInit_eq]
  split_ifs with initialized
  · exact ⟨rfl, Option.isSome_iff_exists.mp (ready initialized)⟩
  · omega
  · exact ⟨rfl, _, rfl⟩

/-- On a ready factory, `getExecutor` returns an executor and leaves the collections set. -/
theorem getExecutor_ready (w : Wellformed s) (env : Environment) (sites : 0 ≤ env.localSitesCount)
    (ready : Ready s) (p : Int)
    : (∃ les, (s.getExecutor env p).1 = .ok les) ∧ (s.getExecutor env p).2.pools.isSome := by
  obtain ⟨returned, pools, hs⟩ := lazyInit_ready env sites ready
  obtain ⟨m, hm, -⟩ := ((w.lazyInit env).pools pools hs).maxThreads
  obtain ⟨les, s', h, -⟩ := allocate_spec ((w.lazyInit env).pools pools hs) hs hm p
  rw [getExecutor_eq, returned]
  exact ⟨⟨les, by rw [h]⟩, h ▸ allocate_pools_isSome (w.lazyInit env) hs p⟩

theorem Ready.step (ready : Ready s) (w : Wellformed s) (env : Environment)
    (sites : 0 ≤ env.localSitesCount)
    : ∀ c, Ready (step env s c)
  | .getExecutor p _ => fun _ => (getExecutor_ready w env sites ready p).2
  | .freeExecutor p tableName => freeExecutor_preserves ready (fun p t initialized _ => by
      obtain ⟨pools, hs⟩ := Option.isSome_iff_exists.mp (ready initialized)
      exact release_pools_isSome w hs p t) p tableName

/-- A node with `MAX_EXPORT_THREADS=1`, 8 processors and 4 local sites: one export thread. -/
def singleThreadEnv : Environment :=
  ⟨some 1, 8, 4, by decide, by decide, by decide⟩

/-- A node without `MAX_EXPORT_THREADS`, with 8 processors and 4 local sites: `getMinThreads()`
gives two export threads.
-/
def twoThreadEnv : Environment :=
  ⟨none, 8, 4, by decide, by decide, by decide⟩

/-- A node whose local sites count is negative under the default `MAX_EXPORT_THREADS`:
`initialize` forces `m_maxThreads` to -1.
-/
def negativeSitesEnv : Environment :=
  ⟨none, 8, -1, by decide, by decide, by decide⟩

end VoltDB.Export
