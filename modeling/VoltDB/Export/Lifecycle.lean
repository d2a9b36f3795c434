import VoltDB.Export.ReferenceCounts

/-! The factory over its whole life: the first `getExecutor` fixes `m_maxThreads` for good (by
default `getMinThreads()`, at least 2), an `initialize` that throws leaves a factory on which
every later call throws, and a run whose allocations are all freed has shut down every executor
it created. Over every run, each executor created is running or shut down, exactly once;
`m_executors` stays in creation order; and a partition keeps its executor until that executor
is shut down.
-/

namespace VoltDB.Export

open ExecutorFactory

variable {s : ExecutorFactory} {pools : Pools}

-----------------------------------------------------------------------------------------
-- The thread limit
-----------------------------------------------------------------------------------------

/-- `allocate` never assigns `m_maxThreads`. -/
theorem allocate_maxThreads (s : ExecutorFactory) (p : Int)
    : (s.allocate p).2.maxThreads = s.maxThreads := by
  unfold ExecutorFactory.allocate
  dsimp only
  repeat' split
  all_goals rfl

/-- `allocate` shuts nothing down. -/
theorem allocate_shutdowns (s : ExecutorFactory) (p : Int)
    : (s.allocate p).2.shutdowns = s.shutdowns := by
  unfold ExecutorFactory.allocate
  dsimp only
  repeat' split
  all_goals rfl

/-- `release` never assigns `m_maxThreads`. -/
theorem release_maxThreads (s : ExecutorFactory) (p : Int) (tableName : String)
    : (s.release p tableName).2.maxThreads = s.maxThreads := by
  unfold ExecutorFactory.release
  dsimp only
  repeat' split
  all_goals rfl

/-- `getExecutor` assigns `m_maxThreads` only in the `initialize` of an uninitialized
factory, whether that `initialize` returns or throws.
-/
theorem getExecutor_maxThreads (env : Environment) (p : Int)
    : (s.getExecutor env p).2.maxThreads =
      if s.isInitialized then s.maxThreads else some env.checkedMaxThreads := by
  rw [getExecutor_eq, lazyInit_eq]
  by_cases initialized : s.isInitialized
  · simp only [initialized, if_true, allocate_maxThreads]
  · by_cases neg : env.checkedMaxThreads < 0 <;> simp [initialized, neg, allocate_maxThreads]

theorem freeExecutor_maxThreads (p : Int) (tableName : String)
    : (s.freeExecutor p tableName).2.maxThreads = s.maxThreads :=
  freeExecutor_preserves (P := fun t => t.maxThreads = s.maxThreads) rfl
    (fun p t _ => release_maxThreads s p t) p tableName

/-- `m_maxThreads` is `null` until the first `getExecutor` and the checked limit from then on,
by induction over the calls.
-/
theorem maxThreads_run (env : Environment) (calls : List Call)
    : (run env calls).maxThreads =
      if calls.any Call.isGet then some env.checkedMaxThreads else none := by
  refine run_induction env
    (fun calls s => s.maxThreads = if calls.any Call.isGet then some env.checkedMaxThreads else none)
    rfl (fun calls c (ih : (run env calls).maxThreads = _) => ?_) calls
  dsimp only
  have initialized : (run env calls).isInitialized = calls.any Call.isGet := by
    rw [isInitialized, ih]
    cases calls.any Call.isGet <;> rfl
  cases c with
  | getExecutor p _ =>
    rw [step, getExecutor_maxThreads, initialized, ih]
    by_cases started : calls.any Call.isGet <;> simp [started, Call.isGet]
  | freeExecutor p t =>
    rw [step, freeExecutor_maxThreads, ih]
    simp [Call.isGet]

/-- `getMaxThreadCount()` unboxes `m_maxThreads`: it throws `NullPointerException` until the
first `getExecutor` (its comment promises 0 there), and from then on returns the limit that
`initialize` checked, also when that `initialize` threw.
-/
theorem getMaxThreadCount_run (env : Environment) (calls : List Call)
    : (run env calls).getMaxThreadCount =
      if calls.any Call.isGet then .ok env.checkedMaxThreads else .error .nullPointer := by
  rw [getMaxThreadCount, maxThreads_run]
  split_ifs <;> rfl

/-- Without `MAX_EXPORT_THREADS` and with local sites, the factory runs on `getMinThreads()`
threads, at least 2, capped by the local sites count: one thread only on a node with a single
local site, although the class comment calls 1 the default.
-/
theorem default_thread_count (env : Environment) (unset : env.maxExportThreads = none)
    (sites : 0 < env.localSitesCount) (calls : List Call) (started : calls.any Call.isGet)
    : (run env calls).getMaxThreadCount = .ok (min env.getMinThreads env.localSitesCount) ∧
      (min env.getMinThreads env.localSitesCount = 1 ↔ env.localSitesCount = 1) := by
  have two : 2 ≤ env.getMinThreads := le_max_left _ _
  have limit : env.checkedMaxThreads = min env.getMinThreads env.localSitesCount := by
    unfold Environment.checkedMaxThreads Environment.getConfigMaxThreads
    rw [unset, Option.getD_none]
    split_ifs <;> omega
  exact ⟨by rw [getMaxThreadCount, maxThreads_run, if_pos started, limit], by omega⟩

/-- A node with 8 processors and 4 local sites runs two export threads by default. -/
theorem default_thread_count_two_threads :
    twoThreadEnv.maxExportThreads = none ∧ 0 < twoThreadEnv.localSitesCount ∧
      [Call.getExecutor 1 "a"].any Call.isGet ∧
      (run twoThreadEnv [.getExecutor 1 "a"]).getMaxThreadCount =
        .ok (min twoThreadEnv.getMinThreads twoThreadEnv.localSitesCount) :=
  have unset : twoThreadEnv.maxExportThreads = none := rfl
  have sites : 0 < twoThreadEnv.localSitesCount := by decide
  have started : [Call.getExecutor 1 "a"].any Call.isGet := by decide
  ⟨unset, sites, started, (default_thread_count _ unset sites _ started).1⟩

-----------------------------------------------------------------------------------------
-- A failed initialize
-----------------------------------------------------------------------------------------

theorem allocate_of_pools_eq_none (hs : s.pools = none) (p : Int)
    : s.allocate p = (.error .nullPointer, s) := by
  simp only [ExecutorFactory.allocate, hs]

theorem release_of_pools_eq_none (hs : s.pools = none) (p : Int) (tableName : String)
    : s.release p tableName = (.error .nullPointer, s) := by
  simp only [ExecutorFactory.release, hs]

/-- With a negative checked limit `initialize` never creates the collections. -/
theorem lazyInit_pools_of_neg {env : Environment} (neg : env.checkedMaxThreads < 0)
    : (s.lazyInit env).2.pools = s.pools := by
  rw [lazyInit_eq]
  split_ifs <;> rfl

/-- With a negative checked limit no call ever sets the collections, by induction over the
calls.
-/
theorem pools_run_of_neg (env : Environment) (neg : env.checkedMaxThreads < 0)
    (calls : List Call)
    : (run env calls).pools = none := by
  refine run_induction env (fun _ s => s.pools = none) rfl
    (fun calls c (hs : (run env calls).pools = none) => ?_) calls
  have init : ((run env calls).lazyInit env).2.pools = none := (lazyInit_pools_of_neg neg).trans hs
  refine step_preserves (P := fun s => s.pools = none) env hs init (fun p => ?_) (fun p t _ => ?_) c
  · rwa [allocate_of_pools_eq_none init]
  · rwa [release_of_pools_eq_none hs]

/-- A negative checked thread limit (a negative local sites count, outside the range
`getLocalSitesCount()` documents, under a positive `MAX_EXPORT_THREADS`): the first
`getExecutor` assigns `m_maxThreads` and throws `IllegalArgumentException` before it creates
the collections, and a `freeExecutor` before it finds the factory uninitialized. From then on
the factory counts as initialized with `null` collections, and every `getExecutor` and
`freeExecutor` throws `NullPointerException`.
-/
theorem calls_throw_after_lazyInit_fails (env : Environment) (neg : env.checkedMaxThreads < 0)
    (calls : List Call) (p : Int) (tableName : String)
    : (run env calls).pools = none ∧
      ((run env calls).getExecutor env p).1 =
        (if calls.any Call.isGet then .error .nullPointer else .error .illegalArgument) ∧
      ((run env calls).getExecutor env p).2.maxThreads = some env.checkedMaxThreads ∧
      ((run env calls).getExecutor env p).2.pools = none ∧
      ((run env calls).freeExecutor p tableName).1 =
        if calls.any Call.isGet then .error .nullPointer
        else .error (.illegalState (freesMessage tableName p "uninitialized")) := by
  have hs := pools_run_of_neg env neg calls
  have initialized : (run env calls).isInitialized = calls.any Call.isGet := by
    rw [isInitialized, maxThreads_run]
    cases calls.any Call.isGet <;> rfl
  have later := pools_run_of_neg env neg (calls ++ [.getExecutor p tableName])
  rw [run_append_singleton] at later
  refine ⟨hs, ?_, ?_, later, ?_⟩
  · rw [getExecutor_eq, lazyInit_eq, initialized]
    cases calls.any Call.isGet <;> simp [neg, allocate_of_pools_eq_none hs]
  · rw [getExecutor_maxThreads, initialized, maxThreads_run]
    cases calls.any Call.isGet <;> rfl
  · rw [ExecutorFactory.freeExecutor, initialized, release_of_pools_eq_none hs]
    cases calls.any Call.isGet <;> rfl

/-- On a node with a negative local sites count, the first `getExecutor` throws
`IllegalArgumentException` and leaves every later call throwing `NullPointerException`.
-/
theorem calls_throw_after_lazyInit_fails_negative_sites :
    negativeSitesEnv.checkedMaxThreads < 0 ∧
      ((run negativeSitesEnv []).getExecutor negativeSitesEnv 1).1 = .error .illegalArgument ∧
      ((run negativeSitesEnv [.getExecutor 1 "t"]).getExecutor negativeSitesEnv 2).1 =
        .error .nullPointer ∧
      ((run negativeSitesEnv [.getExecutor 1 "t"]).freeExecutor 1 "t").1 = .error .nullPointer :=
  have neg : negativeSitesEnv.checkedMaxThreads < 0 := by decide
  ⟨neg, (calls_throw_after_lazyInit_fails _ neg [] 1 "t").2.1,
    (calls_throw_after_lazyInit_fails _ neg [.getExecutor 1 "t"] 2 "t").2.1,
    (calls_throw_after_lazyInit_fails _ neg [.getExecutor 1 "t"] 1 "t").2.2.2.2⟩

-----------------------------------------------------------------------------------------
-- No executor leaks
-----------------------------------------------------------------------------------------

/-- Every executor the factory has created is still in `m_executors` or has been shut down. -/
def Accounted (s : ExecutorFactory) : Prop :=
  ∀ e < s.created, e ∈ s.shutdowns ∨ ∃ pools ∈ s.pools, e ∈ pools.executors

theorem accounted_iff (hs : s.pools = some pools)
    : Accounted s ↔ ∀ e < s.created, e ∈ s.shutdowns ∨ e ∈ pools.executors := by
  simp [Accounted, hs]

theorem Accounted.lazyInit (w : Wellformed s) (acc : Accounted s) (env : Environment)
    : Accounted (s.lazyInit env).2 := by
  rw [lazyInit_eq]
  split_ifs with initialized
  · exact acc
  · exact acc
  · intro e he
    simpa [w.pools_eq_none (by simpa using initialized)] using acc e he

/-- A new executor joins `m_executors`; the others stay. -/
theorem Accounted.allocate (w : Wellformed s) (acc : Accounted s) (p : Int)
    : Accounted (s.allocate p).2 := by
  cases hs : s.pools with
  | none => rwa [allocate_of_pools_eq_none hs]
  | some pools =>
    have inv := w.pools pools hs
    have live := (accounted_iff hs).mp acc
    obtain ⟨m, hm, -⟩ := inv.maxThreads
    obtain ⟨les, s', h, ⟨-, count, -, rfl⟩ | ⟨-, -, rfl, rfl⟩ |
        ⟨-, -, i, count, -, -, -, rfl⟩⟩ :=
      allocate_spec inv hs hm p <;> rw [h, accounted_iff rfl]
    · exact live
    · intro e he
      rcases Nat.lt_succ_iff_lt_or_eq.mp he with old | rfl
      · exact (live e old).imp_right (List.mem_append_left _)
      · exact .inr (List.mem_append_right _ (List.mem_singleton_self _))
    · exact live

/-- An executor that leaves `m_executors` is shut down. -/
theorem Accounted.release (w : Wellformed s) (acc : Accounted s) (p : Int) (tableName : String)
    : Accounted (s.release p tableName).2 := by
  cases hs : s.pools with
  | none => rwa [release_of_pools_eq_none hs]
  | some pools =>
    have live := (accounted_iff hs).mp acc
    rcases release_spec (w.pools pools hs) hs p tableName with
      ⟨-, h⟩ | ⟨les, count, -, -, ⟨-, h⟩ | ⟨-, h⟩ | ⟨-, h⟩⟩ <;> rw [h]
    · exact acc
    · exact acc
    · rw [accounted_iff rfl]
      intro e he
      by_cases gone : e = les
      · exact .inl (List.mem_append_right _ (List.mem_singleton.mpr gone))
      · exact (live e he).imp (List.mem_append_left _) (List.mem_erase_of_ne gone).mpr
    · rw [accounted_iff rfl]
      exact live

theorem Accounted.step (w : Wellformed s) (acc : Accounted s) (env : Environment)
    : ∀ c, Accounted (step env s c) :=
  step_preserves env acc (acc.lazyInit w env) ((acc.lazyInit w env).allocate (w.lazyInit env))
    fun p t _ => acc.release w p t

/-- The executors in `m_executors`; none while the collections are `null`. -/
def liveExecutors (s : ExecutorFactory) : List Nat :=
  match s.pools with
  | some pools => pools.executors
  | none => []

/-- The executors live and those shut down are `0, ..., created - 1`, each exactly once. -/
def Conserved (s : ExecutorFactory) : Prop :=
  (liveExecutors s ++ s.shutdowns).Perm (List.range s.created)

theorem conserved_iff (hs : s.pools = some pools)
    : Conserved s ↔ (pools.executors ++ s.shutdowns).Perm (List.range s.created) := by
  simp [Conserved, liveExecutors, hs]

theorem Conserved.lazyInit (w : Wellformed s) (c : Conserved s) (env : Environment)
    : Conserved (s.lazyInit env).2 := by
  rw [lazyInit_eq]
  split_ifs with initialized
  · exact c
  · exact c
  · simpa [Conserved, liveExecutors, w.pools_eq_none (by simpa using initialized)] using c

/-- A new executor is the next identity, `created`. -/
theorem Conserved.allocate (w : Wellformed s) (c : Conserved s) (p : Int)
    : Conserved (s.allocate p).2 := by
  cases hs : s.pools with
  | none => rwa [allocate_of_pools_eq_none hs]
  | some pools =>
    have inv := w.pools pools hs
    have perm := (conserved_iff hs).mp c
    obtain ⟨m, hm, -⟩ := inv.maxThreads
    obtain ⟨les, s', h, ⟨-, count, -, rfl⟩ | ⟨-, -, rfl, rfl⟩ |
        ⟨-, -, i, count, -, -, -, rfl⟩⟩ :=
      allocate_spec inv hs hm p <;> rw [h, conserved_iff rfl]
    · exact perm
    · rw [List.range_succ, List.append_assoc, List.singleton_append]
      exact List.perm_middle.trans ((perm.cons _).trans (List.perm_append_singleton _ _).symm)
    · exact perm

/-- The executor `release` shuts down moves from `m_executors` to the shutdowns. -/
theorem Conserved.release (w : Wellformed s) (c : Conserved s) (p : Int) (tableName : String)
    : Conserved (s.release p tableName).2 := by
  cases hs : s.pools with
  | none => rwa [release_of_pools_eq_none hs]
  | some pools =>
    have inv := w.pools pools hs
    have perm := (conserved_iff hs).mp c
    rcases release_spec inv hs p tableName with
      ⟨-, h⟩ | ⟨les, count, hp, -, ⟨-, h⟩ | ⟨-, h⟩ | ⟨-, h⟩⟩ <;> rw [h]
    · exact c
    · exact c
    · rw [conserved_iff rfl, ← List.append_assoc]
      have live := inv.pid2execMap_mem _ (mem_of_lookup_eq_some hp)
      exact (List.perm_append_singleton _ _).trans
        (((List.perm_cons_erase live).symm.append_right _).trans perm)
    · rw [conserved_iff rfl]
      exact perm

theorem Conserved.step (w : Wellformed s) (c : Conserved s) (env : Environment)
    : ∀ call, Conserved (step env s call) :=
  step_preserves env c (c.lazyInit w env) ((c.lazyInit w env).allocate (w.lazyInit env))
    fun p t _ => c.release w p t

/-- Every run conserves the executors, by induction over the calls. -/
theorem conserved_run (env : Environment) (calls : List Call) : Conserved (run env calls) :=
  run_induction env (fun _ => Conserved) (List.Perm.refl _)
    (fun calls c ih => ih.step (wellformed_run env calls) env c) calls

/-- The executors' lifecycle over every run, in every environment and whether or not the frees
match the allocations: every executor the factory created is in `m_executors` or has been shut
down, never both, and none has been shut down twice.
-/
theorem executors_conserved (env : Environment) (calls : List Call)
    : ∀ pools ∈ (run env calls).pools,
      (pools.executors ++ (run env calls).shutdowns).Perm (List.range (run env calls).created) :=
  fun _ hs => (conserved_iff hs).mp (conserved_run env calls)

/-- On one thread, partitions 1 and 2 share executor 0 and free it, which shuts it down; the
next allocation creates executor 1.
-/
theorem executors_conserved_single_thread :
    (run singleThreadEnv [.getExecutor 1 "a", .getExecutor 2 "b", .freeExecutor 1 "a",
        .freeExecutor 2 "b", .getExecutor 3 "c"]).pools = some ⟨[1], [(1, 1)], [(3, 1)]⟩ ∧
      ([1] ++ (run singleThreadEnv [.getExecutor 1 "a", .getExecutor 2 "b", .freeExecutor 1 "a",
        .freeExecutor 2 "b", .getExecutor 3 "c"]).shutdowns).Perm
        (List.range (run singleThreadEnv [.getExecutor 1 "a", .getExecutor 2 "b",
          .freeExecutor 1 "a", .freeExecutor 2 "b", .getExecutor 3 "c"]).created) :=
  have hs : (run singleThreadEnv [.getExecutor 1 "a", .getExecutor 2 "b", .freeExecutor 1 "a",
      .freeExecutor 2 "b", .getExecutor 3 "c"]).pools = some ⟨[1], [(1, 1)], [(3, 1)]⟩ := by
    decide
  ⟨hs, executors_conserved _ _ _ hs⟩

theorem mappedExecutor_eq_some {p : Int} {e : Nat}
    : mappedExecutor s p = some e ↔
      ∃ pools, s.pools = some pools ∧ pools.pid2execMap.lookup p = some e := by
  simp [mappedExecutor, Option.bind_eq_some]

/-- `getExecutor` leaves the partition mapped to the executor it returns. -/
theorem getExecutor_mapped (w : Wellformed s) (env : Environment) (p : Int) {les : Nat}
    (h : (s.getExecutor env p).1 = .ok les)
    : mappedExecutor (s.getExecutor env p).2 p = some les := by
  have w' := w.lazyInit env
  unfold ExecutorFactory.getExecutor at h ⊢
  generalize s.lazyInit env = r at h w' ⊢
  rcases r with ⟨_ | ⟨⟩, s'⟩
  · cases h
  · dsimp only at h w' ⊢
    cases hs : s'.pools with
    | none =>
      rw [allocate_of_pools_eq_none hs] at h
      cases h
    | some pools =>
      have inv := w'.pools pools hs
      obtain ⟨m, hm, -⟩ := inv.maxThreads
      obtain ⟨les', s'', h', ⟨hp, _, _, rfl⟩ | ⟨_, _, rfl, rfl⟩ | ⟨_, _, i, _, _, _, _, rfl⟩⟩ :=
        allocate_spec inv hs hm p <;> rw [h'] at h ⊢ <;> cases h <;>
        rw [mappedExecutor_of_pools rfl]
      · exact hp
      all_goals exact (lookup_put _ _ _).trans (if_pos rfl)

/-- A partition mapped to a live executor gets it back from `getExecutor`. -/
theorem getExecutor_of_mapped (w : Wellformed s) (env : Environment) {p : Int} {e : Nat}
    (h : mappedExecutor s p = some e)
    : (s.getExecutor env p).1 = .ok e := by
  obtain ⟨pools, hs, hp⟩ := mappedExecutor_eq_some.mp h
  have inv := w.pools pools hs
  obtain ⟨m, hm, -⟩ := inv.maxThreads
  rw [getExecutor_eq, lazyInit_eq, if_pos (by simp [ExecutorFactory.isInitialized, hm])]
  dsimp only
  obtain ⟨les, s', h', ⟨hp', -⟩ | ⟨hp', -⟩ | ⟨hp', -⟩⟩ := allocate_spec inv hs hm p <;>
    rw [h'] <;> rw [hp] at hp' <;> cases hp'
  rfl

theorem getExecutor_shutdowns (s : ExecutorFactory) (env : Environment) (p : Int)
    : (s.getExecutor env p).2.shutdowns = s.shutdowns := by
  have init : (s.lazyInit env).2.shutdowns = s.shutdowns := by
    rw [lazyInit_eq]
    split_ifs <;> rfl
  rw [getExecutor_eq]
  split
  · exact init
  · rw [allocate_shutdowns, init]

/-- What `getExecutor` returns is in `m_executors` after the call. -/
theorem getExecutor_mem (w : Wellformed s) (env : Environment) (p : Int) {les : Nat}
    (h : (s.getExecutor env p).1 = .ok les)
    : ∃ pools, (s.getExecutor env p).2.pools = some pools ∧ les ∈ pools.executors := by
  obtain ⟨pools, hs, hp⟩ := mappedExecutor_eq_some.mp (getExecutor_mapped w env p h)
  exact ⟨pools, hs, ((w.getExecutor env p).pools pools hs).pid2execMap_mem _ (mem_of_lookup_eq_some hp)⟩

/-- What `getExecutor` returns over a run has never been shut down: the running executors and
those shut down are apart.
-/
theorem getExecutor_not_shut (env : Environment) (calls : List Call) (p : Int) {les : Nat}
    (h : ((run env calls).getExecutor env p).1 = .ok les)
    : les ∉ ((run env calls).getExecutor env p).2.shutdowns := by
  obtain ⟨pools, hs, live⟩ := getExecutor_mem (wellformed_run env calls) env p h
  have conserved := conserved_run env (calls ++ [.getExecutor p ""])
  rw [run_append_singleton, VoltDB.Export.step, conserved_iff hs] at conserved
  exact List.disjoint_of_nodup_append (conserved.nodup_iff.mpr (List.nodup_range _)) live

/-- `getExecutor` never hands out an executor that has been shut down: over every run and in
every environment, whether or not the frees match, an executor it returns is in `m_executors`
after the call and was never shut down.
-/
theorem getExecutor_returns_live (env : Environment) (calls : List Call) (p : Int) {les : Nat}
    (h : ((run env calls).getExecutor env p).1 = .ok les)
    : les ∉ ((run env calls).getExecutor env p).2.shutdowns ∧
      ∃ pools, ((run env calls).getExecutor env p).2.pools = some pools ∧ les ∈ pools.executors :=
  ⟨getExecutor_not_shut env calls p h, getExecutor_mem (wellformed_run env calls) env p h⟩

/-- Once partitions 1 and 2 have freed executor 0 on a one-thread node, the next partition gets
a new executor, 1, not the shut-down 0.
-/
theorem getExecutor_returns_live_single_thread :
    ((run singleThreadEnv [.getExecutor 1 "a", .getExecutor 2 "b", .freeExecutor 1 "a",
        .freeExecutor 2 "b"]).getExecutor singleThreadEnv 3).1 = .ok 1 ∧
      1 ∉ ((run singleThreadEnv [.getExecutor 1 "a", .getExecutor 2 "b", .freeExecutor 1 "a",
        .freeExecutor 2 "b"]).getExecutor singleThreadEnv 3).2.shutdowns :=
  have h : ((run singleThreadEnv [.getExecutor 1 "a", .getExecutor 2 "b", .freeExecutor 1 "a",
      .freeExecutor 2 "b"]).getExecutor singleThreadEnv 3).1 = .ok 1 := by decide
  ⟨h, (getExecutor_returns_live _ _ _ h).1⟩

-----------------------------------------------------------------------------------------
-- `m_executors` keeps the creation order
-----------------------------------------------------------------------------------------

/-- `m_executors` lists its executors oldest first. -/
def InCreationOrder (s : ExecutorFactory) : Prop :=
  (liveExecutors s).Pairwise (· < ·)

theorem inCreationOrder_iff (hs : s.pools = some pools)
    : InCreationOrder s ↔ pools.executors.Pairwise (· < ·) := by
  simp [InCreationOrder, liveExecutors, hs]

theorem InCreationOrder.lazyInit (o : InCreationOrder s) (env : Environment)
    : InCreationOrder (s.lazyInit env).2 := by
  rw [lazyInit_eq]
  split_ifs
  · exact o
  · exact o
  · exact List.Pairwise.nil

/-- `add` appends the new executor, `created`, which no executor that runs reaches. -/
theorem InCreationOrder.allocate (w : Wellformed s) (c : Conserved s) (o : InCreationOrder s)
    (p : Int)
    : InCreationOrder (s.allocate p).2 := by
  cases hs : s.pools with
  | none => rwa [allocate_of_pools_eq_none hs]
  | some pools =>
    have inv := w.pools pools hs
    have ordered := (inCreationOrder_iff hs).mp o
    obtain ⟨m, hm, -⟩ := inv.maxThreads
    obtain ⟨les, s', h, ⟨-, count, -, rfl⟩ | ⟨-, -, rfl, rfl⟩ |
        ⟨-, -, i, count, -, -, -, rfl⟩⟩ :=
      allocate_spec inv hs hm p <;> rw [h, inCreationOrder_iff rfl]
    · exact ordered
    · refine List.pairwise_append.mpr ⟨ordered, List.pairwise_singleton _ _, fun e he _ new => ?_⟩
      rw [List.mem_singleton.mp new]
      exact List.mem_range.mp (((conserved_iff hs).mp c).subset (List.mem_append_left _ he))
    · exact ordered

/-- `remove` keeps the order of the executors left. -/
theorem InCreationOrder.release (w : Wellformed s) (o : InCreationOrder s) (p : Int)
    (tableName : String)
    : InCreationOrder (s.release p tableName).2 := by
  cases hs : s.pools with
  | none => rwa [release_of_pools_eq_none hs]
  | some pools =>
    have ordered := (inCreationOrder_iff hs).mp o
    rcases release_spec (w.pools pools hs) hs p tableName with
      ⟨-, h⟩ | ⟨les, count, -, -, ⟨-, h⟩ | ⟨-, h⟩ | ⟨-, h⟩⟩ <;> rw [h]
    · exact o
    · exact o
    · exact (inCreationOrder_iff rfl).mpr (ordered.sublist (List.erase_sublist _ _))
    · rw [inCreationOrder_iff rfl]
      exact ordered

theorem InCreationOrder.step (w : Wellformed s) (c : Conserved s) (o : InCreationOrder s)
    (env : Environment)
    : ∀ call, InCreationOrder (step env s call) :=
  step_preserves env o (o.lazyInit env) ((o.lazyInit env).allocate (w.lazyInit env) (c.lazyInit w env))
    fun p t _ => o.release w p t

/-- Every run keeps the creation order, by induction over the calls. -/
theorem inCreationOrder_run (env : Environment) (calls : List Call)
    : InCreationOrder (run env calls) :=
  run_induction env (fun _ => InCreationOrder) List.Pairwise.nil
    (fun calls c ih => ih.step (wellformed_run env calls) (conserved_run env calls) env c) calls

/-- `m_executors` keeps the creation order over every run, in every environment and whether or
not the frees match: `add` appends the newest executor and `remove` keeps the order of the
others, so the round robin of `allocate` walks the executors that run oldest first.
-/
theorem executors_in_creation_order (env : Environment) (calls : List Call)
    : ∀ pools ∈ (run env calls).pools, pools.executors.Pairwise (· < ·) :=
  fun _ hs => (inCreationOrder_iff hs).mp (inCreationOrder_run env calls)

/-- On two threads, partition 1's executor 0 is shut down and partition 3 gets executor 2, after
executor 1.
-/
theorem executors_in_creation_order_two_threads :
    (run twoThreadEnv [.getExecutor 1 "a", .getExecutor 2 "b", .freeExecutor 1 "a",
        .getExecutor 3 "c"]).pools = some ⟨[1, 2], [(2, 1), (1, 1)], [(3, 2), (2, 1)]⟩ ∧
      [1, 2].Pairwise (· < ·) :=
  have hs : (run twoThreadEnv [.getExecutor 1 "a", .getExecutor 2 "b", .freeExecutor 1 "a",
      .getExecutor 3 "c"]).pools = some ⟨[1, 2], [(2, 1), (1, 1)], [(3, 2), (2, 1)]⟩ := by
    decide
  ⟨hs, executors_in_creation_order _ _ _ hs⟩

-----------------------------------------------------------------------------------------
-- Partitions never move between live executors
-----------------------------------------------------------------------------------------

/-- Partition `p` is still mapped to `e`, or `e` has been shut down. -/
def MappedOrShut (p : Int) (e : Nat) (s : ExecutorFactory) : Prop :=
  mappedExecutor s p = some e ∨ e ∈ s.shutdowns

/-- `allocate` maps only a partition that had no executor, so it keeps every mapping. -/
theorem MappedOrShut.allocate (w : Wellformed s) {p : Int} {e : Nat} (h : MappedOrShut p e s)
    (q : Int)
    : MappedOrShut p e (s.allocate q).2 := by
  rcases h with mapped | shut
  · obtain ⟨pools, hs, hp⟩ := mappedExecutor_eq_some.mp mapped
    have inv := w.pools pools hs
    obtain ⟨m, hm, -⟩ := inv.maxThreads
    left
    obtain ⟨les, s', h, ⟨-, count, -, rfl⟩ | ⟨hq, -, rfl, rfl⟩ |
        ⟨hq, -, i, count, -, -, -, rfl⟩⟩ :=
      allocate_spec inv hs hm q <;> rw [h, mappedExecutor_of_pools rfl]
    · exact hp
    all_goals
      have : p ≠ q := by rintro rfl; simp [hp] at hq
      simpa [this] using hp
  · exact .inr (by rwa [allocate_shutdowns])

/-- `release` drops a mapping only with its executor, which it shuts down. -/
theorem MappedOrShut.release (w : Wellformed s) {p : Int} {e : Nat} (h : MappedOrShut p e s)
    (q : Int) (tableName : String)
    : MappedOrShut p e (s.release q tableName).2 := by
  cases hs : s.pools with
  | none => rwa [release_of_pools_eq_none hs]
  | some pools =>
    have inv := w.pools pools hs
    rcases release_spec inv hs q tableName with
      ⟨-, h'⟩ | ⟨les, count, -, -, ⟨-, h'⟩ | ⟨-, h'⟩ | ⟨-, h'⟩⟩ <;> rw [h']
    · exact h
    · exact h
    · rcases h with mapped | shut
      · rw [mappedExecutor_of_pools hs] at mapped
        by_cases gone : e = les
        · exact .inr (List.mem_append_right _ (List.mem_singleton.mpr gone))
        · exact .inl (by
            rw [mappedExecutor_of_pools rfl]
            exact lookup_filter_value_ne inv.pid2execMap_nodup mapped gone)
      · exact .inr (List.mem_append_left _ shut)
    · rcases h with mapped | shut
      · rw [mappedExecutor_of_pools hs] at mapped
        exact .inl (by rwa [mappedExecutor_of_pools rfl])
      · exact .inr shut

/-- `initialize` creates the collections only where there were none, so no partition was mapped. -/
theorem MappedOrShut.lazyInit (w : Wellformed s) {p : Int} {e : Nat} (h : MappedOrShut p e s)
    (env : Environment)
    : MappedOrShut p e (s.lazyInit env).2 := by
  rw [lazyInit_eq]
  split_ifs with initialized
  · exact h
  all_goals
    rcases h with mapped | shut
    · simp [mappedExecutor, w.pools_eq_none (by simpa using initialized)] at mapped
    · exact .inr shut

theorem MappedOrShut.step (w : Wellformed s) {p : Int} {e : Nat} (h : MappedOrShut p e s)
    (env : Environment)
    : ∀ call, MappedOrShut p e (step env s call) :=
  step_preserves env h (h.lazyInit w env) ((h.lazyInit w env).allocate (w.lazyInit env))
    fun q t _ => h.release w q t

/-- Every run keeps a partition on its executor or shuts the executor down, by induction over
the calls.
-/
theorem mappedOrShut_run (env : Environment) (pre post : List Call) {p : Int} {e : Nat}
    (h : MappedOrShut p e (run env pre))
    : MappedOrShut p e (run env (pre ++ post)) :=
  run_append_induction env pre (fun _ => MappedOrShut p e) h
    (fun _ c ih => ih.step (wellformed_run env _) env c) post

/-- A partition never moves from one live executor to another: once `m_pid2execMap` maps it to
`e`, every later state still maps it to `e` or has shut `e` down, over every run and in every
environment.
-/
theorem partition_stays_until_shutdown (env : Environment) (pre post : List Call) {p : Int}
    {e : Nat} (h : mappedExecutor (run env pre) p = some e)
    : mappedExecutor (run env (pre ++ post)) p = some e ∨ e ∈ (run env (pre ++ post)).shutdowns :=
  mappedOrShut_run env pre post (.inl h)

/-- On one thread, partition 1 keeps executor 0 while partition 2 shares it, until the last
free shuts it down.
-/
theorem partition_stays_until_shutdown_single_thread :
    mappedExecutor (run singleThreadEnv [.getExecutor 1 "a"]) 1 = some 0 ∧
      (mappedExecutor (run singleThreadEnv ([.getExecutor 1 "a"] ++
          [.getExecutor 2 "b", .freeExecutor 1 "a", .freeExecutor 2 "b"])) 1 = some 0 ∨
        0 ∈ (run singleThreadEnv ([.getExecutor 1 "a"] ++
          [.getExecutor 2 "b", .freeExecutor 1 "a", .freeExecutor 2 "b"])).shutdowns) :=
  have h : mappedExecutor (run singleThreadEnv [.getExecutor 1 "a"]) 1 = some 0 := by decide
  ⟨h, partition_stays_until_shutdown _ _ _ h⟩

/-- A partition returns to its executor for as long as that executor runs: once `getExecutor(p, .)`
has returned `e`, every later `getExecutor(p, .)` returns `e` again exactly when `e` has not been
shut down, even after all of `p`'s data sources have been freed, since a partition's last free
leaves it in `m_pid2execMap`. This holds over every run, in every environment.
-/
theorem partition_returns_to_executor (env : Environment) (pre post : List Call) (p : Int)
    (t : String) {e : Nat} (h : ((run env pre).getExecutor env p).1 = .ok e)
    : ((run env (pre ++ .getExecutor p t :: post)).getExecutor env p).1 = .ok e ↔
      e ∉ (run env (pre ++ .getExecutor p t :: post)).shutdowns := by
  constructor
  · intro again
    have := getExecutor_not_shut env _ p again
    rwa [getExecutor_shutdowns] at this
  · intro live
    have mapped : MappedOrShut p e (run env (pre ++ [.getExecutor p t])) := by
      rw [run_append_singleton]
      exact .inl (getExecutor_mapped (wellformed_run env pre) env p h)
    have later := mappedOrShut_run env _ post mapped
    rw [List.append_assoc, List.singleton_append] at later
    rcases later with mapped' | shut
    · exact getExecutor_of_mapped (wellformed_run env _) env mapped'
    · exact absurd shut live

/-- On one thread, partition 1 frees its only data source while partition 2 still shares executor
0: partition 1's next `getExecutor` returns 0 again.
-/
theorem partition_returns_to_executor_single_thread :
    ((run singleThreadEnv []).getExecutor singleThreadEnv 1).1 = .ok 0 ∧
      ((run singleThreadEnv ([] ++ .getExecutor 1 "a" :: [.getExecutor 2 "b", .freeExecutor 1 "a"])
        ).getExecutor singleThreadEnv 1).1 = .ok 0 :=
  have h : ((run singleThreadEnv []).getExecutor singleThreadEnv 1).1 = .ok 0 := by decide
  ⟨h, (partition_returns_to_executor _ _ _ 1 "a" h).mpr (by decide)⟩

end VoltDB.Export
