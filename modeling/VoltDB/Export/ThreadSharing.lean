import VoltDB.Export.PoolSafety

/-! The thread sharing policy of the factory's class comment, over runs of `getExecutor` calls:
a partition without an executor gets a new one until `m_maxThreads` run, then the executor at
`m_nextAlloc`, round robin, so any two executors carry numbers of partitions that differ by at
most one, and new partitions are spread over the executors in turn.
-/

namespace VoltDB.Export

open ExecutorFactory

variable {s : ExecutorFactory} {pools : Pools}

/-- The load of the executors of a factory filled by `getExecutor` calls alone, for some `k`:
the executors before `m_nextAlloc` carry `k + 1` partitions and the others `k`; while fewer than
`m_maxThreads` run, `k` is 1 and `m_nextAlloc` is 0.
-/
def Balanced (s : ExecutorFactory) (pools : Pools) : Prop :=
  ∃ k, (∀ m, s.maxThreads = some m → (pools.executors.length : Int) < m → k = 1 ∧ s.nextAlloc = 0) ∧
    ∀ (i : Nat) les, pools.executors[i]? = some les →
      (mappedTo pools.pid2execMap les).length = if (i : Int) < s.nextAlloc then k + 1 else k

/-- Every initialized state of the run is balanced. -/
def Sharing (s : ExecutorFactory) : Prop :=
  ∀ pools, s.pools = some pools → Balanced s pools

theorem Sharing.lazyInit (w : Wellformed s) (sharing : Sharing s) (env : Environment)
    : Sharing (s.lazyInit env).2 := by
  rw [lazyInit_eq]
  split_ifs with initialized
  · exact sharing
  · simp [Sharing, w.pools_eq_none (by simpa using initialized)]
  · rintro pools ⟨⟩
    exact ⟨1, fun _ _ _ => ⟨rfl, rfl⟩, by simp⟩

/-- A new executor carries the one partition it was made for; the others keep theirs. -/
theorem Balanced.fresh (inv : PoolInv s pools) (bal : Balanced s pools) {m p : Int}
    (hm : s.maxThreads = some m) (room : (pools.executors.length : Int) < m)
    (hp : pools.pid2execMap.lookup p = none)
    : Balanced
      { s with
        created := s.created + 1
        pools := some ⟨pools.executors ++ [s.created], put s.created 1 pools.refCounts,
          put p s.created pools.pid2execMap⟩ }
      ⟨pools.executors ++ [s.created], put s.created 1 pools.refCounts,
        put p s.created pools.pid2execMap⟩ := by
  obtain ⟨k, filling, loads⟩ := bal
  obtain ⟨rfl, first⟩ := filling m hm room
  refine ⟨1, fun _ _ _ => ⟨rfl, first⟩, fun i les h => ?_⟩
  have past : ¬ ((i : Int) < s.nextAlloc) := by omega
  simp only [past, if_false, mappedTo_put_of_lookup_eq_none hp]
  by_cases old : i < pools.executors.length
  · rw [List.getElem?_append_left old] at h
    have : s.created ≠ les := fun e => (inv.executors_lt _ (e ▸ List.getElem?_mem h)).false
    simpa [this, past] using loads i les h
  · rw [List.getElem?_append_right (by omega)] at h
    obtain rfl : les = s.created := List.mem_singleton.mp (List.getElem?_mem h)
    simp [inv.mappedTo_created]

/-- The round robin gives the executor at `m_nextAlloc` (reset to 0 past the end) one more
partition, so the boundary between `k + 1` and `k` moves one step.
-/
theorem Balanced.shared (inv : PoolInv s pools) (bal : Balanced s pools) {m p : Int} {i : Nat}
    {les : Nat} {count : Int} (hm : s.maxThreads = some m)
    (full : (pools.executors.length : Int) = m) (hp : pools.pid2execMap.lookup p = none)
    (hi : pools.executors[i]? = some les)
    (hnext : (i : Int) = if s.nextAlloc ≥ pools.executors.length then 0 else s.nextAlloc)
    : Balanced { s with nextAlloc := i + 1, pools := some { pools with
        refCounts := put les (toJavaInt (count + 1)) pools.refCounts
        pid2execMap := put p les pools.pid2execMap } }
      { pools with
        refCounts := put les (toJavaInt (count + 1)) pools.refCounts
        pid2execMap := put p les pools.pid2execMap } := by
  obtain ⟨k, -, loads⟩ := bal
  have bounds := inv.nextAlloc
  have i_lt : i < pools.executors.length := (List.getElem?_eq_some_iff.mp hi).1
  refine ⟨if s.nextAlloc ≥ pools.executors.length then k + 1 else k,
    fun m' hm' room => by simp only at hm' room; rw [hm] at hm'; cases hm'; omega,
    fun j lesj hj => ?_⟩
  have old := loads j lesj hj
  have j_lt : j < pools.executors.length := (List.getElem?_eq_some_iff.mp hj).1
  have same : les = lesj ↔ i = j :=
    ⟨fun e => List.getElem?_inj i_lt inv.executors_nodup (by rw [hi, hj, e]),
      fun e => by rw [e] at hi; exact Option.some.inj (hi.symm.trans hj)⟩
  simp only [mappedTo_put_of_lookup_eq_none hp, same]
  split_ifs at old ⊢ <;> simp only [List.length_cons, old] <;> omega

theorem Sharing.allocate (w : Wellformed s) (sharing : Sharing s) (p : Int)
    : Sharing (s.allocate p).2 := by
  cases hs : s.pools with
  | none => simpa [ExecutorFactory.allocate, hs] using sharing
  | some pools =>
    have inv := w.pools pools hs
    have bal := sharing pools hs
    obtain ⟨m, hm, -⟩ := inv.maxThreads
    obtain ⟨les, s', h, ⟨-, count, -, rfl⟩ | ⟨hp, room, rfl, rfl⟩ |
        ⟨hp, full, i, count, hi, hnext, -, rfl⟩⟩ :=
      allocate_spec inv hs hm p <;> rw [h] <;> rintro pools' ⟨⟩
    · exact bal
    · exact bal.fresh inv hm room hp
    · exact bal.shared inv hm full hp hi hnext

theorem Sharing.getExecutor (w : Wellformed s) (sharing : Sharing s) (env : Environment)
    (p : Int)
    : Sharing (s.getExecutor env p).2 :=
  getExecutor_preserves (sharing.lazyInit w env) ((sharing.lazyInit w env).allocate (w.lazyInit env)) p

/-- Every run of `getExecutor` calls keeps its executors balanced, by induction over the
calls.
-/
theorem sharing_run (env : Environment) (calls : List Call) (onlyGets : ∀ c ∈ calls, c.isGet)
    : Sharing (run env calls) := by
  refine run_induction env (fun calls s => (∀ c ∈ calls, c.isGet) → Sharing s)
    (fun _ => by simp [Sharing, initial]) (fun calls c ih onlyGets => ?_) calls onlyGets
  have earlier := ih fun c' h => onlyGets c' (List.mem_append_left _ h)
  cases c with
  | getExecutor p _ => exact earlier.getExecutor (wellformed_run env calls) env p
  | freeExecutor p _ =>
    exact absurd (onlyGets _ (List.mem_append_right _ (List.mem_singleton_self _))) (by simp [Call.isGet])

/-- The thread sharing policy: over any run of `getExecutor` calls, in any environment, the
numbers of (distinct) partitions mapped to any two executors differ by at most one, and once
`m_maxThreads` executors run, for some `k` the executors before `m_nextAlloc` carry `k + 1`
partitions and the others `k`.
-/
theorem partitions_balanced (env : Environment) (calls : List Call)
    (onlyGets : ∀ c ∈ calls, c.isGet) (pools : Pools) (hs : (run env calls).pools = some pools)
    : (pools.pid2execMap.map Prod.fst).Nodup ∧
    (∀ e₁ ∈ pools.executors, ∀ e₂ ∈ pools.executors,
      (mappedTo pools.pid2execMap e₁).length ≤ (mappedTo pools.pid2execMap e₂).length + 1) ∧
    (∀ m, (run env calls).maxThreads = some m → (pools.executors.length : Int) = m →
      ∃ k, ∀ (i : Nat) les, pools.executors[i]? = some les →
        (mappedTo pools.pid2execMap les).length =
          if (i : Int) < (run env calls).nextAlloc then k + 1 else k) := by
  obtain ⟨k, -, loads⟩ := sharing_run env calls onlyGets pools hs
  refine ⟨((wellformed_run env calls).pools pools hs).pid2execMap_nodup, fun e₁ h₁ e₂ h₂ => ?_,
    fun _ _ _ => ⟨k, loads⟩⟩
  obtain ⟨i, hi⟩ := List.mem_iff_getElem?.mp h₁
  obtain ⟨j, hj⟩ := List.mem_iff_getElem?.mp h₂
  rw [loads i e₁ hi, loads j e₂ hj]
  split_ifs <;> omega

/-- Three partitions on a node of two threads: the third shares executor 0 by the round robin,
which then carries two partitions and executor 1 one.
-/
theorem partitions_balanced_two_threads :
    (∀ c ∈ [Call.getExecutor 1 "a", .getExecutor 2 "b", .getExecutor 3 "c"], c.isGet) ∧
      (run twoThreadEnv [.getExecutor 1 "a", .getExecutor 2 "b", .getExecutor 3 "c"]).pools =
        some ⟨[0, 1], [(0, 2), (1, 1)], [(3, 0), (2, 1), (1, 0)]⟩ ∧
      ∀ e₁ ∈ [0, 1], ∀ e₂ ∈ [0, 1],
        (mappedTo ([(3, 0), (2, 1), (1, 0)] : List (Int × Nat)) e₁).length ≤
          (mappedTo ([(3, 0), (2, 1), (1, 0)] : List (Int × Nat)) e₂).length + 1 :=
  have onlyGets : ∀ c ∈ [Call.getExecutor 1 "a", .getExecutor 2 "b", .getExecutor 3 "c"],
      c.isGet := by decide
  have hs : (run twoThreadEnv [.getExecutor 1 "a", .getExecutor 2 "b", .getExecutor 3 "c"]).pools =
      some ⟨[0, 1], [(0, 2), (1, 1)], [(3, 0), (2, 1), (1, 0)]⟩ := by decide
  ⟨onlyGets, hs, (partitions_balanced _ _ onlyGets _ hs).2.1⟩

-----------------------------------------------------------------------------------------
-- The order of the round robin
-----------------------------------------------------------------------------------------

/-- The position `allocate` reads when every executor runs: `m_nextAlloc`, reset to 0 at the
end of `m_executors`.
-/
def nextPosition (s : ExecutorFactory) (pools : Pools) : Nat :=
  (if s.nextAlloc ≥ pools.executors.length then 0 else s.nextAlloc).toNat

/-- Once `m_maxThreads` executors run, a `getExecutor` of a partition without an executor maps it
to the executor at `nextPosition` and moves `m_nextAlloc` one past it.
-/
theorem getExecutor_full (w : Wellformed s) (hs : s.pools = some pools)
    (full : s.maxThreads = some (pools.executors.length : Int)) {p : Int}
    (hp : pools.pid2execMap.lookup p = none) (env : Environment)
    : ∃ (i : Nat) (les : Nat) (count : Int), pools.executors[i]? = some les ∧
      i = nextPosition s pools ∧
      (s.getExecutor env p).2 = { s with nextAlloc := i + 1, pools := some { pools with
        refCounts := put les count pools.refCounts
        pid2execMap := put p les pools.pid2execMap } } := by
  have inv := w.pools pools hs
  rw [getExecutor_eq, lazyInit_eq, if_pos (by simp [isInitialized, full])]
  dsimp only
  obtain ⟨les, s', h, ⟨hp', -⟩ | ⟨-, room, -⟩ | ⟨-, -, i, count, hi, hnext, -, rfl⟩⟩ :=
    allocate_spec inv hs full p
  · simp [hp] at hp'
  · exact absurd room (lt_irrefl _)
  · exact ⟨i, les, _, hi, by rw [nextPosition, ← hnext]; rfl, by rw [h]⟩

/-- One round of the round robin moves the position by one, cyclically. -/
theorem nextPosition_of_nextAlloc {i : Nat} (h : s.nextAlloc = i + 1)
    (hi : i < pools.executors.length)
    : nextPosition s pools = (i + 1) % pools.executors.length := by
  unfold nextPosition
  rw [h]
  by_cases wrap : i + 1 = pools.executors.length
  · rw [if_pos (by omega), wrap, Nat.mod_self]
    rfl
  · rw [if_neg (by omega), Nat.mod_eq_of_lt (by omega)]
    omega

/-- Calls of `getExecutor` on distinct partitions without an executor, once every executor runs,
map the `j`-th of them to the executor `j` positions after `nextPosition`, cyclically, and keep
`m_executors` and every other mapping, by induction on the calls.
-/
theorem roundRobin_foldl (env : Environment) (ps : List (Int × String))
    : ∀ (s : ExecutorFactory) (pools : Pools), Wellformed s → s.pools = some pools →
      s.maxThreads = some (pools.executors.length : Int) →
      (∀ x ∈ ps, pools.pid2execMap.lookup x.1 = none) → (ps.map Prod.fst).Nodup →
      ∃ pools', ((ps.map fun x => Call.getExecutor x.1 x.2).foldl (step env) s).pools = some pools' ∧
        pools'.executors = pools.executors ∧
        (∀ q, q ∉ ps.map Prod.fst → pools'.pid2execMap.lookup q = pools.pid2execMap.lookup q) ∧
        ∀ (j : Nat) x, ps[j]? = some x → pools'.pid2execMap.lookup x.1 =
          pools.executors[(nextPosition s pools + j) % pools.executors.length]? := by
  induction ps with
  | nil => exact fun s pools _ hs _ _ _ => ⟨pools, hs, rfl, fun _ _ => rfl, by simp⟩
  | cons x rest ih =>
    intro s pools w hs full fresh distinct
    rw [List.map_cons, List.nodup_cons] at distinct
    obtain ⟨i, les, count, hi, hpos, h⟩ :=
      getExecutor_full w hs full (fresh x (List.mem_cons_self x rest)) env
    have bound : i < pools.executors.length := (List.getElem?_eq_some_iff.mp hi).1
    have fresh' : ∀ y ∈ rest, (put x.1 les pools.pid2execMap).lookup y.1 = none := fun y hy => by
      have : y.1 ≠ x.1 := fun e => distinct.1 (e ▸ List.mem_map_of_mem Prod.fst hy)
      rw [lookup_put, if_neg this, fresh y (List.mem_cons_of_mem x hy)]
    -- the first call maps `x` and moves the position; the others follow from `s'`
    obtain ⟨pools', hs', executors, others, order⟩ := ih (s.getExecutor env x.1).2
      ⟨pools.executors, put les count pools.refCounts, put x.1 les pools.pid2execMap⟩
      (w.getExecutor env x.1) (by rw [h]) (by rw [h]; exact full) fresh' distinct.2
    have next : nextPosition (s.getExecutor env x.1).2
        ⟨pools.executors, put les count pools.refCounts, put x.1 les pools.pid2execMap⟩ =
          (i + 1) % pools.executors.length :=
      nextPosition_of_nextAlloc (by rw [h]) bound
    refine ⟨pools', hs', executors, fun q hq => ?_, fun j y hy => ?_⟩
    · simp only [List.map_cons, List.mem_cons, not_or] at hq
      rw [others q hq.2]
      dsimp only
      rw [lookup_put, if_neg hq.1]
    · cases j with
      | zero =>
        obtain rfl : x = y := by simpa using hy
        rw [others x.1 distinct.1]
        dsimp only
        rw [lookup_put, if_pos rfl, Nat.add_zero, ← hpos, Nat.mod_eq_of_lt bound, hi]
      | succ j =>
        rw [order j y (by simpa using hy)]
        dsimp only
        rw [next, Nat.mod_add_mod, ← hpos, show i + 1 + j = i + (j + 1) by omega]

/-- The order of the round robin: in every environment and after any calls, once `m_maxThreads`
executors run, `getExecutor` calls on distinct partitions without an executor hand out the
executors of `m_executors` in turn, cyclically, from `m_nextAlloc` (reset to 0 at the end):
the `j`-th of them is mapped to the executor `j` positions further, and `m_executors` is left as
it was.
-/
theorem round_robin_order (env : Environment) (pre : List Call) (ps : List (Int × String))
    {pools : Pools} (hs : (run env pre).pools = some pools)
    (full : (run env pre).maxThreads = some (pools.executors.length : Int))
    (fresh : ∀ x ∈ ps, pools.pid2execMap.lookup x.1 = none) (distinct : (ps.map Prod.fst).Nodup)
    (j : Nat) (x : Int × String) (hx : ps[j]? = some x)
    : ∃ pools', (run env (pre ++ ps.map fun x => .getExecutor x.1 x.2)).pools = some pools' ∧
      pools'.executors = pools.executors ∧
      pools'.pid2execMap.lookup x.1 =
        pools.executors[(nextPosition (run env pre) pools + j) % pools.executors.length]? := by
  obtain ⟨pools', hs', executors, -, order⟩ :=
    roundRobin_foldl env ps _ pools (wellformed_run env pre) hs full fresh distinct
  exact ⟨pools', by rw [run, List.foldl_append]; exact hs', executors, order j x hx⟩

/-- Two threads filled by partitions 1 and 2: partitions 3, 4 and 5 get executors 0, 1 and 0. -/
theorem round_robin_order_two_threads :
    (run twoThreadEnv [.getExecutor 1 "a", .getExecutor 2 "b"]).pools =
        some ⟨[0, 1], [(1, 1), (0, 1)], [(2, 1), (1, 0)]⟩ ∧
      ∃ pools', (run twoThreadEnv ([.getExecutor 1 "a", .getExecutor 2 "b"] ++
          ([(3, "c"), (4, "d"), (5, "e")] : List (Int × String)).map fun x =>
            .getExecutor x.1 x.2)).pools = some pools' ∧
        pools'.executors = [0, 1] ∧
        pools'.pid2execMap.lookup 5 = ([0, 1] : List Nat)[(nextPosition (run twoThreadEnv
          [.getExecutor 1 "a", .getExecutor 2 "b"]) ⟨[0, 1], [(1, 1), (0, 1)], [(2, 1), (1, 0)]⟩
            + 2) % 2]? :=
  have hs : (run twoThreadEnv [.getExecutor 1 "a", .getExecutor 2 "b"]).pools =
      some ⟨[0, 1], [(1, 1), (0, 1)], [(2, 1), (1, 0)]⟩ := by decide
  have full : (run twoThreadEnv [.getExecutor 1 "a", .getExecutor 2 "b"]).maxThreads =
      some (([0, 1] : List Nat).length : Int) := by decide
  have fresh : ∀ x ∈ ([(3, "c"), (4, "d"), (5, "e")] : List (Int × String)),
      ([(2, 1), (1, 0)] : List (Int × Nat)).lookup x.1 = none := by decide
  have distinct : (([(3, "c"), (4, "d"), (5, "e")] : List (Int × String)).map Prod.fst).Nodup := by
    decide
  ⟨hs, round_robin_order _ _ _ hs full fresh distinct 2 (5, "e") rfl⟩

end VoltDB.Export
