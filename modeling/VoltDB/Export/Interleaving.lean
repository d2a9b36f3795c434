import VoltDB.Export.Lifecycle

/-! Interleavings of the factory's callers. `m_refCounts` and `m_pid2execMap` are hash maps:
what a call observes of them is what they map each key to, never the order of the entries of
the association lists that model them, and factories that agree up to that order agree on
every later call. Up to it, a `getExecutor` of a partition that has an executor can be
serialized in either order with any other `getExecutor`, and with a `freeExecutor` of a partition
on another executor.
-/

namespace VoltDB.Export

open ExecutorFactory

-----------------------------------------------------------------------------------------
-- Maps up to the order of their entries
-----------------------------------------------------------------------------------------

section Maps

variable {α γ : Type} [DecidableEq α] {m m' : List (α × γ)}

/-- With distinct keys, dropping the entries of value `v` unmaps exactly the keys mapped to `v`. -/
theorem lookup_filter_value [DecidableEq γ] (nodup : (m.map Prod.fst).Nodup) (k : α) (v : γ)
    : (m.filter fun entry => entry.2 != v).lookup k =
      if m.lookup k = some v then none else m.lookup k := by
  split_ifs with hv
  · refine List.lookup_eq_none_iff.mpr fun entry member => ?_
    obtain ⟨member, ne⟩ := List.mem_filter.mp member
    have key : m.lookup entry.1 = some entry.2 := lookup_eq_some_of_mem nodup member
    simp only [bne_iff_ne, ne_eq] at ne ⊢
    rintro rfl
    exact ne (Option.some.inj (key.symm.trans hv))
  · cases h : m.lookup k with
    | none => exact List.lookup_eq_none_iff.mpr fun entry member =>
        List.lookup_eq_none_iff.mp h entry (List.mem_filter.mp member).1
    | some w => exact lookup_filter_value_ne nodup h (by rintro rfl; exact hv h)

theorem lookup_put_congr (h : ∀ k, m.lookup k = m'.lookup k) (k : α) (v : γ) (k' : α)
    : (put k v m).lookup k' = (put k v m').lookup k' := by
  rw [lookup_put, lookup_put, h]

theorem lookup_remove_congr (h : ∀ k, m.lookup k = m'.lookup k) (k k' : α)
    : (remove k m).lookup k' = (remove k m').lookup k' := by
  rw [lookup_remove, lookup_remove, h]

theorem lookup_filter_value_congr [DecidableEq γ] (nodup : (m.map Prod.fst).Nodup)
    (nodup' : (m'.map Prod.fst).Nodup) (h : ∀ k, m.lookup k = m'.lookup k) (v : γ) (k : α)
    : (m.filter fun entry => entry.2 != v).lookup k =
      (m'.filter fun entry => entry.2 != v).lookup k := by
  rw [lookup_filter_value nodup, lookup_filter_value nodup', h]

/-- Counts of two different executors can be set in either order. -/
theorem lookup_put_put {k k' : α} (ne : k ≠ k') (v v' : γ) (x : α)
    : (put k v (put k' v' m)).lookup x = (put k' v' (put k v m)).lookup x := by
  simp only [lookup_put]
  by_cases hx : x = k
  · simp [hx, ne]
  · simp [hx]

/-- A second count for the same executor overrides the first. -/
theorem lookup_put_put_self (k : α) (v v' : γ) (x : α)
    : (put k v (put k v' m)).lookup x = (put k v m).lookup x := by
  simp only [lookup_put]
  split_ifs <;> rfl

theorem lookup_remove_put {k k' : α} (ne : k ≠ k') (v : γ) (x : α)
    : (remove k (put k' v m)).lookup x = (put k' v (remove k m)).lookup x := by
  simp only [lookup_remove, lookup_put]
  by_cases hx : x = k
  · simp [hx, ne]
  · simp [hx]

end Maps

-----------------------------------------------------------------------------------------
-- Factories up to the order of their map entries
-----------------------------------------------------------------------------------------

/-- Collections with the same `m_executors`, whose maps map every key alike. -/
structure Pools.Agree (a b : Pools) : Prop where
  executors : a.executors = b.executors
  refCounts : ∀ e, a.refCounts.lookup e = b.refCounts.lookup e
  pid2execMap : ∀ p, a.pid2execMap.lookup p = b.pid2execMap.lookup p

/-- Factories that differ at most in the order of the entries of their maps. -/
structure Agree (s t : ExecutorFactory) : Prop where
  maxThreads : s.maxThreads = t.maxThreads
  nextAlloc : s.nextAlloc = t.nextAlloc
  created : s.created = t.created
  shutdowns : s.shutdowns = t.shutdowns
  pools : Option.Rel Pools.Agree s.pools t.pools

theorem Pools.Agree.refl (a : Pools) : a.Agree a :=
  ⟨rfl, fun _ => rfl, fun _ => rfl⟩

theorem Agree.refl (s : ExecutorFactory) : Agree s s := by
  refine ⟨rfl, rfl, rfl, rfl, ?_⟩
  cases s.pools
  · exact .none
  · exact .some (Pools.Agree.refl _)

variable {s t : ExecutorFactory}

/-- `allocate` reads the maps only through lookups. -/
theorem Agree.allocate (h : Agree s t) (p : Int)
    : (s.allocate p).1 = (t.allocate p).1 ∧ Agree (s.allocate p).2 (t.allocate p).2 := by
  obtain ⟨mt, na, pools, cr, sh⟩ := s
  obtain ⟨mt', na', pools', cr', sh'⟩ := t
  obtain ⟨rfl, rfl, rfl, rfl, agree⟩ := h
  cases agree with
  | none => exact ⟨rfl, Agree.refl _⟩
  | some agree =>
    rename_i a b
    unfold ExecutorFactory.allocate
    dsimp only
    rw [agree.pid2execMap p]
    cases b.pid2execMap.lookup p with
    | some les =>
      dsimp only
      rw [agree.refCounts les]
      cases b.refCounts.lookup les with
      | none => exact ⟨rfl, rfl, rfl, rfl, rfl, .some agree⟩
      | some count => exact ⟨rfl, rfl, rfl, rfl, rfl,
          .some ⟨agree.executors, lookup_put_congr agree.refCounts _ _, agree.pid2execMap⟩⟩
    | none =>
      cases mt with
      | none => exact ⟨rfl, rfl, rfl, rfl, rfl, .some agree⟩
      | some maxThreads =>
        dsimp only
        rw [agree.executors]
        split_ifs
        · exact ⟨rfl, rfl, rfl, rfl, rfl, .some ⟨rfl, lookup_put_congr agree.refCounts _ _,
            lookup_put_congr agree.pid2execMap _ _⟩⟩
        all_goals
          cases arrayListGet b.executors _ with
          | error e => exact ⟨rfl, rfl, rfl, rfl, rfl, .some agree⟩
          | ok les =>
            dsimp only
            rw [agree.refCounts les]
            cases b.refCounts.lookup les with
            | none => exact ⟨rfl, rfl, rfl, rfl, rfl, .some agree⟩
            | some count => exact ⟨rfl, rfl, rfl, rfl, rfl, .some ⟨rfl,
                lookup_put_congr agree.refCounts _ _, lookup_put_congr agree.pid2execMap _ _⟩⟩

/-- `release` reads the maps only through lookups; dropping the mappings of an executor needs the
partitions to be distinct keys, as `Wellformed` keeps them.
-/
theorem Agree.release (h : Agree s t) (ws : Wellformed s) (wt : Wellformed t) (p : Int)
    (tableName : String)
    : (s.release p tableName).1 = (t.release p tableName).1 ∧
      Agree (s.release p tableName).2 (t.release p tableName).2 := by
  obtain ⟨mt, na, pools, cr, sh⟩ := s
  obtain ⟨mt', na', pools', cr', sh'⟩ := t
  obtain ⟨rfl, rfl, rfl, rfl, agree⟩ := h
  cases agree with
  | none => exact ⟨rfl, Agree.refl _⟩
  | some agree =>
    rename_i a b
    have nodup := (ws.pools a rfl).pid2execMap_nodup
    have nodup' := (wt.pools b rfl).pid2execMap_nodup
    unfold ExecutorFactory.release
    dsimp only
    rw [agree.pid2execMap p]
    cases b.pid2execMap.lookup p with
    | none => exact ⟨rfl, rfl, rfl, rfl, rfl, .some agree⟩
    | some les =>
      dsimp only
      rw [agree.refCounts les]
      cases b.refCounts.lookup les with
      | none => exact ⟨rfl, rfl, rfl, rfl, rfl, .some agree⟩
      | some count =>
        dsimp only
        rw [agree.executors]
        have shut : Pools.Agree
            ⟨b.executors.erase les, remove les a.refCounts, a.pid2execMap.filter (·.2 != les)⟩
            ⟨b.executors.erase les, remove les b.refCounts, b.pid2execMap.filter (·.2 != les)⟩ :=
          ⟨rfl, lookup_remove_congr agree.refCounts les,
            lookup_filter_value_congr nodup nodup' agree.pid2execMap les⟩
        split_ifs
        · exact ⟨rfl, rfl, rfl, rfl, rfl, .some agree⟩
        · exact ⟨rfl, rfl, rfl, rfl, rfl, .some shut⟩
        · exact ⟨rfl, rfl, rfl, rfl, rfl, .some shut⟩
        · exact ⟨rfl, rfl, rfl, rfl, rfl,
            .some ⟨rfl, lookup_put_congr agree.refCounts _ _, agree.pid2execMap⟩⟩

theorem Agree.isInitialized (h : Agree s t) : s.isInitialized = t.isInitialized := by
  rw [ExecutorFactory.isInitialized, ExecutorFactory.isInitialized, h.maxThreads]

/-- `initialize` reads only `m_maxThreads`. -/
theorem Agree.lazyInit (h : Agree s t) (env : Environment)
    : (s.lazyInit env).1 = (t.lazyInit env).1 ∧ Agree (s.lazyInit env).2 (t.lazyInit env).2 := by
  rw [lazyInit_eq, lazyInit_eq, h.isInitialized]
  split_ifs
  · exact ⟨rfl, h⟩
  · exact ⟨rfl, rfl, rfl, h.created, h.shutdowns, h.pools⟩
  · exact ⟨rfl, rfl, rfl, h.created, h.shutdowns, .some (Pools.Agree.refl _)⟩

theorem Agree.getExecutor (h : Agree s t) (env : Environment) (p : Int)
    : (s.getExecutor env p).1 = (t.getExecutor env p).1 ∧
      Agree (s.getExecutor env p).2 (t.getExecutor env p).2 := by
  obtain ⟨same, agree⟩ := h.lazyInit env
  rw [getExecutor_eq, getExecutor_eq, ← same]
  rcases (s.lazyInit env).1 with e | ⟨⟩
  · exact ⟨rfl, agree⟩
  · exact agree.allocate p

theorem Agree.freeExecutor (h : Agree s t) (ws : Wellformed s) (wt : Wellformed t) (p : Int)
    (tableName : String)
    : (s.freeExecutor p tableName).1 = (t.freeExecutor p tableName).1 ∧
      Agree (s.freeExecutor p tableName).2 (t.freeExecutor p tableName).2 := by
  unfold ExecutorFactory.freeExecutor
  rw [h.isInitialized]
  split_ifs
  · exact h.release ws wt p tableName
  · exact ⟨rfl, h⟩

theorem Agree.step (h : Agree s t) (ws : Wellformed s) (wt : Wellformed t) (env : Environment)
    : ∀ call, Agree (step env s call) (step env t call)
  | .getExecutor p _ => (h.getExecutor env p).2
  | .freeExecutor p tableName => (h.freeExecutor ws wt p tableName).2

/-- Factories that agree keep agreeing over any calls, by induction on the calls. -/
theorem Agree.foldl (env : Environment) (calls : List Call)
    : ∀ s t, Agree s t → Wellformed s → Wellformed t →
      Agree (calls.foldl (VoltDB.Export.step env) s) (calls.foldl (VoltDB.Export.step env) t) := by
  induction calls with
  | nil => exact fun _ _ h _ _ => h
  | cons c rest ih =>
    exact fun s t h ws wt => ih _ _ (h.step ws wt env c) (ws.step env c) (wt.step env c)

/-- Factories that agree answer every call alike. -/
theorem Agree.observe (h : Agree s t) (ws : Wellformed s) (wt : Wellformed t) (env : Environment)
    (p : Int) (tableName : String)
    : (s.getExecutor env p).1 = (t.getExecutor env p).1 ∧
      (s.freeExecutor p tableName).1 = (t.freeExecutor p tableName).1 ∧
      s.getMaxThreadCount = t.getMaxThreadCount ∧ s.getCurrentThreadCount = t.getCurrentThreadCount := by
  refine ⟨(h.getExecutor env p).1, (h.freeExecutor ws wt p tableName).1, ?_, ?_⟩
  · rw [getMaxThreadCount, getMaxThreadCount, h.maxThreads]
  · have pools := h.pools
    unfold getCurrentThreadCount
    revert pools
    generalize s.pools = a
    generalize t.pools = b
    intro pools
    cases pools with
    | none => rfl
    | some agree =>
      dsimp only
      rw [agree.executors]

-----------------------------------------------------------------------------------------
-- A `getExecutor` and a `freeExecutor` on different executors commute
-----------------------------------------------------------------------------------------

/-- `m_refCounts.put(les, count)`, all that `allocate` does for a partition that has an executor. -/
def ExecutorFactory.putCount (s : ExecutorFactory) (les : Nat) (count : Int) : ExecutorFactory :=
  { s with pools := s.pools.map fun pools => { pools with refCounts := put les count pools.refCounts } }

variable {pools : Pools}

theorem run_append (env : Environment) (pre post : List Call)
    : run env (pre ++ post) = post.foldl (step env) (run env pre) := by
  rw [run, List.foldl_append]
  rfl

/-- `getExecutor` of a partition mapped to `les` returns `les` and gives it one more reference. -/
theorem getExecutor_of_lookup (w : Wellformed s) (hs : s.pools = some pools) {p : Int} {les : Nat}
    {count : Int} (hp : pools.pid2execMap.lookup p = some les)
    (hc : pools.refCounts.lookup les = some count) (env : Environment)
    : s.getExecutor env p = (.ok les, s.putCount les (toJavaInt (count + 1))) := by
  obtain ⟨m, hm, -⟩ := (w.pools pools hs).maxThreads
  rw [getExecutor_eq, lazyInit_eq, if_pos (by simp [isInitialized, hm])]
  simp only [allocate, putCount, hs, hp, hc, Option.map_some']

/-- `release` of a partition on another executor than `les` keeps the partitions mapped to `les`
and its count.
-/
theorem release_keeps_lookup (inv : PoolInv s pools) (hs : s.pools = some pools) {p q : Int}
    {les : Nat} {count : Int} (hp : pools.pid2execMap.lookup p = some les)
    (hc : pools.refCounts.lookup les = some count) (hq : pools.pid2execMap.lookup q ≠ some les)
    (tableName : String)
    : ∃ pools', (s.release q tableName).2.pools = some pools' ∧
      pools'.pid2execMap.lookup p = some les ∧ pools'.refCounts.lookup les = some count := by
  rcases release_spec inv hs q tableName with
    ⟨-, h⟩ | ⟨e, c, hq', -, ⟨-, h⟩ | ⟨-, h⟩ | ⟨-, h⟩⟩ <;> rw [h]
  · exact ⟨pools, hs, hp, hc⟩
  · exact ⟨pools, hs, hp, hc⟩
  all_goals have ne : les ≠ e := fun same => hq (same ▸ hq')
  · exact ⟨_, rfl, lookup_filter_value_ne inv.pid2execMap_nodup hp ne,
      by rw [lookup_remove, if_neg ne, hc]⟩
  · exact ⟨_, rfl, hp, by rw [lookup_put, if_neg ne, hc]⟩

/-- `release` of a partition that is not on executor `les` commutes with a new count for `les`,
up to the order of the entries of `m_refCounts`.
-/
theorem release_putCount (hs : s.pools = some pools) {q : Int} {les : Nat}
    (hq : pools.pid2execMap.lookup q ≠ some les) (count : Int) (tableName : String)
    : ((s.putCount les count).release q tableName).1 = (s.release q tableName).1 ∧
      Agree ((s.putCount les count).release q tableName).2
        ((s.release q tableName).2.putCount les count) := by
  cases hl : pools.pid2execMap.lookup q with
  | none =>
    simp only [release, putCount, hs, hl, Option.map_some']
    exact ⟨by trivial, Agree.refl _⟩
  | some e =>
    have ne : e ≠ les := fun same => hq (same ▸ hl)
    cases hc : pools.refCounts.lookup e with
    | none =>
      simp only [release, putCount, hs, hl, hc, Option.map_some', lookup_put, if_neg ne]
      exact ⟨by trivial, Agree.refl _⟩
    | some c =>
      simp only [release, putCount, hs, hl, hc, Option.map_some', lookup_put, if_neg ne]
      split_ifs <;> simp only [hs, Option.map_some']
      · exact ⟨by trivial, Agree.refl _⟩
      · exact ⟨by trivial, rfl, rfl, rfl, rfl, .some ⟨rfl, lookup_remove_put ne _, fun _ => rfl⟩⟩
      · exact ⟨by trivial, rfl, rfl, rfl, rfl, .some ⟨rfl, lookup_remove_put ne _, fun _ => rfl⟩⟩
      · exact ⟨by trivial, rfl, rfl, rfl, rfl, .some ⟨rfl, lookup_put_put ne _ _, fun _ => rfl⟩⟩

/-- `allocate` picks its executor without reading the counts, so it commutes with a new count `v`
for an executor `les` that runs: the two count updates commute, and when it picks `les` it counts
from `v`.
-/
theorem allocate_putCount (w : Wellformed s) (hs : s.pools = some pools) {les : Nat}
    (hles : les ∈ pools.executors) (v : Int) {q : Int} {x : Nat} (hx : (s.allocate q).1 = .ok x)
    : ((s.putCount les v).allocate q).1 = .ok x ∧
      Agree ((s.putCount les v).allocate q).2
        ((s.allocate q).2.putCount les (if x = les then toJavaInt (v + 1) else v)) := by
  have inv := w.pools pools hs
  obtain ⟨c, hc⟩ := Option.isSome_iff_exists.mp ((inv.refCounts_isSome les).mpr hles)
  have fresh : s.created ≠ les := (Nat.ne_of_lt (inv.executors_lt les hles)).symm
  revert hx
  unfold ExecutorFactory.allocate ExecutorFactory.putCount
  rw [hs]
  dsimp only [Option.map_some']
  cases hq : pools.pid2execMap.lookup q with
  | some y =>
    dsimp only
    rw [lookup_put]
    by_cases hy : y = les
    · -- the partition's executor is `les`: counted from `v`
      subst hy
      rw [if_pos rfl, hc]
      intro hx
      cases hx
      rw [if_pos rfl]
      exact ⟨rfl, rfl, rfl, rfl, rfl, .some ⟨rfl,
        fun k => by rw [lookup_put_put_self, lookup_put_put_self], fun _ => rfl⟩⟩
    · rw [if_neg hy]
      cases pools.refCounts.lookup y with
      | none => exact fun hx => by cases hx
      | some cy =>
        intro hx
        cases hx
        rw [if_neg hy]
        exact ⟨rfl, rfl, rfl, rfl, rfl, .some ⟨rfl, lookup_put_put hy _ _, fun _ => rfl⟩⟩
  | none =>
    dsimp only
    cases s.maxThreads with
    | none => exact fun hx => by cases hx
    | some m =>
      dsimp only
      by_cases room : (pools.executors.length : Int) < m
      · -- a new executor, `created`, which is not `les`
        rw [if_pos room, if_pos room]
        intro hx
        cases hx
        rw [if_neg fresh]
        exact ⟨rfl, rfl, rfl, rfl, rfl, .some ⟨rfl, lookup_put_put fresh _ _, fun _ => rfl⟩⟩
      -- round robin
      rw [if_neg room, if_neg room]
      cases arrayListGet pools.executors _ with
      | error e => exact fun hx => by cases hx
      | ok y =>
        dsimp only
        rw [lookup_put]
        by_cases hy : y = les
        · subst hy
          rw [if_pos rfl, hc]
          intro hx
          cases hx
          rw [if_pos rfl]
          exact ⟨rfl, rfl, rfl, rfl, rfl, .some ⟨rfl,
            fun k => by rw [lookup_put_put_self, lookup_put_put_self], fun _ => rfl⟩⟩
        · rw [if_neg hy]
          cases pools.refCounts.lookup y with
          | none => exact fun hx => by cases hx
          | some cy =>
            intro hx
            cases hx
            rw [if_neg hy]
            exact ⟨rfl, rfl, rfl, rfl, rfl, .some ⟨rfl, lookup_put_put hy _ _, fun _ => rfl⟩⟩

theorem getExecutor_of_isInitialized (h : s.isInitialized) (env : Environment) (p : Int)
    : s.getExecutor env p = s.allocate p := by
  rw [getExecutor_eq, lazyInit_eq, if_pos h]

/-- `allocate` keeps every partition on its executor, and counts one more reference for the
executor it picks.
-/
theorem allocate_keeps_lookup (inv : PoolInv s pools) (hs : s.pools = some pools) {p q : Int}
    {les x : Nat} {count : Int} (hp : pools.pid2execMap.lookup p = some les)
    (hc : pools.refCounts.lookup les = some count) (hx : (s.allocate q).1 = .ok x)
    : ∃ pools', (s.allocate q).2.pools = some pools' ∧ pools'.pid2execMap.lookup p = some les ∧
      pools'.refCounts.lookup les = some (if x = les then toJavaInt (count + 1) else count) := by
  obtain ⟨m, hm, -⟩ := inv.maxThreads
  obtain ⟨y, s', h, ⟨-, cy, hcy, rfl⟩ | ⟨hq, -, rfl, rfl⟩ | ⟨hq, -, i, cy, -, -, hcy, rfl⟩⟩ :=
    allocate_spec inv hs hm q <;> rw [h] at hx ⊢ <;> cases hx
  · refine ⟨_, rfl, hp, ?_⟩
    dsimp only
    by_cases same : x = les
    · subst same
      rw [lookup_put, if_pos rfl, if_pos rfl, Option.some_inj.mp (hcy.symm.trans hc)]
    · rw [lookup_put, if_neg (Ne.symm same), if_neg same, hc]
  all_goals have other : p ≠ q := by rintro rfl; simp [hp] at hq
  · have fresh : s.created ≠ les := (Nat.ne_of_lt (inv.executors_lt les
      (inv.pid2execMap_mem _ (mem_of_lookup_eq_some hp)))).symm
    refine ⟨_, rfl, by rw [lookup_put, if_neg other, hp], ?_⟩
    dsimp only
    rw [lookup_put, if_neg fresh.symm, if_neg fresh, hc]
  · refine ⟨_, rfl, by rw [lookup_put, if_neg other, hp], ?_⟩
    dsimp only
    by_cases same : x = les
    · subst same
      rw [lookup_put, if_pos rfl, if_pos rfl, Option.some_inj.mp (hcy.symm.trans hc)]
    · rw [lookup_put, if_neg (Ne.symm same), if_neg same, hc]

/-- Callers on different executors can be served in either order. After any calls, in every
environment, let partition `p` be mapped to executor `les` and partition `q` not. Then
`getExecutor(p, t)` and `freeExecutor(q, u)` return the same in either order, and after any
further calls every call returns the same in both: the two orders leave factories that differ at
most in the order of the entries of `m_refCounts`.
-/
theorem getExecutor_freeExecutor_commute (env : Environment) (pre post : List Call) {p q : Int}
    {les : Nat} (t u : String) (hp : mappedExecutor (run env pre) p = some les)
    (hq : mappedExecutor (run env pre) q ≠ some les)
    : ((run env pre).getExecutor env p).1 =
        ((run env (pre ++ [.freeExecutor q u])).getExecutor env p).1 ∧
      ((run env pre).freeExecutor q u).1 =
        ((run env (pre ++ [.getExecutor p t])).freeExecutor q u).1 ∧
      ∀ p' t',
        ((run env (pre ++ .getExecutor p t :: .freeExecutor q u :: post)).getExecutor env p').1 =
            ((run env (pre ++ .freeExecutor q u :: .getExecutor p t :: post)).getExecutor env p').1 ∧
          ((run env (pre ++ .getExecutor p t :: .freeExecutor q u :: post)).freeExecutor p' t').1 =
            ((run env (pre ++ .freeExecutor q u :: .getExecutor p t :: post)).freeExecutor p' t').1 ∧
          (run env (pre ++ .getExecutor p t :: .freeExecutor q u :: post)).getMaxThreadCount =
            (run env (pre ++ .freeExecutor q u :: .getExecutor p t :: post)).getMaxThreadCount ∧
          (run env (pre ++ .getExecutor p t :: .freeExecutor q u :: post)).getCurrentThreadCount =
            (run env (pre ++ .freeExecutor q u :: .getExecutor p t :: post)).getCurrentThreadCount := by
  have w := wellformed_run env pre
  obtain ⟨pools, hs, hpl⟩ := mappedExecutor_eq_some.mp hp
  have inv := w.pools pools hs
  have hql : pools.pid2execMap.lookup q ≠ some les := by rwa [mappedExecutor_of_pools hs] at hq
  obtain ⟨count, hc⟩ := inv.count_of_mapped hpl
  -- the get first gives `les` one more reference; the free then does what it does alone
  have getFirst := getExecutor_of_lookup w hs hpl hc env
  have wg := w.getExecutor env p
  rw [getFirst] at wg
  have hsg : ((run env pre).putCount les (toJavaInt (count + 1))).pools =
      some { pools with refCounts := put les (toJavaInt (count + 1)) pools.refCounts } := by
    simp [ExecutorFactory.putCount, hs]
  -- the free first keeps `p` on `les` with its count, so the get adds the same reference
  obtain ⟨pools', hs', hpl', hc'⟩ := release_keeps_lookup inv hs hpl hc hql u
  have getSecond := getExecutor_of_lookup (w.release q u) hs' hpl' hc' env
  obtain ⟨same, agree⟩ := release_putCount hs hql (toJavaInt (count + 1)) u
  have swapped : Agree
      (step env (step env (run env pre) (.getExecutor p t)) (.freeExecutor q u))
      (step env (step env (run env pre) (.freeExecutor q u)) (.getExecutor p t)) := by
    simp only [VoltDB.Export.step]
    rw [getFirst, w.freeExecutor_eq hs, getSecond]
    dsimp only
    rw [wg.freeExecutor_eq hsg]
    exact agree
  refine ⟨?_, ?_, fun p' t' => ?_⟩
  · rw [run_append_singleton, VoltDB.Export.step, w.freeExecutor_eq hs, getFirst, getSecond]
  · rw [run_append_singleton, VoltDB.Export.step, getFirst]
    dsimp only
    rw [w.freeExecutor_eq hs, wg.freeExecutor_eq hsg]
    exact same.symm
  · have wA := wellformed_run env (pre ++ .getExecutor p t :: .freeExecutor q u :: post)
    have wB := wellformed_run env (pre ++ .freeExecutor q u :: .getExecutor p t :: post)
    simp only [run_append, List.foldl_cons] at wA wB ⊢
    exact (Agree.foldl env post _ _ swapped ((w.step env _).step env _)
      ((w.step env _).step env _)).observe wA wB env p' t'

/-- On two threads partitions 1 and 2 have executors 0 and 1. Partition 1's `getExecutor` and
partition 2's last `freeExecutor`, which shuts executor 1 down, can come in either order, and a
partition 3 that comes next is answered alike.
-/
theorem getExecutor_freeExecutor_commute_two_threads :
    mappedExecutor (run twoThreadEnv [.getExecutor 1 "a", .getExecutor 2 "b"]) 1 = some 0 ∧
      mappedExecutor (run twoThreadEnv [.getExecutor 1 "a", .getExecutor 2 "b"]) 2 ≠ some 0 ∧
      ((run twoThreadEnv [.getExecutor 1 "a", .getExecutor 2 "b"]).getExecutor twoThreadEnv 1).1 =
        ((run twoThreadEnv ([.getExecutor 1 "a", .getExecutor 2 "b"] ++ [.freeExecutor 2 "b"])).getExecutor
          twoThreadEnv 1).1 ∧
      ((run twoThreadEnv [.getExecutor 1 "a", .getExecutor 2 "b"]).freeExecutor 2 "b").1 =
        ((run twoThreadEnv ([.getExecutor 1 "a", .getExecutor 2 "b"] ++ [.getExecutor 1 "a"])).freeExecutor
          2 "b").1 ∧
      ∀ p' t',
        ((run twoThreadEnv ([.getExecutor 1 "a", .getExecutor 2 "b"] ++ .getExecutor 1 "a" ::
            .freeExecutor 2 "b" :: [.getExecutor 3 "c"])).getExecutor twoThreadEnv p').1 =
          ((run twoThreadEnv ([.getExecutor 1 "a", .getExecutor 2 "b"] ++ .freeExecutor 2 "b" ::
            .getExecutor 1 "a" :: [.getExecutor 3 "c"])).getExecutor twoThreadEnv p').1 ∧
        ((run twoThreadEnv ([.getExecutor 1 "a", .getExecutor 2 "b"] ++ .getExecutor 1 "a" ::
            .freeExecutor 2 "b" :: [.getExecutor 3 "c"])).freeExecutor p' t').1 =
          ((run twoThreadEnv ([.getExecutor 1 "a", .getExecutor 2 "b"] ++ .freeExecutor 2 "b" ::
            .getExecutor 1 "a" :: [.getExecutor 3 "c"])).freeExecutor p' t').1 ∧
        (run twoThreadEnv ([.getExecutor 1 "a", .getExecutor 2 "b"] ++ .getExecutor 1 "a" ::
            .freeExecutor 2 "b" :: [.getExecutor 3 "c"])).getMaxThreadCount =
          (run twoThreadEnv ([.getExecutor 1 "a", .getExecutor 2 "b"] ++ .freeExecutor 2 "b" ::
            .getExecutor 1 "a" :: [.getExecutor 3 "c"])).getMaxThreadCount ∧
        (run twoThreadEnv ([.getExecutor 1 "a", .getExecutor 2 "b"] ++ .getExecutor 1 "a" ::
            .freeExecutor 2 "b" :: [.getExecutor 3 "c"])).getCurrentThreadCount =
          (run twoThreadEnv ([.getExecutor 1 "a", .getExecutor 2 "b"] ++ .freeExecutor 2 "b" ::
            .getExecutor 1 "a" :: [.getExecutor 3 "c"])).getCurrentThreadCount :=
  have hp : mappedExecutor (run twoThreadEnv [.getExecutor 1 "a", .getExecutor 2 "b"]) 1 = some 0 := by
    decide
  have hq : mappedExecutor (run twoThreadEnv [.getExecutor 1 "a", .getExecutor 2 "b"]) 2 ≠ some 0 := by
    decide
  ⟨hp, hq, getExecutor_freeExecutor_commute _ _ [.getExecutor 3 "c"] "a" "b" hp hq⟩

/-- A `getExecutor` of a partition that has an executor can be served before or after any other
`getExecutor`. After any calls, in every environment, let partition `p` be mapped to an executor.
Then `getExecutor(p, t)` and `getExecutor(q, u)`, for any partition `q`, return the same in either
order, also when `q` has no executor yet and the round robin gives it `p`'s. After any further
calls every call returns the same in both orders.
-/
theorem getExecutor_calls_commute (env : Environment) (pre post : List Call) {p q : Int}
    {les : Nat} (t u : String) (hp : mappedExecutor (run env pre) p = some les)
    : ((run env pre).getExecutor env p).1 =
        ((run env (pre ++ [.getExecutor q u])).getExecutor env p).1 ∧
      ((run env pre).getExecutor env q).1 =
        ((run env (pre ++ [.getExecutor p t])).getExecutor env q).1 ∧
      ∀ p' t',
        ((run env (pre ++ .getExecutor p t :: .getExecutor q u :: post)).getExecutor env p').1 =
            ((run env (pre ++ .getExecutor q u :: .getExecutor p t :: post)).getExecutor env p').1 ∧
          ((run env (pre ++ .getExecutor p t :: .getExecutor q u :: post)).freeExecutor p' t').1 =
            ((run env (pre ++ .getExecutor q u :: .getExecutor p t :: post)).freeExecutor p' t').1 ∧
          (run env (pre ++ .getExecutor p t :: .getExecutor q u :: post)).getMaxThreadCount =
            (run env (pre ++ .getExecutor q u :: .getExecutor p t :: post)).getMaxThreadCount ∧
          (run env (pre ++ .getExecutor p t :: .getExecutor q u :: post)).getCurrentThreadCount =
            (run env (pre ++ .getExecutor q u :: .getExecutor p t :: post)).getCurrentThreadCount := by
  have w := wellformed_run env pre
  obtain ⟨pools, hs, hpl⟩ := mappedExecutor_eq_some.mp hp
  have inv := w.pools pools hs
  obtain ⟨count, hc⟩ := inv.count_of_mapped hpl
  obtain ⟨m, hm, -⟩ := inv.maxThreads
  have initialized : (run env pre).isInitialized := by simp [isInitialized, hm]
  -- `p` first gives `les` one more reference; `q` then picks what it picks alone
  have getP := getExecutor_of_lookup w hs hpl hc env
  obtain ⟨x, s', picked, -⟩ := allocate_spec inv hs hm q
  have hx : ((run env pre).allocate q).1 = .ok x := by rw [picked]
  obtain ⟨same, agree⟩ := allocate_putCount w hs (inv.pid2execMap_mem _ (mem_of_lookup_eq_some hpl))
    (toJavaInt (count + 1)) hx
  have initialized' : ((run env pre).putCount les (toJavaInt (count + 1))).isInitialized :=
    initialized
  -- `q` first keeps `p` on `les`, counted once more if `q` got `les` too
  obtain ⟨pools', hs', hpl', hc'⟩ := allocate_keeps_lookup inv hs hpl hc hx
  have getP' := getExecutor_of_lookup (w.allocate q) hs' hpl' hc' env
  have counts : toJavaInt ((if x = les then toJavaInt (count + 1) else count) + 1) =
      if x = les then toJavaInt (toJavaInt (count + 1) + 1) else toJavaInt (count + 1) := by
    split_ifs <;> rfl
  have swapped : Agree
      (step env (step env (run env pre) (.getExecutor p t)) (.getExecutor q u))
      (step env (step env (run env pre) (.getExecutor q u)) (.getExecutor p t)) := by
    simp only [VoltDB.Export.step]
    rw [getP, getExecutor_of_isInitialized initialized, getP']
    dsimp only
    rw [getExecutor_of_isInitialized initialized', counts]
    exact agree
  refine ⟨?_, ?_, fun p' t' => ?_⟩
  · rw [run_append_singleton, VoltDB.Export.step, getP, getExecutor_of_isInitialized initialized,
      getP']
  · rw [run_append_singleton, VoltDB.Export.step, getP]
    dsimp only
    rw [getExecutor_of_isInitialized initialized, getExecutor_of_isInitialized initialized', same,
      hx]
  · have wA := wellformed_run env (pre ++ .getExecutor p t :: .getExecutor q u :: post)
    have wB := wellformed_run env (pre ++ .getExecutor q u :: .getExecutor p t :: post)
    simp only [run_append, List.foldl_cons] at wA wB ⊢
    exact (Agree.foldl env post _ _ swapped ((w.step env _).step env _)
      ((w.step env _).step env _)).observe wA wB env p' t'

/-- On two threads partitions 1 and 2 have executors 0 and 1. A new partition 3 gets executor 0
from the round robin, before or after partition 1's next `getExecutor`, and a partition 4 that
comes next is answered alike.
-/
theorem getExecutor_calls_commute_two_threads :
    mappedExecutor (run twoThreadEnv [.getExecutor 1 "a", .getExecutor 2 "b"]) 1 = some 0 ∧
      ((run twoThreadEnv [.getExecutor 1 "a", .getExecutor 2 "b"]).getExecutor twoThreadEnv 1).1 =
        ((run twoThreadEnv ([.getExecutor 1 "a", .getExecutor 2 "b"] ++ [.getExecutor 3 "c"])).getExecutor
          twoThreadEnv 1).1 ∧
      ((run twoThreadEnv [.getExecutor 1 "a", .getExecutor 2 "b"]).getExecutor twoThreadEnv 3).1 =
        ((run twoThreadEnv ([.getExecutor 1 "a", .getExecutor 2 "b"] ++ [.getExecutor 1 "a"])).getExecutor
          twoThreadEnv 3).1 ∧
      ∀ p' t',
        ((run twoThreadEnv ([.getExecutor 1 "a", .getExecutor 2 "b"] ++ .getExecutor 1 "a" ::
            .getExecutor 3 "c" :: [.getExecutor 4 "d"])).getExecutor twoThreadEnv p').1 =
          ((run twoThreadEnv ([.getExecutor 1 "a", .getExecutor 2 "b"] ++ .getExecutor 3 "c" ::
            .getExecutor 1 "a" :: [.getExecutor 4 "d"])).getExecutor twoThreadEnv p').1 ∧
        ((run twoThreadEnv ([.getExecutor 1 "a", .getExecutor 2 "b"] ++ .getExecutor 1 "a" ::
            .getExecutor 3 "c" :: [.getExecutor 4 "d"])).freeExecutor p' t').1 =
          ((run twoThreadEnv ([.getExecutor 1 "a", .getExecutor 2 "b"] ++ .getExecutor 3 "c" ::
            .getExecutor 1 "a" :: [.getExecutor 4 "d"])).freeExecutor p' t').1 ∧
        (run twoThreadEnv ([.getExecutor 1 "a", .getExecutor 2 "b"] ++ .getExecutor 1 "a" ::
            .getExecutor 3 "c" :: [.getExecutor 4 "d"])).getMaxThreadCount =
          (run twoThreadEnv ([.getExecutor 1 "a", .getExecutor 2 "b"] ++ .getExecutor 3 "c" ::
            .getExecutor 1 "a" :: [.getExecutor 4 "d"])).getMaxThreadCount ∧
        (run twoThreadEnv ([.getExecutor 1 "a", .getExecutor 2 "b"] ++ .getExecutor 1 "a" ::
            .getExecutor 3 "c" :: [.getExecutor 4 "d"])).getCurrentThreadCount =
          (run twoThreadEnv ([.getExecutor 1 "a", .getExecutor 2 "b"] ++ .getExecutor 3 "c" ::
            .getExecutor 1 "a" :: [.getExecutor 4 "d"])).getCurrentThreadCount :=
  have hp : mappedExecutor (run twoThreadEnv [.getExecutor 1 "a", .getExecutor 2 "b"]) 1 = some 0 := by
    decide
  ⟨hp, getExecutor_calls_commute _ _ [.getExecutor 4 "d"] "a" "c" hp⟩

end VoltDB.Export
