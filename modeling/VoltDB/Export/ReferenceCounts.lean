import VoltDB.Export.PoolSafety

/-! The reference counts of the executor factory against the calls of a run: when every
`freeExecutor(p, .)` has an outstanding `getExecutor(p, .)` to match, each executor's count is
the number of outstanding allocations of the partitions mapped to it, and a partition with an
outstanding allocation keeps the executor its allocations returned.
-/

namespace VoltDB.Export

open ExecutorFactory

-----------------------------------------------------------------------------------------
-- Outstanding allocations
-----------------------------------------------------------------------------------------

/-- The call is `getExecutor(p, .)`. -/
def Call.allocates (p : Int) : Call → Bool
  | .getExecutor q _ => q == p
  | .freeExecutor _ _ => false

/-- The call is `freeExecutor(p, .)`. -/
def Call.frees (p : Int) : Call → Bool
  | .freeExecutor q _ => q == p
  | .getExecutor _ _ => false

/-- `outstanding(p)`: the run's `getExecutor(p, .)` calls less its `freeExecutor(p, .)` calls. -/
def outstanding (calls : List Call) (p : Int) : Int :=
  (calls.countP (Call.allocates p) : Int) - calls.countP (Call.frees p)

/-- The call, made after `pre`, is a `getExecutor` or frees a partition with an outstanding
allocation.
-/
def Call.matchedAfter (pre : List Call) : Call → Prop
  | .freeExecutor p _ => 0 < outstanding pre p
  | .getExecutor _ _ => True

instance (pre : List Call) : (c : Call) → Decidable (c.matchedAfter pre)
  | .freeExecutor p _ => inferInstanceAs (Decidable (0 < outstanding pre p))
  | .getExecutor _ _ => inferInstanceAs (Decidable True)

/-- Each `freeExecutor(p, .)` of the run is issued while `p` has more `getExecutor` than
`freeExecutor` calls so far.
-/
def FreesMatched (calls : List Call) : Prop :=
  ∀ i : Fin calls.length, (calls.get i).matchedAfter (calls.take i)

instance (calls : List Call) : Decidable (FreesMatched calls) :=
  inferInstanceAs (Decidable (∀ i : Fin calls.length, (calls.get i).matchedAfter (calls.take i)))

theorem FreesMatched.last {calls : List Call} {c : Call} (h : FreesMatched (calls ++ [c]))
    : c.matchedAfter calls := by
  simpa using h ⟨calls.length, by simp⟩

@[simp] theorem outstanding_nil (p : Int) : outstanding [] p = 0 := rfl

theorem outstanding_append_get (calls : List Call) (p q : Int) (tableName : String)
    : outstanding (calls ++ [.getExecutor p tableName]) q =
      outstanding calls q + if q = p then 1 else 0 := by
  by_cases h : q = p
  · subst h
    simp [outstanding, Call.allocates, Call.frees]
    omega
  · simp [outstanding, Call.allocates, Call.frees, h, Ne.symm h]

theorem outstanding_append_free (calls : List Call) (p q : Int) (tableName : String)
    : outstanding (calls ++ [.freeExecutor p tableName]) q =
      outstanding calls q - if q = p then 1 else 0 := by
  by_cases h : q = p
  · subst h
    simp [outstanding, Call.allocates, Call.frees]
    omega
  · simp [outstanding, Call.allocates, Call.frees, h, Ne.symm h]

theorem outstanding_append_get_of_ne {p q : Int} (h : q ≠ p) (calls : List Call)
    (tableName : String)
    : outstanding (calls ++ [.getExecutor p tableName]) q = outstanding calls q := by
  rw [outstanding_append_get, if_neg h, Int.add_zero]

theorem outstanding_append_free_of_ne {p q : Int} (h : q ≠ p) (calls : List Call)
    (tableName : String)
    : outstanding (calls ++ [.freeExecutor p tableName]) q = outstanding calls q := by
  rw [outstanding_append_free, if_neg h, Int.sub_zero]

-----------------------------------------------------------------------------------------
-- Sums over the partitions of an executor
-----------------------------------------------------------------------------------------

section Sums

variable {m : List (Int × Nat)} {w w' : Int → Int} {p : Int}

/-- The sum of `w` over the partitions `m` maps to `e`. -/
def mappedSum (m : List (Int × Nat)) (w : Int → Int) (e : Nat) : Int :=
  ((mappedTo m e).map fun entry => w entry.1).foldr (· + ·) 0

theorem mappedSum_cons (a : Int) (b e : Nat)
    : mappedSum ((a, b) :: m) w e = (if b = e then w a else 0) + mappedSum m w e := by
  by_cases h : b = e <;> simp [mappedSum, mappedTo, List.filter_cons, h]

/-- A change of `w` at a key without entry changes no sum. -/
theorem mappedSum_of_lookup_eq_none (hp : m.lookup p = none) (same : ∀ q, q ≠ p → w' q = w q)
    (e : Nat)
    : mappedSum m w' e = mappedSum m w e := by
  unfold mappedSum
  congr 1
  refine List.map_congr_left fun entry h => same _ fun he => ?_
  have := List.lookup_eq_none_iff.mp hp entry (mem_mappedTo.mp h).1
  simp [he] at this

/-- A change of `w` at a key mapped to `les` moves the sum of `les` by the change and no other
sum, the keys being unique.
-/
theorem mappedSum_update (nodup : (m.map Prod.fst).Nodup) {les : Nat}
    (hp : m.lookup p = some les) (same : ∀ q, q ≠ p → w' q = w q) (e : Nat)
    : mappedSum m w' e = mappedSum m w e + if les = e then w' p - w p else 0 := by
  induction m with
  | nil => simp at hp
  | cons x m ih =>
    obtain ⟨a, b⟩ := x
    rw [List.map_cons, List.nodup_cons] at nodup
    rw [mappedSum_cons, mappedSum_cons]
    by_cases ha : p = a
    · subst ha
      obtain rfl : b = les := by simpa using hp
      have rest : m.lookup p = none :=
        List.lookup_eq_none_iff.mpr fun x hx => by
          simpa using fun e : p = x.1 => nodup.1 (List.mem_map.mpr ⟨x, hx, e.symm⟩)
      rw [mappedSum_of_lookup_eq_none rest same]
      split_ifs <;> omega
    · have : (p == a) = false := by simpa using ha
      rw [List.lookup_cons, this] at hp
      rw [ih nodup.2 hp, same a (Ne.symm ha)]
      omega

/-- Mapping a partition that had no executor adds its term to the sum of its executor. -/
theorem mappedSum_put (hp : m.lookup p = none) (les e : Nat)
    : mappedSum (put p les m) w e = (if les = e then w p else 0) + mappedSum m w e := by
  unfold mappedSum
  rw [mappedTo_put_of_lookup_eq_none hp]
  split_ifs <;> simp

theorem mappedSum_nonneg (nonneg : ∀ q, 0 ≤ w q) (e : Nat) : 0 ≤ mappedSum m w e := by
  induction m with
  | nil => simp [mappedSum, mappedTo]
  | cons x m ih =>
    rw [mappedSum_cons]
    have := nonneg x.1
    split_ifs <;> omega

/-- A sum of non-negative counts bounds each of its terms. -/
theorem le_mappedSum (nonneg : ∀ q, 0 ≤ w q) {q : Int} {e : Nat} (h : (q, e) ∈ m)
    : w q ≤ mappedSum m w e := by
  induction m with
  | nil => simp at h
  | cons x m ih =>
    rw [mappedSum_cons]
    have := nonneg x.1
    have := mappedSum_nonneg (m := m) nonneg e
    rcases List.mem_cons.mp h with rfl | h
    · simp
      omega
    · have := ih h
      split_ifs <;> omega

end Sums

-----------------------------------------------------------------------------------------
-- The invariant
-----------------------------------------------------------------------------------------

/-- The executor `m_pid2execMap` maps `p` to, when the factory has its collections. -/
def mappedExecutor (s : ExecutorFactory) (p : Int) : Option Nat :=
  s.pools.bind fun pools => pools.pid2execMap.lookup p

theorem mappedExecutor_of_pools {s : ExecutorFactory} {pools : Pools} (hs : s.pools = some pools)
    (p : Int)
    : mappedExecutor s p = pools.pid2execMap.lookup p := by
  simp [mappedExecutor, hs]

/-- The reference counts of a state `s` against the calls that reached it: each executor's count
is the sum of the outstanding allocations of the partitions mapped to it, and every partition
with an outstanding allocation is mapped.
-/
structure RefCountInv (calls : List Call) (s : ExecutorFactory) : Prop where
  nonneg : ∀ p, 0 ≤ outstanding calls p
  counts : ∀ pools ∈ s.pools, ∀ e ∈ pools.executors,
    pools.refCounts.lookup e = some (mappedSum pools.pid2execMap (outstanding calls) e)
  mapped : ∀ p, 0 < outstanding calls p → (mappedExecutor s p).isSome

/-- After the call `c`, every partition still outstanding keeps the executor it had. -/
def KeepsMapping (calls : List Call) (s s' : ExecutorFactory) : Prop :=
  ∀ q e, 0 < outstanding calls q → mappedExecutor s q = some e → mappedExecutor s' q = some e

variable {calls : List Call} {s : ExecutorFactory} {pools : Pools}

theorem RefCountInv.idle_of_lookup_eq_none (ref : RefCountInv calls s) (hs : s.pools = some pools)
    {p : Int} (hp : pools.pid2execMap.lookup p = none)
    : outstanding calls p = 0 := by
  have := ref.nonneg p
  by_contra ne
  have := ref.mapped p (by omega)
  simp [mappedExecutor_of_pools hs, hp] at this

/-- A partition with an outstanding allocation is mapped, once the collections exist. -/
theorem RefCountInv.lookup_of_pos (ref : RefCountInv calls s) (hs : s.pools = some pools)
    {p : Int} (busy : 0 < outstanding calls p)
    : ∃ e, pools.pid2execMap.lookup p = some e := by
  have := ref.mapped p busy
  rw [mappedExecutor_of_pools hs] at this
  exact Option.isSome_iff_exists.mp this

theorem RefCountInv.pools_of_pos (ref : RefCountInv calls s) {p : Int}
    (busy : 0 < outstanding calls p)
    : ∃ pools, s.pools = some pools := by
  have := ref.mapped p busy
  cases hs : s.pools with
  | none => simp [mappedExecutor, hs] at this
  | some pools => exact ⟨pools, rfl⟩

theorem RefCountInv.nonneg_get (ref : RefCountInv calls s) (p : Int) (t : String) (q : Int)
    : 0 ≤ outstanding (calls ++ [.getExecutor p t]) q := by
  have := ref.nonneg q
  rw [outstanding_append_get]
  split_ifs <;> omega

/-- Setting the count of `les` to its sum moved by `δ` moves that executor's sum alone. -/
theorem RefCountInv.counts_put (ref : RefCountInv calls s) (hs : s.pools = some pools)
    {les : Nat} {value δ : Int} (hv : value = mappedSum pools.pid2execMap (outstanding calls) les + δ)
    {e : Nat} (he : e ∈ pools.executors)
    : (put les value pools.refCounts).lookup e =
      some (mappedSum pools.pid2execMap (outstanding calls) e + if les = e then δ else 0) := by
  rw [lookup_put]
  by_cases hel : e = les
  · subst hel
    rw [if_pos rfl, if_pos rfl, hv]
  · rw [if_neg hel, if_neg (Ne.symm hel), Int.add_zero, ref.counts pools hs e he]

/-- `initialize` keeps the invariant and every mapping: an uninitialized factory has none. -/
theorem RefCountInv.lazyInit (ref : RefCountInv calls s) (w : Wellformed s) (env : Environment)
    : RefCountInv calls (s.lazyInit env).2 ∧
      ∀ q e, mappedExecutor s q = some e → mappedExecutor (s.lazyInit env).2 q = some e := by
  rw [lazyInit_eq]
  split_ifs with initialized
  · exact ⟨ref, fun _ _ h => h⟩
  all_goals
    have none := w.pools_eq_none (by simpa using initialized)
    have idle : ∀ p, outstanding calls p = 0 := fun p => by
      have := ref.nonneg p
      by_contra ne
      simpa [mappedExecutor, none] using ref.mapped p (by omega)
  · exact ⟨⟨ref.nonneg, by simp [none], fun p h => by simp [idle p] at h⟩,
      fun q _ h => by simp [mappedExecutor, none] at h⟩
  · exact ⟨⟨ref.nonneg, by simp, fun p h => by simp [idle p] at h⟩,
      fun q _ h => by simp [mappedExecutor, none] at h⟩

/-- A `getExecutor(p, .)` that maps `p`, which had no executor, to `les` and gives `les` one
more reference keeps the invariant.
-/
theorem RefCountInv.map_partition (ref : RefCountInv calls s) (hs : s.pools = some pools)
    {p : Int} {les : Nat} (t : String) (hp : pools.pid2execMap.lookup p = none)
    {s' : ExecutorFactory} {pools' : Pools} (hs' : s'.pools = some pools')
    (hmap : pools'.pid2execMap = put p les pools.pid2execMap)
    (hcounts : ∀ e ∈ pools'.executors, pools'.refCounts.lookup e =
      some (mappedSum pools.pid2execMap (outstanding calls) e + if les = e then 1 else 0))
    : RefCountInv (calls ++ [.getExecutor p t]) s' ∧
      KeepsMapping (calls ++ [.getExecutor p t]) s s' := by
  have idle := ref.idle_of_lookup_eq_none hs hp
  refine ⟨⟨ref.nonneg_get p t, fun pools'' h e he => ?_, fun q hq => ?_⟩, fun q e hq h => ?_⟩
  · obtain rfl : pools' = pools'' := Option.some.inj (hs'.symm.trans h)
    rw [hcounts e he, hmap, mappedSum_put hp,
      mappedSum_of_lookup_eq_none hp fun q hq => outstanding_append_get_of_ne hq calls t,
      outstanding_append_get, idle]
    split_ifs <;> simp <;> omega
  · rw [mappedExecutor_of_pools hs', hmap, lookup_put]
    split_ifs with hq'
    · rfl
    · rw [outstanding_append_get_of_ne hq'] at hq
      simpa [mappedExecutor_of_pools hs] using ref.mapped q hq
  · rw [mappedExecutor_of_pools hs] at h
    rw [mappedExecutor_of_pools hs', hmap, lookup_put, if_neg (by rintro rfl; simp [hp] at h), h]

/-- `allocate` keeps the invariant, by its three branches: the partition's executor gains the
reference, or the partition, which had none, is mapped to a new or a shared executor.
-/
theorem RefCountInv.allocate (ref : RefCountInv calls s) (inv : PoolInv s pools)
    (hs : s.pools = some pools) (range : CountsInRange pools.refCounts)
    (below : ∀ entry ∈ pools.refCounts, entry.2 < intMaxValue) (p : Int) (t : String)
    : RefCountInv (calls ++ [.getExecutor p t]) (s.allocate p).2 ∧
      KeepsMapping (calls ++ [.getExecutor p t]) s (s.allocate p).2 := by
  obtain ⟨m, hm, -⟩ := inv.maxThreads
  obtain ⟨les, s', h, ⟨hp, count, hc, rfl⟩ | ⟨hp, -, rfl, rfl⟩ |
      ⟨hp, -, i, count, hi, -, hc, rfl⟩⟩ :=
    allocate_spec inv hs hm p <;> rw [h]
  · -- the partition's executor
    have sum : count = mappedSum pools.pid2execMap (outstanding calls) les := by
      simpa [hc] using ref.counts pools hs les (inv.pid2execMap_mem _ (mem_of_lookup_eq_some hp))
    refine ⟨⟨ref.nonneg_get p t, fun pools' h' e he => ?_, fun q hq => ?_⟩, fun q e _ h => ?_⟩
    · cases h'
      rw [mappedSum_update inv.pid2execMap_nodup hp (fun q hq => outstanding_append_get_of_ne hq calls t),
        outstanding_append_get, if_pos rfl, show outstanding calls p + 1 - outstanding calls p = 1 by omega]
      exact ref.counts_put hs (by rw [range.toJavaInt_succ below hc, sum]) he
    · rw [mappedExecutor_of_pools rfl]
      by_cases hq' : q = p
      · simp [hq', hp]
      · rw [outstanding_append_get_of_ne hq'] at hq
        simpa [mappedExecutor_of_pools hs] using ref.mapped q hq
    · rwa [mappedExecutor_of_pools rfl, ← mappedExecutor_of_pools hs]
  · -- a new executor
    refine ref.map_partition hs t hp rfl rfl fun e he => ?_
    rw [lookup_put]
    by_cases hel : e = s.created
    · subst hel
      rw [if_pos rfl, if_pos rfl]
      simp [mappedSum, inv.mappedTo_created]
    · have : e ∈ pools.executors := by simpa [hel] using he
      rw [if_neg hel, if_neg (Ne.symm hel)]
      simpa using ref.counts pools hs e this
  · -- the executor at m_nextAlloc
    have sum : count = mappedSum pools.pid2execMap (outstanding calls) les := by
      simpa [hc] using ref.counts pools hs les (List.getElem?_mem hi)
    exact ref.map_partition hs t hp rfl rfl fun e he =>
      ref.counts_put hs (by rw [range.toJavaInt_succ below hc, sum]) he

/-- `release` of a partition with an outstanding allocation keeps the invariant: its executor
loses the reference; at zero no partition with an outstanding allocation is mapped to it, so
removing its mappings keeps every such partition's executor.
-/
theorem RefCountInv.release (ref : RefCountInv calls s) (inv : PoolInv s pools)
    (hs : s.pools = some pools) (range : CountsInRange pools.refCounts) (p : Int) (t : String)
    (busy : 0 < outstanding calls p)
    : RefCountInv (calls ++ [.freeExecutor p t]) (s.release p t).2 ∧
      KeepsMapping (calls ++ [.freeExecutor p t]) s (s.release p t).2 := by
  have out := fun q => outstanding_append_free calls p q t
  have nonneg : ∀ q, 0 ≤ outstanding (calls ++ [.freeExecutor p t]) q := fun q => by
    have := ref.nonneg q
    rw [out q]
    split_ifs with hq
    · subst hq
      omega
    · omega
  have below : ∀ q, outstanding (calls ++ [.freeExecutor p t]) q ≤ outstanding calls q := fun q => by
    rw [out q]
    split_ifs <;> omega
  obtain ⟨les, hp⟩ := ref.lookup_of_pos hs busy
  have drop : ∀ e, mappedSum pools.pid2execMap (outstanding (calls ++ [.freeExecutor p t])) e =
      mappedSum pools.pid2execMap (outstanding calls) e + if les = e then -1 else 0 := fun e => by
    rw [mappedSum_update inv.pid2execMap_nodup hp fun q hq => outstanding_append_free_of_ne hq calls t,
      out p, if_pos rfl]
    split_ifs <;> omega
  have mem := inv.pid2execMap_mem _ (mem_of_lookup_eq_some hp)
  rcases release_spec inv hs p t with
    ⟨hp', -⟩ | ⟨les', count, hp', hc, ⟨neg, -⟩ | ⟨zero, h⟩ | ⟨pos, h⟩⟩
  · simp [hp] at hp'
  all_goals
    obtain rfl : les = les' := Option.some.inj (hp.symm.trans hp')
    have sum : count = mappedSum pools.pid2execMap (outstanding calls) les := by
      simpa [hc] using ref.counts pools hs les mem
    rw [range.toJavaInt_pred hc] at *
  · have := le_mappedSum ref.nonneg (mem_of_lookup_eq_some hp)
    omega
  · -- the executor's last reference: it leaves the collections
    rw [h]
    have gone : ∀ q, (q, les) ∈ pools.pid2execMap →
        outstanding (calls ++ [.freeExecutor p t]) q = 0 := fun q hq => by
      have := le_mappedSum nonneg hq
      have := nonneg q
      rw [drop, if_pos rfl] at *
      omega
    have kept : ∀ q e, 0 < outstanding (calls ++ [.freeExecutor p t]) q →
        pools.pid2execMap.lookup q = some e →
        (pools.pid2execMap.filter fun entry => entry.2 != les).lookup q = some e := by
      intro q e hq hqe
      refine lookup_filter_value_ne inv.pid2execMap_nodup hqe ?_
      rintro rfl
      have := gone q (mem_of_lookup_eq_some hqe)
      omega
    refine ⟨⟨nonneg, fun pools' h' e he => ?_, fun q hq => ?_⟩, fun q e hq h => ?_⟩
    · cases h'
      obtain ⟨hne, he⟩ := (inv.executors_nodup.mem_erase_iff).mp he
      rw [lookup_remove, if_neg hne, ref.counts pools hs e he]
      unfold mappedSum
      rw [mappedTo_filter_ne hne]
      simpa [mappedSum, Ne.symm hne] using (drop e).symm
    · obtain ⟨e, he⟩ := ref.lookup_of_pos hs (show 0 < outstanding calls q by have := below q; omega)
      simp only [mappedExecutor, Option.some_bind, kept q e hq he, Option.isSome_some]
    · rw [mappedExecutor_of_pools hs] at h
      simp only [mappedExecutor, Option.some_bind, kept q e hq h]
  · -- a reference less
    rw [h]
    refine ⟨⟨nonneg, fun pools' h' e he => ?_, fun q hq => ?_⟩, fun q e _ h => ?_⟩
    · cases h'
      rw [drop]
      exact ref.counts_put hs (by omega) he
    · simpa [mappedExecutor, hs] using ref.mapped q (by have := below q; omega)
    · simpa [mappedExecutor, hs] using h

-----------------------------------------------------------------------------------------
-- Runs with matched frees
-----------------------------------------------------------------------------------------

theorem RefCountInv.getExecutor (ref : RefCountInv calls s) (w : Wellformed s) (ok : CountsOk s)
    (below : CountsBelowMax s) (ready : Ready s) (env : Environment)
    (sites : 0 ≤ env.localSitesCount) (p : Int) (t : String)
    : RefCountInv (calls ++ [.getExecutor p t]) (s.getExecutor env p).2 ∧
      KeepsMapping (calls ++ [.getExecutor p t]) s (s.getExecutor env p).2 := by
  obtain ⟨returned, pools, hs⟩ := lazyInit_ready env sites ready
  obtain ⟨ref', keeps⟩ := ref.lazyInit w env
  obtain ⟨ok', below'⟩ := lazyInit_counts ok below env
  obtain ⟨ref'', keeps'⟩ := ref'.allocate ((w.lazyInit env).pools pools hs) hs (ok' pools hs)
    (below' pools hs) p t
  rw [getExecutor_eq, returned]
  exact ⟨ref'', fun q e hq h => keeps' q e hq (keeps q e h)⟩

theorem RefCountInv.freeExecutor (ref : RefCountInv calls s) (w : Wellformed s) (ok : CountsOk s)
    (p : Int) (t : String) (busy : 0 < outstanding calls p)
    : RefCountInv (calls ++ [.freeExecutor p t]) (s.freeExecutor p t).2 ∧
      KeepsMapping (calls ++ [.freeExecutor p t]) s (s.freeExecutor p t).2 := by
  obtain ⟨pools, hs⟩ := ref.pools_of_pos busy
  rw [w.freeExecutor_eq hs]
  exact ref.release (w.pools pools hs) hs (ok pools hs) p t busy

/-- One call of a run with matched frees keeps the invariant and the mapping of every partition
still outstanding after it.
-/
theorem RefCountInv.step (ref : RefCountInv calls s) (w : Wellformed s) (ok : CountsOk s)
    (ready : Ready s) (env : Environment) (sites : 0 ≤ env.localSitesCount) (c : Call)
    (matched : c.matchedAfter calls) (below : c.isGet → CountsBelowMax s)
    : RefCountInv (calls ++ [c]) (step env s c) ∧ KeepsMapping (calls ++ [c]) s (step env s c) :=
  match c, matched with
  | .getExecutor p t, _ => ref.getExecutor w ok (below rfl) ready env sites p t
  | .freeExecutor p t, busy => ref.freeExecutor w ok p t busy

end VoltDB.Export
