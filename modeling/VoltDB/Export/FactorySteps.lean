import VoltDB.Export.ExecutorFactory
import Mathlib.Data.List.Nodup

/-! What each method of the executor factory does on initialized collections of the shape
`allocate` and `release` rely on: the executors are distinct, each has a reference count, each
mapped partition names one of them, and `m_nextAlloc` indexes them.
-/

namespace VoltDB.Export

-----------------------------------------------------------------------------------------
-- Java ints and the thread limit
-----------------------------------------------------------------------------------------

theorem toJavaInt_of_isJavaInt {x : Int} (h : IsJavaInt x) : toJavaInt x = x := by
  unfold toJavaInt
  unfold IsJavaInt intMaxValue at h
  omega

namespace Environment

variable (env : Environment)

theorem getMinThreads_le : env.getMinThreads ≤ intMaxValue := by
  have range := env.availableProcessors_isInt
  unfold IsJavaInt intMaxValue at range
  unfold getMinThreads intMaxValue
  rcases h : env.availableProcessors with n | n
  · rw [h, Int.ofNat_eq_coe] at range
    rw [Int.ofNat_eq_coe, Int.tdiv_eq_ediv (Int.natCast_nonneg n) (by decide)]
    omega
  · have : (Int.negSucc n).tdiv 4 ≤ 0 := by simp [Int.tdiv]; omega
    omega

theorem checkedMaxThreads_le : env.checkedMaxThreads ≤ intMaxValue := by
  have configured : env.getConfigMaxThreads ≤ intMaxValue := by
    have := env.maxExportThreads_isInt.2
    unfold getConfigMaxThreads
    cases h : env.maxExportThreads with
    | none => exact env.getMinThreads_le
    | some n => simpa [h] using this
  have := env.localSitesCount_isInt.2
  have := env.getMinThreads_le
  unfold checkedMaxThreads
  split_ifs <;> omega

/-- A thread limit that `new ArrayList<>(m_maxThreads)` accepts is positive. -/
theorem one_le_checkedMaxThreads (h : 0 ≤ env.checkedMaxThreads) : 1 ≤ env.checkedMaxThreads := by
  have : 2 ≤ env.getMinThreads := le_max_left _ _
  unfold checkedMaxThreads at *
  split_ifs at * <;> omega

/-- With a local sites count that is not negative, `initialize` never throws. -/
theorem checkedMaxThreads_nonneg (sites : 0 ≤ env.localSitesCount) : 0 ≤ env.checkedMaxThreads := by
  have : 2 ≤ env.getMinThreads := le_max_left _ _
  unfold checkedMaxThreads
  split_ifs <;> omega

end Environment

-----------------------------------------------------------------------------------------
-- Maps as association lists
-----------------------------------------------------------------------------------------

section Maps

variable {α β : Type} {m : List (α × β)}

theorem nodup_keys_filter (nodup : (m.map Prod.fst).Nodup) (p : α × β → Bool)
    : ((m.filter p).map Prod.fst).Nodup :=
  nodup.sublist ((List.filter_sublist m).map Prod.fst)

variable [DecidableEq α]

theorem lookup_filter_key {k k' : α} (h : k' ≠ k)
    : (m.filter fun entry => entry.1 != k).lookup k' = m.lookup k' := by
  induction m with
  | nil => rfl
  | cons x m ih =>
    obtain ⟨a, b⟩ := x
    by_cases ha : a = k
    · subst ha
      have : (k' == a) = false := by simpa using h
      simp [List.filter_cons, List.lookup_cons, this, ih]
    · simp [List.filter_cons, ha, List.lookup_cons, ih]

@[simp] theorem lookup_put (k k' : α) (v : β)
    : (put k v m).lookup k' = if k' = k then some v else m.lookup k' := by
  split_ifs with h
  · simp [put, h]
  · have : (k' == k) = false := by simpa using h
    simp [put, List.lookup_cons, this, lookup_filter_key h]

@[simp] theorem lookup_remove (k k' : α)
    : (remove k m).lookup k' = if k' = k then none else m.lookup k' := by
  split_ifs with h
  · subst h
    simp only [remove, List.lookup_eq_none_iff, List.mem_filter, bne_iff_ne, ne_eq]
    exact fun entry member => Ne.symm member.2
  · exact lookup_filter_key h

@[simp] theorem mem_put {k : α} {v : β} {x : α × β}
    : x ∈ put k v m ↔ x = (k, v) ∨ x ∈ m ∧ x.1 ≠ k := by
  simp [put]

theorem mem_of_lookup_eq_some {k : α} {v : β} (h : m.lookup k = some v) : (k, v) ∈ m := by
  obtain ⟨l₁, l₂, rfl, -⟩ := List.lookup_eq_some_iff.mp h
  simp

theorem lookup_eq_some_of_mem (nodup : (m.map Prod.fst).Nodup) {k : α} {v : β}
    (h : (k, v) ∈ m)
    : m.lookup k = some v := by
  induction m with
  | nil => simp at h
  | cons x m ih =>
    obtain ⟨a, b⟩ := x
    rw [List.map_cons, List.nodup_cons] at nodup
    rcases List.mem_cons.mp h with e | h
    · cases e
      simp
    · have : (k == a) = false := by
        have : k ∈ m.map Prod.fst := List.mem_map_of_mem Prod.fst h
        simp only [beq_eq_false_iff_ne, ne_eq]
        rintro rfl
        exact nodup.1 this
      simp [List.lookup_cons, this, ih nodup.2 h]

theorem isSome_lookup_put {k e : α} {v : β}
    : ((put k v m).lookup e).isSome ↔ e = k ∨ (m.lookup e).isSome := by
  by_cases h : e = k <;> simp [h]

theorem nodup_keys_put (nodup : (m.map Prod.fst).Nodup) (k : α) (v : β)
    : ((put k v m).map Prod.fst).Nodup := by
  rw [put, List.map_cons, List.nodup_cons]
  exact ⟨by simp, nodup_keys_filter nodup _⟩

/-- The entries of `m` whose value is `v`: for `m_pid2execMap`, the partitions mapped to an
executor.
-/
def mappedTo {γ : Type} [DecidableEq γ] (m : List (α × γ)) (v : γ) : List (α × γ) :=
  m.filter fun entry => entry.2 == v

variable {γ : Type} [DecidableEq γ] {m' : List (α × γ)}

omit [DecidableEq α] in
@[simp] theorem mem_mappedTo {v : γ} {x : α × γ} : x ∈ mappedTo m' v ↔ x ∈ m' ∧ x.2 = v := by
  simp [mappedTo]

theorem filter_key_of_lookup_eq_none {k : α} (h : m.lookup k = none)
    : m.filter (fun entry => entry.1 != k) = m :=
  List.filter_eq_self.mpr fun x hx => by
    have := List.lookup_eq_none_iff.mp h x hx
    simp only [bne_iff_ne, ne_eq] at this ⊢
    exact Ne.symm this

/-- Mapping a key that had no entry adds it to the entries of its value only. -/
theorem mappedTo_put_of_lookup_eq_none {k : α} {v w : γ} (h : m'.lookup k = none)
    : mappedTo (put k v m') w = if v = w then (k, v) :: mappedTo m' w else mappedTo m' w := by
  unfold mappedTo put
  rw [filter_key_of_lookup_eq_none h, List.filter_cons]
  by_cases hv : v = w <;> simp [hv]

/-- Dropping the entries of one value keeps every key mapped to another value. -/
theorem lookup_filter_value_ne (nodup : (m'.map Prod.fst).Nodup) {k : α} {v w : γ}
    (h : m'.lookup k = some w) (ne : w ≠ v)
    : (m'.filter fun entry => entry.2 != v).lookup k = some w :=
  lookup_eq_some_of_mem (nodup_keys_filter nodup _)
    (List.mem_filter.mpr ⟨mem_of_lookup_eq_some h, by simpa using ne⟩)

omit [DecidableEq α] in
/-- Dropping the entries of one value keeps those of the others. -/
theorem mappedTo_filter_ne {v w : γ} (h : w ≠ v)
    : mappedTo (m'.filter fun entry => entry.2 != v) w = mappedTo m' w := by
  unfold mappedTo
  rw [List.filter_filter]
  congr 1
  funext x
  by_cases hx : x.2 = w <;> simp [hx, h]

end Maps

-----------------------------------------------------------------------------------------
-- The invariant of an initialized factory
-----------------------------------------------------------------------------------------

/-- The shape of the collections `pools` of an initialized factory `s` that `allocate` and
`release` rely on. The last two fields are about executor identities: every executor was made
by the factory and none has been shut down.
-/
structure PoolInv (s : ExecutorFactory) (pools : Pools) : Prop where
  /-- `m_maxThreads` is a positive `int` and bounds `m_executors.size()`. -/
  maxThreads : ∃ m, s.maxThreads = some m ∧ 1 ≤ m ∧ m ≤ intMaxValue ∧
    (pools.executors.length : Int) ≤ m
  executors_nodup : pools.executors.Nodup
  /-- The keys of `m_refCounts` are the executors. -/
  refCounts_isSome : ∀ e, (pools.refCounts.lookup e).isSome ↔ e ∈ pools.executors
  pid2execMap_nodup : (pools.pid2execMap.map Prod.fst).Nodup
  /-- Every mapped partition names an executor. -/
  pid2execMap_mem : ∀ entry ∈ pools.pid2execMap, entry.2 ∈ pools.executors
  nextAlloc : 0 ≤ s.nextAlloc ∧ s.nextAlloc ≤ pools.executors.length
  executors_lt : ∀ e ∈ pools.executors, e < s.created
  executors_live : ∀ e ∈ pools.executors, e ∉ s.shutdowns

variable {s : ExecutorFactory} {pools : Pools}

theorem PoolInv.count_of_mapped (inv : PoolInv s pools) {p : Int} {les : Nat}
    (h : pools.pid2execMap.lookup p = some les)
    : ∃ count, pools.refCounts.lookup les = some count :=
  Option.isSome_iff_exists.mp
    ((inv.refCounts_isSome les).mpr (inv.pid2execMap_mem _ (mem_of_lookup_eq_some h)))

/-- Giving a new count to an executor keeps the keys of `m_refCounts`. -/
theorem PoolInv.refCounts_isSome_put (inv : PoolInv s pools) {les : Nat}
    (mem : les ∈ pools.executors) (count : Int) (e : Nat)
    : ((put les count pools.refCounts).lookup e).isSome ↔ e ∈ pools.executors := by
  rw [isSome_lookup_put, inv.refCounts_isSome]
  exact ⟨fun h => h.elim (· ▸ mem) id, .inr⟩

/-- No partition is mapped to the executor the factory makes next. -/
theorem PoolInv.mappedTo_created (inv : PoolInv s pools) : mappedTo pools.pid2execMap s.created = [] :=
  List.eq_nil_iff_forall_not_mem.mpr fun entry h => by
    obtain ⟨h, he⟩ := mem_mappedTo.mp h
    exact (inv.executors_lt _ (he ▸ inv.pid2execMap_mem _ h)).false

namespace ExecutorFactory

-----------------------------------------------------------------------------------------
-- One lemma per method
-----------------------------------------------------------------------------------------

/-- `initialize` assigns the checked limit and, when `new ArrayList` accepts it, the empty
collections; an initialized factory is left as it is.
-/
theorem lazyInit_eq (env : Environment)
    : s.lazyInit env =
      if s.isInitialized then (.ok (), s)
      else if env.checkedMaxThreads < 0 then
        (.error .illegalArgument, { s with maxThreads := some env.checkedMaxThreads, nextAlloc := 0 })
      else (.ok (), { s with
        maxThreads := some env.checkedMaxThreads, nextAlloc := 0, pools := some ⟨[], [], []⟩ }) :=
  rfl

/-- What `allocate` does on a well-formed factory: it returns the partition's executor, a new
one while fewer than `m_maxThreads` run, or the one at `m_nextAlloc` (reset to 0 at the end of
the list), and it never throws.
-/
theorem allocate_spec {m : Int} (inv : PoolInv s pools) (hs : s.pools = some pools)
    (hm : s.maxThreads = some m) (p : Int)
    : ∃ les s', s.allocate p = (.ok les, s') ∧
      ((pools.pid2execMap.lookup p = some les ∧ ∃ count, pools.refCounts.lookup les = some count ∧
          s' = { s with pools := some { pools with
            refCounts := put les (toJavaInt (count + 1)) pools.refCounts } }) ∨
       (pools.pid2execMap.lookup p = none ∧ (pools.executors.length : Int) < m ∧ les = s.created ∧
          s' = { s with
            created := s.created + 1
            pools := some ⟨pools.executors ++ [les], put les 1 pools.refCounts,
              put p les pools.pid2execMap⟩ }) ∨
       (pools.pid2execMap.lookup p = none ∧ (pools.executors.length : Int) = m ∧
          ∃ (i : Nat) (count : Int), pools.executors[i]? = some les ∧
            (i : Int) = (if s.nextAlloc ≥ pools.executors.length then 0 else s.nextAlloc) ∧
            pools.refCounts.lookup les = some count ∧
            s' = { s with nextAlloc := i + 1, pools := some { pools with
              refCounts := put les (toJavaInt (count + 1)) pools.refCounts
              pid2execMap := put p les pools.pid2execMap } })) := by
  obtain ⟨m', hm', one_le, le_max, length_le⟩ := inv.maxThreads
  obtain rfl : m = m' := Option.some.inj (hm.symm.trans hm')
  cases hp : pools.pid2execMap.lookup p with
  | some les =>
    obtain ⟨count, hc⟩ := inv.count_of_mapped hp
    exact ⟨les, _, by simp only [allocate, hs, hp, hc], .inl ⟨rfl, count, hc, rfl⟩⟩
  | none =>
    by_cases room : (pools.executors.length : Int) < m
    · exact ⟨_, _, by simp only [allocate, hs, hp, hm, if_pos room],
        .inr (.inl ⟨rfl, room, rfl, rfl⟩)⟩
    have full : (pools.executors.length : Int) = m := by omega
    set i : Int := if s.nextAlloc ≥ pools.executors.length then 0 else s.nextAlloc with hi
    have bounds : 0 ≤ i ∧ i < pools.executors.length := by
      have := inv.nextAlloc
      rw [hi]
      split_ifs <;> omega
    have present : i.toNat < pools.executors.length := by omega
    have get : arrayListGet pools.executors i = .ok pools.executors[i.toNat] := by
      simp [arrayListGet, bounds.1, present]
    obtain ⟨count, hc⟩ := Option.isSome_iff_exists.mp
      ((inv.refCounts_isSome _).mpr (List.getElem_mem present))
    have next : toJavaInt (i + 1) = (i.toNat : Int) + 1 := by
      have : IsJavaInt (i + 1) := ⟨by omega, by omega⟩
      rw [toJavaInt_of_isJavaInt this]
      omega
    refine ⟨_, _, ?_, .inr (.inr ⟨rfl, full, i.toNat, count, List.getElem?_eq_getElem present,
      by omega, hc, rfl⟩)⟩
    simp only [allocate, hs, hp, hm, if_neg room, ← hi, get, hc, next]

/-- What `release` does on a well-formed factory: an unmapped partition throws the
"unallocated" `IllegalStateException`; otherwise the partition's executor loses a reference,
and at zero it leaves the collections and is shut down. Nothing else throws.
-/
theorem release_spec (inv : PoolInv s pools) (hs : s.pools = some pools) (p : Int)
    (tableName : String)
    : (pools.pid2execMap.lookup p = none ∧
        s.release p tableName =
          (.error (.illegalState (freesMessage tableName p "unallocated")), s)) ∨
    ∃ les count, pools.pid2execMap.lookup p = some les ∧ pools.refCounts.lookup les = some count ∧
      ((toJavaInt (count - 1) < 0 ∧
          s.release p tableName =
            (.error (.illegalState (invalidRefCountMessage tableName p)), s)) ∨
       (toJavaInt (count - 1) = 0 ∧ s.release p tableName = (.ok (), { s with
          nextAlloc := if s.nextAlloc > (pools.executors.erase les).length then 0 else s.nextAlloc
          pools := some ⟨pools.executors.erase les, remove les pools.refCounts,
            pools.pid2execMap.filter fun entry => entry.2 != les⟩
          shutdowns := s.shutdowns ++ [les] })) ∨
       (0 < toJavaInt (count - 1) ∧ s.release p tableName = (.ok (), { s with
          pools := some { pools with
            refCounts := put les (toJavaInt (count - 1)) pools.refCounts } }))) := by
  cases hp : pools.pid2execMap.lookup p with
  | none => exact .inl ⟨rfl, by simp only [release, hs, hp]⟩
  | some les =>
    obtain ⟨count, hc⟩ := inv.count_of_mapped hp
    refine .inr ⟨les, count, rfl, hc, ?_⟩
    simp only [release, hs, hp, hc]
    by_cases neg : toJavaInt (count - 1) < 0
    · exact .inl ⟨neg, by rw [if_pos neg]⟩
    by_cases zero : toJavaInt (count - 1) = 0
    · exact .inr (.inl ⟨zero, by rw [if_neg neg, if_pos zero]⟩)
    · exact .inr (.inr ⟨by omega, by rw [if_neg neg, if_neg zero]⟩)

end ExecutorFactory

-----------------------------------------------------------------------------------------
-- Calls
-----------------------------------------------------------------------------------------

/-- `getExecutor` is `initialize`, then `allocate` when `initialize` returns. -/
theorem getExecutor_eq (env : Environment) (p : Int)
    : s.getExecutor env p =
      match (s.lazyInit env).1 with
      | .error e => (.error e, (s.lazyInit env).2)
      | .ok () => (s.lazyInit env).2.allocate p := by
  unfold ExecutorFactory.getExecutor
  rcases s.lazyInit env with ⟨_ | ⟨⟩, _⟩ <;> rfl

section Preservation

variable {P : ExecutorFactory → Prop}

/-- `getExecutor` keeps what `initialize` keeps and what `allocate` keeps after it, whether
`initialize` returns or throws.
-/
theorem getExecutor_preserves {env : Environment} (lazyInit : P (s.lazyInit env).2)
    (allocate : ∀ p, P ((s.lazyInit env).2.allocate p).2) (p : Int)
    : P (s.getExecutor env p).2 := by
  rw [getExecutor_eq]
  split
  · exact lazyInit
  · exact allocate p

/-- `freeExecutor` keeps what `release` keeps on an initialized factory: on any other it throws
and leaves the factory as it was.
-/
theorem freeExecutor_preserves (hs : P s)
    (release : ∀ p tableName, s.isInitialized → P (s.release p tableName).2) (p : Int)
    (tableName : String)
    : P (s.freeExecutor p tableName).2 := by
  unfold ExecutorFactory.freeExecutor
  split_ifs with initialized
  · exact release p tableName initialized
  · exact hs

/-- The case split of every invariant of the factory, done once: a call keeps what
`initialize`, `allocate` after it and `release` keep.
-/
theorem step_preserves (env : Environment) (hs : P s) (lazyInit : P (s.lazyInit env).2)
    (allocate : ∀ p, P ((s.lazyInit env).2.allocate p).2)
    (release : ∀ p tableName, s.isInitialized → P (s.release p tableName).2)
    : ∀ c, P (step env s c)
  | .getExecutor p _ => getExecutor_preserves lazyInit allocate p
  | .freeExecutor p tableName => freeExecutor_preserves hs release p tableName

end Preservation

end VoltDB.Export
