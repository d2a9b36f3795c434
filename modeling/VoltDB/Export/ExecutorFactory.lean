import Mathlib.Data.String.Basic

/-! The executor factory of `frontend/org/voltdb/export/ExecutorFactory.java`: the thread
sharing policy that hands each export data source a `ListeningExecutorService`, one per
partition, with reference counts for shutdown. Its public methods are `synchronized`, so a run
of the factory is a sequence of calls, each on the state the previous one left.
-/

namespace VoltDB.Export

-----------------------------------------------------------------------------------------
-- Java values
-----------------------------------------------------------------------------------------

/-- `Integer.MAX_VALUE`, `2^31 - 1`. -/
def intMaxValue : Int := 2147483647

/-- A value of Java's `int`: from `Integer.MIN_VALUE = -2^31` to `Integer.MAX_VALUE`. -/
def IsJavaInt (x : Int) : Prop := -2147483648 ≤ x ∧ x ≤ intMaxValue

instance (x : Int) : Decidable (IsJavaInt x) := inferInstanceAs (Decidable (_ ∧ _))

/-- Java `int` arithmetic: a result is taken modulo `2^32 = 4294967296` into `[-2^31, 2^31)`. -/
def toJavaInt (x : Int) : Int := (x + 2147483648) % 4294967296 - 2147483648

/-- The exceptions the factory's methods can throw. The `IllegalArgumentException` is the one of
`new ArrayList<>(m_maxThreads)` on a negative capacity; its message comes from the JDK and is
left out.
-/
inductive JavaException
  | illegalState (message : String)
  | illegalArgument
  | nullPointer
  | indexOutOfBounds (index : Int)
  deriving DecidableEq, Repr

instance instDecidableEqExcept {ε α : Type} [DecidableEq ε] [DecidableEq α] :
    DecidableEq (Except ε α)
  | .error a, .error b =>
    if h : a = b then isTrue (h ▸ rfl) else isFalse fun e => h (Except.error.inj e)
  | .ok a, .ok b => if h : a = b then isTrue (h ▸ rfl) else isFalse fun e => h (Except.ok.inj e)
  | .error _, .ok _ => isFalse Except.noConfusion
  | .ok _, .error _ => isFalse Except.noConfusion

/-- `ArrayList.get`: an index outside `[0, size())` throws `IndexOutOfBoundsException`. -/
def arrayListGet (xs : List Nat) (index : Int) : Except JavaException Nat :=
  if 0 ≤ index then
    match xs[index.toNat]? with
    | some x => .ok x
    | none => .error (.indexOutOfBounds index)
  else .error (.indexOutOfBounds index)

/-- `Map.put` on an association list: the key's old entry goes and the new one is found
first. -/
def put {α β : Type} [BEq α] (key : α) (value : β) (m : List (α × β)) : List (α × β) :=
  (key, value) :: m.filter fun entry => entry.1 != key

/-- `Map.remove` on an association list. -/
def remove {α β : Type} [BEq α] (key : α) (m : List (α × β)) : List (α × β) :=
  m.filter fun entry => entry.1 != key

-----------------------------------------------------------------------------------------
-- The factory
-----------------------------------------------------------------------------------------

/-- What `initialize` reads from outside the factory; each value is a Java `int`. -/
structure Environment where
  /-- `Integer.getInteger(MAX_EXPORT_THREADS)`: the system property, when it is set to an
  `int`. -/
  maxExportThreads : Option Int
  /-- `CoreUtils.availableProcessors()`. -/
  availableProcessors : Int
  /-- `getLocalSitesCount()`: the node's local sites, or 0 when the catalog gives none. -/
  localSitesCount : Int
  maxExportThreads_isInt : IsJavaInt (maxExportThreads.getD 0)
  availableProcessors_isInt : IsJavaInt availableProcessors
  localSitesCount_isInt : IsJavaInt localSitesCount

namespace Environment

/-- `getMinThreads`: `Math.max(2, CoreUtils.availableProcessors() / 4)`. -/
def getMinThreads (env : Environment) : Int :=
  max 2 (env.availableProcessors.tdiv 4)

/-- `getConfigMaxThreads`: `Integer.getInteger(MAX_EXPORT_THREADS, getMinThreads())`. -/
def getConfigMaxThreads (env : Environment) : Int :=
  env.maxExportThreads.getD env.getMinThreads

/-- The value `initialize` leaves in `m_maxThreads`: `getConfigMaxThreads()`, forced to
`getMinThreads()` when it is not positive or the local sites count is 0, and to the local sites
count when it exceeds that.
-/
def checkedMaxThreads (env : Environment) : Int :=
  if env.getConfigMaxThreads < 1 then env.getMinThreads
  else if env.localSitesCount = 0 then env.getMinThreads
  else if env.getConfigMaxThreads > env.localSitesCount then env.localSitesCount
  else env.getConfigMaxThreads

end Environment

/-- The three collections `initialize` creates. They are `null` before it and are assigned one
after the other; only `new ArrayList<>(m_maxThreads)` can throw, before the first assignment, so
the three are `null` or set together. Executors are known by their identity, a number: the
factory compares them with `==` (`IdentityHashMap`, `removeIf(v -> v == les)`), and
`ArrayList.remove` uses the identity `equals` of executor services.
-/
structure Pools where
  /-- `m_executors`. -/
  executors : List Nat
  /-- `m_refCounts`: executor to reference count. -/
  refCounts : List (Nat × Int)
  /-- `m_pid2execMap`: partition id to executor. -/
  pid2execMap : List (Int × Nat)
  deriving DecidableEq, Repr

/-- The fields of an `ExecutorFactory`, with two that only the model keeps: the identities
handed out so far and the executors shut down so far.
-/
structure ExecutorFactory where
  /-- `m_maxThreads`, `null` until `initialize`. -/
  maxThreads : Option Int
  /-- `m_nextAlloc`. -/
  nextAlloc : Int
  /-- `m_executors`, `m_refCounts` and `m_pid2execMap`. -/
  pools : Option Pools
  /-- `CoreUtils.getListeningExecutorService` has made the executors `0, ..., created - 1`. -/
  created : Nat
  /-- The executors `release` has called `shutdown()` on, in order. -/
  shutdowns : List Nat
  deriving DecidableEq, Repr

/-- The `IllegalStateException` message of `freeExecutor` and `release` for a partition that
frees an `what` executor: "uninitialized" or "unallocated".
-/
def freesMessage (tableName : String) (partitionId : Int) (what : String) : String :=
  "Export Data Source for table: " ++ tableName ++ ", partition: " ++ toString partitionId ++
    " frees " ++ what ++ " executor"

/-- The `IllegalStateException` message of `release` for a negative reference count. -/
def invalidRefCountMessage (tableName : String) (partitionId : Int) : String :=
  "Invalid refCount for table: " ++ tableName ++ "partition: " ++ toString partitionId

namespace ExecutorFactory

/-- `new ExecutorFactory()`: every field at its Java default. -/
def initial : ExecutorFactory :=
  ⟨none, 0, none, 0, []⟩

/-- `isInitialized`. -/
def isInitialized (s : ExecutorFactory) : Bool :=
  s.maxThreads.isSome

/-- `initialize`, a keyword in Lean: `m_maxThreads` from the configuration, then the empty
collections. A negative limit makes `new ArrayList<>(m_maxThreads)` throw after `m_maxThreads`
and `m_nextAlloc` are assigned.
-/
def lazyInit (s : ExecutorFactory) (env : Environment) : Except JavaException Unit × ExecutorFactory :=
  if s.isInitialized then (.ok (), s)
  else
    let s := { s with maxThreads := some env.checkedMaxThreads, nextAlloc := 0 }
    if env.checkedMaxThreads < 0 then (.error .illegalArgument, s)
    else (.ok (), { s with pools := some ⟨[], [], []⟩ })

/-- `allocate`: the partition's executor when it has one; else a new executor while fewer than
`m_maxThreads` run; else the executor at `m_nextAlloc`, round robin. A `null` collection or a
missing reference count (unboxed by `intValue()`) is a `NullPointerException`.
-/
def allocate (s : ExecutorFactory) (partitionId : Int) : Except JavaException Nat × ExecutorFactory :=
  match s.pools with
  | none => (.error .nullPointer, s)
  | some pools =>
    match pools.pid2execMap.lookup partitionId with
    | some les =>
      match pools.refCounts.lookup les with
      | none => (.error .nullPointer, s)
      | some count =>
        (.ok les, { s with
          pools := some { pools with refCounts := put les (toJavaInt (count + 1)) pools.refCounts } })
    | none =>
      match s.maxThreads with
      | none => (.error .nullPointer, s)
      | some maxThreads =>
        if (pools.executors.length : Int) < maxThreads then
          let les := s.created
          (.ok les, { s with
            created := les + 1
            pools := some
              { executors := pools.executors ++ [les]
                refCounts := put les 1 pools.refCounts
                pid2execMap := put partitionId les pools.pid2execMap } })
        else
          let nextAlloc := if s.nextAlloc ≥ pools.executors.length then 0 else s.nextAlloc
          let s := { s with nextAlloc := nextAlloc }
          match arrayListGet pools.executors nextAlloc with
          | .error e => (.error e, s)
          | .ok les =>
            match pools.refCounts.lookup les with
            | none => (.error .nullPointer, s)
            | some count =>
              (.ok les, { s with
                nextAlloc := toJavaInt (nextAlloc + 1)
                pools := some { pools with
                  refCounts := put les (toJavaInt (count + 1)) pools.refCounts
                  pid2execMap := put partitionId les pools.pid2execMap } })

/-- `release`: the partition's executor loses one reference; at zero it leaves the collections,
every partition mapped to it is unmapped, and it is shut down.
-/
def release (s : ExecutorFactory) (partitionId : Int) (tableName : String)
    : Except JavaException Unit × ExecutorFactory :=
  match s.pools with
  | none => (.error .nullPointer, s)
  | some pools =>
    match pools.pid2execMap.lookup partitionId with
    | none => (.error (.illegalState (freesMessage tableName partitionId "unallocated")), s)
    | some les =>
      match pools.refCounts.lookup les with
      | none => (.error .nullPointer, s)
      | some count =>
        let refCount := toJavaInt (count - 1)
        if refCount < 0 then
          (.error (.illegalState (invalidRefCountMessage tableName partitionId)), s)
        else if refCount = 0 then
          let executors := pools.executors.erase les
          (.ok (), { s with
            nextAlloc := if s.nextAlloc > executors.length then 0 else s.nextAlloc
            pools := some
              { executors := executors
                refCounts := remove les pools.refCounts
                pid2execMap := pools.pid2execMap.filter fun entry => entry.2 != les }
            shutdowns := s.shutdowns ++ [les] })
        else
          (.ok (), { s with pools := some { pools with refCounts := put les refCount pools.refCounts } })

/-- `getExecutor`: `initialize()` (`lazyInit`), then `allocate`. The table name is not read. -/
def getExecutor (s : ExecutorFactory) (env : Environment) (partitionId : Int)
    : Except JavaException Nat × ExecutorFactory :=
  match s.lazyInit env with
  | (.error e, s) => (.error e, s)
  | (.ok (), s) => s.allocate partitionId

/-- `freeExecutor`: `release`, once initialized. -/
def freeExecutor (s : ExecutorFactory) (partitionId : Int) (tableName : String)
    : Except JavaException Unit × ExecutorFactory :=
  if s.isInitialized then s.release partitionId tableName
  else (.error (.illegalState (freesMessage tableName partitionId "uninitialized")), s)

/-- `getMaxThreadCount`: `m_maxThreads`, unboxed. -/
def getMaxThreadCount (s : ExecutorFactory) : Except JavaException Int :=
  match s.maxThreads with
  | some maxThreads => .ok maxThreads
  | none => .error .nullPointer

/-- `getCurrentThreadCount`: `m_executors.size()`. -/
def getCurrentThreadCount (s : ExecutorFactory) : Except JavaException Nat :=
  match s.pools with
  | some pools => .ok pools.executors.length
  | none => .error .nullPointer

end ExecutorFactory

-----------------------------------------------------------------------------------------
-- Runs
-----------------------------------------------------------------------------------------

/-- A call of one of the factory's `synchronized` methods that change it. -/
inductive Call
  | getExecutor (partitionId : Int) (tableName : String)
  | freeExecutor (partitionId : Int) (tableName : String)
  deriving DecidableEq, Repr

/-- The call is a `getExecutor`. -/
def Call.isGet : Call → Bool
  | .getExecutor _ _ => true
  | .freeExecutor _ _ => false

/-- One call, returning or throwing: an exception leaves the fields as the method had set them
when it threw.
-/
def step (env : Environment) (s : ExecutorFactory) : Call → ExecutorFactory
  | .getExecutor partitionId _ => (s.getExecutor env partitionId).2
  | .freeExecutor partitionId tableName => (s.freeExecutor partitionId tableName).2

/-- The factory after a sequence of calls on `instance()`. -/
def run (env : Environment) (calls : List Call) : ExecutorFactory :=
  calls.foldl (step env) ExecutorFactory.initial

@[simp] theorem run_nil (env : Environment) : run env [] = ExecutorFactory.initial := rfl

@[simp] theorem run_append_singleton (env : Environment) (calls : List Call) (c : Call)
    : run env (calls ++ [c]) = step env (run env calls) c := by
  simp [run]

/-- Induction over the calls after a prefix: a property of the state `pre` leads to that every
further call keeps holds after every continuation of `pre`.
-/
theorem run_append_induction (env : Environment) (pre : List Call)
    (P : List Call → ExecutorFactory → Prop) (nil : P [] (run env pre))
    (snoc : ∀ post c, P post (run env (pre ++ post)) →
      P (post ++ [c]) (step env (run env (pre ++ post)) c))
    : ∀ post, P post (run env (pre ++ post)) := by
  intro post
  induction post using List.reverseRecOn with
  | nil => simpa using nil
  | append_singleton post c ih =>
    rw [← List.append_assoc, run_append_singleton]
    exact snoc post c ih

/-- Induction over a run: a property of the initial factory that every call keeps, from the
state a run leads to, holds after every run. The step may use what is already known of every
run, such as its well-formedness.
-/
theorem run_induction (env : Environment) (P : List Call → ExecutorFactory → Prop)
    (nil : P [] ExecutorFactory.initial)
    (snoc : ∀ calls c, P calls (run env calls) → P (calls ++ [c]) (step env (run env calls) c))
    : ∀ calls, P calls (run env calls) :=
  run_append_induction env [] P nil snoc

end VoltDB.Export
