import Ganesha.Mdcache.ExportMap

/-!
# Cache entries, their locks and references

The part of the MDCACHE state that `mdcache_unexport` reads or writes besides the export map:
each entry's reference count, `unreachable` flag, cleanup-queue membership and `attr_lock`, and
each export's `mdc_exp_lock`. A `pthread_rwlock_t` is an `RwLock`, whose write hold excludes
readers by construction.

`mdcache_get`, `mdcache_put` and `mdcache_lru_cleanup_try_push` are not in the sources; they are
modelled from the spec's entry-store and LRU sections. The status `mdcache_get` returns is kept
apart from its effect (`mdcacheGet`), so that the unexport loop can be run with any outcome of
the call; `getStatus` is the outcome the spec gives it.
-/

namespace Ganesha.Mdcache

/-- A `pthread_rwlock_t`: the number of read holders and whether a writer holds it. -/
@[ext]
structure RwLock where
  readers : Nat
  writer : Bool
  /-- A write hold excludes every reader. -/
  exclusive : writer = true → readers = 0

namespace RwLock

/-- A lock nobody holds. -/
def unlocked : RwLock := ⟨0, false, fun _ => rfl⟩

/-- `pthread_rwlock_rdlock`: blocks (`none`) while a writer holds the lock. -/
def rdlock (l : RwLock) : Option RwLock :=
  if l.writer then none else some ⟨l.readers + 1, false, fun h => nomatch h⟩

/-- `pthread_rwlock_wrlock`: blocks (`none`) while anyone holds the lock. -/
def wrlock (l : RwLock) : Option RwLock :=
  if l.writer || l.readers != 0 then none else some ⟨0, true, fun _ => rfl⟩

/-- `pthread_rwlock_unlock`: drops the write hold if there is one, else one read hold. -/
def unlock (l : RwLock) : RwLock :=
  if l.writer then ⟨0, false, fun h => nomatch h⟩
  else ⟨l.readers - 1, false, fun h => nomatch h⟩

/-- Read-locking and then unlocking leaves the lock as it was. -/
theorem rdlock_unlock {l l' : RwLock} (h : l.rdlock = some l') : l'.unlock = l := by
  unfold rdlock at h
  split_ifs at h with hw
  cases h
  ext <;> simp [unlock, hw]

end RwLock

/-- The status of an FSAL call, as far as `mdcache_unexport` tests it with `FSAL_IS_ERROR`. -/
inductive FsalStatus where
  | ok
  | stale
  deriving DecidableEq, Repr

/-- The cache state `mdcache_unexport` works on. -/
structure Cache where
  map : ExportMap
  refcnt : Nat → Nat
  unreachable : Nat → Bool
  /-- Entries moved to the LRU cleanup queue. -/
  cleanup : Nat → Bool
  attrLock : Nat → RwLock
  expLock : Nat → RwLock

namespace Cache

/-- Replace `entry->attr_lock`. -/
def setAttrLock (c : Cache) (entry : Nat) (l : RwLock) : Cache :=
  { c with attrLock := Function.update c.attrLock entry l }

/-- Replace `exp->mdc_exp_lock`. -/
def setExpLock (c : Cache) (x : Nat) (l : RwLock) : Cache :=
  { c with expLock := Function.update c.expLock x l }

/-- Replace the reference count of `entry`. -/
def setRefcnt (c : Cache) (entry n : Nat) : Cache :=
  { c with refcnt := Function.update c.refcnt entry n }

@[simp] theorem setAttrLock_map (c : Cache) (e : Nat) (l : RwLock) :
    (c.setAttrLock e l).map = c.map := rfl
@[simp] theorem setAttrLock_refcnt (c : Cache) (e : Nat) (l : RwLock) :
    (c.setAttrLock e l).refcnt = c.refcnt := rfl
@[simp] theorem setAttrLock_unreachable (c : Cache) (e : Nat) (l : RwLock) :
    (c.setAttrLock e l).unreachable = c.unreachable := rfl
@[simp] theorem setAttrLock_expLock (c : Cache) (e : Nat) (l : RwLock) :
    (c.setAttrLock e l).expLock = c.expLock := rfl
@[simp] theorem setExpLock_map (c : Cache) (x : Nat) (l : RwLock) :
    (c.setExpLock x l).map = c.map := rfl
@[simp] theorem setExpLock_refcnt (c : Cache) (x : Nat) (l : RwLock) :
    (c.setExpLock x l).refcnt = c.refcnt := rfl
@[simp] theorem setExpLock_unreachable (c : Cache) (x : Nat) (l : RwLock) :
    (c.setExpLock x l).unreachable = c.unreachable := rfl
@[simp] theorem setExpLock_attrLock (c : Cache) (x : Nat) (l : RwLock) :
    (c.setExpLock x l).attrLock = c.attrLock := rfl
@[simp] theorem setRefcnt_map (c : Cache) (e n : Nat) : (c.setRefcnt e n).map = c.map := rfl
@[simp] theorem setRefcnt_unreachable (c : Cache) (e n : Nat) :
    (c.setRefcnt e n).unreachable = c.unreachable := rfl
@[simp] theorem setRefcnt_attrLock (c : Cache) (e n : Nat) :
    (c.setRefcnt e n).attrLock = c.attrLock := rfl
@[simp] theorem setRefcnt_expLock (c : Cache) (e n : Nat) :
    (c.setRefcnt e n).expLock = c.expLock := rfl

/-- Putting back the lock an export already has changes nothing. -/
theorem setExpLock_self (c : Cache) (x : Nat) : c.setExpLock x (c.expLock x) = c := by
  simp [setExpLock]

@[simp] theorem setExpLock_setExpLock (c : Cache) (x : Nat) (l l' : RwLock) :
    (c.setExpLock x l).setExpLock x l' = c.setExpLock x l' := by
  simp [setExpLock]

@[simp] theorem setRefcnt_refcnt (c : Cache) (e n e' : Nat) :
    (c.setRefcnt e n).refcnt e' = if e' = e then n else c.refcnt e' := by
  simp [setRefcnt, Function.update_apply]

@[simp] theorem setAttrLock_attrLock (c : Cache) (e e' : Nat) (l : RwLock) :
    (c.setAttrLock e l).attrLock e' = if e' = e then l else c.attrLock e' := by
  simp [setAttrLock, Function.update_apply]

@[simp] theorem setExpLock_expLock (c : Cache) (x x' : Nat) (l : RwLock) :
    (c.setExpLock x l).expLock x' = if x' = x then l else c.expLock x' := by
  simp [setExpLock, Function.update_apply]

end Cache

/-- Modelled from the spec: the status `mdcache_get` returns (the function is not in the
sources). `get(entry) → OK | STALE`: STALE exactly when `unreachable` is set. -/
def getStatus (c : Cache) (entry : Nat) : FsalStatus :=
  if c.unreachable entry then .stale else .ok

/-- Modelled from the spec: the effect of an `mdcache_get` that returned `status`. On OK it
increments the reference count; on STALE it changes nothing. -/
def mdcacheGet (c : Cache) (entry : Nat) : FsalStatus → Cache
  | .ok => c.setRefcnt entry (c.refcnt entry + 1)
  | .stale => c

/-- Modelled from the spec: `mdcache_put` decrements the reference count. Handing an entry whose
count reaches zero to the LRU engine changes no state modelled here. -/
def mdcachePut (c : Cache) (entry : Nat) : Cache :=
  c.setRefcnt entry (c.refcnt entry - 1)

/-- Modelled from the spec: `mdcache_lru_cleanup_try_push` takes the entry's `attr_lock` (after
the lane lock), so it waits (`none`) while a writer holds it; under the lock it moves the entry
to the cleanup queue if it has no export association left. -/
def mdcacheLruCleanupTryPush (c : Cache) (entry : Nat) : Option Cache :=
  if (c.attrLock entry).writer then none
  else if c.map.exportList entry = [] then
    some { c with cleanup := Function.update c.cleanup entry true }
  else some c

@[simp] theorem mdcacheGet_map (c : Cache) (e : Nat) (st : FsalStatus) :
    (mdcacheGet c e st).map = c.map := by
  cases st <;> rfl

@[simp] theorem mdcacheGet_unreachable (c : Cache) (e : Nat) (st : FsalStatus) :
    (mdcacheGet c e st).unreachable = c.unreachable := by
  cases st <;> rfl

@[simp] theorem mdcacheGet_attrLock (c : Cache) (e : Nat) (st : FsalStatus) :
    (mdcacheGet c e st).attrLock = c.attrLock := by
  cases st <;> rfl

@[simp] theorem mdcacheGet_expLock (c : Cache) (e : Nat) (st : FsalStatus) :
    (mdcacheGet c e st).expLock = c.expLock := by
  cases st <;> rfl

@[simp] theorem mdcachePut_map (c : Cache) (e : Nat) : (mdcachePut c e).map = c.map := rfl

@[simp] theorem mdcachePut_unreachable (c : Cache) (e : Nat) :
    (mdcachePut c e).unreachable = c.unreachable := rfl

/-- The cleanup push changes neither the export map, nor any count, flag or lock other than the
cleanup queue. -/
theorem mdcacheLruCleanupTryPush_frame {c c' : Cache} {e : Nat}
    (h : mdcacheLruCleanupTryPush c e = some c') :
    c'.map = c.map ∧ c'.refcnt = c.refcnt ∧ c'.unreachable = c.unreachable ∧
      c'.attrLock = c.attrLock ∧ c'.expLock = c.expLock := by
  unfold mdcacheLruCleanupTryPush at h
  split_ifs at h <;> cases h <;> simp

end Ganesha.Mdcache
