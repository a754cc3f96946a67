import Ganesha.Mdcache.Cache

/-!
# The cleanup loop of `mdcache_unexport`

`mdcache_unexport` (lines 86-154 of `mdcache_export.c`) first unexports the sub-FSAL, which
touches no MDCACHE state, and then loops: read the head record of the export's `entry_list`
under `mdc_exp_lock`, take a reference on its entry, lock the entry's `attr_lock` and then
`mdc_exp_lock` for write, unlink the record, fix `first_export`, unlock in reverse order, push the
entry to the cleanup queue if it has no export left, and drop the reference.

`unexportStep` runs one atomic section of that loop; a section is the code between a lock
acquisition and the next release. `Transition` names the same steps, one constructor per path of
the loop body, and `unexportStep_transition` says every step of the function is one of them.
`runUnexport` runs the loop alone, with `mdcache_get` answering as the spec says.

The main result is `unexport_stale_head_never_returns`: when the head of the export's list is an
entry that `mdcache_get` reports STALE, the `continue` on line 118 reads the same head again, and
the loop never returns.
-/

namespace Ganesha.Mdcache

/-- The locks `mdcache_unexport` takes: `entry->attr_lock` and `exp->mdc_exp_lock`. -/
inductive Lock where
  | attr (entry : Nat)
  | exp (x : Nat)
  deriving DecidableEq, Repr

/-- What a step of `mdcache_unexport` does that other threads can observe: lock operations and
the calls on the entry store and the LRU. -/
inductive Event where
  | rdlock (lock : Lock)
  | wrlock (lock : Lock)
  | unlock (lock : Lock)
  | get (entry : Nat) (status : FsalStatus)
  | tryPush (entry : Nat)
  | put (entry : Nat)
  deriving DecidableEq, Repr

/-- The program points of the loop, with the local variables `entry` and `expmap` live there. -/
inductive Pc where
  /-- The top of `while (true)`, holding nothing. -/
  | loop
  /-- Holding `mdc_exp_lock` for read (line 101). -/
  | scan
  /-- Holding a reference on `entry` (line 123). -/
  | referenced (entry m : Nat)
  /-- Holding `attr_lock` for write (line 124). -/
  | attrLocked (entry m : Nat)
  /-- Holding both locks for write (line 126). -/
  | expLocked (entry m : Nat)
  /-- `mdc_exp_lock` released, `attr_lock` still held; `last` when no export is left (line 137
  or 148). -/
  | delisted (entry : Nat) (last : Bool)
  /-- About to call `mdcache_lru_cleanup_try_push` (line 141). -/
  | pushing (entry : Nat)
  /-- About to call `mdcache_put` (line 152). -/
  | putting (entry : Nat)
  /-- Returned. -/
  | done
  deriving DecidableEq, Repr

/-- One atomic section of `mdcache_unexport (x)` from program point `pc`. `get entry` is the
status the `mdcache_get` of this section returns. `none` when the section waits for a lock, and
after the function returned. -/
def unexportStep (get : Nat → FsalStatus) (x : Nat) (c : Cache) :
    Pc → Option (Cache × Pc × List Event)
  | .loop =>
      (c.expLock x).rdlock.map fun l => (c.setExpLock x l, .scan, [.rdlock (.exp x)])
  | .scan =>
      match c.map.entryList x with
      | [] => some (c.setExpLock x (c.expLock x).unlock, .done, [.unlock (.exp x)])
      | m :: _ =>
          let entry := (c.map.expmap m).entry
          let status := get entry
          let c' := (mdcacheGet c entry status).setExpLock x (c.expLock x).unlock
          match status with
          | .ok => some (c', .referenced entry m, [.get entry .ok, .unlock (.exp x)])
          | .stale => some (c', .loop, [.get entry .stale, .unlock (.exp x)])
  | .referenced entry m =>
      (c.attrLock entry).wrlock.map fun l =>
        (c.setAttrLock entry l, .attrLocked entry m, [.wrlock (.attr entry)])
  | .attrLocked entry m =>
      (c.expLock x).wrlock.map fun l =>
        (c.setExpLock x l, .expLocked entry m, [.wrlock (.exp x)])
  | .expLocked entry m =>
      let removed := mdcRemoveExportMap c.map m
      let c' := c.setExpLock x (c.expLock x).unlock
      match removed.exportList entry with
      | [] =>
          some ({ c' with map := removed.setFirstExport entry none },
            .delisted entry true, [.unlock (.exp x)])
      | first :: _ =>
          let head := some (removed.expmap first).exp
          some ({ c' with map := removed.setFirstExport entry head },
            .delisted entry false, [.unlock (.exp x)])
  | .delisted entry last =>
      some (c.setAttrLock entry (c.attrLock entry).unlock,
        if last then .pushing entry else .putting entry, [.unlock (.attr entry)])
  | .pushing entry =>
      (mdcacheLruCleanupTryPush c entry).map fun c' => (c', .putting entry, [.tryPush entry])
  | .putting entry => some (mdcachePut c entry, .loop, [.put entry])
  | .done => none

/-- The steps of one `mdcache_unexport (x)` thread, one constructor per path of the loop body.
The outcome of `mdcache_get` is left open. -/
inductive Transition (x : Nat) : Cache → Pc → Cache → Pc → List Event → Prop
  | rdlock {c l} : (c.expLock x).rdlock = some l →
      Transition x c .loop (c.setExpLock x l) .scan [.rdlock (.exp x)]
  | empty {c} : c.map.entryList x = [] →
      Transition x c .scan (c.setExpLock x (c.expLock x).unlock) .done [.unlock (.exp x)]
  | stale {c m rest} : c.map.entryList x = m :: rest →
      Transition x c .scan (c.setExpLock x (c.expLock x).unlock) .loop
        [.get (c.map.expmap m).entry .stale, .unlock (.exp x)]
  | referenced {c m rest} : c.map.entryList x = m :: rest →
      Transition x c .scan
        ((mdcacheGet c (c.map.expmap m).entry .ok).setExpLock x (c.expLock x).unlock)
        (.referenced (c.map.expmap m).entry m)
        [.get (c.map.expmap m).entry .ok, .unlock (.exp x)]
  | attrLock {c entry m l} : (c.attrLock entry).wrlock = some l →
      Transition x c (.referenced entry m) (c.setAttrLock entry l) (.attrLocked entry m)
        [.wrlock (.attr entry)]
  | expLock {c entry m l} : (c.expLock x).wrlock = some l →
      Transition x c (.attrLocked entry m) (c.setExpLock x l) (.expLocked entry m)
        [.wrlock (.exp x)]
  | unlink {c entry m} :
      Transition x c (.expLocked entry m)
        ({ c with map := delist c.map entry m }.setExpLock x (c.expLock x).unlock)
        (.delisted entry ((mdcRemoveExportMap c.map m).exportList entry).isEmpty)
        [.unlock (.exp x)]
  | attrUnlockLast {c entry} :
      Transition x c (.delisted entry true) (c.setAttrLock entry (c.attrLock entry).unlock)
        (.pushing entry) [.unlock (.attr entry)]
  | attrUnlockOther {c entry} :
      Transition x c (.delisted entry false) (c.setAttrLock entry (c.attrLock entry).unlock)
        (.putting entry) [.unlock (.attr entry)]
  | tryPush {c c' entry} : mdcacheLruCleanupTryPush c entry = some c' →
      Transition x c (.pushing entry) c' (.putting entry) [.tryPush entry]
  | put {c entry} : Transition x c (.putting entry) (mdcachePut c entry) .loop [.put entry]

/-- Every step of `mdcache_unexport`, whatever `mdcache_get` answers, is a `Transition`. -/
theorem unexportStep_transition {get : Nat → FsalStatus} {x : Nat} {c c' : Cache}
    {pc pc' : Pc} {evs : List Event} (h : unexportStep get x c pc = some (c', pc', evs)) :
    Transition x c pc c' pc' evs := by
  cases pc with
  | loop =>
      obtain ⟨l, hl, h⟩ := Option.map_eq_some'.1 h
      cases h; exact .rdlock hl
  | scan =>
      simp only [unexportStep] at h
      split at h
      · cases h; exact .empty ‹_›
      · rename_i m rest hl
        cases hst : get (c.map.expmap m).entry <;> simp only [hst] at h <;> cases h
        exacts [.referenced hl, .stale hl]
  | referenced entry m =>
      obtain ⟨l, hl, h⟩ := Option.map_eq_some'.1 h
      cases h; exact .attrLock hl
  | attrLocked entry m =>
      obtain ⟨l, hl, h⟩ := Option.map_eq_some'.1 h
      cases h; exact .expLock hl
  | expLocked entry m =>
      -- both paths set `first_export` to the head of what is left
      simp only [unexportStep] at h
      split at h <;> cases h <;> rename_i hl <;>
        simpa [delist, headExport, hl] using @Transition.unlink x c entry m
  | delisted entry last =>
      cases last <;> cases h
      exacts [.attrUnlockOther, .attrUnlockLast]
  | pushing entry =>
      obtain ⟨c'', hc, h⟩ := Option.map_eq_some'.1 h
      cases h; exact .tryPush hc
  | putting entry =>
      cases h; exact .put
  | done => cases h

/-- Run `mdcache_unexport (x)` alone for `fuel` steps, `mdcache_get` answering as the spec says.
`none` when a lock is unavailable or the function returned before the fuel ran out. -/
def runUnexport (x : Nat) : Nat → Cache → Pc → Option (Cache × Pc)
  | 0, c, pc => some (c, pc)
  | fuel + 1, c, pc =>
      (unexportStep (getStatus c) x c pc).bind fun (c', pc', _) => runUnexport x fuel c' pc'

section StaleHead

variable {x m : Nat} {rest : List Nat} {c : Cache}

/-- With a STALE entry at the head of the list, one pass from the top of the loop reads the
head, gets no reference and comes back to the top of the loop in the state it started from. -/
theorem runUnexport_stale_pass (hhead : c.map.entryList x = m :: rest)
    (hstale : c.unreachable (c.map.expmap m).entry = true) (fuel : Nat) :
    runUnexport x (fuel + 2) c .loop =
      (c.expLock x).rdlock.bind fun _ => runUnexport x fuel c .loop := by
  cases hl : (c.expLock x).rdlock with
  | none => simp [runUnexport, unexportStep, hl]
  | some l =>
      have hback : (c.setExpLock x l).setExpLock x l.unlock = c := by
        rw [Cache.setExpLock_setExpLock, RwLock.rdlock_unlock hl, Cache.setExpLock_self]
      simp [runUnexport, unexportStep, hl, hhead, getStatus, hstale, mdcacheGet, hback]

/-- When `mdcache_get` reports the head entry STALE, `mdcache_unexport` run alone never returns,
however many steps it is given: the `continue` reads the same head again. -/
theorem unexport_stale_head_never_returns (hhead : c.map.entryList x = m :: rest)
    (hstale : c.unreachable (c.map.expmap m).entry = true) :
    ∀ fuel c', runUnexport x fuel c .loop ≠ some (c', .done)
  | 0, c' => by simp [runUnexport]
  | 1, c' => by cases hl : (c.expLock x).rdlock <;> simp [runUnexport, unexportStep, hl]
  | fuel + 2, c' => by
      rw [runUnexport_stale_pass hhead hstale]
      cases (c.expLock x).rdlock <;>
        simp [unexport_stale_head_never_returns hhead hstale fuel c']

end StaleHead

/-- One entry `0`, referenced once and marked unreachable, linked to export `0` by record `0`;
no lock is held. -/
def staleExample : Cache where
  map :=
    { expmap := fun _ => ⟨0, 0⟩
      exportList := fun e => if e = 0 then [0] else []
      entryList := fun x => if x = 0 then [0] else []
      firstExport := fun e => if e = 0 then some 0 else none }
  refcnt := fun _ => 1
  unreachable := fun _ => true
  cleanup := fun _ => false
  attrLock := fun _ => .unlocked
  expLock := fun _ => .unlocked

/-- Entry `0` visible through exports `0` and `1`: record `m` links entry `0` to export `m`. No
lock is held and no reference taken. -/
def sharedEntry : Cache where
  map :=
    { expmap := fun m => ⟨0, m⟩
      exportList := fun e => if e = 0 then [0, 1] else []
      entryList := fun x => if x = 0 then [0] else if x = 1 then [1] else []
      firstExport := fun e => if e = 0 then some 0 else none }
  refcnt := fun _ => 0
  unreachable := fun _ => false
  cleanup := fun _ => false
  attrLock := fun _ => .unlocked
  expLock := fun _ => .unlocked

theorem sharedEntry_map_inv : MapInv sharedEntry.map := by
  constructor <;> intros <;> simp_all [sharedEntry] <;> split_ifs at * <;> simp_all

/-- `staleExample` satisfies the export-map invariant, and unexporting export `0` from it never
returns. -/
theorem unexport_stale_example_never_returns :
    MapInv staleExample.map ∧
      ∀ fuel c', runUnexport 0 fuel staleExample .loop ≠ some (c', .done) := by
  refine ⟨⟨?_, ?_, ?_, ?_, ?_, ?_⟩, unexport_stale_head_never_returns rfl rfl⟩ <;>
    intros <;> simp_all [staleExample] <;> split_ifs at * <;> simp_all

end Ganesha.Mdcache
