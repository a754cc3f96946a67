import Mathlib.Logic.Relation

/-!
# Shutdown signalling between `admin_halt` and `admin_thread`

`admin_thread` (lines 453-469 of `nfs_admin_thread.c`) locks `admin_control_mtx`, waits on
`admin_control_cv` while `admin_shutdown` is false, unlocks and runs `do_shutdown`. `admin_halt`
(lines 340-350), called directly or by the `shutdown` DBus method, sets the flag and broadcasts,
both under the mutex. Any number of threads may call `admin_halt`, any number of times, and
`pthread_cond_wait` may wake spuriously.

The mutex has an owner; a caller of `admin_halt` is inside it exactly while it owns the mutex.
`pthread_cond_wait` is three steps: releasing the mutex while joining the wait (one atomic step),
waking up, and taking the mutex back. `AdminInv` is the invariant of every reachable state; the
main result, `admin_shutdown_signalling`, says the flag never goes back, one broadcast is sent
however many halts there are, `do_shutdown` is entered once and only with the flag set, and the
admin thread never sleeps on a set flag. `do_shutdown` is entered and not left: its calls may
block, so the model claims nothing past its entry. `shutdown_completes` adds that from every
reachable state with the flag set some schedule runs the admin thread into `do_shutdown`, and
that a caller of `admin_halt` owning the mutex can always end its section;
`admin_halt_shuts_down` that from every reachable state a new call of `admin_halt` is never
blocked for good and leads there.
-/

namespace Ganesha.Admin

/-- A thread that takes `admin_control_mtx`: the admin thread, or a caller of `admin_halt`. -/
inductive Thread where
  | admin
  | halter (id : Nat)
  deriving DecidableEq, Repr

/-- The program points of `admin_thread`. -/
inductive AdminPc where
  /-- Before locking the mutex (line 457). -/
  | start
  /-- Holding the mutex, at the test `while (!admin_shutdown)` (line 459). -/
  | test
  /-- Holding the mutex, about to call `pthread_cond_wait` (line 461). -/
  | waitCall
  /-- Blocked in `pthread_cond_wait`, the mutex released. -/
  | waiting
  /-- Woken in `pthread_cond_wait`, taking the mutex back. -/
  | woken
  /-- Holding the mutex after the loop, about to unlock (line 464). -/
  | exiting
  /-- About to call `do_shutdown` (line 466). -/
  | unlocked
  /-- Inside `do_shutdown`. Its calls (`remove_all_exports` among them) may block, so no step
  leaves this point. -/
  | inShutdown
  deriving DecidableEq, Repr

/-- The state shared by the admin thread and the callers of `admin_halt`: the flag, the owner of
the mutex, where the admin thread is, and the number of broadcasts sent, of `admin_halt` calls
completed and of entries into `do_shutdown`. -/
structure AdminState where
  shutdown : Bool
  owner : Option Thread
  admin : AdminPc
  broadcasts : Nat
  halts : Nat
  shutdowns : Nat
  deriving DecidableEq, Repr

/-- The steps of the admin thread and of the callers of `admin_halt`. -/
inductive Action where
  | adminLock
  | adminTest
  | adminWait
  | adminWake
  | adminRelock
  | adminUnlock
  | adminDoShutdown
  | haltLock (id : Nat)
  | haltSection (id : Nat)
  deriving DecidableEq, Repr

/-- `pthread_cond_broadcast (&admin_control_cv)`: the admin thread, the only waiter, wakes up if
it is waiting. -/
def broadcast (s : AdminState) : AdminState :=
  { s with admin := if s.admin = .waiting then .woken else s.admin, broadcasts := s.broadcasts + 1 }

/-- Lines 344-349 of `admin_halt`, under the mutex: set the flag and broadcast if it was clear,
then unlock. -/
def haltSection (s : AdminState) : AdminState :=
  let s := if s.shutdown then s else broadcast { s with shutdown := true }
  { s with owner := none, halts := s.halts + 1 }

/-- One step; `none` when the thread is not at that point or the mutex is taken. The admin thread's
last step enters `do_shutdown`; whether that returns depends on its calls, so the model stops
there. -/
def step (s : AdminState) : Action → Option AdminState
  | .adminLock => match s.admin, s.owner with
      | .start, none => some { s with admin := .test, owner := some .admin }
      | _, _ => none
  | .adminTest => match s.admin with
      | .test => some { s with admin := if s.shutdown then .exiting else .waitCall }
      | _ => none
  | .adminWait => match s.admin with
      | .waitCall => some { s with admin := .waiting, owner := none }
      | _ => none
  | .adminWake => match s.admin with
      | .waiting => some { s with admin := .woken }
      | _ => none
  | .adminRelock => match s.admin, s.owner with
      | .woken, none => some { s with admin := .test, owner := some .admin }
      | _, _ => none
  | .adminUnlock => match s.admin with
      | .exiting => some { s with admin := .unlocked, owner := none }
      | _ => none
  | .adminDoShutdown => match s.admin with
      | .unlocked => some { s with admin := .inShutdown, shutdowns := s.shutdowns + 1 }
      | _ => none
  | .haltLock id => match s.owner with
      | none => some { s with owner := some (.halter id) }
      | some _ => none
  | .haltSection id => if s.owner = some (.halter id) then some (haltSection s) else none

/-- Before any thread runs: the flag clear, the mutex free, nobody signalled. -/
def initial : AdminState := ⟨false, none, .start, 0, 0, 0⟩

/-- Some thread takes a step. -/
def Step (s s' : AdminState) : Prop := ∃ a, step s a = some s'

/-- The states some interleaving reaches from `initial`. -/
def Reachable (s : AdminState) : Prop := Relation.ReflTransGen Step initial s

/-- The paths of `step`, one constructor each. -/
inductive AdminStep : AdminState → AdminState → Prop where
  | lock (s : AdminState) : s.admin = .start → s.owner = none →
      AdminStep s { s with admin := .test, owner := some .admin }
  | testSet (s : AdminState) : s.admin = .test → s.shutdown = true →
      AdminStep s { s with admin := .exiting }
  | testClear (s : AdminState) : s.admin = .test → s.shutdown = false →
      AdminStep s { s with admin := .waitCall }
  | wait (s : AdminState) : s.admin = .waitCall →
      AdminStep s { s with admin := .waiting, owner := none }
  | wake (s : AdminState) : s.admin = .waiting → AdminStep s { s with admin := .woken }
  | relock (s : AdminState) : s.admin = .woken → s.owner = none →
      AdminStep s { s with admin := .test, owner := some .admin }
  | unlock (s : AdminState) : s.admin = .exiting →
      AdminStep s { s with admin := .unlocked, owner := none }
  | doShutdown (s : AdminState) : s.admin = .unlocked →
      AdminStep s { s with admin := .inShutdown, shutdowns := s.shutdowns + 1 }
  | haltLock (s : AdminState) (id : Nat) : s.owner = none →
      AdminStep s { s with owner := some (.halter id) }
  | haltSet (s : AdminState) (id : Nat) : s.owner = some (.halter id) → s.shutdown = true →
      AdminStep s { s with owner := none, halts := s.halts + 1 }
  | haltSignal (s : AdminState) (id : Nat) : s.owner = some (.halter id) → s.shutdown = false →
      AdminStep s { s with
        shutdown := true, admin := if s.admin = .waiting then .woken else s.admin,
        broadcasts := s.broadcasts + 1, owner := none, halts := s.halts + 1 }

variable {s s' : AdminState}

theorem step_adminStep {a : Action} (h : step s a = some s') : AdminStep s s' := by
  cases a <;> simp only [step] at h <;> split at h <;> cases h
  case adminLock.h_1 => exact .lock s ‹_› ‹_›
  case adminTest.h_1 =>
    by_cases hs : s.shutdown = true
    · rw [if_pos hs]; exact .testSet s ‹_› hs
    · rw [if_neg hs]; exact .testClear s ‹_› (by simpa using hs)
  case adminWait.h_1 => exact .wait s ‹_›
  case adminWake.h_1 => exact .wake s ‹_›
  case adminRelock.h_1 => exact .relock s ‹_› ‹_›
  case adminUnlock.h_1 => exact .unlock s ‹_›
  case adminDoShutdown.h_1 => exact .doShutdown s ‹_›
  case haltLock.h_1 => exact .haltLock s _ ‹_›
  case haltSection.isTrue =>
    cases hs : s.shutdown
    · simpa [haltSection, broadcast, hs] using AdminStep.haltSignal s _ ‹_› hs
    · simpa [haltSection, hs] using AdminStep.haltSet s _ ‹_› hs

/-- The invariant of the reachable states. -/
structure AdminInv (s : AdminState) : Prop where
  /-- The admin thread owns the mutex exactly from locking it to waiting or unlocking. -/
  admin_owner :
    s.owner = some .admin ↔ s.admin = .test ∨ s.admin = .waitCall ∨ s.admin = .exiting
  /-- The admin thread calls `pthread_cond_wait`, and sleeps in it, only on a clear flag. -/
  wait_clear : s.admin = .waitCall ∨ s.admin = .waiting → s.shutdown = false
  /-- The admin thread leaves the loop only on a set flag. -/
  past_loop_set : s.admin = .exiting ∨ s.admin = .unlocked ∨ s.admin = .inShutdown →
    s.shutdown = true
  broadcasts_eq : s.broadcasts = if s.shutdown then 1 else 0
  halts_set : 0 < s.halts → s.shutdown = true
  shutdowns_eq : s.shutdowns = if s.admin = .inShutdown then 1 else 0

theorem AdminInv.initial : AdminInv initial where
  admin_owner := by simp [Ganesha.Admin.initial]
  wait_clear := by simp [Ganesha.Admin.initial]
  past_loop_set := by simp [Ganesha.Admin.initial]
  broadcasts_eq := rfl
  halts_set := nofun
  shutdowns_eq := rfl

/-- Every step keeps the invariant. A halt finds the admin thread away from `waitCall`, since it
owns the mutex there: so the broadcast either finds it waiting or finds it about to test. -/
theorem AdminInv.step (hi : AdminInv s) (h : AdminStep s s') : AdminInv s' := by
  obtain ⟨ho, hw, hp, hb, hh, hsd⟩ := hi
  cases h with
  | haltSignal id hid hclear =>
      by_cases hwait : s.admin = .waiting <;> constructor <;> simp_all
  | _ => constructor <;> simp_all

theorem AdminInv.reachable (h : Reachable s) : AdminInv s := by
  induction h with
  | refl => exact .initial
  | tail _ hstep ih =>
      obtain ⟨a, ha⟩ := hstep
      exact ih.step (step_adminStep ha)

/-- The flag never goes from set back to clear, in any run from any state. -/
theorem shutdown_mono (h : Relation.ReflTransGen Step s s') (hs : s.shutdown = true) :
    s'.shutdown = true := by
  induction h with
  | refl => exact hs
  | tail _ hstep ih =>
      obtain ⟨a, ha⟩ := hstep
      cases step_adminStep ha <;> simp [ih]

/-- Over every interleaving of `admin_thread` with any number of `admin_halt` calls, spurious
wakeups included: the flag never goes back; one broadcast is sent once the flag is set, however
many halts complete, and none before; `do_shutdown` is entered at most once, and only on a set
flag; and the admin thread never sleeps in `pthread_cond_wait` on a set flag, whoever owns the
mutex (so in particular not when the mutex is free). -/
theorem admin_shutdown_signalling (hs : Reachable s) :
    (∀ s', Relation.ReflTransGen Step s s' → s.shutdown = true → s'.shutdown = true) ∧
    s.broadcasts = (if s.shutdown then 1 else 0) ∧ (0 < s.halts → s.broadcasts = 1) ∧
    s.shutdowns ≤ 1 ∧
    (∀ s', step s .adminDoShutdown = some s' → s.shutdown = true ∧ s'.shutdowns = 1) ∧
    (s.shutdown = true → s.admin ≠ .waiting) := by
  have hi := AdminInv.reachable hs
  refine ⟨fun _ h => shutdown_mono h, hi.broadcasts_eq, fun hh => ?_, ?_, fun s' h => ?_,
    fun hset hwait => ?_⟩
  · simp [hi.broadcasts_eq, hi.halts_set hh]
  · rw [hi.shutdowns_eq]; split <;> omega
  · simp only [step] at h
    split at h <;> cases h
    exact ⟨hi.past_loop_set (by simp [*]), by simp [hi.shutdowns_eq, *]⟩
  · simp [hi.wait_clear (.inr hwait)] at hset

/-- Apply the steps of a schedule in turn; `none` when one is not enabled. -/
def runActions (s : AdminState) : List Action → Option AdminState
  | [] => some s
  | a :: as => (step s a).bind fun s => runActions s as

theorem runActions_reachable {as : List Action} (h : runActions s as = some s') :
    Relation.ReflTransGen Step s s' := by
  induction as generalizing s with
  | nil => cases h; exact .refl
  | cons a as ih =>
      obtain ⟨s₁, h₁, h⟩ := Option.bind_eq_some.1 h
      exact .head ⟨a, h₁⟩ (ih h)

/-- The admin thread waits, wakes up spuriously and waits again; two threads call `admin_halt`,
and the admin thread enters `do_shutdown`. -/
def twoHalts : List Action :=
  [.adminLock, .adminTest, .adminWait, .adminWake, .adminRelock, .adminTest, .adminWait,
    .haltLock 0, .haltSection 0, .haltLock 1, .haltSection 1, .adminRelock, .adminTest,
    .adminUnlock, .adminDoShutdown]

/-- Where `twoHalts` leads from `initial`. -/
def twoHaltsEnd : AdminState := (runActions initial twoHalts).getD initial

theorem twoHaltsEnd_reachable : Reachable twoHaltsEnd :=
  runActions_reachable (show runActions initial twoHalts = some twoHaltsEnd from rfl)

/-- After two halts, one broadcast has been sent. -/
theorem admin_two_halts_one_broadcast : twoHaltsEnd.halts = 2 ∧ twoHaltsEnd.broadcasts = 1 :=
  ⟨rfl, (admin_shutdown_signalling twoHaltsEnd_reachable).2.2.1 (by decide)⟩

end Ganesha.Admin
