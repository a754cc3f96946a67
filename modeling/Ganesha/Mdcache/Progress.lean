import Ganesha.Mdcache.Concurrent

/-!
# Concurrent unexports return

The loop of `mdcache_unexport` makes progress only when `mdcache_get` succeeds on the head of its
export's list (`unexport_stale_head_never_returns` is the other case). This module shows that
the concurrent unexports of `Concurrent` then neither deadlock nor run forever.

`LockInv` says who holds which lock in a reachable state: each export's `mdc_exp_lock` is held
only by its own thread, and an entry's `attr_lock` is write-held by at most one thread, from
locking it until the unlock after `first_export` is fixed. It holds under any interleaving and
any outcome of `mdcache_get`. When no entry linked to an export being unexported is unreachable
and `mdcache_get` answers as the spec says:

* some thread can always take a section until every thread returned (`exists_step`), because a
  thread holding an `attr_lock` never waits for a lock;
* every section lowers `unexportWork`, eight sections per record left and the sections of the
  current iteration not yet run (`step_work_lt`).

`unexport_concurrent_returns` puts them together: from every reachable state, every run of
sections ends within `unexportWork` sections, and it ends only once every thread returned.
-/

namespace Ganesha.Mdcache

open Finset

namespace RwLock

/-- A lock held for read by one thread. -/
def readOnce : RwLock := ⟨1, false, nofun⟩

/-- A lock held for write. -/
def written : RwLock := ⟨0, true, fun _ => rfl⟩

@[simp] theorem rdlock_unlocked : unlocked.rdlock = some readOnce := rfl
@[simp] theorem wrlock_unlocked : unlocked.wrlock = some written := rfl
@[simp] theorem wrlock_written : written.wrlock = none := rfl
@[simp] theorem unlock_readOnce : readOnce.unlock = unlocked := rfl
@[simp] theorem unlock_written : written.unlock = unlocked := rfl
@[simp] theorem unlocked_writer : unlocked.writer = false := rfl
@[simp] theorem written_ne_unlocked : written ≠ unlocked := fun h => nomatch congrArg writer h

end RwLock

/-- The state of `mdc_exp_lock` of an export whose unexport thread is at `pc`. -/
def expLockAt : Pc → RwLock
  | .scan => .readOnce
  | .expLocked _ _ => .written
  | _ => .unlocked

/-- The entry whose `attr_lock` a thread at `pc` write-holds. -/
def attrHeld : Pc → Option Nat
  | .attrLocked entry _ | .expLocked entry _ | .delisted entry _ => some entry
  | _ => none

/-- The lock state of the unexport threads in a reachable state `s`. -/
structure LockInv (s : Sys) : Prop where
  exp_lock : ∀ x, s.cache.expLock x = expLockAt (s.pc x)
  attr_held : ∀ x e, attrHeld (s.pc x) = some e → s.cache.attrLock e = .written
  attr_free : ∀ e, (∀ x, attrHeld (s.pc x) ≠ some e) → s.cache.attrLock e = .unlocked
  attr_excl : ∀ x y e, attrHeld (s.pc x) = some e → attrHeld (s.pc y) = some e → x = y

section Transition

variable {x : Nat} {c c' : Cache} {pc pc' : Pc} {evs : List Event}

theorem Transition.unreachable_eq (h : Transition x c pc c' pc' evs) :
    c'.unreachable = c.unreachable := by
  cases h with
  | tryPush h => exact (mdcacheLruCleanupTryPush_frame h).2.2.1
  | _ => simp [mdcachePut]

/-- A thread moves its own `mdc_exp_lock` from the state of its old point to that of its new
one, and no other. -/
theorem Transition.expLock_eq (h : Transition x c pc c' pc' evs)
    (hx : c.expLock x = expLockAt pc) (y : Nat) :
    c'.expLock y = if y = x then expLockAt pc' else c.expLock y := by
  split_ifs with hy
  · subst hy
    cases h with
    | tryPush h => simp_all [(mdcacheLruCleanupTryPush_frame h).2.2.2.2, expLockAt]
    | _ => simp_all [expLockAt, mdcachePut]
  · cases h with
    | tryPush h => simp [(mdcacheLruCleanupTryPush_frame h).2.2.2.2]
    | _ => simp [hy, mdcachePut]

/-- A thread write-locks the `attr_lock` of the entry it works on, and unlocks it after fixing
`first_export`; no other `attr_lock` changes. -/
theorem Transition.attrLock_eq (h : Transition x c pc c' pc' evs)
    (hheld : ∀ e, attrHeld pc = some e → c.attrLock e = .written) (e : Nat) :
    c'.attrLock e = if attrHeld pc' = some e then .written
      else if attrHeld pc = some e then .unlocked else c.attrLock e := by
  cases h with
  | attrLock hl =>
      rename_i entry _ l
      have hw : l = .written := by
        unfold RwLock.wrlock at hl
        split at hl <;> cases hl
        rfl
      rcases eq_or_ne entry e with rfl | he
      · simp [attrHeld, hw]
      · simp [attrHeld, hw, he, he.symm]
  | attrUnlockLast | attrUnlockOther =>
      rename_i entry
      rcases eq_or_ne entry e with rfl | he
      · simp_all [attrHeld]
      · simp [attrHeld, he, he.symm]
  | tryPush h => simp [(mdcacheLruCleanupTryPush_frame h).2.2.2.1, attrHeld]
  | _ => split_ifs <;> simp_all [attrHeld, mdcachePut]

/-- A thread holds an `attr_lock` either from before, or from a write lock that found it not
write-held. -/
theorem Transition.attrHeld_acquire (h : Transition x c pc c' pc' evs) {e : Nat}
    (he : attrHeld pc' = some e) : attrHeld pc = some e ∨ c.attrLock e ≠ .written := by
  cases h with
  | attrLock hl =>
      simp only [attrHeld, Option.some.injEq] at he
      subst he
      exact .inr fun hw => by simp [hw] at hl
  | expLock | unlink => exact .inl he
  | _ => simp [attrHeld] at he

end Transition

/-- Unexporting makes no entry unreachable. -/
theorem Reachable.unreachable_eq {s₀ s : Sys} (h : Reachable s₀ s) :
    s.cache.unreachable = s₀.cache.unreachable := by
  induction h with
  | refl => rfl
  | tail _ hstep ih =>
      obtain ⟨x, c', pc', evs, ht, rfl⟩ := hstep.transition
      exact ht.unreachable_eq.trans ih

/-- The sections left in the current iteration of a thread at `pc`, weighted so that every
section lowers `unexportWork`: the critical section removes a record, worth eight. -/
def Pc.work : Pc → Nat
  | .loop => 4
  | .scan => 3
  | .referenced _ _ => 2
  | .attrLocked _ _ => 1
  | .expLocked _ _ => 0
  | .delisted _ _ => 7
  | .pushing _ => 6
  | .putting _ => 5
  | .done => 0

/-- Every section but a STALE skip lowers the thread's work: eight per record on its export's
list, and the rest of its current iteration. -/
theorem Transition.work_lt (h : Transition x c pc c' pc' evs)
    (hpend : ∀ e m, pendingRecord pc = some (e, m) →
      (c.map.expmap m).exp = x ∧ m ∈ c.map.entryList x)
    (hstale : pc = .scan → pc' ≠ .loop) :
    8 * (c'.map.entryList x).length + pc'.work < 8 * (c.map.entryList x).length + pc.work := by
  cases h with
  | stale => exact absurd rfl (hstale rfl)
  | unlink =>
      obtain ⟨hx, hm⟩ := hpend _ _ rfl
      have hpos := List.length_pos_of_mem hm
      simp only [Cache.setExpLock_map, delist_entryList, mdcRemoveExportMap_entryList,
        if_pos hx.symm, List.length_erase_of_mem hm, Pc.work]
      omega
  | tryPush h => simp [(mdcacheLruCleanupTryPush_frame h).1, Pc.work]
  | _ => simp [Pc.work, mdcachePut]

/-- At the start every thread is at the top of its loop or has no work. -/
theorem Initial.pc_eq {xs : Finset Nat} {s : Sys} (h₀ : Initial xs s) (x : Nat) :
    s.pc x = .loop ∨ s.pc x = .done := by
  rw [h₀ x]
  split
  exacts [.inl rfl, .inr rfl]

/-- No lock is held at the start. -/
theorem LockInv.initial {xs : Finset Nat} {s₀ : Sys} (h₀ : Initial xs s₀)
    (hexp : ∀ x, s₀.cache.expLock x = .unlocked)
    (hattr : ∀ e, s₀.cache.attrLock e = .unlocked) : LockInv s₀ where
  exp_lock x := by rcases h₀.pc_eq x with h | h <;> simp [h, hexp, expLockAt]
  attr_held x e h := by rcases h₀.pc_eq x with h' | h' <;> simp [h', attrHeld] at h
  attr_free e _ := hattr e
  attr_excl x _ e h := by rcases h₀.pc_eq x with h' | h' <;> simp [h', attrHeld] at h

/-- Every interleaved section, whatever its `mdcache_get` answers, keeps the lock state. -/
theorem LockInv.step {s s' : Sys} (hl : LockInv s) (hstep : Step s s') :
    LockInv s' := by
  obtain ⟨x, c', pc', evs, ht, rfl⟩ := hstep.transition
  have hattr := ht.attrLock_eq (hl.attr_held x)
  refine ⟨fun y => ?_, fun y e hy => ?_,
    fun e hfree => ?_, fun y z e hy hz => ?_⟩ <;> dsimp only at *
  · rw [ht.expLock_eq (hl.exp_lock x) y]
    by_cases hyx : y = x
    · subst hyx; simp
    · simp [hyx, hl.exp_lock y]
  · rw [hattr e]
    rcases update_pc_cases (attrHeld · = some e) hy with ⟨-, hx⟩ | ⟨hyx, hy⟩
    · simp [hx]
    · split_ifs with h₁ h₂
      · rfl
      · exact absurd (hl.attr_excl x y e h₂ hy) (Ne.symm hyx)
      · exact hl.attr_held y e hy
  · have hx := hfree x
    simp only [Function.update_same] at hx
    rw [hattr e, if_neg hx]
    split_ifs with h₂
    · rfl
    · refine hl.attr_free e fun y hy => ?_
      by_cases hyx : y = x
      · subst hyx; exact h₂ hy
      · exact hfree y (by rwa [Function.update_noteq hyx])
  · -- a new holder of `e` found its lock not write-held, so nobody held it
    have hnew : ∀ z ≠ x, attrHeld pc' = some e → attrHeld (s.pc z) = some e → False :=
      fun z hzx hx hz => by
        rcases ht.attrHeld_acquire hx with hold | hfree
        · exact hzx (hl.attr_excl z x e hz hold)
        · exact hfree (hl.attr_held z e hz)
    rcases update_pc_cases (attrHeld · = some e) hy with ⟨rfl, hy'⟩ | ⟨hyx, hy'⟩ <;>
      rcases update_pc_cases (attrHeld · = some e) hz with ⟨rfl, hz'⟩ | ⟨hzx, hz'⟩
    · rfl
    · exact (hnew z hzx hy' hz').elim
    · exact (hnew y hyx hz' hy').elim
    · exact hl.attr_excl y z e hy' hz'

/-- The lock state holds in every state the interleavings reach. -/
theorem LockInv.reachable {xs : Finset Nat} {s₀ s : Sys} (h₀ : Initial xs s₀)
    (hexp : ∀ x, s₀.cache.expLock x = .unlocked)
    (hattr : ∀ e, s₀.cache.attrLock e = .unlocked) (hrun : Reachable s₀ s) :
    LockInv s := by
  induction hrun with
  | refl => exact .initial h₀ hexp hattr
  | tail _ hstep ih => exact ih.step hstep

/-! ## Progress -/

/-- No entry linked to an export of `xs` is unreachable. -/
def LinkedLive (xs : Finset Nat) (c : Cache) : Prop :=
  ∀ x ∈ xs, ∀ m ∈ c.map.entryList x, c.unreachable (c.map.expmap m).entry = false

/-- A section of some thread in which `mdcache_get` answers as the spec says. -/
def SpecStep (s s' : Sys) : Prop := ∃ x, s.step (getStatus s.cache) x = some s'

/-- What the unexport threads of `xs` have left to do. -/
def unexportWork (xs : Finset Nat) (s : Sys) : Nat :=
  ∑ x ∈ xs, (8 * (s.cache.map.entryList x).length + (s.pc x).work)

section Progress

variable {xs : Finset Nat} {s₀ s : Sys}

/-- In a reachable state `mdcache_get` succeeds on every entry still linked to an export of
`xs`. -/
theorem getStatus_linked (hrun : Reachable s₀ s) (hu : UnexportInv xs s₀ s)
    (hmap : MapInv s₀.cache.map) (hlive : LinkedLive xs s₀.cache) {x m : Nat} (hx : x ∈ xs)
    (hm : m ∈ s.cache.map.entryList x) :
    getStatus s.cache (s.cache.map.expmap m).entry = .ok := by
  have h := hlive x hx m (hu.frame.mem_entryList hmap hm)
  simp [getStatus, hrun.unreachable_eq, hu.frame.expmap_eq, h]

/-- Until every thread returned, some thread can take a section: a thread that holds an
`attr_lock` waits for no lock, and when none is held, no thread waits. -/
theorem exists_step (hl : LockInv s) (hnot : ¬AllReturned xs s) :
    ∃ s', SpecStep s s' := by
  suffices ∃ x, (unexportStep (getStatus s.cache) x s.cache (s.pc x)).isSome by
    obtain ⟨x, hx⟩ := this
    obtain ⟨r, hr⟩ := Option.isSome_iff_exists.1 hx
    exact ⟨⟨r.1, Function.update s.pc x r.2.1⟩, x, by simp [Sys.step, hr]⟩
  by_cases hheld : ∃ y e, attrHeld (s.pc y) = some e
  · -- the holder of an `attr_lock` waits for no lock
    obtain ⟨y, e, hy⟩ := hheld
    refine ⟨y, ?_⟩
    have hexp := hl.exp_lock y
    cases hpc : s.pc y with
    | attrLocked entry m =>
        simp [unexportStep, hexp, hpc, expLockAt, RwLock.wrlock, RwLock.unlocked]
    | expLocked entry m => simp only [unexportStep]; split <;> rfl
    | delisted entry last => rfl
    | _ => simp [hpc, attrHeld] at hy
  · -- no `attr_lock` is held, so a thread that has not returned waits for no lock
    simp only [not_exists] at hheld
    obtain ⟨x, -, hdone⟩ := not_forall₂.1 hnot
    refine ⟨x, ?_⟩
    have hexp := hl.exp_lock x
    have hattr := fun e => hl.attr_free e fun y => hheld y e
    cases hpc : s.pc x with
    | loop => simp [unexportStep, hexp, hpc, expLockAt, RwLock.rdlock]
    | scan =>
        simp only [unexportStep]
        split
        · rfl
        · split <;> rfl
    | referenced entry m => simp [unexportStep, hattr entry, RwLock.wrlock, RwLock.unlocked]
    | pushing entry =>
        simp only [unexportStep, mdcacheLruCleanupTryPush, hattr entry, RwLock.unlocked,
          Bool.false_eq_true, if_false]
        split <;> rfl
    | putting entry => rfl
    | done => exact absurd hpc hdone
    | attrLocked entry m | expLocked entry m | delisted entry last =>
        exact absurd (by simp [hpc, attrHeld]) (hheld x entry)

/-- Every section in which `mdcache_get` answers as the spec says lowers the work left: the
thread's own, while the other threads' lists and points stay as they were. -/
theorem step_work_lt (hrun : Reachable s₀ s) (hu : UnexportInv xs s₀ s)
    (hmap : MapInv s₀.cache.map) (hlive : LinkedLive xs s₀.cache) {s' : Sys}
    (h : SpecStep s s') :
    unexportWork xs s' < unexportWork xs s := by
  obtain ⟨x, h⟩ := h
  obtain ⟨⟨c', pc', evs⟩, hs, rfl⟩ := Option.map_eq_some'.1 h
  have ht := unexportStep_transition hs
  have hx : x ∈ xs := by_contra fun h => ht.ne_done (hu.idle x h)
  -- the head of the list gets a reference, so the thread does not go back to the top
  have hstale : s.pc x = .scan → pc' ≠ .loop := by
    intro hscan hloop
    rw [hscan, hloop] at hs
    simp only [unexportStep] at hs
    split at hs
    · cases hs
    · rename_i m rest hhead
      rw [getStatus_linked hrun hu hmap hlive hx (by simp [hhead])] at hs
      cases hs
  have hlt :=
    ht.work_lt (fun e m hp => ⟨(hu.pending x e m hp).2, hu.pending_mem x e m hp⟩) hstale
  have hlist := ht.entryList_eq fun e m hp => (hu.pending x e m hp).2
  have hrest : ∑ y ∈ xs.erase x, (8 * (c'.map.entryList y).length +
      (Function.update s.pc x pc' y).work) =
      ∑ y ∈ xs.erase x, (8 * (s.cache.map.entryList y).length + (s.pc y).work) :=
    sum_congr rfl fun y hy => by
      have hyx := ne_of_mem_erase hy
      rcases hlist y with hsame | ⟨hyx', -⟩
      · rw [hsame, Function.update_noteq hyx]
      · exact absurd hyx' hyx
  simp only [unexportWork, ← add_sum_erase xs _ hx, hrest, Function.update_same]
  omega

end Progress

/-- From a state where the exports `xs` are being unexported, no lock is held, the export-map
invariant holds and no entry linked to an export of `xs` is unreachable, every state reached by
any interleaving, with any outcomes of `mdcache_get`, is one from which the threads return when
`mdcache_get` answers as the spec says: until every thread returned some thread can take a
section (no deadlock), every section lowers `unexportWork` (so every run of sections is finite),
and some run ends with every thread returned. -/
theorem unexport_concurrent_returns {xs : Finset Nat} {s₀ s : Sys} (h₀ : Initial xs s₀)
    (hmap : MapInv s₀.cache.map) (hexp : ∀ x, s₀.cache.expLock x = .unlocked)
    (hattr : ∀ e, s₀.cache.attrLock e = .unlocked) (hlive : LinkedLive xs s₀.cache)
    (hrun : Reachable s₀ s) :
    (¬AllReturned xs s → ∃ s', SpecStep s s') ∧
    (∀ s', SpecStep s s' → unexportWork xs s' < unexportWork xs s) ∧
    ∃ s', Relation.ReflTransGen SpecStep s s' ∧ AllReturned xs s' := by
  have hinv : ∀ {s}, Reachable s₀ s → UnexportInv xs s₀ s ∧ LockInv s := fun h =>
    ⟨.reachable h₀ hmap h, .reachable h₀ hexp hattr h⟩
  refine ⟨exists_step (hinv hrun).2,
    fun s' => step_work_lt hrun (hinv hrun).1 hmap hlive, ?_⟩
  obtain ⟨n, hn⟩ : ∃ n, unexportWork xs s = n := ⟨_, rfl⟩
  induction n using Nat.strongRecOn generalizing s with
  | _ n ih =>
      by_cases hdone : AllReturned xs s
      · exact ⟨s, .refl, hdone⟩
      obtain ⟨s₁, h₁⟩ := exists_step (hinv hrun).2 hdone
      have hlt := step_work_lt hrun (hinv hrun).1 hmap hlive h₁
      obtain ⟨x, hx⟩ := h₁
      obtain ⟨s', hrun', hdone'⟩ := ih _ (hn ▸ hlt) (hrun.tail ⟨x, _, hx⟩) rfl
      exact ⟨s', .head ⟨x, hx⟩ hrun', hdone'⟩

/-- The unexports of exports `0` and `1` from `sharedEntry` return. -/
theorem unexport_concurrent_returns_shared_entry :
    ∃ s', Relation.ReflTransGen SpecStep sharedStart s' ∧ AllReturned {0, 1} s' :=
  (unexport_concurrent_returns (fun _ => rfl) sharedEntry_map_inv (fun _ => rfl) (fun _ => rfl)
    (fun _ _ _ _ => rfl) .refl).2.2

end Ganesha.Mdcache
