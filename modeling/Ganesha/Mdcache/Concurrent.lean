import Mathlib.Algebra.Order.BigOperators.Group.Finset
import Ganesha.Mdcache.Discipline

/-!
# Concurrent unexports

Any number of exports are unexported at once, one `mdcache_unexport` thread per export, their
atomic sections interleaved in any order and every `mdcache_get` answering anything. `Sys` holds
the shared cache and each thread's program point; an export nobody unexports sits at `done`.

The invariant `UnexportInv` relates every reachable state to the initial one: the export map
keeps `MapInv`; the lists only lose records of exports being unexported, and keep the others in
their order; a record a thread is about to unlink is its own and still on its list; an entry
whose list changed has `first_export` at its new head, and any other keeps its `first_export`; a
thread that returned left its list empty. From it,
`unexport_concurrent_export_map` gives the final state of the map when all threads returned.

`refcnt_eq_holders` is the reference count: an entry's count is its initial count plus the
number of threads holding a reference on it.
-/

namespace Ganesha.Mdcache

open Finset

/-- The shared cache and the program point of the unexport thread of each export. -/
structure Sys where
  cache : Cache
  pc : Nat → Pc

/-- One section of the thread unexporting `x`, `get` giving the outcome of its `mdcache_get`. -/
def Sys.step (get : Nat → FsalStatus) (x : Nat) (s : Sys) : Option Sys :=
  (unexportStep get x s.cache (s.pc x)).map fun r => ⟨r.1, Function.update s.pc x r.2.1⟩

/-- Some thread takes one section, whatever its `mdcache_get` answers. -/
def Step (s s' : Sys) : Prop := ∃ x get, s.step get x = some s'

/-- The states reachable by interleaving the threads' sections. -/
abbrev Reachable : Sys → Sys → Prop := Relation.ReflTransGen Step

/-- The exports `xs` are being unexported, each thread at the top of its loop; no other export
has a thread. -/
def Initial (xs : Finset Nat) (s : Sys) : Prop :=
  ∀ x, s.pc x = if x ∈ xs then .loop else .done

/-- Every unexport thread of `xs` has returned. -/
def AllReturned (xs : Finset Nat) (s : Sys) : Prop := ∀ x ∈ xs, s.pc x = .done

instance (xs : Finset Nat) (s : Sys) : Decidable (AllReturned xs s) :=
  inferInstanceAs (Decidable (∀ x ∈ xs, s.pc x = .done))

/-- The record a thread has read off its export's list and will unlink, with its entry. -/
def pendingRecord : Pc → Option (Nat × Nat)
  | .referenced entry m | .attrLocked entry m | .expLocked entry m => some (entry, m)
  | _ => none

/-- Run the threads one section at a time in the order `schedule`. -/
def Sys.schedule (get : Nat → FsalStatus) : List Nat → Sys → Option Sys
  | [], s => some s
  | x :: rest, s => (s.step get x).bind (Sys.schedule get rest)

theorem reachable_of_schedule {get : Nat → FsalStatus} :
    ∀ {sched : List Nat} {s s' : Sys}, s.schedule get sched = some s' → Reachable s s'
  | [], _, _, h => by cases h; exact .refl
  | x :: _, _, _, h => by
      obtain ⟨s₁, h₁, h₂⟩ := Option.bind_eq_some.1 h
      exact .head ⟨x, get, h₁⟩ (reachable_of_schedule h₂)

/-- Each thread's share of an interleaved run is one of its runs, the other threads' sections
being interference. -/
theorem Reachable.threadRun {s s' : Sys} (h : Reachable s s') (x : Nat) :
    ∃ evs, ThreadRun x (s.pc x) evs (s'.pc x) := by
  induction h using Relation.ReflTransGen.head_induction_on with
  | refl => exact ⟨[], .refl _⟩
  | head hstep _ ih =>
      obtain ⟨evs, hrun⟩ := ih
      obtain ⟨y, get, hy⟩ := hstep
      obtain ⟨⟨c', pc', evs'⟩, hs, rfl⟩ := Option.map_eq_some'.1 hy
      by_cases hxy : x = y
      · subst hxy
        exact ⟨evs' ++ evs, .step hs (by simpa using hrun)⟩
      · exact ⟨evs, by simpa [Function.update_noteq hxy] using hrun⟩

/-- Exports `0` and `1` being unexported from `sharedEntry`, both threads at the top of their
loops. -/
def sharedStart : Sys :=
  ⟨sharedEntry, fun x => if x ∈ ({0, 1} : Finset Nat) then .loop else .done⟩

/-- Both threads read their heads before either locks the entry; export `0` finishes first. -/
def sharedSchedule : List Nat := [0, 1, 0, 1, 0, 0, 0, 0, 0, 0, 0, 1, 1, 1, 1, 1, 1, 1, 1]

/-- Where `sharedSchedule` leads from `sharedStart`, every `mdcache_get` answering OK. -/
def sharedEnd : Sys := (sharedStart.schedule (fun _ => .ok) sharedSchedule).getD sharedStart

theorem sharedStart_reaches_sharedEnd : Reachable sharedStart sharedEnd :=
  reachable_of_schedule (show sharedStart.schedule (fun _ => .ok) sharedSchedule = some sharedEnd
    from rfl)

theorem sharedEnd_returned : AllReturned {0, 1} sharedEnd := by decide

/-- A step of the system is a `Transition` of one thread, the others standing still. -/
theorem Step.transition {s s' : Sys} (h : Step s s') :
    ∃ x c' pc' evs, Transition x s.cache (s.pc x) c' pc' evs ∧
      s' = ⟨c', Function.update s.pc x pc'⟩ := by
  obtain ⟨x, get, h⟩ := h
  obtain ⟨⟨c', pc', evs⟩, hstep, rfl⟩ := Option.map_eq_some'.1 h
  exact ⟨x, c', pc', evs, unexportStep_transition hstep, rfl⟩

/-- After a section of thread `x`, a thread is at the point `x` moved to if it is `x`, and where
it was otherwise. -/
theorem update_pc_cases (P : Pc → Prop) {pcs : Nat → Pc} {x y : Nat} {pc' : Pc}
    (h : P (Function.update pcs x pc' y)) : (y = x ∧ P pc') ∨ (y ≠ x ∧ P (pcs y)) := by
  by_cases hyx : y = x
  · subst hyx; exact .inl ⟨rfl, by simpa using h⟩
  · exact .inr ⟨hyx, by rwa [Function.update_noteq hyx] at h⟩

@[simp] theorem mdcacheGet_setExpLock_map (c : Cache) (e x : Nat) (st : FsalStatus)
    (l : RwLock) : ((mdcacheGet c e st).setExpLock x l).map = c.map := by
  simp

/-- Only the critical section changes the export map, and it delists a record. -/
theorem Transition.map_eq_or_delist {x : Nat} {c c' : Cache} {pc pc' : Pc} {evs : List Event}
    (h : Transition x c pc c' pc' evs) :
    c'.map = c.map ∨ ∃ e m, pc = .expLocked e m ∧ c'.map = delist c.map e m := by
  cases h with
  | unlink => exact .inr ⟨_, _, rfl, rfl⟩
  | tryPush h => exact .inl (mdcacheLruCleanupTryPush_frame h).1
  | _ => exact .inl (by simp [mdcachePut])

/-- A transition moves a reference between the count and the thread: the count plus the thread's
reference on `e` is the same before and after. -/
theorem Transition.refcnt_conserved {x : Nat} {c c' : Cache} {pc pc' : Pc} {evs : List Event}
    (h : Transition x c pc c' pc' evs) (e : Nat)
    (hpos : heldRef pc = some e → 1 ≤ c.refcnt e) :
    c'.refcnt e + (if heldRef pc = some e then 1 else 0) =
      c.refcnt e + (if heldRef pc' = some e then 1 else 0) := by
  cases h with
  | referenced =>
      simp only [heldRef, mdcacheGet, Cache.setExpLock_refcnt, Cache.setRefcnt_refcnt]
      split_ifs <;> simp_all
  | put =>
      simp only [heldRef, mdcachePut, Cache.setRefcnt_refcnt] at hpos ⊢
      split_ifs <;> simp_all
  | tryPush h => simp [heldRef, (mdcacheLruCleanupTryPush_frame h).2.1]
  | _ => simp [heldRef]

/-- No transition leaves `done`. -/
theorem Transition.ne_done {x : Nat} {c c' : Cache} {pc pc' : Pc} {evs : List Event}
    (h : Transition x c pc c' pc' evs) : pc ≠ .done := by
  cases h <;> nofun

/-- A thread returns only after finding its export's list empty, and returning leaves the map
alone. -/
theorem Transition.to_done {x : Nat} {c c' : Cache} {pc : Pc} {evs : List Event}
    (h : Transition x c pc c' .done evs) : c.map.entryList x = [] ∧ c'.map = c.map := by
  cases h with
  | empty h => exact ⟨h, rfl⟩

/-- A thread's pending record is the head it read off its own export's list, carried from the
point where it took the reference. -/
theorem Transition.pendingRecord_eq {x : Nat} {c c' : Cache} {pc pc' : Pc} {evs : List Event}
    (h : Transition x c pc c' pc' evs) {e m : Nat} (hp : pendingRecord pc' = some (e, m)) :
    pendingRecord pc = some (e, m) ∨
      ((∃ rest, c.map.entryList x = m :: rest) ∧ (c.map.expmap m).entry = e) := by
  cases h with
  | referenced hl =>
      simp only [pendingRecord, Option.some.injEq, Prod.mk.injEq] at hp
      obtain ⟨rfl, rfl⟩ := hp
      exact .inr ⟨⟨_, hl⟩, rfl⟩
  | _ => simp_all [pendingRecord]

/-- Only the critical section changes a list of an export: it removes the thread's pending
record from its own list, and leaves the thread with no pending record. -/
theorem Transition.entryList_eq {x : Nat} {c c' : Cache} {pc pc' : Pc} {evs : List Event}
    (h : Transition x c pc c' pc' evs)
    (hpend : ∀ e m, pendingRecord pc = some (e, m) → (c.map.expmap m).exp = x) (y : Nat) :
    c'.map.entryList y = c.map.entryList y ∨
      y = x ∧ pendingRecord pc' = none ∧
        ∃ e m, pc = .expLocked e m ∧ c'.map.entryList y = (c.map.entryList y).erase m := by
  rcases h.map_eq_or_delist with hm | ⟨e, m, rfl, hm⟩
  · exact .inl (by rw [hm])
  · have hx := hpend e m rfl
    have hpc' : pendingRecord pc' = none := by cases h; rfl
    rw [hm, delist_entryList, mdcRemoveExportMap_entryList]
    by_cases hy : y = x
    · exact .inr ⟨hy, hpc', e, m, rfl, by rw [if_pos (hx ▸ hy)]⟩
    · exact .inl (if_neg (hx ▸ hy))

/-- The invariant of the concurrent unexports of `xs`, relating a reachable state `s` to the
initial state `s₀`. -/
structure UnexportInv (xs : Finset Nat) (s₀ s : Sys) : Prop where
  frame : MapFrame xs s₀.cache.map s.cache.map
  idle : ∀ x ∉ xs, s.pc x = .done
  returned : ∀ x ∈ xs, s.pc x = .done → s.cache.map.entryList x = []
  pending : ∀ x e m, pendingRecord (s.pc x) = some (e, m) →
    (s.cache.map.expmap m).entry = e ∧ (s.cache.map.expmap m).exp = x
  /-- A thread's pending record is still on its export's list: only the thread removes it. -/
  pending_mem : ∀ x e m, pendingRecord (s.pc x) = some (e, m) → m ∈ s.cache.map.entryList x

theorem UnexportInv.initial {xs : Finset Nat} {s₀ : Sys} (h₀ : Initial xs s₀)
    (hmap : MapInv s₀.cache.map) : UnexportInv xs s₀ s₀ where
  frame := .refl hmap
  idle x hx := by simp [h₀ x, hx]
  returned x hx hdone := by simp [h₀ x, hx] at hdone
  pending x e m hp := by
    by_cases hx : x ∈ xs <;> simp [h₀ x, hx, pendingRecord] at hp
  pending_mem x e m hp := by
    by_cases hx : x ∈ xs <;> simp [h₀ x, hx, pendingRecord] at hp

/-- Every interleaved section keeps the invariant. -/
theorem UnexportInv.step {xs : Finset Nat} {s₀ s s' : Sys} (hinv : UnexportInv xs s₀ s)
    (hstep : Step s s') : UnexportInv xs s₀ s' := by
  obtain ⟨x, c', pc', evs, ht, rfl⟩ := hstep.transition
  have hx : x ∈ xs := by_contra fun h => ht.ne_done (hinv.idle x h)
  have hmap := hinv.frame.map_inv
  -- the map changes only by delisting the thread's own pending record, which is linked
  have hdelist : c'.map = s.cache.map ∨ ∃ e m, c'.map = delist s.cache.map e m ∧
      (s.cache.map.expmap m).entry = e ∧ (s.cache.map.expmap m).exp = x ∧
      m ∈ s.cache.map.entryList x := by
    refine ht.map_eq_or_delist.imp_right ?_
    rintro ⟨e, m, hpc, h⟩
    have hp : pendingRecord (s.pc x) = some (e, m) := by simp [hpc, pendingRecord]
    exact ⟨e, m, h, (hinv.pending x e m hp).1, (hinv.pending x e m hp).2,
      hinv.pending_mem x e m hp⟩
  have hexpmap : c'.map.expmap = s.cache.map.expmap := by
    rcases hdelist with h | ⟨e, m, h, -⟩ <;> rw [h]; rfl
  have hlist := ht.entryList_eq fun e m h => (hinv.pending x e m h).2
  refine ⟨?_, fun y hy => ?_, fun y hy hdone => ?_, fun y e m hp => ?_, fun y e m hp => ?_⟩
  · rcases hdelist with h | ⟨e, m, h, he, hm, hmem⟩
    · exact h ▸ hinv.frame
    · have hlinked := (hmap.linked_both m).2 (hm ▸ hmem)
      exact h ▸ hinv.frame.delist he (hm ▸ hx) (he ▸ hlinked)
  · have hne : y ≠ x := fun h => hy (h ▸ hx)
    simpa [Function.update_noteq hne] using hinv.idle y hy
  · rcases update_pc_cases (· = .done) hdone with ⟨rfl, rfl⟩ | ⟨hxy, hdone'⟩
    · obtain ⟨hempty, hmap'⟩ := ht.to_done
      simpa [hmap'] using hempty
    · rcases hlist y with hsame | ⟨hyx, -⟩
      · simpa [hsame] using hinv.returned y hy hdone'
      · exact absurd hyx hxy
  · simp only [hexpmap]
    rcases update_pc_cases (pendingRecord · = some (e, m)) hp with ⟨rfl, hp'⟩ | ⟨-, hp'⟩
    · rcases ht.pendingRecord_eq hp' with hold | ⟨⟨rest, hl⟩, he⟩
      · exact hinv.pending y e m hold
      · exact ⟨he, hmap.entry_list_exp y m (by simp [hl])⟩
    · exact hinv.pending y e m hp'
  · rcases update_pc_cases (pendingRecord · = some (e, m)) hp with ⟨rfl, hp'⟩ | ⟨hyx, hp'⟩ <;>
      rcases hlist y with hsame | ⟨hy, hnone, -⟩
    · rw [hsame]
      rcases ht.pendingRecord_eq hp' with hold | ⟨⟨rest, hhead⟩, -⟩
      · exact hinv.pending_mem y e m hold
      · simp [hhead]
    · simp [hnone] at hp'
    · exact hsame ▸ hinv.pending_mem y e m hp'
    · exact absurd hy hyx

/-- The invariant holds in every state the interleavings reach. -/
theorem UnexportInv.reachable {xs : Finset Nat} {s₀ s : Sys} (h₀ : Initial xs s₀)
    (hmap : MapInv s₀.cache.map) (hrun : Reachable s₀ s) : UnexportInv xs s₀ s := by
  induction hrun with
  | refl => exact .initial h₀ hmap
  | tail _ hstep ih => exact ih.step hstep

/-- Any number of exports `xs` unexported at once, their sections interleaved in any order and
every `mdcache_get` answering anything, from a state satisfying the export-map invariant:
(a) the invariant holds in every reachable state; (c) the records of every other export stay
linked on both lists, in their order, and lists only lose records; and once every thread has
returned, (b) no list of an export in `xs` and no entry's list holds a record of `xs`, and
(d) every entry that had a record of `xs` has `first_export` null exactly when its list is
empty, and otherwise at an export outside `xs` it still has a record of. -/
theorem unexport_concurrent_export_map {xs : Finset Nat} {s₀ s : Sys} (h₀ : Initial xs s₀)
    (hmap : MapInv s₀.cache.map) (hrun : Reachable s₀ s) :
    MapInv s.cache.map ∧
    (∀ e, (s.cache.map.exportList e).Sublist (s₀.cache.map.exportList e) ∧
      (s.cache.map.exportList e).filter (keptRecord xs s₀.cache.map) =
        (s₀.cache.map.exportList e).filter (keptRecord xs s₀.cache.map)) ∧
    (∀ y ∉ xs, s.cache.map.entryList y = s₀.cache.map.entryList y) ∧
    (AllReturned xs s →
      (∀ x ∈ xs, s.cache.map.entryList x = []) ∧
      (∀ e m, m ∈ s.cache.map.exportList e → (s.cache.map.expmap m).exp ∉ xs) ∧
      (∀ e, (∃ m ∈ s₀.cache.map.exportList e, (s₀.cache.map.expmap m).exp ∈ xs) →
        (s.cache.map.firstExport e = none ↔ s.cache.map.exportList e = []) ∧
        ∀ y, s.cache.map.firstExport e = some y →
          y ∉ xs ∧ ∃ m ∈ s.cache.map.exportList e, (s.cache.map.expmap m).exp = y)) := by
  have hinv := UnexportInv.reachable h₀ hmap hrun
  have hf := hinv.frame
  refine ⟨hf.map_inv, fun e => ⟨hf.export_list_sublist e, hf.export_list_kept e⟩,
    hf.entry_list_kept, fun hdone => ?_⟩
  have hempty : ∀ x ∈ xs, s.cache.map.entryList x = [] :=
    fun x hx => hinv.returned x hx (hdone x hx)
  -- no record of `xs` is left on any entry's list
  have hgone : ∀ e m, m ∈ s.cache.map.exportList e → (s.cache.map.expmap m).exp ∉ xs := by
    intro e m hm hx
    have hlinked := (hf.map_inv.linked_both m).1 (hf.map_inv.export_list_entry e m hm ▸ hm)
    simp [hempty _ hx] at hlinked
  refine ⟨hempty, hgone, fun e ⟨m, hm₀, hmx⟩ => ?_⟩
  -- the entry lost its record `m`, so its `first_export` was set to its head
  have hhead : s.cache.map.firstExport e = headExport s.cache.map e := by
    refine ((hf.first_export e).resolve_left fun ⟨hsame, _⟩ => ?_).2
    exact hgone e m (hsame ▸ hm₀) (hf.expmap_eq ▸ hmx)
  rw [hhead]
  refine ⟨headExport_eq_none, fun y hy => ?_⟩
  cases hl : s.cache.map.exportList e with
  | nil => simp [headExport, hl] at hy
  | cons m' rest =>
      simp only [headExport, hl, List.head?_cons, Option.map_some', Option.some.injEq] at hy
      subst hy
      exact ⟨hgone e m' (by simp [hl]), m', by simp [hl], rfl⟩

/-- Both unexports of the shared entry return with the export map consistent and both exports'
lists empty. -/
theorem unexport_concurrent_shared_entry :
    MapInv sharedEnd.cache.map ∧ sharedEnd.cache.map.entryList 0 = [] ∧
      sharedEnd.cache.map.entryList 1 = [] := by
  have h := unexport_concurrent_export_map (fun _ => rfl : Initial {0, 1} sharedStart)
    sharedEntry_map_inv sharedStart_reaches_sharedEnd
  have hb := (h.2.2.2 sharedEnd_returned).1
  exact ⟨h.1, hb 0 (by simp), hb 1 (by simp)⟩

/-! ## Reference counts -/

/-- The number of unexport threads of `xs` that hold a reference on `e`. -/
def holders (xs : Finset Nat) (s : Sys) (e : Nat) : Nat :=
  ∑ x ∈ xs, if heldRef (s.pc x) = some e then 1 else 0

/-- Moving one thread to `pc'` changes the holders of `e` by that thread's reference only. -/
theorem holders_update {xs : Finset Nat} {x : Nat} (hx : x ∈ xs) (s : Sys) (c' : Cache)
    (pc' : Pc) (e : Nat) :
    holders xs ⟨c', Function.update s.pc x pc'⟩ e +
        (if heldRef (s.pc x) = some e then 1 else 0) =
      holders xs s e + (if heldRef pc' = some e then 1 else 0) := by
  have hrest :
      ∑ y ∈ xs.erase x, (if heldRef (Function.update s.pc x pc' y) = some e then 1 else 0) =
        ∑ y ∈ xs.erase x, (if heldRef (s.pc y) = some e then 1 else 0) :=
    sum_congr rfl fun y hy => by rw [Function.update_noteq (ne_of_mem_erase hy)]
  simp only [holders, ← add_sum_erase xs _ hx, hrest, Function.update_same]
  omega

/-- A thread holding a reference on `e` is counted among its holders. -/
theorem one_le_holders {xs : Finset Nat} {x : Nat} (hx : x ∈ xs) {s : Sys} {e : Nat}
    (h : heldRef (s.pc x) = some e) : 1 ≤ holders xs s e := by
  have := single_le_sum (f := fun y => if heldRef (s.pc y) = some e then 1 else 0)
    (fun _ _ => Nat.zero_le _) hx
  simp only [h, if_true] at this
  exact this

/-- In every reachable state each entry's count is its initial count plus its holders. -/
theorem refcnt_eq_holders {xs : Finset Nat} {s₀ s : Sys} (h₀ : Initial xs s₀)
    (hrun : Reachable s₀ s) :
    (∀ x ∉ xs, s.pc x = .done) ∧
      ∀ e, s.cache.refcnt e = s₀.cache.refcnt e + holders xs s e := by
  induction hrun with
  | refl =>
      refine ⟨fun x hx => by simp [h₀ x, hx], fun e => ?_⟩
      have : holders xs s₀ e = 0 :=
        sum_eq_zero fun x hx => by simp [h₀ x, hx, heldRef]
      omega
  | tail _ hstep ih =>
      obtain ⟨hidle, hcount⟩ := ih
      obtain ⟨x, c', pc', evs, ht, rfl⟩ := hstep.transition
      have hx : x ∈ xs := by_contra fun h => ht.ne_done (hidle x h)
      refine ⟨fun y hy => ?_, fun e => ?_⟩
      · simpa [Function.update_noteq (show y ≠ x from fun h => hy (h ▸ hx))] using hidle y hy
      · rename_i s _
        have hpos : heldRef (s.pc x) = some e → 1 ≤ s.cache.refcnt e := fun h => by
          have := one_le_holders hx h
          have := hcount e
          omega
        have hc := ht.refcnt_conserved e hpos
        have hh := holders_update hx s c' pc' e
        have := hcount e
        show c'.refcnt e = _
        omega

/-- In every run of `mdcache_unexport`, with any interleaving of any number of unexports and any
outcome of `mdcache_get`: the thread's events pair each successful `mdcache_get` with exactly one
`mdcache_put` of the same entry before the iteration ends, and a STALE one with none; an entry's
count is its initial count plus the number of threads holding a reference on it, so it never
drops below its initial value, is back to it once every thread returned, and is at least one
while a thread holds its reference (from the `mdcache_get` through `mdc_remove_export_map`, the
`first_export` update and `mdcache_lru_cleanup_try_push` to the `mdcache_put`). -/
theorem unexport_reference_balance {x : Nat} {evs : List Event} {pc : Pc}
    (hthread : ThreadRun x .loop evs pc) {xs : Finset Nat} {s₀ s : Sys} (h₀ : Initial xs s₀)
    (hrun : Reachable s₀ s) :
    refTrace none evs = some (heldRef pc) ∧
    ∀ e, s.cache.refcnt e = s₀.cache.refcnt e + holders xs s e ∧
      s₀.cache.refcnt e ≤ s.cache.refcnt e ∧
      (AllReturned xs s → s.cache.refcnt e = s₀.cache.refcnt e) ∧
      ∀ y ∈ xs, heldRef (s.pc y) = some e → 1 ≤ s.cache.refcnt e := by
  refine ⟨threadRun_refTrace hthread, fun e => ?_⟩
  have hcount := (refcnt_eq_holders h₀ hrun).2 e
  refine ⟨hcount, by omega, fun hdone => ?_, fun y hy h => ?_⟩
  · have : holders xs s e = 0 := sum_eq_zero fun y hy => by simp [hdone y hy, heldRef]
    omega
  · have := one_le_holders hy h
    omega

/-- In the interleaved unexport of the shared entry, thread `0`'s events balance its references
and the entry's count is back to zero at the end. -/
theorem unexport_reference_balance_shared_entry :
    ∃ evs, ThreadRun 0 .loop evs .done ∧ refTrace none evs = some none ∧
      sharedEnd.cache.refcnt 0 = 0 := by
  obtain ⟨evs, hrun⟩ := sharedStart_reaches_sharedEnd.threadRun 0
  have h := unexport_reference_balance hrun (fun _ => rfl) sharedStart_reaches_sharedEnd
  exact ⟨evs, hrun, h.1, ((h.2 0).2.2.1 sharedEnd_returned).trans rfl⟩

end Ganesha.Mdcache
