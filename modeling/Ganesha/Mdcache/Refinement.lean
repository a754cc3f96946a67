import Ganesha.Mdcache.Progress

/-!
# Concurrent unexports refine unexporting at once

`unexportMap xs map` says what unexporting the exports `xs` is for, as one atomic operation on the
association map: every record of an export in `xs` is unlinked from both its lists, and an entry
that lost a record has `first_export` at the export of its new first record, or null; nothing
else changes. `unexportMap_map_inv` says the operation keeps `MapInv`. `unexportCleanup` adds the
entries left without export to the cleanup queue.

`unexport_concurrent_refines` connects them to the model of the code: whatever the interleaving
of the threads of `Concurrent` and whatever `mdcache_get` answers, once every thread has returned
the map is exactly `unexportMap xs` of the map they started from, the queue is `unexportCleanup`,
every reference count is back to its initial value, and no entry has become unreachable. The
outcome does not depend on the schedule. The queue needs an invariant of its own, `CleanupInv`:
the thread that removes an entry's last association is the only one to push it.
-/

namespace Ganesha.Mdcache

open Finset

/-- Unexporting the exports `xs` at once. -/
def unexportMap (xs : Finset Nat) (map : ExportMap) : ExportMap where
  expmap := map.expmap
  exportList e := (map.exportList e).filter (keptRecord xs map)
  entryList x := if x ∈ xs then [] else map.entryList x
  firstExport e :=
    if (map.exportList e).all (keptRecord xs map) then map.firstExport e
    else ((map.exportList e).filter (keptRecord xs map)).head?.map fun m => (map.expmap m).exp

/-- Unexporting `xs` at once on the cleanup queue: an entry that had an association and has none
left joins the queue. -/
def unexportCleanup (xs : Finset Nat) (c : Cache) (e : Nat) : Bool :=
  c.cleanup e || (!(c.map.exportList e).isEmpty && ((unexportMap xs c.map).exportList e).isEmpty)

@[simp] theorem keptRecord_eq_true {xs : Finset Nat} {map : ExportMap} {m : Nat} :
    keptRecord xs map m = true ↔ (map.expmap m).exp ∉ xs := by
  simp [keptRecord]

/-- Unexporting at once keeps the export-map invariant. -/
theorem unexportMap_map_inv {xs : Finset Nat} {map : ExportMap} (h : MapInv map) :
    MapInv (unexportMap xs map) where
  export_list_entry e m hm := h.export_list_entry e m (List.mem_of_mem_filter hm)
  entry_list_exp x m hm := by
    simp only [unexportMap] at hm
    split_ifs at hm
    exacts [absurd hm (List.not_mem_nil m), h.entry_list_exp x m hm]
  export_list_nodup e := (h.export_list_nodup e).filter _
  entry_list_nodup x := by
    simp only [unexportMap]
    split_ifs
    exacts [List.nodup_nil, h.entry_list_nodup x]
  linked_both m := by
    simp only [unexportMap, List.mem_filter, keptRecord_eq_true, h.linked_both m]
    split_ifs <;> simp_all
  first_export_linked e x hx := by
    simp only [unexportMap] at hx ⊢
    split_ifs at hx with hall
    · obtain ⟨m, hm, hexp⟩ := h.first_export_linked e x hx
      exact ⟨m, List.mem_filter.2 ⟨hm, List.all_eq_true.1 hall m hm⟩, hexp⟩
    · obtain ⟨m, hm, rfl⟩ := Option.map_eq_some'.1 hx
      exact ⟨m, List.mem_of_mem_head? hm, rfl⟩

/-! ## The cleanup queue -/

/-- The entry a thread at `pc` is about to push to the cleanup queue: it removed the entry's last
association and has not pushed it yet. -/
def pushPending : Pc → Option Nat
  | .delisted entry true | .pushing entry => some entry
  | _ => none

@[simp] theorem pushPending_delisted (entry : Nat) (last : Bool) :
    pushPending (.delisted entry last) = if last then some entry else none := by
  cases last <;> rfl

/-- What a section does to the map, the cleanup queue and the entry its thread is about to push:
nothing, or the critical section, or the push. -/
theorem Transition.cleanup_cases {x : Nat} {c c' : Cache} {pc pc' : Pc} {evs : List Event}
    (h : Transition x c pc c' pc' evs) :
    (c'.map = c.map ∧ c'.cleanup = c.cleanup ∧ pushPending pc' = pushPending pc) ∨
    (∃ e m, pc = .expLocked e m ∧ c'.map = delist c.map e m ∧ c'.cleanup = c.cleanup ∧
      pushPending pc' = if (c'.map.exportList e).isEmpty then some e else none) ∨
    (∃ e, pc = .pushing e ∧ pushPending pc' = none ∧ c'.map = c.map ∧
      (c.map.exportList e = [] → c'.cleanup = Function.update c.cleanup e true)) := by
  cases h with
  | unlink => exact .inr (.inl ⟨_, _, rfl, rfl, rfl, by simp [delist_exportList]⟩)
  | tryPush h =>
      refine .inr (.inr ⟨_, rfl, rfl, (mdcacheLruCleanupTryPush_frame h).1, fun he => ?_⟩)
      unfold mdcacheLruCleanupTryPush at h
      split_ifs at h
      cases h
      rfl
  | _ => exact .inl ⟨by simp [mdcachePut], rfl, rfl⟩

/-- How the cleanup queue follows the export map while the threads run from `s₀`: an entry is
queued when it was at the start, or when it had an association, has none left, and the thread
that removed the last one has pushed it. -/
structure CleanupInv (s₀ s : Sys) : Prop where
  push_empty : ∀ x e, pushPending (s.pc x) = some e →
    s.cache.map.exportList e = [] ∧ s₀.cache.map.exportList e ≠ []
  push_excl : ∀ x y e, pushPending (s.pc x) = some e → pushPending (s.pc y) = some e → x = y
  cleanup : ∀ e, s.cache.cleanup e = true ↔ s₀.cache.cleanup e = true ∨
    s₀.cache.map.exportList e ≠ [] ∧ s.cache.map.exportList e = [] ∧
      ∀ x, pushPending (s.pc x) ≠ some e

section Cleanup

variable {s₀ s s' : Sys}

theorem CleanupInv.initial {xs : Finset Nat} (h₀ : Initial xs s₀) : CleanupInv s₀ s₀ where
  push_empty x e h := by rcases h₀.pc_eq x with h' | h' <;> simp [h', pushPending] at h
  push_excl x _ e h := by rcases h₀.pc_eq x with h' | h' <;> simp [h', pushPending] at h
  cleanup e := ⟨.inl, fun h => h.elim id fun ⟨hne, hnil, _⟩ => absurd hnil hne⟩

/-- When a section changes only what its own thread `x` is about to push, and neither the old nor
the new value is `e`, no thread is about to push `e` after it exactly when none was before. -/
theorem no_push_iff {pcs pcs' : Nat → Pc} {x e : Nat} {v : Option Nat}
    (hpp : ∀ y, pushPending (pcs' y) = if y = x then v else pushPending (pcs y))
    (hv : v ≠ some e) (hx : pushPending (pcs x) ≠ some e) :
    (∀ y, pushPending (pcs' y) ≠ some e) ↔ ∀ y, pushPending (pcs y) ≠ some e := by
  refine forall_congr' fun y => ?_
  rw [hpp]
  split_ifs with hyx
  · subst hyx; exact ⟨fun _ => hx, fun _ => hv⟩
  · rfl

/-- A section that changes neither the map, nor the queue, nor what its thread will push keeps
the invariant. -/
theorem CleanupInv.of_same (hc : CleanupInv s₀ s) (hmap : s'.cache.map = s.cache.map)
    (hcl : s'.cache.cleanup = s.cache.cleanup)
    (hpp : ∀ y, pushPending (s'.pc y) = pushPending (s.pc y)) : CleanupInv s₀ s' where
  push_empty x e h := by rw [hmap]; exact hc.push_empty x e (hpp x ▸ h)
  push_excl x y e hx hy := hc.push_excl x y e (hpp x ▸ hx) (hpp y ▸ hy)
  cleanup e := by simp only [hcl, hmap, hpp]; exact hc.cleanup e

/-- The push, by thread `x`, of the entry `e` whose last association it removed. -/
theorem CleanupInv.of_push (hc : CleanupInv s₀ s) {x e : Nat}
    (hx : pushPending (s.pc x) = some e) (hmap : s'.cache.map = s.cache.map)
    (hcl : s'.cache.cleanup = Function.update s.cache.cleanup e true)
    (hpp : ∀ y, pushPending (s'.pc y) = if y = x then none else pushPending (s.pc y)) :
    CleanupInv s₀ s' where
  push_empty y e' h := by
    rw [hpp] at h
    split_ifs at h
    rw [hmap]
    exact hc.push_empty y e' h
  push_excl y z e' hy hz := by
    rw [hpp] at hy hz
    split_ifs at hy hz
    exact hc.push_excl y z e' hy hz
  cleanup e' := by
    rw [hcl, hmap]
    by_cases he : e' = e
    · -- `x` was the only thread to push `e`
      subst he
      obtain ⟨hempty, hne⟩ := hc.push_empty x e' hx
      simp only [Function.update_same, true_iff]
      refine .inr ⟨hne, hempty, fun y hy => ?_⟩
      rw [hpp] at hy
      split_ifs at hy with hyx
      exact hyx (hc.push_excl y x e' hy hx)
    · rw [Function.update_noteq he, hc.cleanup e']
      -- `x` pushed `e`, not `e'`
      rw [no_push_iff hpp (by simp) (by simp [hx, Ne.symm he])]

/-- The critical section of thread `x` on the record `m` of entry `e`, which is linked. -/
theorem CleanupInv.of_unlink {xs : Finset Nat} (hc : CleanupInv s₀ s)
    (hf : MapFrame xs s₀.cache.map s.cache.map) {x e m : Nat}
    (hentry : (s.cache.map.expmap m).entry = e) (hm : m ∈ s.cache.map.exportList e)
    (hx : pushPending (s.pc x) = none) (hmap : s'.cache.map = delist s.cache.map e m)
    (hcl : s'.cache.cleanup = s.cache.cleanup)
    (hpp : ∀ y, pushPending (s'.pc y) = if y = x then
      (if (s'.cache.map.exportList e).isEmpty then some e else none) else pushPending (s.pc y)) :
    CleanupInv s₀ s' := by
  have hlist : ∀ e', s'.cache.map.exportList e' =
      if e' = e then (s.cache.map.exportList e).erase m else s.cache.map.exportList e' := by
    intro e'
    rw [hmap, delist_exportList, mdcRemoveExportMap_exportList, hentry]
    split_ifs with he <;> simp [he]
  -- a thread about to push has emptied its entry's list, so it does not push `e`
  have hother : ∀ y e', pushPending (s.pc y) = some e' → e' ≠ e := fun y e' h he =>
    List.ne_nil_of_mem hm (he ▸ (hc.push_empty y e' h).1)
  have hne₀ : s₀.cache.map.exportList e ≠ [] :=
    List.ne_nil_of_mem ((hf.export_list_sublist e).subset hm)
  refine ⟨fun y e' h => ?_, fun y z e' hy hz => ?_, fun e' => ?_⟩
  · rw [hpp] at h
    split_ifs at h with hyx hempty
    · cases h
      exact ⟨List.isEmpty_iff.1 hempty, hne₀⟩
    · rw [hlist, if_neg (hother y e' h)]
      exact hc.push_empty y e' h
  · rw [hpp] at hy hz
    by_cases hyx : y = x <;> by_cases hzx : z = x <;>
      simp only [hyx, hzx, if_true, if_false] at hy hz
    · exact hyx.trans hzx.symm
    · split_ifs at hy
      cases hy
      exact absurd rfl (hother z _ hz)
    · split_ifs at hz
      cases hz
      exact absurd rfl (hother y _ hy)
    · exact hc.push_excl y z e' hy hz
  · rw [hcl]
    by_cases he : e' = e
    · -- `e` keeps an association, or `x` is about to push it
      subst he
      rw [hc.cleanup e', or_iff_left fun h => List.ne_nil_of_mem hm h.2.1]
      refine (or_iff_left fun ⟨_, hnil, hpush⟩ => hpush x ?_).symm
      rw [hpp, if_pos rfl, if_pos (List.isEmpty_iff.2 hnil)]
    · rw [hc.cleanup e', hlist, if_neg he]
      rw [no_push_iff hpp (by split <;> simp [Ne.symm he]) (by simp [hx])]

/-- Every section keeps the invariant. -/
theorem CleanupInv.step {xs : Finset Nat} (hu : UnexportInv xs s₀ s) (hc : CleanupInv s₀ s)
    (hstep : Step s s') : CleanupInv s₀ s' := by
  obtain ⟨x, c', pc', evs, ht, rfl⟩ := hstep.transition
  have hupdate : ∀ y, pushPending (Function.update s.pc x pc' y) =
      if y = x then pushPending pc' else pushPending (s.pc y) := fun y => by
    rw [Function.apply_update (fun _ => pushPending), Function.update_apply]
  rcases ht.cleanup_cases with ⟨hmap, hcl, hpp⟩ | ⟨e, m, hpc, hmap, hcl, hpp⟩ |
    ⟨e, hpc, hpp, hmap, hcl⟩
  · refine hc.of_same hmap hcl fun y => ?_
    rw [hupdate]
    split_ifs with hyx
    · rw [hpp, hyx]
    · rfl
  · have hp : pendingRecord (s.pc x) = some (e, m) := by rw [hpc]; rfl
    obtain ⟨hentry, hexp⟩ := hu.pending x e m hp
    have hm : m ∈ s.cache.map.exportList e :=
      hentry ▸ (hu.frame.map_inv.linked_both m).2 (hexp ▸ hu.pending_mem x e m hp)
    refine hc.of_unlink hu.frame hentry hm (by rw [hpc]; rfl) hmap hcl fun y => ?_
    rw [hupdate, hpp]
  · have hx : pushPending (s.pc x) = some e := by rw [hpc]; rfl
    refine hc.of_push hx hmap (hcl (hc.push_empty x e hx).1) fun y => ?_
    rw [hupdate, hpp]

theorem CleanupInv.reachable {xs : Finset Nat} (h₀ : Initial xs s₀)
    (hmap : MapInv s₀.cache.map) (hrun : Reachable s₀ s) : CleanupInv s₀ s := by
  induction hrun with
  | refl => exact .initial h₀
  | tail hrun hstep ih => exact ih.step (UnexportInv.reachable h₀ hmap hrun) hstep

end Cleanup

section Returned

variable {xs : Finset Nat} {s₀ s : Sys} (h₀ : Initial xs s₀) (hmap : MapInv s₀.cache.map)
  (hrun : Reachable s₀ s) (hdone : AllReturned xs s)
include h₀ hmap hrun hdone

/-- Once every thread has returned, every entry's list holds exactly the records of the other
exports it held at the start, in their order. -/
theorem exportList_of_returned (e : Nat) :
    s.cache.map.exportList e =
      (s₀.cache.map.exportList e).filter (keptRecord xs s₀.cache.map) := by
  have hinv := UnexportInv.reachable h₀ hmap hrun
  have hf := hinv.frame
  -- no record of `xs` is left: its export's list is empty
  have hkept : ∀ m ∈ s.cache.map.exportList e, keptRecord xs s₀.cache.map m = true := by
    intro m hm
    rw [keptRecord_eq_true, ← hf.expmap_eq]
    intro hx
    have hlinked := (hf.map_inv.linked_both m).1 (hf.map_inv.export_list_entry e m hm ▸ hm)
    simp [hinv.returned _ hx (hdone _ hx)] at hlinked
  rw [← hf.export_list_kept e, List.filter_eq_self.2 hkept]

/-- Once every thread has returned, `first_export` is as unexporting at once leaves it. -/
theorem firstExport_of_returned (e : Nat) :
    s.cache.map.firstExport e = (unexportMap xs s₀.cache.map).firstExport e := by
  have hf := (UnexportInv.reachable h₀ hmap hrun).frame
  have hlist := exportList_of_returned h₀ hmap hrun hdone e
  -- the entry lost a record exactly when it had one of `xs`
  have hall : (s₀.cache.map.exportList e).all (keptRecord xs s₀.cache.map) = true ↔
      s.cache.map.exportList e = s₀.cache.map.exportList e := by
    rw [List.all_eq_true, ← List.filter_eq_self, hlist]
  simp only [unexportMap, ← hlist]
  rcases hf.first_export e with ⟨hsame, hfirst⟩ | ⟨hchanged, hfirst⟩
  · rw [if_pos (hall.2 hsame), hfirst]
  · rw [if_neg (mt hall.1 hchanged), hfirst, headExport, hf.expmap_eq]

/-- Once every thread has returned, the cleanup queue holds the entries it held at the start and
those left without export. -/
theorem cleanup_of_returned : s.cache.cleanup = unexportCleanup xs s₀.cache := by
  have hinv := UnexportInv.reachable h₀ hmap hrun
  have hc := CleanupInv.reachable h₀ hmap hrun
  funext e
  have hnone : ∀ x, pushPending (s.pc x) ≠ some e := fun x => by
    by_cases hx : x ∈ xs
    · simp [hdone x hx, pushPending]
    · simp [hinv.idle x hx, pushPending]
  rw [Bool.eq_iff_iff, hc.cleanup e, exportList_of_returned h₀ hmap hrun hdone e]
  simp [unexportCleanup, unexportMap, hnone]

omit hmap in
/-- Once every thread has returned, every reference count is back to its initial value. -/
theorem refcnt_of_returned : s.cache.refcnt = s₀.cache.refcnt := by
  funext e
  have hcount := (refcnt_eq_holders h₀ hrun).2 e
  have : holders xs s e = 0 := sum_eq_zero fun y hy => by simp [hdone y hy, heldRef]
  omega

end Returned

/-- Any number of exports `xs` unexported at once, their sections interleaved in any order and
every `mdcache_get` answering anything, from a state satisfying the export-map invariant: once
every thread has returned, the export map is exactly what unexporting `xs` at once gives, and that
operation keeps the invariant; the cleanup queue is what unexporting at once gives, and in every
state of the run an entry is about to be pushed by at most one thread, the one that removed its
last association; every reference count is back to its initial value and no entry has become
unreachable. -/
theorem unexport_concurrent_refines {xs : Finset Nat} {s₀ s : Sys} (h₀ : Initial xs s₀)
    (hmap : MapInv s₀.cache.map) (hrun : Reachable s₀ s) (hdone : AllReturned xs s) :
    s.cache.map = unexportMap xs s₀.cache.map ∧ MapInv (unexportMap xs s₀.cache.map) ∧
      s.cache.cleanup = unexportCleanup xs s₀.cache ∧
      (∀ t, Reachable s₀ t → ∀ x y e, pushPending (t.pc x) = some e →
        pushPending (t.pc y) = some e →
          x = y ∧ t.cache.map.exportList e = [] ∧ s₀.cache.map.exportList e ≠ []) ∧
      s.cache.refcnt = s₀.cache.refcnt ∧ s.cache.unreachable = s₀.cache.unreachable := by
  have hinv := UnexportInv.reachable h₀ hmap hrun
  refine ⟨ExportMap.ext hinv.frame.expmap_eq
    (funext (exportList_of_returned h₀ hmap hrun hdone)) (funext fun x => ?_)
    (funext (firstExport_of_returned h₀ hmap hrun hdone)),
    unexportMap_map_inv hmap, cleanup_of_returned h₀ hmap hrun hdone,
    fun t ht x y e hx hy => ?_, refcnt_of_returned h₀ hrun hdone, hrun.unreachable_eq⟩
  · by_cases hx : x ∈ xs
    · simp [unexportMap, hx, hinv.returned x hx (hdone x hx)]
    · simp [unexportMap, hx, hinv.frame.entry_list_kept x hx]
  · have hc := CleanupInv.reachable h₀ hmap ht
    exact ⟨hc.push_excl x y e hx hy, hc.push_empty x e hx⟩

/-- In the interleaved unexport of the shared entry, the end state is unexporting both exports
at once. -/
theorem unexport_concurrent_refines_shared_entry :
    sharedEnd.cache.map = unexportMap {0, 1} sharedStart.cache.map ∧
      sharedEnd.cache.cleanup = unexportCleanup {0, 1} sharedStart.cache ∧
      sharedEnd.cache.refcnt = sharedStart.cache.refcnt ∧
      sharedEnd.cache.unreachable = sharedStart.cache.unreachable := by
  obtain ⟨hm, -, hc, -, hr, hu⟩ := unexport_concurrent_refines (fun _ => rfl)
    sharedEntry_map_inv sharedStart_reaches_sharedEnd sharedEnd_returned
  exact ⟨hm, hc, hr, hu⟩

end Ganesha.Mdcache
