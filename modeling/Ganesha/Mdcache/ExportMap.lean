import Mathlib.Data.Finset.Basic

/-!
# The entry–export association map of MDCACHE

A cache entry is visible through several exports. Each association is an `entry_export_map`
record linked into two intrusive lists: the entry's `export_list` and the export's `entry_list`.
Records are named by address; `expmap` reads the fields of the record at an address, which never
change once the record exists. `MapInv` is the invariant both lists keep, and `first_export` names
the export of a record on the entry's list.

`delist` is the critical section of `mdcache_unexport` (lines 126-146 of `mdcache_export.c`): it
unlinks one record and points `first_export` at the export of the entry's new first record. The
main results are `delist_map_inv`, that this section keeps `MapInv`, and `MapFrame.delist`: when
only records of the exports `xs` are delisted, every list only loses records, the records of the
other exports stay in their order, and an entry whose list changed has `first_export` at its
head.
-/

namespace Ganesha.Mdcache

/-- An `entry_export_map` record: the cache entry and the export it associates. -/
structure EntryExportMap where
  entry : Nat
  exp : Nat
  deriving DecidableEq, Repr

/-- The association map: the records by address, each entry's `export_list`, each export's
`entry_list` (heads first) and each entry's `first_export` pointer. -/
@[ext]
structure ExportMap where
  expmap : Nat → EntryExportMap
  exportList : Nat → List Nat
  entryList : Nat → List Nat
  firstExport : Nat → Option Nat

/-- The export-map invariant: every record is linked exactly once on its entry's `export_list`
and exactly once on its export's `entry_list`, and on no other list; `first_export` is null or
the export of a record on the entry's `export_list`. -/
structure MapInv (map : ExportMap) : Prop where
  export_list_entry : ∀ e m, m ∈ map.exportList e → (map.expmap m).entry = e
  entry_list_exp : ∀ x m, m ∈ map.entryList x → (map.expmap m).exp = x
  export_list_nodup : ∀ e, (map.exportList e).Nodup
  entry_list_nodup : ∀ x, (map.entryList x).Nodup
  linked_both : ∀ m,
    m ∈ map.exportList (map.expmap m).entry ↔ m ∈ map.entryList (map.expmap m).exp
  first_export_linked : ∀ e x, map.firstExport e = some x →
    ∃ m ∈ map.exportList e, (map.expmap m).exp = x

/-- The export of the first record on an entry's `export_list`, the value `mdcache_unexport`
stores into `first_export`. -/
def headExport (map : ExportMap) (entry : Nat) : Option Nat :=
  (map.exportList entry).head?.map fun m => (map.expmap m).exp

/-- Modelled from the spec: `mdc_remove_export_map` is not in the sources. It removes the
association: the record is unlinked from its entry's `export_list` and from its export's
`entry_list`. -/
def mdcRemoveExportMap (map : ExportMap) (m : Nat) : ExportMap :=
  { map with
    exportList := Function.update map.exportList (map.expmap m).entry
      ((map.exportList (map.expmap m).entry).erase m)
    entryList := Function.update map.entryList (map.expmap m).exp
      ((map.entryList (map.expmap m).exp).erase m) }

/-- Store `value` into the `first_export` pointer of `entry`. -/
def ExportMap.setFirstExport (map : ExportMap) (entry : Nat) (value : Option Nat) :
    ExportMap :=
  { map with firstExport := Function.update map.firstExport entry value }

/-- Lines 126-146 of `mdcache_unexport`: unlink the record, then store the export of the entry's
new first record into `first_export`, or null when the list is now empty. -/
def delist (map : ExportMap) (entry m : Nat) : ExportMap :=
  let removed := mdcRemoveExportMap map m
  removed.setFirstExport entry (headExport removed entry)

@[simp] theorem headExport_eq_none {map : ExportMap} {entry : Nat} :
    headExport map entry = none ↔ map.exportList entry = [] := by
  simp [headExport]

@[simp] theorem mdcRemoveExportMap_expmap (map : ExportMap) (m : Nat) :
    (mdcRemoveExportMap map m).expmap = map.expmap := rfl

@[simp] theorem mdcRemoveExportMap_firstExport (map : ExportMap) (m : Nat) :
    (mdcRemoveExportMap map m).firstExport = map.firstExport := rfl

@[simp] theorem setFirstExport_expmap (map : ExportMap) (entry : Nat) (value : Option Nat) :
    (map.setFirstExport entry value).expmap = map.expmap := rfl

@[simp] theorem setFirstExport_exportList (map : ExportMap) (entry : Nat) (value : Option Nat) :
    (map.setFirstExport entry value).exportList = map.exportList := rfl

@[simp] theorem setFirstExport_entryList (map : ExportMap) (entry : Nat) (value : Option Nat) :
    (map.setFirstExport entry value).entryList = map.entryList := rfl

@[simp] theorem setFirstExport_firstExport (map : ExportMap) (entry : Nat)
    (value : Option Nat) (e : Nat) :
    (map.setFirstExport entry value).firstExport e =
      if e = entry then value else map.firstExport e := by
  simp [ExportMap.setFirstExport, Function.update_apply]

/-- `mdc_remove_export_map` only touches the two lists of the record. -/
theorem mdcRemoveExportMap_exportList (map : ExportMap) (m e : Nat) :
    (mdcRemoveExportMap map m).exportList e =
      if e = (map.expmap m).entry then (map.exportList e).erase m else map.exportList e := by
  by_cases h : e = (map.expmap m).entry
  · subst h; simp [mdcRemoveExportMap]
  · simp [mdcRemoveExportMap, h]

theorem mdcRemoveExportMap_entryList (map : ExportMap) (m x : Nat) :
    (mdcRemoveExportMap map m).entryList x =
      if x = (map.expmap m).exp then (map.entryList x).erase m else map.entryList x := by
  by_cases h : x = (map.expmap m).exp
  · subst h; simp [mdcRemoveExportMap]
  · simp [mdcRemoveExportMap, h]

theorem delist_expmap (map : ExportMap) (entry m : Nat) :
    (delist map entry m).expmap = map.expmap := rfl

theorem delist_exportList (map : ExportMap) (entry m : Nat) :
    (delist map entry m).exportList = (mdcRemoveExportMap map m).exportList := rfl

theorem delist_entryList (map : ExportMap) (entry m : Nat) :
    (delist map entry m).entryList = (mdcRemoveExportMap map m).entryList := rfl

section Invariant

variable {map : ExportMap} (hmap : MapInv map)
include hmap

/-- Under the invariant, unlinking a record removes exactly that record from every
`export_list`. -/
theorem mem_remove_exportList {m m' e : Nat} :
    m' ∈ (mdcRemoveExportMap map m).exportList e ↔ m' ≠ m ∧ m' ∈ map.exportList e := by
  rw [mdcRemoveExportMap_exportList]
  split_ifs with h
  · exact (hmap.export_list_nodup e).mem_erase_iff
  · refine ⟨fun hm => ⟨?_, hm⟩, And.right⟩
    rintro rfl
    exact h (hmap.export_list_entry e m' hm).symm

/-- Under the invariant, unlinking a record removes exactly that record from every
`entry_list`. -/
theorem mem_remove_entryList {m m' x : Nat} :
    m' ∈ (mdcRemoveExportMap map m).entryList x ↔ m' ≠ m ∧ m' ∈ map.entryList x := by
  rw [mdcRemoveExportMap_entryList]
  split_ifs with h
  · exact (hmap.entry_list_nodup x).mem_erase_iff
  · refine ⟨fun hm => ⟨?_, hm⟩, And.right⟩
    rintro rfl
    exact h (hmap.entry_list_exp x m' hm).symm

/-- The critical section of `mdcache_unexport` keeps the export-map invariant when it delists a
record of the entry it locked. -/
theorem delist_map_inv {entry m : Nat} (hentry : (map.expmap m).entry = entry) :
    MapInv (delist map entry m) where
  export_list_entry e m' hm' := by
    rw [delist_exportList, mem_remove_exportList hmap] at hm'
    exact hmap.export_list_entry e m' hm'.2
  entry_list_exp x m' hm' := by
    rw [delist_entryList, mem_remove_entryList hmap] at hm'
    exact hmap.entry_list_exp x m' hm'.2
  export_list_nodup e := by
    rw [delist_exportList, mdcRemoveExportMap_exportList]
    split_ifs
    exacts [(hmap.export_list_nodup e).erase m, hmap.export_list_nodup e]
  entry_list_nodup x := by
    rw [delist_entryList, mdcRemoveExportMap_entryList]
    split_ifs
    exacts [(hmap.entry_list_nodup x).erase m, hmap.entry_list_nodup x]
  linked_both m' := by
    simp only [delist_exportList, delist_entryList, delist_expmap, mem_remove_exportList hmap,
      mem_remove_entryList hmap, hmap.linked_both]
  first_export_linked e x hx := by
    simp only [delist, setFirstExport_firstExport] at hx
    split_ifs at hx with he
    · subst he
      cases hl : (mdcRemoveExportMap map m).exportList e with
      | nil => simp [headExport, hl] at hx
      | cons m' rest =>
        refine ⟨m', by simp [delist_exportList, hl], ?_⟩
        simpa [headExport, hl] using hx
    · obtain ⟨m', hm', hexp⟩ := hmap.first_export_linked e x hx
      refine ⟨m', ?_, hexp⟩
      rw [delist_exportList, mem_remove_exportList hmap]
      refine ⟨?_, hm'⟩
      rintro rfl
      exact he ((hmap.export_list_entry e m' hm').symm.trans hentry)

end Invariant

/-! ## Delisting the records of a set of exports -/

/-- Whether a record belongs to an export outside `xs`. -/
def keptRecord (xs : Finset Nat) (map : ExportMap) (m : Nat) : Bool :=
  decide ((map.expmap m).exp ∉ xs)

/-- Removing an element the filter drops does not change the filtered list. -/
theorem filter_erase_of_false {p : Nat → Bool} {m : Nat} (hm : p m = false) (l : List Nat) :
    (l.erase m).filter p = l.filter p := by
  induction l with
  | nil => rfl
  | cons a l ih => by_cases h : a = m <;> simp_all [List.erase_cons, List.filter_cons]

/-- How the map `map` relates to the map `map₀` it started from when only records of the
exports `xs` have been delisted. -/
structure MapFrame (xs : Finset Nat) (map₀ map : ExportMap) : Prop where
  map_inv : MapInv map
  expmap_eq : map.expmap = map₀.expmap
  export_list_sublist : ∀ e, (map.exportList e).Sublist (map₀.exportList e)
  export_list_kept : ∀ e,
    (map.exportList e).filter (keptRecord xs map₀) =
      (map₀.exportList e).filter (keptRecord xs map₀)
  entry_list_kept : ∀ y ∉ xs, map.entryList y = map₀.entryList y
  first_export : ∀ e,
    map.exportList e = map₀.exportList e ∧ map.firstExport e = map₀.firstExport e ∨
      map.exportList e ≠ map₀.exportList e ∧ map.firstExport e = headExport map e

theorem MapFrame.refl {xs : Finset Nat} {map₀ : ExportMap} (h : MapInv map₀) :
    MapFrame xs map₀ map₀ :=
  ⟨h, rfl, fun _ => List.Sublist.refl _, fun _ => rfl, fun _ _ => rfl, fun _ => .inl ⟨rfl, rfl⟩⟩

/-- The lists of the exports only lose records. -/
theorem MapFrame.mem_entryList {xs : Finset Nat} {map₀ map : ExportMap}
    (hf : MapFrame xs map₀ map) (h₀ : MapInv map₀) {x m : Nat} (hm : m ∈ map.entryList x) :
    m ∈ map₀.entryList x := by
  have hx := hf.map_inv.entry_list_exp x m hm
  have he := (hf.export_list_sublist _).subset ((hf.map_inv.linked_both m).2 (hx ▸ hm))
  rw [hf.expmap_eq] at he hx
  exact hx ▸ (h₀.linked_both m).1 he

/-- Delisting a linked record of an export in `xs` from the entry it belongs to keeps the
frame. -/
theorem MapFrame.delist {xs : Finset Nat} {map₀ map : ExportMap} {e m : Nat}
    (hf : MapFrame xs map₀ map) (hentry : (map.expmap m).entry = e)
    (hexp : (map.expmap m).exp ∈ xs) (hm : m ∈ map.exportList e) :
    MapFrame xs map₀ (delist map e m) where
  map_inv := delist_map_inv hf.map_inv hentry
  expmap_eq := hf.expmap_eq
  export_list_sublist e' := by
    rw [delist_exportList, mdcRemoveExportMap_exportList]
    split_ifs
    exacts [(List.erase_sublist _ _).trans (hf.export_list_sublist e'), hf.export_list_sublist e']
  export_list_kept e' := by
    have hm : keptRecord xs map₀ m = false := by simpa [keptRecord, ← hf.expmap_eq] using hexp
    rw [delist_exportList, mdcRemoveExportMap_exportList]
    split_ifs
    exacts [(filter_erase_of_false hm _).trans (hf.export_list_kept e'), hf.export_list_kept e']
  entry_list_kept y hy := by
    rw [delist_entryList, mdcRemoveExportMap_entryList, if_neg (by rintro rfl; exact hy hexp)]
    exact hf.entry_list_kept y hy
  first_export e' := by
    by_cases he : e' = e
    · -- the list lost `m`, so it is shorter than it was at the start
      subst he
      have hlen : ((map.exportList e').erase m).length < (map₀.exportList e').length :=
        calc ((map.exportList e').erase m).length
            < (map.exportList e').length := List.length_erase_of_mem hm ▸
              Nat.pred_lt (List.length_pos_of_mem hm).ne'
          _ ≤ (map₀.exportList e').length := (hf.export_list_sublist e').length_le
      refine .inr ⟨fun h => ?_, by simp [Mdcache.delist, headExport]⟩
      simp only [delist_exportList, mdcRemoveExportMap_exportList, hentry, if_true] at h
      exact hlen.ne (congrArg List.length h)
    · have hne : e' ≠ (map.expmap m).entry := hentry ▸ he
      simpa [Mdcache.delist, mdcRemoveExportMap_exportList, hne, he, headExport] using
        hf.first_export e'

end Ganesha.Mdcache
