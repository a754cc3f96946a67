import Mathlib.Data.UInt

/-!
# The dirent tree

`mdcache_avl.h` keeps a directory's entries in one AVL tree ordered by `avl_dirent_hk_cmpf`
(lines 59-74), which compares the entries' 64-bit hash keys: it is negative exactly when the left
key is the smaller, and zero exactly on equal keys. The tree library is not in the sources:
`DirentTree` is a search tree driven by the comparator, with the map laws `lookup_insert` and
`lookup_setDeleted` and the order kept by insertion and by setting a tombstone flag. The probing
index of `DirentIndex.lean` is proved from these, never from the tree's shape.
-/

namespace Ganesha.Mdcache

/-- A directory entry as `avl_dirent_hk_cmpf` reads it: its hash key `hk.k`, the `uint64_t` that
`mdcache_avl_lookup_k` looks up. -/
structure Dirent where
  k : UInt64
  deriving DecidableEq, Repr

/-- `avl_dirent_hk_cmpf`. -/
def avlDirentHkCmpf (lhs rhs : Dirent) : Int :=
  if lhs.k < rhs.k then -1 else if lhs.k = rhs.k then 0 else 1

/-- Hash keys are equal exactly when their values are. -/
theorem hk_eq_iff {a b : UInt64} : a = b ↔ a.toNat = b.toNat := ⟨congrArg _, UInt64.toNat.inj⟩

/-- The comparator is negative exactly when the left key is below the right one. -/
@[simp] theorem avlDirentHkCmpf_lt_zero (a b : Dirent) :
    avlDirentHkCmpf a b < 0 ↔ a.k.toNat < b.k.toNat := by
  unfold avlDirentHkCmpf
  split_ifs with hlt heq
  · exact iff_of_true (by decide) hlt
  · exact iff_of_false (by decide) (heq ▸ Nat.lt_irrefl _)
  · exact iff_of_false (by decide) hlt

/-- The comparator is zero exactly on equal keys. -/
@[simp] theorem avlDirentHkCmpf_eq_zero (a b : Dirent) :
    avlDirentHkCmpf a b = 0 ↔ a.k.toNat = b.k.toNat := by
  unfold avlDirentHkCmpf
  split_ifs with hlt heq
  · exact iff_of_false (by decide) (Nat.ne_of_lt hlt)
  · exact iff_of_true rfl (hk_eq_iff.1 heq)
  · exact iff_of_false (by decide) (hk_eq_iff.not.1 heq)

/-! ## The tree -/

/-- A directory entry as the tree holds it: its name, its hash key `hk.k`, and whether
`avl_dirent_set_deleted` has made it a tombstone. -/
structure MdcacheDirEntry where
  name : List Char
  hk : UInt64
  deleted : Bool
  deriving DecidableEq, Repr

/-- Modelled from the spec: the tree library is not in the sources. A binary search tree ordered
by `avl_dirent_hk_cmpf`; the rotations that keep it balanced change its shape, not the entries it
holds or the entry a search finds, and are left out. -/
inductive DirentTree where
  | leaf
  | node (l : DirentTree) (v : MdcacheDirEntry) (r : DirentTree)
  deriving Repr

namespace DirentTree

/-- The search for the entry whose key `avl_dirent_hk_cmpf` finds equal to `k`. -/
def lookup (k : UInt64) : DirentTree → Option MdcacheDirEntry
  | leaf => none
  | node l v r =>
      if avlDirentHkCmpf ⟨k⟩ ⟨v.hk⟩ < 0 then l.lookup k
      else if avlDirentHkCmpf ⟨k⟩ ⟨v.hk⟩ = 0 then some v else r.lookup k

/-- Insertion: `v` goes where the search for its key ends; where an entry of the same key is
found, the tree is left as it is. -/
def insert (v : MdcacheDirEntry) : DirentTree → DirentTree
  | leaf => node leaf v leaf
  | node l w r =>
      if avlDirentHkCmpf ⟨v.hk⟩ ⟨w.hk⟩ < 0 then node (l.insert v) w r
      else if avlDirentHkCmpf ⟨v.hk⟩ ⟨w.hk⟩ = 0 then node l w r else node l w (r.insert v)

/-- Setting the tombstone flag of the entry at key `k`, in place. -/
def setDeleted (k : UInt64) (deleted : Bool) : DirentTree → DirentTree
  | leaf => leaf
  | node l v r =>
      if avlDirentHkCmpf ⟨k⟩ ⟨v.hk⟩ < 0 then node (l.setDeleted k deleted) v r
      else if avlDirentHkCmpf ⟨k⟩ ⟨v.hk⟩ = 0 then node l { v with deleted } r
      else node l v (r.setDeleted k deleted)

/-- The entries, in key order. -/
def toList : DirentTree → List MdcacheDirEntry
  | leaf => []
  | node l v r => l.toList ++ v :: r.toList

/-- The search-tree order: the keys of a left subtree are below the node's, those of a right
subtree above. -/
def Ordered : DirentTree → Prop
  | leaf => True
  | node l v r =>
      l.Ordered ∧ r.Ordered ∧ (∀ w ∈ l.toList, w.hk.toNat < v.hk.toNat) ∧
        ∀ w ∈ r.toList, v.hk.toNat < w.hk.toNat

@[simp] theorem lookup_node (k : UInt64) (l : DirentTree) (v : MdcacheDirEntry) (r : DirentTree) :
    (node l v r).lookup k = if k.toNat < v.hk.toNat then l.lookup k
      else if k.toNat = v.hk.toNat then some v else r.lookup k := by
  simp [lookup]

@[simp] theorem insert_node (v : MdcacheDirEntry) (l : DirentTree) (w : MdcacheDirEntry)
    (r : DirentTree) :
    (node l w r).insert v = if v.hk.toNat < w.hk.toNat then node (l.insert v) w r
      else if v.hk.toNat = w.hk.toNat then node l w r else node l w (r.insert v) := by
  simp [insert]

/-- A search after an insertion finds the inserted entry at its key when the key was free, and
what it found before everywhere else. -/
theorem lookup_insert (v : MdcacheDirEntry) (t : DirentTree) (k : UInt64) :
    (t.insert v).lookup k = if k = v.hk ∧ t.lookup k = none then some v else t.lookup k := by
  simp only [hk_eq_iff]
  induction t with
  | leaf =>
      rcases lt_trichotomy k.toNat v.hk.toNat with hk | hk | hk <;>
        simp [insert, lookup, hk, Nat.ne_of_lt, Nat.ne_of_gt]
  | node l w r ihl ihr =>
      rcases lt_trichotomy v.hk.toNat w.hk.toNat with h | h | h <;>
        rcases lt_trichotomy k.toNat w.hk.toNat with hk | hk | hk <;>
        simp (disch := omega) [ihl, ihr, if_pos, if_neg]

@[simp] theorem setDeleted_node (k : UInt64) (d : Bool) (l : DirentTree) (v : MdcacheDirEntry)
    (r : DirentTree) :
    (node l v r).setDeleted k d = if k.toNat < v.hk.toNat then node (l.setDeleted k d) v r
      else if k.toNat = v.hk.toNat then node l { v with deleted := d } r
      else node l v (r.setDeleted k d) := by
  simp [setDeleted]

/-- A search after setting a tombstone flag finds the same entries, the one at the key changed. -/
theorem lookup_setDeleted (k : UInt64) (d : Bool) (t : DirentTree) (k' : UInt64) :
    (t.setDeleted k d).lookup k' =
      (t.lookup k').map fun v => if k' = k then { v with deleted := d } else v := by
  simp only [hk_eq_iff]
  induction t with
  | leaf => rfl
  | node l v r ihl ihr =>
      rcases lt_trichotomy k.toNat v.hk.toNat with h | h | h <;>
        rcases lt_trichotomy k'.toNat v.hk.toNat with hk | hk | hk <;>
        simp (disch := omega) only [setDeleted_node, lookup_node, ihl, ihr, if_pos, if_neg,
          Option.map_some', Option.map_id']

/-- A search finds an entry of the tree, whose key is the one searched for. -/
theorem lookup_eq_some {k : UInt64} {v : MdcacheDirEntry} :
    ∀ {t : DirentTree}, t.lookup k = some v → v.hk = k ∧ v ∈ t.toList
  | leaf, h => nomatch h
  | node l w r, h => by
      simp only [lookup_node] at h
      split_ifs at h with h₁ h₂
      · exact (lookup_eq_some h).imp_right fun hm => by simp [toList, hm]
      · cases h; exact ⟨hk_eq_iff.2 h₂.symm, by simp [toList]⟩
      · exact (lookup_eq_some h).imp_right fun hm => by simp [toList, hm]

/-- In a search tree, the search for an entry's key finds it. -/
theorem lookup_of_mem {v : MdcacheDirEntry} :
    ∀ {t : DirentTree}, t.Ordered → v ∈ t.toList → t.lookup v.hk = some v
  | leaf, _, h => nomatch h
  | node l w r, ⟨hl, hr, hlw, hwr⟩, h => by
      simp only [toList, List.mem_append, List.mem_cons] at h
      rcases h with h | rfl | h
      · have := hlw v h
        simp [this, lookup_of_mem hl h]
      · simp
      · have := hwr v h
        simp [Nat.not_lt_of_gt this, Nat.ne_of_gt this, lookup_of_mem hr h]

/-- In a search tree, the entries are exactly what the searches for their keys find. -/
theorem mem_iff_lookup {t : DirentTree} (ho : t.Ordered) {v : MdcacheDirEntry} :
    v ∈ t.toList ↔ t.lookup v.hk = some v :=
  ⟨lookup_of_mem ho, fun h => (lookup_eq_some h).2⟩

/-- Inserting adds at most the inserted entry. -/
theorem mem_insert {v w : MdcacheDirEntry} :
    ∀ {t : DirentTree}, w ∈ (t.insert v).toList → w = v ∨ w ∈ t.toList
  | leaf, h => by simpa [insert, toList] using h
  | node l u r, h => by
      simp only [insert_node] at h
      split_ifs at h <;> simp only [toList, List.mem_append, List.mem_cons] at h ⊢
      · rcases h with h | h | h
        exacts [(mem_insert h).imp_right .inl, .inr (.inr (.inl h)), .inr (.inr (.inr h))]
      · exact .inr h
      · rcases h with h | h | h
        exacts [.inr (.inl h), .inr (.inr (.inl h)), (mem_insert h).imp_right (.inr ∘ .inr)]

/-- Setting a tombstone flag keeps every key. -/
theorem toList_setDeleted_hk (k : UInt64) (d : Bool) :
    ∀ t : DirentTree, (t.setDeleted k d).toList.map (·.hk) = t.toList.map (·.hk)
  | leaf => rfl
  | node l v r => by
      simp only [setDeleted_node]
      split_ifs <;> simp [toList, toList_setDeleted_hk k d l, toList_setDeleted_hk k d r]

/-- Insertion keeps a search tree ordered. -/
theorem Ordered.insert (v : MdcacheDirEntry) : ∀ {t : DirentTree}, t.Ordered → (t.insert v).Ordered
  | leaf, _ => by simp [DirentTree.insert, Ordered, toList]
  | node l w r, ⟨hl, hr, hlw, hwr⟩ => by
      simp only [insert_node]
      split_ifs with h₁ h₂
      · refine ⟨hl.insert v, hr, fun u hu => ?_, hwr⟩
        rcases mem_insert hu with rfl | hu
        exacts [h₁, hlw u hu]
      · exact ⟨hl, hr, hlw, hwr⟩
      · refine ⟨hl, hr.insert v, hlw, fun u hu => ?_⟩
        rcases mem_insert hu with rfl | hu
        exacts [by omega, hwr u hu]

/-- Setting a tombstone flag keeps a search tree ordered. -/
theorem Ordered.setDeleted (k : UInt64) (d : Bool) :
    ∀ {t : DirentTree}, t.Ordered → (t.setDeleted k d).Ordered
  | leaf, _ => trivial
  | node l v r, ⟨hl, hr, hlv, hvr⟩ => by
      have keys : ∀ t : DirentTree, ∀ u ∈ (t.setDeleted k d).toList, ∃ u' ∈ t.toList,
          u'.hk = u.hk := fun t u hu => by
        have := List.mem_map_of_mem (·.hk) hu
        rwa [toList_setDeleted_hk, List.mem_map] at this
      simp only [setDeleted_node]
      split_ifs
      · refine ⟨hl.setDeleted k d, hr, fun u hu => ?_, hvr⟩
        obtain ⟨u', hu', he⟩ := keys l u hu
        exact he ▸ hlv u' hu'
      · exact ⟨hl, hr, hlv, hvr⟩
      · refine ⟨hl, hr.setDeleted k d, hlv, fun u hu => ?_⟩
        obtain ⟨u', hu', he⟩ := keys r u hu
        exact he ▸ hvr u' hu'

/-- In a search tree, inserting at a free key adds exactly the inserted entry. -/
theorem mem_insert_iff {t : DirentTree} (ho : t.Ordered) {v : MdcacheDirEntry}
    (hfree : t.lookup v.hk = none) (w : MdcacheDirEntry) :
    w ∈ (t.insert v).toList ↔ w = v ∨ w ∈ t.toList := by
  rw [mem_iff_lookup (ho.insert v), mem_iff_lookup ho, lookup_insert]
  by_cases hw : w.hk = v.hk
  · rw [if_pos ⟨hw, hw ▸ hfree⟩, hw, hfree]
    simp [eq_comm]
  · rw [if_neg fun h => hw h.1]
    exact ⟨.inr, fun h => h.elim (fun h => absurd (congrArg _ h) hw) id⟩

/-- In a search tree, setting the tombstone flag at key `k` changes the entry at `k` and keeps
the others. -/
theorem mem_setDeleted_iff {t : DirentTree} (ho : t.Ordered) (k : UInt64) (d : Bool)
    (u : MdcacheDirEntry) :
    u ∈ (t.setDeleted k d).toList ↔
      ∃ w ∈ t.toList, u = if w.hk = k then { w with deleted := d } else w := by
  rw [mem_iff_lookup (ho.setDeleted k d), lookup_setDeleted, Option.map_eq_some']
  constructor
  · rintro ⟨w, hw, he⟩
    obtain ⟨hk, hmem⟩ := lookup_eq_some hw
    exact ⟨w, hmem, by rw [← he, hk]⟩
  · rintro ⟨w, hw, rfl⟩
    have hl := lookup_of_mem ho hw
    by_cases h : w.hk = k
    · subst h
      exact ⟨w, by simpa using hl, by simp⟩
    · exact ⟨w, by simpa [h] using hl, by simp [h]⟩

end DirentTree

end Ganesha.Mdcache
