import Ganesha.Mdcache.Avl
import Mathlib.Data.List.Perm.Subperm
import Mathlib.Data.List.Nodup

/-!
# The dirent index: quadratic probing over the dirent tree

A directory finds its entries by name through one tree ordered by hash key (`mdcache_avl.h`).
Two names may hash alike, so the name that collides for the `j`-th time goes to the probe key
`k + j + j²` (modulo 2⁶⁴), up to a bound `maxj`, and a lookup by name walks the same keys. An
invalidated entry is only marked a tombstone (`avl_dirent_set_deleted`) and stays in the tree:
the probe walks of other names still pass over it, and inserting its name again brings it back
instead of adding a second entry.

`mdcache_avl_qp_insert`, `mdcache_avl_qp_lookup_s`, `mdcache_avl_lookup_k`,
`avl_dirent_set_deleted` and `mdcache_avl_clean_tree` are in `mdcache_avl.c`, which is not in the
sources: they are modelled from the spec, over the tree of `Avl.lean`, with the name hash and the
insertion bound `maxj` as parameters.

`IndexInv` holds after every run of these operations: the tree is ordered, and each entry sits at
a probe key of its name below `maxj` whose earlier probe keys hold entries of other names.
`dirent_index_refines` concludes that the index implements a directory holding at most one entry
per name, `qp_insert_collisions_bound` that an insertion reports too many collisions only in a
directory of at least `maxj` entries of other names, and `dirent_insert_order` that the directory
does not depend on the order of the insertions.
-/

namespace Ganesha.Mdcache

open DirentTree

/-- Modelled from the spec: the `j`-th probe key of a name whose hash is `k`, `k + j + j²` modulo
2⁶⁴. -/
def qpKey (k : UInt64) (j : Nat) : UInt64 := UInt64.ofNat (k.toNat + j + j * j)

/-- The probe key as a number: the sum wraps modulo 2⁶⁴. -/
theorem qpKey_toNat (k : UInt64) (j : Nat) :
    (qpKey k j).toNat = (k.toNat + j + j * j) % 2 ^ 64 := BitVec.toNat_ofNat _ _

/-- Below `2³²` the probe keys of one name are pairwise distinct: `j + j²` grows strictly and
stays below 2⁶⁴, so the sum does not wrap onto an earlier key. -/
theorem qpKey_injective (k : UInt64) {i j : Nat} (hi : i < 2 ^ 32) (hj : j < 2 ^ 32)
    (h : qpKey k i = qpKey k j) : i = j := by
  have lt : ∀ {a b : Nat}, a < b → b < 2 ^ 32 → qpKey k a ≠ qpKey k b := fun {a b} hab hb he => by
    have hsq : a * a < b * b := Nat.mul_self_lt_mul_self hab
    have hbound : b * b ≤ (2 ^ 32 - 1) * (2 ^ 32 - 1) := Nat.mul_self_le_mul_self (by omega)
    have := congrArg UInt64.toNat he
    rw [qpKey_toNat, qpKey_toNat] at this
    omega
  rcases Nat.lt_trichotomy i j with hij | hij | hij
  exacts [absurd h (lt hij hj), hij, absurd h.symm (lt hij hi)]

/-- The probe key `i` of a name of hash `k` is taken by an entry of another name. -/
def Taken (t : DirentTree) (name : List Char) (k : UInt64) (i : Nat) : Prop :=
  ∃ w, t.lookup (qpKey k i) = some w ∧ w.name ≠ name

/-! ## The operations -/

/-- What `mdcache_avl_qp_insert` returns with the entry: the entry now live for the name (new, or
its tombstone brought back), the live entry the name already had, or too many collisions. -/
inductive QpInsertResult where
  | ok (v : MdcacheDirEntry)
  | duplicate (v : MdcacheDirEntry)
  | tooManyCollisions
  deriving DecidableEq, Repr

/-- The probe walk of `mdcache_avl_qp_insert` from probe `j` with `n` probes left: the first probe
key that is free or holds an entry of the same name, with that entry. -/
def qpInsertSlot (t : DirentTree) (name : List Char) (k : UInt64) (j : Nat) :
    Nat → Option (UInt64 × Option MdcacheDirEntry)
  | 0 => none
  | n + 1 =>
      match t.lookup (qpKey k j) with
      | none => some (qpKey k j, none)
      | some v =>
          if v.name = name then some (qpKey k j, some v) else qpInsertSlot t name k (j + 1) n

/-- The probe walk of `mdcache_avl_qp_lookup_s` from probe `j` with `n` probes left: the first
entry of the name on the way answers, itself when live and `NULL` when a tombstone. -/
def qpLookupS (t : DirentTree) (name : List Char) (k : UInt64) (j : Nat) :
    Nat → Option MdcacheDirEntry
  | 0 => none
  | n + 1 =>
      match t.lookup (qpKey k j) with
      | some v =>
          if v.name = name then (if v.deleted then none else some v)
          else qpLookupS t name k (j + 1) n
      | none => qpLookupS t name k (j + 1) n

section Operations

variable (hash : List Char → UInt64)

/-- Modelled from the spec: `mdcache_avl_init`, an empty tree. -/
def mdcacheAvlInit : DirentTree := .leaf

/-- Modelled from the spec: `mdcache_avl_qp_insert`. Walk the probe keys of the name: at the first
free key insert a live entry; at an entry of the same name, bring it back in place if it is a
tombstone and return it as it is if it is live; pass over an entry of another name, live or a
tombstone, which keeps its key; after `maxj` keys taken by other names, fail with too many
collisions. -/
def mdcacheAvlQpInsert (maxj : Nat) (t : DirentTree) (name : List Char) :
    QpInsertResult × DirentTree :=
  match qpInsertSlot t name (hash name) 0 maxj with
  | none => (.tooManyCollisions, t)
  | some (key, none) => (.ok ⟨name, key, false⟩, t.insert ⟨name, key, false⟩)
  | some (key, some v) =>
      if v.deleted then (.ok { v with deleted := false }, t.setDeleted key false)
      else (.duplicate v, t)

/-- Modelled from the spec: `mdcache_avl_qp_lookup_s`, walking the first `maxj` probe keys. -/
def mdcacheAvlQpLookupS (t : DirentTree) (name : List Char) (maxj : Nat) :
    Option MdcacheDirEntry :=
  qpLookupS t name (hash name) 0 maxj

end Operations

/-- Modelled from the spec: `mdcache_avl_lookup_k` with `MDCACHE_FLAG_NONE` or
`MDCACHE_FLAG_ONLY_ACTIVE`: the entry at key `k`, a tombstone only when tombstones are
visible. -/
def mdcacheAvlLookupK (t : DirentTree) (k : UInt64) (onlyActive : Bool) :
    Option MdcacheDirEntry :=
  (t.lookup k).filter fun v => !(onlyActive && v.deleted)

/-- Modelled from the spec: `avl_dirent_set_deleted`: the entry becomes a tombstone in place. -/
def avlDirentSetDeleted (t : DirentTree) (v : MdcacheDirEntry) : DirentTree :=
  t.setDeleted v.hk true

/-- Modelled from the spec: `mdcache_avl_clean_tree` unlinks every entry. -/
def mdcacheAvlCleanTree (_t : DirentTree) : DirentTree := .leaf

/-! ## The two probe walks -/

/-- A probe walk of the insertion that finds no slot saw every probe key taken by another name. -/
theorem qpInsertSlot_eq_none {t : DirentTree} {name : List Char} {k : UInt64} :
    ∀ {j n : Nat}, qpInsertSlot t name k j n = none → ∀ i, j ≤ i → i < j + n → Taken t name k i
  | _, 0, _, _, _, hi => by omega
  | j, n + 1, h, i, hj, hi => by
      simp only [qpInsertSlot] at h
      split at h
      · cases h
      · rename_i v hv
        split_ifs at h with hname
        rcases Nat.eq_or_lt_of_le hj with rfl | hj
        exacts [⟨v, hv, hname⟩, qpInsertSlot_eq_none h i hj (by omega)]

/-- A slot the insertion's probe walk returns is its first probe key that is free or holds an
entry of the name, every earlier one taken by another name. -/
theorem qpInsertSlot_eq_some {t : DirentTree} {name : List Char} {k key : UInt64}
    {o : Option MdcacheDirEntry} :
    ∀ {j n : Nat}, qpInsertSlot t name k j n = some (key, o) →
      ∃ i, j ≤ i ∧ i < j + n ∧ key = qpKey k i ∧ t.lookup key = o ∧
        (∀ v, o = some v → v.name = name) ∧ ∀ i', j ≤ i' → i' < i → Taken t name k i'
  | _, 0, h => nomatch h
  | j, n + 1, h => by
      simp only [qpInsertSlot] at h
      split at h
      · rename_i hfree
        cases h
        exact ⟨j, le_rfl, by omega, rfl, hfree, nofun, fun _ _ _ => by omega⟩
      · rename_i v hv
        split_ifs at h with hname
        · cases h
          exact ⟨j, le_rfl, by omega, rfl, hv, fun _ h => by cases h; exact hname,
            fun _ _ _ => by omega⟩
        · obtain ⟨i, hji, hin, rfl, hkey, hsame, hbefore⟩ := qpInsertSlot_eq_some h
          refine ⟨i, by omega, by omega, rfl, hkey, hsame, fun i' hj hi => ?_⟩
          rcases Nat.eq_or_lt_of_le hj with rfl | hj
          exacts [⟨v, hv, hname⟩, hbefore i' hj hi]

/-- The lookup walk answers for the first entry of the name on its way. -/
theorem qpLookupS_of_found {t : DirentTree} {name : List Char} {k : UInt64} {i : Nat}
    {v : MdcacheDirEntry} (hv : t.lookup (qpKey k i) = some v) (hname : v.name = name) :
    ∀ {j n : Nat}, j ≤ i → i < j + n → (∀ i', j ≤ i' → i' < i → Taken t name k i') →
      qpLookupS t name k j n = if v.deleted then none else some v
  | _, 0, _, hi, _ => by omega
  | j, n + 1, hj, hi, hbefore => by
      rcases Nat.eq_or_lt_of_le hj with rfl | hj
      · simp [qpLookupS, hv, hname]
      · obtain ⟨w, hw, hwname⟩ := hbefore j le_rfl hj
        simp only [qpLookupS, hw, if_neg hwname]
        exact qpLookupS_of_found hv hname (by omega) (by omega)
          fun i' hj' hi' => hbefore i' (by omega) hi'

/-- The lookup walk finds nothing for a name no probe key holds. -/
theorem qpLookupS_of_absent {t : DirentTree} {name : List Char} {k : UInt64}
    (habs : ∀ i w, t.lookup (qpKey k i) = some w → w.name ≠ name) :
    ∀ {j n : Nat}, qpLookupS t name k j n = none
  | _, 0 => rfl
  | j, n + 1 => by
      simp only [qpLookupS]
      split
      · rename_i w hw
        rw [if_neg (habs j w hw)]
        exact qpLookupS_of_absent habs
      · exact qpLookupS_of_absent habs

/-! ## The invariant -/

/-- Every key `t` holds is still held in `t'`, by an entry of the same name. -/
def Extends (t t' : DirentTree) : Prop :=
  ∀ key w, t.lookup key = some w → ∃ w', t'.lookup key = some w' ∧ w'.name = w.name

/-- Insertion and setting a tombstone flag unlink nothing and rename nothing. -/
theorem Extends.insert (t : DirentTree) (v : MdcacheDirEntry) : Extends t (t.insert v) :=
  fun key w h => ⟨w, by rw [lookup_insert, h]; simp, rfl⟩

theorem Extends.setDeleted (t : DirentTree) (k : UInt64) (d : Bool) :
    Extends t (t.setDeleted k d) :=
  fun key w h => ⟨_, by rw [lookup_setDeleted, h]; rfl, by split_ifs <;> rfl⟩

theorem Taken.mono {t t' : DirentTree} (hext : Extends t t') {name : List Char} {k : UInt64}
    {i : Nat} : Taken t name k i → Taken t' name k i
  | ⟨w, hw, hname⟩ =>
      let ⟨w', hw', hsame⟩ := hext _ w hw
      ⟨w', hw', hsame ▸ hname⟩

section Invariant

variable (hash : List Char → UInt64) (maxj : Nat)

/-- An entry is placed in `t`: it sits at a probe key of its name below `maxj`, and each earlier
probe key of its name is taken by an entry of another name. -/
def Placed (t : DirentTree) (v : MdcacheDirEntry) : Prop :=
  ∃ j < maxj, v.hk = qpKey (hash v.name) j ∧ ∀ i < j, Taken t v.name (hash v.name) i

/-- The invariant of a directory's index. -/
structure IndexInv (t : DirentTree) : Prop where
  ordered : t.Ordered
  placed : ∀ v ∈ t.toList, Placed hash maxj t v

variable {hash maxj}

theorem Placed.mono {t t' : DirentTree} (hext : Extends t t') {v : MdcacheDirEntry} :
    Placed hash maxj t v → Placed hash maxj t' v
  | ⟨j, hj, hk, hbefore⟩ => ⟨j, hj, hk, fun i hi => (hbefore i hi).mono hext⟩

/-- The empty tree satisfies the invariant. -/
theorem IndexInv.leaf : IndexInv hash maxj .leaf := ⟨trivial, nofun⟩

/-- An operation keeps the invariant when the tree stays ordered, every taken key stays taken by
the same name, and every entry of the new tree is placed in the old one. -/
theorem IndexInv.of_extends {t t' : DirentTree} (ho : t'.Ordered) (hext : Extends t t')
    (hplaced : ∀ v ∈ t'.toList, Placed hash maxj t v) : IndexInv hash maxj t' :=
  ⟨ho, fun v hv => (hplaced v hv).mono hext⟩

/-- An entry of the index is found at its probe key, after probe keys taken by other names. -/
theorem IndexInv.found {t : DirentTree} (hinv : IndexInv hash maxj t) {v : MdcacheDirEntry}
    (hv : v ∈ t.toList) :
    ∃ j < maxj, t.lookup (qpKey (hash v.name) j) = some v ∧
      ∀ i < j, Taken t v.name (hash v.name) i :=
  let ⟨j, hj, hk, hbefore⟩ := hinv.placed v hv
  ⟨j, hj, hk ▸ lookup_of_mem hinv.ordered hv, hbefore⟩

/-- The entry of a name sits at the first probe key of the name not taken by another name. -/
theorem IndexInv.found_first {t : DirentTree} (hinv : IndexInv hash maxj t) {v : MdcacheDirEntry}
    (hv : v ∈ t.toList) {i : Nat} (hbefore : ∀ i' < i, Taken t v.name (hash v.name) i')
    (hnot : ¬Taken t v.name (hash v.name) i) : t.lookup (qpKey (hash v.name) i) = some v := by
  obtain ⟨j, -, hvj, hjbefore⟩ := hinv.found hv
  rcases Nat.lt_trichotomy j i with hji | rfl | hji
  · obtain ⟨w, hw, hne⟩ := hbefore j hji
    rw [hvj] at hw
    cases hw
    exact absurd rfl hne
  · exact hvj
  · exact absurd (hjbefore i hji) hnot

/-- The index holds at most one entry per name. -/
theorem IndexInv.unique {t : DirentTree} (hinv : IndexInv hash maxj t) {v w : MdcacheDirEntry}
    (hv : v ∈ t.toList) (hw : w ∈ t.toList) (hname : v.name = w.name) : v = w := by
  obtain ⟨i, -, hvi, hbefore⟩ := hinv.found hv
  have hnot : ¬Taken t w.name (hash w.name) i := fun ⟨u, hu, hne⟩ => by
    rw [← hname, hvi] at hu
    cases hu
    exact hne hname
  rw [hname] at hvi hbefore
  exact Option.some_injective _ (hvi.symm.trans (hinv.found_first hw hbefore hnot))

/-- A name whose first `maxj` probe keys are all taken by other names has no entry. -/
theorem IndexInv.absent_of_taken {t : DirentTree} (hinv : IndexInv hash maxj t)
    {name : List Char} (htaken : ∀ i < maxj, Taken t name (hash name) i) :
    ∀ v ∈ t.toList, v.name ≠ name := by
  rintro v hv rfl
  obtain ⟨j, hj, hvj, -⟩ := hinv.found hv
  obtain ⟨w, hw, hne⟩ := htaken j hj
  rw [hvj] at hw
  cases hw
  exact hne rfl

/-! ## The directory the index stands for -/

/-- The entry the tree holds for a name. -/
def DirentTree.entryOf (t : DirentTree) (name : List Char) : Option MdcacheDirEntry :=
  t.toList.find? (·.name = name)

/-- The directory the tree stands for: for each name, whether its entry is a tombstone, or
`none` for a name it does not hold. -/
def DirentTree.view (t : DirentTree) (name : List Char) : Option Bool :=
  (t.entryOf name).map (·.deleted)

/-- A tree holds no entry for a name exactly when none of its entries has that name. -/
theorem entryOf_eq_none {t : DirentTree} {name : List Char} :
    t.entryOf name = none ↔ ∀ v ∈ t.toList, v.name ≠ name := by
  simp [DirentTree.entryOf, List.find?_eq_none]

/-- Under the invariant, the entry of a name is its one entry of that name. -/
theorem IndexInv.entryOf_eq_some {t : DirentTree} (hinv : IndexInv hash maxj t)
    {name : List Char} {v : MdcacheDirEntry} :
    t.entryOf name = some v ↔ v ∈ t.toList ∧ v.name = name := by
  constructor
  · intro h
    exact ⟨List.mem_of_find?_eq_some h, by simpa using List.find?_some h⟩
  · rintro ⟨hv, rfl⟩
    cases h : t.entryOf v.name with
    | none => exact absurd rfl (entryOf_eq_none.1 h v hv)
    | some w =>
        have hw : w ∈ t.toList ∧ w.name = v.name :=
          ⟨List.mem_of_find?_eq_some h, by simpa using List.find?_some h⟩
        rw [hinv.unique hw.1 hv hw.2]

/-- Two trees hold the same entry for a name when they hold the same entries of that name. -/
theorem IndexInv.entryOf_congr {t t' : DirentTree} (hinv : IndexInv hash maxj t)
    (hinv' : IndexInv hash maxj t') {name : List Char}
    (hmem : ∀ v, v ∈ t'.toList ∧ v.name = name ↔ v ∈ t.toList ∧ v.name = name) :
    t'.entryOf name = t.entryOf name := by
  cases h : t.entryOf name with
  | none =>
      exact entryOf_eq_none.2 fun v hv hname =>
        entryOf_eq_none.1 h v ((hmem v).1 ⟨hv, hname⟩).1 hname
  | some v => exact hinv'.entryOf_eq_some.2 ((hmem v).2 (hinv.entryOf_eq_some.1 h))

/-! ## What each operation does -/

/-- Setting a tombstone flag keeps the invariant. -/
theorem IndexInv.setDeleted {t : DirentTree} (hinv : IndexInv hash maxj t) (k : UInt64)
    (d : Bool) : IndexInv hash maxj (t.setDeleted k d) :=
  .of_extends (hinv.ordered.setDeleted k d) (.setDeleted t k d) fun u hu => by
    obtain ⟨w, hw, rfl⟩ := (mem_setDeleted_iff hinv.ordered k d _).1 hu
    split_ifs <;> exact hinv.placed w hw

/-- Inserting an entry placed at a free key keeps the invariant. -/
theorem IndexInv.insert {t : DirentTree} (hinv : IndexInv hash maxj t) {v : MdcacheDirEntry}
    (hfree : t.lookup v.hk = none) (hv : Placed hash maxj t v) :
    IndexInv hash maxj (t.insert v) :=
  .of_extends (hinv.ordered.insert v) (.insert t v) fun u hu =>
    ((mem_insert_iff hinv.ordered hfree _).1 hu).elim (fun h => h ▸ hv) (hinv.placed u)

/-- Tombstoning the entry `v` of the index, or bringing it back, changes the entry of its name
and no other. -/
theorem IndexInv.entryOf_setDeleted {t : DirentTree} (hinv : IndexInv hash maxj t)
    {v : MdcacheDirEntry} (hv : v ∈ t.toList) (d : Bool) (name : List Char) :
    (t.setDeleted v.hk d).entryOf name =
      if name = v.name then some { v with deleted := d } else t.entryOf name := by
  have hmem := mem_setDeleted_iff hinv.ordered v.hk d
  have hsame : ∀ w ∈ t.toList, w.hk = v.hk → w = v := fun w hw hk =>
    Option.some_injective _ ((lookup_of_mem hinv.ordered hw).symm.trans
      (hk ▸ lookup_of_mem hinv.ordered hv))
  have hinv' := hinv.setDeleted v.hk d
  split_ifs with hname
  · subst hname
    refine hinv'.entryOf_eq_some.2 ⟨(hmem _).2 ⟨v, hv, by simp⟩, rfl⟩
  · refine hinv.entryOf_congr hinv' fun u => ⟨fun ⟨hu, hu'⟩ => ?_, fun ⟨hu, hu'⟩ => ?_⟩
    · obtain ⟨w, hw, rfl⟩ := (hmem _).1 hu
      split_ifs at hu' ⊢ with hk
      · exact absurd (hsame w hw hk ▸ hu'.symm) hname
      · exact ⟨hw, hu'⟩
    · have hk : u.hk ≠ v.hk := fun hk => hname (hu' ▸ congrArg _ (hsame u hu hk))
      exact ⟨(hmem _).2 ⟨u, hu, by rw [if_neg hk]⟩, hu'⟩

/-- Tombstoning an entry, or bringing it back, sets the flag of its name in the directory. -/
theorem IndexInv.view_setDeleted {t : DirentTree} (hinv : IndexInv hash maxj t)
    {v : MdcacheDirEntry} (hv : v ∈ t.toList) (d : Bool) :
    (t.setDeleted v.hk d).view = Function.update t.view v.name (some d) := by
  funext name
  simp only [DirentTree.view, hinv.entryOf_setDeleted hv, Function.update_apply]
  split_ifs <;> rfl

/-- Inserting an entry placed at a free key adds its name and changes no other. -/
theorem IndexInv.entryOf_insert {t : DirentTree} (hinv : IndexInv hash maxj t)
    {v : MdcacheDirEntry} (hfree : t.lookup v.hk = none) (hv : Placed hash maxj t v)
    (name : List Char) :
    (t.insert v).entryOf name = if name = v.name then some v else t.entryOf name := by
  have hmem := mem_insert_iff hinv.ordered hfree
  have hinv' := hinv.insert hfree hv
  split_ifs with hname
  · exact hinv'.entryOf_eq_some.2 ⟨(hmem _).2 (.inl rfl), hname.symm⟩
  · refine hinv.entryOf_congr hinv' fun u => ⟨fun ⟨hu, hu'⟩ => ⟨?_, hu'⟩, fun ⟨hu, hu'⟩ =>
      ⟨(hmem _).2 (.inr hu), hu'⟩⟩
    exact ((hmem _).1 hu).resolve_left fun h => hname (h ▸ hu'.symm)

/-- Inserting an entry placed at a free key adds its name to the directory. -/
theorem IndexInv.view_insert {t : DirentTree} (hinv : IndexInv hash maxj t)
    {v : MdcacheDirEntry} (hfree : t.lookup v.hk = none) (hv : Placed hash maxj t v) :
    (t.insert v).view = Function.update t.view v.name (some v.deleted) := by
  funext name
  simp only [DirentTree.view, hinv.entryOf_insert hfree hv, Function.update_apply]
  split_ifs <;> rfl

/-- Everything an insertion can do, from an index that satisfies the invariant: fail with too
many collisions when the first `maxj` probe keys are all taken by other names; return the live
entry of the name, changing nothing; insert a new entry, placed at a free key, for a name the
index does not hold; or bring back the tombstone of the name. -/
theorem IndexInv.qpInsert_cases {t : DirentTree} (hinv : IndexInv hash maxj t)
    (name : List Char) :
    (mdcacheAvlQpInsert hash maxj t name = (.tooManyCollisions, t) ∧
        ∀ i < maxj, Taken t name (hash name) i) ∨
      (∃ v, mdcacheAvlQpInsert hash maxj t name = (.duplicate v, t) ∧
        t.entryOf name = some v ∧ v.deleted = false) ∨
      (∃ key, mdcacheAvlQpInsert hash maxj t name =
          (.ok ⟨name, key, false⟩, t.insert ⟨name, key, false⟩) ∧
        t.lookup key = none ∧ Placed hash maxj t ⟨name, key, false⟩ ∧ t.entryOf name = none) ∨
      (∃ v, mdcacheAvlQpInsert hash maxj t name =
          (.ok { v with deleted := false }, t.setDeleted v.hk false) ∧
        t.entryOf name = some v ∧ v.deleted = true) := by
  unfold mdcacheAvlQpInsert
  split
  · rename_i h
    exact .inl ⟨rfl, fun i hi => qpInsertSlot_eq_none h i (Nat.zero_le _) (by omega)⟩
  · rename_i key h
    obtain ⟨i, -, hi, rfl, hfree, -, hbefore⟩ := qpInsertSlot_eq_some h
    refine .inr (.inr (.inl ⟨_, rfl, hfree, ⟨i, by omega, rfl, fun i' => hbefore i' (by omega)⟩,
      entryOf_eq_none.2 ?_⟩))
    rintro u hu rfl
    have hu' := hinv.found_first hu (fun i' => hbefore i' (Nat.zero_le _))
      fun ⟨w, hw, _⟩ => by rw [hw] at hfree; cases hfree
    rw [hu'] at hfree
    cases hfree
  · rename_i key v h
    obtain ⟨i, -, -, rfl, hv, hname, -⟩ := qpInsertSlot_eq_some h
    obtain ⟨hk, hmem⟩ := lookup_eq_some hv
    have hentry := hinv.entryOf_eq_some.2 ⟨hmem, hname v rfl⟩
    split_ifs with hdel
    · exact .inr (.inr (.inr ⟨v, by rw [hk], hentry, hdel⟩))
    · exact .inr (.inl ⟨v, rfl, hentry, by simpa using hdel⟩)

/-- An insertion keeps the invariant. -/
theorem IndexInv.qpInsert {t : DirentTree} (hinv : IndexInv hash maxj t) (name : List Char) :
    IndexInv hash maxj (mdcacheAvlQpInsert hash maxj t name).2 := by
  rcases hinv.qpInsert_cases name with ⟨h, -⟩ | ⟨v, h, -⟩ | ⟨key, h, hfree, hv, -⟩ | ⟨v, h, -⟩ <;>
    rw [h]
  exacts [hinv, hinv, hinv.insert hfree hv, hinv.setDeleted _ false]

/-- A lookup by name that walks at least `maxj` probe keys finds the live entry of the name. -/
theorem IndexInv.qpLookupS {t : DirentTree} (hinv : IndexInv hash maxj t) (name : List Char)
    {maxj' : Nat} (hmaxj : maxj ≤ maxj') :
    mdcacheAvlQpLookupS hash t name maxj' = (t.entryOf name).filter (!·.deleted) := by
  cases h : t.entryOf name with
  | none =>
      exact qpLookupS_of_absent fun i w hw hname =>
        entryOf_eq_none.1 h w (lookup_eq_some hw).2 hname
  | some v =>
      obtain ⟨hv, rfl⟩ := hinv.entryOf_eq_some.1 h
      obtain ⟨j, hj, hvj, hbefore⟩ := hinv.found hv
      rw [mdcacheAvlQpLookupS, qpLookupS_of_found hvj rfl (Nat.zero_le _) (by omega)
        fun i' _ hi' => hbefore i' hi']
      cases hd : v.deleted <;> simp [Option.filter, hd]

/-- An insertion that does not run out of probe keys leaves its name live and every other name
as it was. -/
theorem IndexInv.view_qpInsert {t : DirentTree} (hinv : IndexInv hash maxj t) {name : List Char}
    (h : (mdcacheAvlQpInsert hash maxj t name).1 ≠ .tooManyCollisions) :
    (mdcacheAvlQpInsert hash maxj t name).2.view = Function.update t.view name (some false) := by
  rcases hinv.qpInsert_cases name with ⟨h', -⟩ | ⟨v, h', hv, hd⟩ | ⟨key, h', hfree, hp, -⟩ |
    ⟨v, h', hv, -⟩ <;> rw [h'] at h ⊢
  · exact absurd rfl h
  · exact (Function.update_eq_self_iff.2 (by simp [DirentTree.view, hv, hd])).symm
  · exact hinv.view_insert hfree hp
  · obtain ⟨hmem, rfl⟩ := hinv.entryOf_eq_some.1 hv
    exact hinv.view_setDeleted hmem false

end Invariant

/-- An insertion that reports too many collisions found each of its `maxj` probe keys taken by an
entry of another name. -/
theorem taken_of_tooManyCollisions {hash : List Char → UInt64} {maxj : Nat} {t : DirentTree}
    {name : List Char} (h : (mdcacheAvlQpInsert hash maxj t name).1 = .tooManyCollisions) :
    ∀ i < maxj, Taken t name (hash name) i := by
  unfold mdcacheAvlQpInsert at h
  split at h
  · exact fun i hi => qpInsertSlot_eq_none ‹_› i (Nat.zero_le _) (by omega)
  · cases h
  · split_ifs at h

/-- `mdcache_avl_qp_insert` reports too many collisions only in a directory holding at least `maxj`
entries of other names, whatever the tree and the hash function, as long as `maxj ≤ 2³²`: each of
its probe keys is then taken by an entry of another name, and the probe keys are distinct. In
particular a directory of fewer than `maxj` entries never reports too many collisions. -/
theorem qp_insert_collisions_bound (hash : List Char → UInt64) (maxj : Nat) (t : DirentTree)
    (name : List Char) (hmaxj : maxj ≤ 2 ^ 32)
    (h : (mdcacheAvlQpInsert hash maxj t name).1 = .tooManyCollisions) :
    maxj ≤ (t.toList.filter (·.name ≠ name)).length := by
  have htaken := taken_of_tooManyCollisions h
  -- the probe keys of the name are distinct keys of entries of other names
  have hsub : (List.range maxj).map (qpKey (hash name)) ⊆
      (t.toList.filter (·.name ≠ name)).map (·.hk) := fun key hkey => by
    obtain ⟨i, hi, rfl⟩ := List.mem_map.1 hkey
    obtain ⟨w, hw, hne⟩ := htaken i (List.mem_range.1 hi)
    obtain ⟨hk, hmem⟩ := lookup_eq_some hw
    exact List.mem_map.2 ⟨w, List.mem_filter.2 ⟨hmem, by simpa using hne⟩, hk⟩
  have hnodup : ((List.range maxj).map (qpKey (hash name))).Nodup :=
    (List.nodup_range maxj).map_on fun i hi j hj =>
      qpKey_injective _ (by simp at hi; omega) (by simp at hj; omega)
  simpa using (List.subperm_of_subset hnodup hsub).length_le

/-- One entry of name `a`, at probe key `0` of a hash that is `0` for every name. -/
def oneEntryIndex : DirentTree := (mdcacheAvlQpInsert (fun _ => 0) 1 mdcacheAvlInit ['a']).2

/-- With every name hashing to `0` and `maxj = 1`, inserting `b` next to `a` collides once too
often, and the directory holds the one entry of another name the bound asks for. -/
theorem qp_insert_collisions_bound_one :
    1 ≤ (oneEntryIndex.toList.filter (·.name ≠ ['b'])).length :=
  qp_insert_collisions_bound (fun _ => 0) 1 oneEntryIndex ['b'] (by decide) rfl

/-! ## The index implements a directory -/

/-- The trees a directory's index goes through from `mdcache_avl_init`: insertions, tombstoning
of an entry the tree holds, and cleaning. -/
inductive DirentTree.Reachable (hash : List Char → UInt64) (maxj : Nat) : DirentTree → Prop
  | init : Reachable hash maxj mdcacheAvlInit
  | insert {t : DirentTree} (name : List Char) : Reachable hash maxj t →
      Reachable hash maxj (mdcacheAvlQpInsert hash maxj t name).2
  | setDeleted {t : DirentTree} {v : MdcacheDirEntry} : Reachable hash maxj t → v ∈ t.toList →
      Reachable hash maxj (avlDirentSetDeleted t v)
  | cleanTree {t : DirentTree} : Reachable hash maxj t →
      Reachable hash maxj (mdcacheAvlCleanTree t)

/-- Every index a run reaches satisfies the invariant. -/
theorem DirentTree.Reachable.indexInv {hash : List Char → UInt64} {maxj : Nat} {t : DirentTree}
    (ht : DirentTree.Reachable hash maxj t) : IndexInv hash maxj t := by
  induction ht with
  | init => exact .leaf
  | insert name _ ih => exact ih.qpInsert name
  | setDeleted _ _ ih => exact ih.setDeleted _ true
  | cleanTree _ => exact .leaf

/-- The dirent index implements a directory that maps each name to at most one entry. In every
state a run reaches from an empty tree, whatever the hash function: no two entries share a name;
a lookup by name that walks at least `maxj` probe keys returns the live entry of the name, and
`NULL` for a tombstone or a name the directory does not hold; a lookup by key that only sees live
entries agrees with the lookup by name; an insertion either reports too many collisions for a
name the directory does not hold and changes nothing, or returns the live entry of the name and
changes nothing, or makes the name live (a new entry, or its tombstone brought back) and changes
no other name; and tombstoning an entry makes its name a tombstone and changes no other name. -/
theorem dirent_index_refines (hash : List Char → UInt64) (maxj : Nat) {t : DirentTree}
    (ht : DirentTree.Reachable hash maxj t) :
    (∀ v ∈ t.toList, ∀ w ∈ t.toList, v.name = w.name → v = w) ∧
    (∀ name maxj', maxj ≤ maxj' →
      mdcacheAvlQpLookupS hash t name maxj' = (t.entryOf name).filter (!·.deleted)) ∧
    (∀ k v maxj', maxj ≤ maxj' → mdcacheAvlLookupK t k true = some v →
      mdcacheAvlQpLookupS hash t v.name maxj' = some v) ∧
    (∀ name,
      (mdcacheAvlQpInsert hash maxj t name = (.tooManyCollisions, t) ∧ t.view name = none) ∨
      (∃ v, mdcacheAvlQpInsert hash maxj t name = (.duplicate v, t) ∧
        t.entryOf name = some v ∧ v.deleted = false) ∨
      (∃ v t', mdcacheAvlQpInsert hash maxj t name = (.ok v, t') ∧ t.view name ≠ some false ∧
        t'.entryOf name = some v ∧ v.deleted = false ∧
        t'.view = Function.update t.view name (some false))) ∧
    ∀ v ∈ t.toList,
      (avlDirentSetDeleted t v).view = Function.update t.view v.name (some true) := by
  have hinv := ht.indexInv
  refine ⟨fun v hv w hw => hinv.unique hv hw, fun name _ h => hinv.qpLookupS name h,
    fun k v maxj' h hk => ?_, fun name => ?_, fun v hv => hinv.view_setDeleted hv true⟩
  · obtain ⟨hl, hd⟩ : t.lookup k = some v ∧ v.deleted = false := by
      simpa [mdcacheAvlLookupK, Option.filter_eq_some] using hk
    rw [hinv.qpLookupS v.name h, hinv.entryOf_eq_some.2 ⟨(lookup_eq_some hl).2, rfl⟩]
    simp [Option.filter, hd]
  rcases hinv.qpInsert_cases name with ⟨h, htaken⟩ | ⟨v, h, hv, hd⟩ |
    ⟨key, h, hfree, hp, habs⟩ | ⟨v, h, hv, hd⟩
  · exact .inl ⟨h, by simp [DirentTree.view, entryOf_eq_none.2 (hinv.absent_of_taken htaken)]⟩
  · exact .inr (.inl ⟨v, h, hv, hd⟩)
  · refine .inr (.inr ⟨_, _, h, by simp [DirentTree.view, habs], ?_, rfl,
      hinv.view_insert hfree hp⟩)
    rw [hinv.entryOf_insert hfree hp, if_pos rfl]
  · obtain ⟨hmem, rfl⟩ := hinv.entryOf_eq_some.1 hv
    refine .inr (.inr ⟨_, _, h, by simp [DirentTree.view, hv, hd], ?_, rfl,
      hinv.view_setDeleted hmem false⟩)
    rw [hinv.entryOf_setDeleted hmem, if_pos rfl]

/-- Names `a` then `b` inserted under a hash that is `0` for every name, with `maxj = 2`. -/
def collidingIndex : DirentTree :=
  (mdcacheAvlQpInsert (fun _ => 0) 2 (mdcacheAvlQpInsert (fun _ => 0) 2 mdcacheAvlInit ['a']).2
    ['b']).2

/-- Where `b` collides with `a`, the lookup of `b` walks past `a` to the live entry of `b`. -/
theorem dirent_index_refines_colliding :
    mdcacheAvlQpLookupS (fun _ => 0) collidingIndex ['b'] 2 =
      (collidingIndex.entryOf ['b']).filter (!·.deleted) :=
  (dirent_index_refines (fun _ => 0) 2 (.insert _ (.insert _ .init))).2.1 ['b'] 2 le_rfl

/-! ## Order of insertions -/

/-- Names inserted one after another; `none` once an insertion reports too many collisions. -/
def insertNames (hash : List Char → UInt64) (maxj : Nat) (t : DirentTree) :
    List (List Char) → Option DirentTree
  | [] => some t
  | name :: names =>
      if (mdcacheAvlQpInsert hash maxj t name).1 = .tooManyCollisions then none
      else insertNames hash maxj (mdcacheAvlQpInsert hash maxj t name).2 names

/-- Inserting names that all find a slot makes each of them live and leaves the other names. -/
theorem insertNames_view {hash : List Char → UInt64} {maxj : Nat} :
    ∀ {t t' : DirentTree} {names : List (List Char)}, DirentTree.Reachable hash maxj t →
      insertNames hash maxj t names = some t' →
      t'.view = fun n => if n ∈ names then some false else t.view n
  | t, t', [], _, h => by cases h; rfl
  | t, t', name :: names, ht, h => by
      simp only [insertNames] at h
      split_ifs at h with hfull
      rw [insertNames_view (ht.insert name) h, ht.indexInv.view_qpInsert hfull]
      funext n
      by_cases hn : n = name <;> simp [hn, Function.update_apply]

/-- Insertions commute on the directory: from any index a run reaches, two sequences of insertions
of the same names, in any order and with any repetitions, that both find a slot for every name
leave the same directory, in which each inserted name is live and every other name is as it was.
The trees may differ, since a name's probe key depends on the names inserted before it. -/
theorem dirent_insert_order (hash : List Char → UInt64) (maxj : Nat) {t t₁ t₂ : DirentTree}
    {names₁ names₂ : List (List Char)} (ht : DirentTree.Reachable hash maxj t)
    (hnames : ∀ n, n ∈ names₁ ↔ n ∈ names₂) (h₁ : insertNames hash maxj t names₁ = some t₁)
    (h₂ : insertNames hash maxj t names₂ = some t₂) :
    t₁.view = t₂.view ∧ ∀ n, t₁.view n = if n ∈ names₁ then some false else t.view n := by
  refine ⟨?_, fun n => by rw [insertNames_view ht h₁]⟩
  rw [insertNames_view ht h₁, insertNames_view ht h₂]
  simp only [hnames]

/-- Under a hash that is `0` for every name, inserting `a` then `b` and `b` then `a` gives the
same directory. -/
theorem dirent_insert_order_swap :
    ((insertNames (fun _ => 0) 2 mdcacheAvlInit [['a'], ['b']]).getD .leaf).view =
      ((insertNames (fun _ => 0) 2 mdcacheAvlInit [['b'], ['a']]).getD .leaf).view :=
  (@dirent_insert_order (fun _ => 0) 2 mdcacheAvlInit _ _ [['a'], ['b']] [['b'], ['a']] .init
    (fun n => by simp [or_comm]) rfl rfl).1

end Ganesha.Mdcache
