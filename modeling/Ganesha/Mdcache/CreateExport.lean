import Mathlib.Data.List.Count
import Mathlib.Data.List.Nodup

/-!
# Module references across export creation and release

`mdcache_fsal_create_export` (lines 886-934 of `mdcache_export.c`) reads the sub-FSAL's name from
the configuration, looks the module up, lets the sub-FSAL create its export, and wraps that
export with `mdc_init_export` (lines 829-866); `mdcache_exp_release` (lines 161-182) releases
the sub-export and drops the module reference. `lookup_fsal` returns the module with a reference
taken; each failure path drops it, and `mdc_init_export` takes the reference the MDCACHE export
keeps for its life.

The calls outside this file are inputs: what `load_config_from_node`, `lookup_fsal` and the
sub-FSAL's `create_export` returned. `create_cases` says once what a creation does on each of its
paths. The main result, `create_release_refcount`, says that over any run of creations and
releases the live MDCACHE exports are those the successful creations returned and no release
named, that a module's count is its initial value plus the number of them stacked on it, and
that a failed creation leaves the registry as it was. The name `mdc_init_export` builds for the
export is not modelled: no count depends on it.
-/

namespace Ganesha.Mdcache

/-- A live MDCACHE export: its address and the module of its `sub_export`. -/
structure MdcExport where
  addr : Nat
  subFsal : Nat
  deriving DecidableEq, Repr

/-- The module reference counts and the live MDCACHE exports; `next` is the address the next
allocation returns. -/
@[ext]
structure Registry where
  refcount : Nat → Nat
  live : List MdcExport
  next : Nat

/-- What the calls of `mdcache_fsal_create_export` outside this file returned:
`load_config_from_node` succeeded, the module `lookup_fsal` found, and on success of the
sub-FSAL's `create_export` the module of the export it left in `op_ctx->fsal_export`. -/
structure CreateOutcome where
  configOk : Bool
  subFsal : Option Nat
  subExport : Option Nat
  deriving DecidableEq, Repr

/-- The status `mdcache_fsal_create_export` returns: `ERR_FSAL_INVAL`, the sub-FSAL's error, or
success with the new export. -/
inductive CreateStatus where
  | inval
  | subError
  | ok (exp : Nat)
  deriving DecidableEq, Repr

/-- Modelled from the spec: `fsal_get` is not in the sources; it takes one reference on the
module. -/
def fsalGet (r : Registry) (m : Nat) : Registry :=
  { r with refcount := Function.update r.refcount m (r.refcount m + 1) }

/-- Modelled from the spec: `fsal_put` is not in the sources; it drops one reference on the
module. -/
def fsalPut (r : Registry) (m : Nat) : Registry :=
  { r with refcount := Function.update r.refcount m (r.refcount m - 1) }

/-- Modelled from the spec: `lookup_fsal` is not in the sources; it returns the module found,
with one reference taken on it, or NULL with none. -/
def lookupFsal (r : Registry) : Option Nat → Option Nat × Registry
  | none => (none, r)
  | some m => (some m, fsalGet r m)

/-- `mdc_init_export`: allocate the MDCACHE export, take a reference on the module of
`op_ctx->fsal_export` (the sub-export, module `sub`), and stack the new export on it. -/
def mdcInitExport (r : Registry) (sub : Nat) : Nat × Registry :=
  let r := fsalGet r sub
  (r.next, { r with live := r.live ++ [⟨r.next, sub⟩], next := r.next + 1 })

/-- `mdcache_fsal_create_export`. -/
def mdcacheFsalCreateExport (r : Registry) (o : CreateOutcome) : CreateStatus × Registry :=
  if o.configOk then
    match lookupFsal r o.subFsal with
    | (none, r) => (.inval, r)
    | (some subFsal, r) =>
        match o.subExport with
        | none => (.subError, fsalPut r subFsal)
        | some sub =>
            let (exp, r) := mdcInitExport r sub
            (.ok exp, fsalPut r subFsal)
  else (.inval, r)

/-- `mdcache_exp_release` of the live export at `exp`: release the sub-export, which changes no
count, and drop the reference on its module. `none` when no live export is at `exp`. -/
def mdcacheExpRelease (r : Registry) (exp : Nat) : Option Registry :=
  (r.live.find? (·.addr = exp)).map fun e => fsalPut { r with live := r.live.erase e } e.subFsal

/-- A call of a run: a creation with the outcomes of its external calls, or the release of the
export at an address. -/
inductive Op where
  | create (o : CreateOutcome)
  | release (exp : Nat)

/-- Apply a run of calls; `none` when a release names no live export. -/
def runOps (r : Registry) : List Op → Option Registry
  | [] => some r
  | .create o :: ops => runOps (mdcacheFsalCreateExport r o).2 ops
  | .release exp :: ops => (mdcacheExpRelease r exp).bind fun r => runOps r ops

/-- The addresses the releases of a run name. -/
def releases : List Op → List Nat
  | [] => []
  | .create _ :: ops => releases ops
  | .release exp :: ops => exp :: releases ops

/-- The export a creation returned with status `st` when it succeeded, with the module of its
sub-export. -/
def createdExport (st : CreateStatus) (o : CreateOutcome) : List MdcExport :=
  match st, o.subExport with
  | .ok exp, some sub => [⟨exp, sub⟩]
  | _, _ => []

/-- The exports the successful creations of a run returned, in order, each with the module of its
sub-export: what the run's callers hold. -/
def runCreated (r : Registry) : List Op → List MdcExport
  | [] => []
  | .create o :: ops =>
      createdExport (mdcacheFsalCreateExport r o).1 o ++
        runCreated (mdcacheFsalCreateExport r o).2 ops
  | .release exp :: ops =>
      match mdcacheExpRelease r exp with
      | some r => runCreated r ops
      | none => []

/-- The number of live MDCACHE exports stacked on module `m`. -/
def stackedOn (r : Registry) (m : Nat) : Nat := r.live.countP (·.subFsal = m)

/-- The live exports have distinct addresses, all below the next one. -/
structure Registry.WellFormed (r : Registry) : Prop where
  nodup : (r.live.map (·.addr)).Nodup
  lt_next : ∀ e ∈ r.live, e.addr < r.next

@[simp] theorem fsalGet_refcount (r : Registry) (m m' : Nat) :
    (fsalGet r m).refcount m' = if m' = m then r.refcount m + 1 else r.refcount m' := by
  simp [fsalGet, Function.update_apply]

@[simp] theorem fsalPut_refcount (r : Registry) (m m' : Nat) :
    (fsalPut r m).refcount m' = if m' = m then r.refcount m - 1 else r.refcount m' := by
  simp [fsalPut, Function.update_apply]

@[simp] theorem fsalGet_live (r : Registry) (m : Nat) : (fsalGet r m).live = r.live := rfl

@[simp] theorem fsalPut_live (r : Registry) (m : Nat) : (fsalPut r m).live = r.live := rfl

@[simp] theorem fsalGet_next (r : Registry) (m : Nat) : (fsalGet r m).next = r.next := rfl

@[simp] theorem fsalPut_next (r : Registry) (m : Nat) : (fsalPut r m).next = r.next := rfl

/-- Dropping the reference just taken gives the registry back. -/
theorem fsalPut_fsalGet (r : Registry) (m : Nat) : fsalPut (fsalGet r m) m = r := by
  ext : 1
  · funext m'
    by_cases h : m' = m <;> simp [h]
  all_goals rfl

/-- What a creation does, by its paths. Each of the three failures returns the registry it was
given, since the reference `lookup_fsal` took is dropped again. Success returns the export at
`r.next`, stacked on the module `sub` of the sub-export, which keeps the reference
`mdc_init_export` took on it. -/
theorem create_cases (r : Registry) (o : CreateOutcome) :
    ((∀ exp, (mdcacheFsalCreateExport r o).1 ≠ .ok exp) ∧
      (mdcacheFsalCreateExport r o).2 = r) ∨
    ∃ sub, o.subExport = some sub ∧ mdcacheFsalCreateExport r o =
      (.ok r.next,
        { fsalGet r sub with live := r.live ++ [⟨r.next, sub⟩], next := r.next + 1 }) := by
  unfold mdcacheFsalCreateExport
  cases hc : o.configOk with
  | false => simp -- the configuration cannot be read
  | true =>
      cases hl : o.subFsal with
      | none => simp [lookupFsal] -- `lookup_fsal` finds no module
      | some m =>
          cases hs : o.subExport with
          | none => simp [lookupFsal, fsalPut_fsalGet] -- the sub-FSAL's `create_export` fails
          | some sub =>
              -- the lookup's reference on `m` is dropped, the one on `sub` kept
              refine .inr ⟨sub, rfl, ?_⟩
              simp only [lookupFsal, mdcInitExport, if_true, fsalGet_next, fsalGet_live,
                Prod.mk.injEq, true_and]
              ext : 1
              · funext m'
                simp only [fsalPut_refcount, fsalGet_refcount]
                split_ifs <;> subst_vars <;> omega
              all_goals rfl

/-- A creation that does not succeed returns the registry it was given. -/
theorem create_fail {r : Registry} {o : CreateOutcome}
    (h : ∀ exp, (mdcacheFsalCreateExport r o).1 ≠ .ok exp) :
    (mdcacheFsalCreateExport r o).2 = r := by
  rcases create_cases r o with ⟨-, hr⟩ | ⟨sub, -, hr⟩
  · exact hr
  · exact absurd (congrArg Prod.fst hr) (h r.next)

/-- A creation adds to the live exports exactly the export it returned. -/
theorem create_live (r : Registry) (o : CreateOutcome) :
    (mdcacheFsalCreateExport r o).2.live =
        r.live ++ createdExport (mdcacheFsalCreateExport r o).1 o ∧
      ∀ e ∈ createdExport (mdcacheFsalCreateExport r o).1 o, e.addr = r.next := by
  rcases create_cases r o with ⟨hst, hr⟩ | ⟨sub, hs, hr⟩
  · have : createdExport (mdcacheFsalCreateExport r o).1 o = [] := by
      unfold createdExport; split
      · exact absurd ‹_› (hst _)
      · rfl
    simp [this, hr]
  · simp [hr, createdExport, hs]

theorem create_next (r : Registry) (o : CreateOutcome) :
    r.next ≤ (mdcacheFsalCreateExport r o).2.next := by
  rcases create_cases r o with ⟨-, hr⟩ | ⟨sub, -, hr⟩ <;> simp [hr]

/-- A creation moves references and stacked exports together: the count of every module plus
the exports stacked on it before equals the count before plus the exports stacked on it after. -/
theorem create_conserves (r : Registry) (o : CreateOutcome) (m : Nat) :
    (mdcacheFsalCreateExport r o).2.refcount m + stackedOn r m =
      r.refcount m + stackedOn (mdcacheFsalCreateExport r o).2 m := by
  rcases create_cases r o with ⟨-, hr⟩ | ⟨sub, -, hr⟩
  · rw [hr]
  · by_cases hm : m = sub <;> simp [hr, stackedOn, List.countP_append, hm] <;> omega

theorem create_wellFormed {r : Registry} (hr : r.WellFormed) (o : CreateOutcome) :
    (mdcacheFsalCreateExport r o).2.WellFormed := by
  rcases create_cases r o with ⟨-, h⟩ | ⟨sub, -, h⟩
  · rwa [h]
  · rw [h]
    refine ⟨?_, ?_⟩
    · simp only [List.map_append, List.map_singleton]
      exact List.Nodup.append hr.nodup (List.nodup_singleton _)
        (List.disjoint_singleton.2 fun hm => by
          obtain ⟨e, he, heq⟩ := List.mem_map.1 hm
          exact absurd (hr.lt_next e he) (by omega))
    · intro e he
      rcases List.mem_append.1 he with he | he
      · exact Nat.lt_succ_of_lt (hr.lt_next e he)
      · simp [List.mem_singleton.1 he]

/-- Releasing the export at `exp` removes a live export at that address and the reference on the
module it is stacked on. -/
theorem release_some {r r' : Registry} {exp : Nat} (h : mdcacheExpRelease r exp = some r') :
    ∃ e ∈ r.live, e.addr = exp ∧ r'.live = r.live.erase e ∧
      ∀ m, r'.refcount m = if m = e.subFsal then r.refcount m - 1 else r.refcount m := by
  obtain ⟨e, he, rfl⟩ := Option.map_eq_some'.1 h
  exact ⟨e, List.mem_of_find?_eq_some he, by simpa using List.find?_some he, rfl,
    fun m => by by_cases hm : m = e.subFsal <;> simp [hm]⟩

theorem release_next {r r' : Registry} {exp : Nat} (h : mdcacheExpRelease r exp = some r') :
    r'.next = r.next := by
  obtain ⟨e, -, rfl⟩ := Option.map_eq_some'.1 h
  rfl

/-- In a well-formed registry a release removes exactly the export at `exp`, which lies below
`next`. -/
theorem release_live {r r' : Registry} {exp : Nat} (hr : r.WellFormed)
    (h : mdcacheExpRelease r exp = some r') :
    r'.live = r.live.filter (·.addr ≠ exp) ∧ exp < r.next := by
  obtain ⟨e, he, rfl, hlive, -⟩ := release_some h
  refine ⟨?_, hr.lt_next e he⟩
  rw [hlive, (hr.nodup.of_map _).erase_eq_filter]
  refine List.filter_congr fun x hx => ?_
  by_cases hxe : x = e
  · simp [hxe]
  · simp [hxe, mt (List.inj_on_of_nodup_map hr.nodup hx he) hxe]

theorem release_wellFormed {r r' : Registry} {exp : Nat} (hr : r.WellFormed)
    (h : mdcacheExpRelease r exp = some r') : r'.WellFormed := by
  have hsub : r'.live.Sublist r.live := (release_live hr h).1 ▸ List.filter_sublist _
  exact ⟨hr.nodup.sublist (hsub.map _),
    fun e he => release_next h ▸ hr.lt_next e (hsub.subset he)⟩

/-- Removing a live export takes it off the count of the module it is stacked on. -/
theorem stackedOn_erase {r : Registry} {e : MdcExport} (he : e ∈ r.live) (m : Nat) :
    (r.live.erase e).countP (·.subFsal = m) + (if e.subFsal = m then 1 else 0) =
      stackedOn r m := by
  rw [stackedOn, (List.perm_cons_erase he).countP_eq, List.countP_cons]
  simp

/-- A release moves references and stacked exports together, given that the released export
holds its reference. -/
theorem release_conserves {r r' : Registry} {exp : Nat} (h : mdcacheExpRelease r exp = some r')
    (hc : ∀ m, stackedOn r m ≤ r.refcount m) (m : Nat) :
    r'.refcount m + stackedOn r m = r.refcount m + stackedOn r' m := by
  obtain ⟨e, he, -, hlive, hcount⟩ := release_some h
  have herase := stackedOn_erase he m
  have hpos : 1 ≤ r.refcount e.subFsal := by
    have hs := stackedOn_erase he e.subFsal
    rw [if_pos rfl] at hs
    have := hc e.subFsal
    omega
  simp only [stackedOn, hlive, hcount] at herase ⊢
  by_cases hm : m = e.subFsal
  · subst hm; simp only [if_true] at herase ⊢; omega
  · simp only [hm, if_false, Ne.symm hm] at herase ⊢; omega

/-! ## Runs -/

/-- The exports a run's creations return lie at or above the address the run starts from. -/
theorem runCreated_next_le (r : Registry) (ops : List Op) :
    ∀ e ∈ runCreated r ops, r.next ≤ e.addr := by
  induction ops generalizing r with
  | nil => simp [runCreated]
  | cons op ops ih =>
      cases op with
      | create o =>
          intro e he
          rcases List.mem_append.1 he with he | he
          · exact Nat.le_of_eq ((create_live r o).2 e he).symm
          · exact Nat.le_trans (create_next r o) (ih _ e he)
      | release exp =>
          intro e he
          simp only [runCreated] at he
          split at he
          · rename_i r' h
            exact release_next h ▸ ih r' e he
          · simp at he

/-- Over a run from a well-formed registry, the live exports are those at the start and those the
successful creations returned, less every address a release named. -/
theorem runOps_live {r₀ r : Registry} {ops : List Op} (hwf : r₀.WellFormed)
    (hrun : runOps r₀ ops = some r) :
    r.live = (r₀.live ++ runCreated r₀ ops).filter (·.addr ∉ releases ops) := by
  induction ops generalizing r₀ with
  | nil => cases hrun; simp [runCreated, releases, List.filter_true]
  | cons op ops ih =>
      cases op with
      | create o =>
          rw [ih (create_wellFormed hwf o) hrun, (create_live r₀ o).1, List.append_assoc]
          rfl
      | release exp =>
          -- the address released lies below every later creation
          obtain ⟨r₁, h₁, hrest⟩ := Option.bind_eq_some.1 hrun
          obtain ⟨hlive, hlt⟩ := release_live hwf h₁
          have hge : ∀ e ∈ runCreated r₁ ops, exp < e.addr := fun e he =>
            Nat.lt_of_lt_of_le hlt (release_next h₁ ▸ runCreated_next_le r₁ ops e he)
          rw [ih (release_wellFormed hwf h₁) hrest, hlive]
          simp only [runCreated, h₁, releases, List.filter_append, List.filter_filter]
          congr 1
          · exact List.filter_congr fun x _ => by simp [Bool.and_comm]
          · exact List.filter_congr fun x hx => by simp [Nat.ne_of_gt (hge x hx)]

/-- Over any run, from a state where every live MDCACHE export holds a reference on the module it
is stacked on, a module's count moves exactly with the exports stacked on it. -/
theorem runOps_conserves {r₀ r : Registry} {ops : List Op}
    (hcons : ∀ m, stackedOn r₀ m ≤ r₀.refcount m) (hrun : runOps r₀ ops = some r) (m : Nat) :
    r.refcount m + stackedOn r₀ m = r₀.refcount m + stackedOn r m := by
  induction ops generalizing r₀ with
  | nil => cases hrun; rfl
  | cons op ops ih =>
      -- one call keeps the count tracking the exports, and each export holding its reference
      obtain ⟨r₁, hstep, hrest⟩ : ∃ r₁, (∀ m, r₁.refcount m + stackedOn r₀ m =
          r₀.refcount m + stackedOn r₁ m) ∧ runOps r₁ ops = some r := by
        cases op with
        | create o => exact ⟨_, create_conserves r₀ o, hrun⟩
        | release exp =>
            obtain ⟨r₁, h₁, h⟩ := Option.bind_eq_some.1 hrun
            exact ⟨r₁, release_conserves h₁ hcons, h⟩
      have hcons₁ : ∀ m, stackedOn r₁ m ≤ r₁.refcount m := fun m => by
        have := hstep m; have := hcons m; omega
      have := ih hcons₁ hrest
      have := hstep m
      omega

/-- Over any run of creations and releases from a registry with no MDCACHE export, where each
creation may fail at the configuration, the lookup or the sub-FSAL: the live MDCACHE exports are
exactly those the successful creations returned and no release named, and the count of every
module is its initial value plus the number of them stacked on it. A creation that does not
succeed leaves the registry as it was. The statement needs no assumption on which module the
sub-FSAL's `create_export` leaves in `op_ctx`. -/
theorem create_release_refcount {r₀ r : Registry} {ops : List Op} (hfresh : r₀.live = [])
    (hrun : runOps r₀ ops = some r) :
    r.live = (runCreated r₀ ops).filter (·.addr ∉ releases ops) ∧
    (∀ m, r.refcount m = r₀.refcount m +
      ((runCreated r₀ ops).filter (·.addr ∉ releases ops)).countP (·.subFsal = m)) ∧
    ∀ (r' : Registry) o, (∀ exp, (mdcacheFsalCreateExport r' o).1 ≠ .ok exp) →
      (mdcacheFsalCreateExport r' o).2 = r' := by
  have hwf : r₀.WellFormed := ⟨by simp [hfresh], by simp [hfresh]⟩
  have hlive : r.live = (runCreated r₀ ops).filter (·.addr ∉ releases ops) := by
    simpa [hfresh] using runOps_live hwf hrun
  refine ⟨hlive, fun m => ?_, fun r' o h => create_fail h⟩
  have := runOps_conserves (fun m => by simp [stackedOn, hfresh]) hrun m
  simp only [stackedOn, hfresh, hlive, List.countP_nil] at this
  omega

/-- No MDCACHE export yet, one reference on every module. -/
def freshRegistry : Registry := ⟨fun _ => 1, [], 0⟩

/-- Two creations on module `5` around three creations failing at the configuration, the lookup
and the sub-FSAL, then the release of the first export. -/
def createReleaseRun : List Op :=
  [.create ⟨true, some 5, some 5⟩, .create ⟨false, some 5, some 5⟩,
    .create ⟨true, none, some 5⟩, .create ⟨true, some 5, none⟩,
    .create ⟨true, some 5, some 5⟩, .release 0]

/-- Where `createReleaseRun` leads from `freshRegistry`. -/
def createReleaseEnd : Registry := (runOps freshRegistry createReleaseRun).getD freshRegistry

/-- After the run, the second export created is the one left, and module `5` holds its initial
reference and one for that export. -/
theorem create_release_fresh_registry :
    createReleaseEnd.live = [⟨1, 5⟩] ∧ createReleaseEnd.refcount 5 = 2 := by
  have h := create_release_refcount (show freshRegistry.live = [] from rfl)
    (show runOps freshRegistry createReleaseRun = some createReleaseEnd from rfl)
  exact ⟨h.1.trans (by decide), (h.2.1 5).trans (by decide)⟩

end Ganesha.Mdcache
