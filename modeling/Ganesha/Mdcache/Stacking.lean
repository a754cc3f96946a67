import Mathlib.Logic.Basic

/-!
# The MDCACHE stacking layer

An MDCACHE export wraps a sub-FSAL export: `mdc_export` takes an `fsal_export` back to the
`mdcache_fsal_export` it is embedded in, whose `export.sub_export` is the export stacked under.
Operations reach the sub-FSAL through `subcall_raw`, which installs the sub-export in the
request context (`op_ctx->fsal_export`) for the call. Most export operations of
`mdcache_export.c` (lines 196-736) do nothing else: `passThrough` is their shape, and
`mdcacheExportOpsInit` the table `mdcache_export_ops_init` (lines 757-790) fills with them.

`mdcache_alloc_state` (lines 722-736) is one of them; `mdcache_free_state` (lines 743-751) is
not: it finds its export from the state's `state_exp`. `alloc_state_exp_not_mdcache` is the case
of a sub-FSAL that records its own export in `state_exp`, as `init_state` does: the state does not
name the MDCACHE export, and freeing it applies `mdc_export` to an export that is not an MDCACHE
one.
-/
namespace Ganesha.Mdcache

/-- An `fsal_export` as the stacking code reads it: whether it is the `export` member of an
`mdcache_fsal_export`, and the `sub_export` it is stacked on. -/
structure FsalExport where
  mdcache : Bool
  subExport : Nat
  deriving DecidableEq, Repr

/-- A `state_t` as the export layer sees it: its type, the related state, and `state_exp`, the
export whose `free_state` frees it. -/
structure StateT where
  stateType : Nat
  related : Option Nat
  stateExp : Nat
  deriving DecidableEq, Repr

/-- The export operations of a sub-FSAL. Each is called with the request context
(`op_ctx->fsal_export`) first; `freeState` returns what the call observed. -/
structure SubOps (α : Type) where
  allocState : Nat → Nat → Nat → Option Nat → StateT
  freeState : Nat → StateT → α

/-- A call of a sub-FSAL's `free_state`: whose operation ran, the request context during the
call, and the state. -/
structure FreeCall where
  ops : Nat
  ctx : Nat
  state : StateT
  deriving DecidableEq, Repr

/-- `mdc_export`: the `mdcache_fsal_export` an `fsal_export` is embedded in. `container_of` on an
export that is not an MDCACHE one is undefined (`none`). -/
def mdcExport (exports : Nat → FsalExport) (exp : Nat) : Option FsalExport :=
  if (exports exp).mdcache then some (exports exp) else none

/-- Modelled from the spec: `subcall_raw` is a macro not in the sources. The subcall shim
temporarily installs the sub-export in the request context: the call runs with
`op_ctx->fsal_export` at the sub-export, and the context is put back afterwards. -/
def subcallRaw {α : Type} (exp : FsalExport) (ctx : Nat) (call : Nat → α) : α × Nat :=
  (call exp.subExport, ctx)

/-- The shape of the export operations that only forward: take the MDCACHE export with
`mdc_export`, and run the sub-export's operation inside `subcall_raw`, called with the request
context and the sub-export. -/
def passThrough {β : Type} (exports : Nat → FsalExport) (ctx expHdl : Nat)
    (call : Nat → Nat → β) : Option (β × Nat) :=
  (mdcExport exports expHdl).map fun exp => subcallRaw exp ctx fun ctx => call ctx exp.subExport

/-! ## The forwarded export operations -/

/-- A call of one of the export operations MDCACHE forwards, with the arguments its caller passes:
enumerations, integers, and pointers as addresses (the output pointers included, through which
the sub-FSAL answers). -/
inductive ExportOp where
  | getFsDynamicInfo (objHdl infop : Nat)
  | fsSupports (option : Nat)
  | fsMaxfilesize
  | fsMaxread
  | fsMaxwrite
  | fsMaxlink
  | fsMaxnamelen
  | fsMaxpathlen
  | fsLeaseTime
  | fsAclSupport
  | fsSupportedAttrs
  | fsUmask
  | fsXattrAccessRights
  | checkQuota (filepath : Nat) (quotaType : Int)
  | getQuota (filepath : Nat) (quotaType quotaId : Int) (pquota : Nat)
  | setQuota (filepath : Nat) (quotaType quotaId : Int) (pquota presquota : Nat)
  | getdevicelist (type cbArg cb res : Nat)
  | fsLayouttypes (count types : Nat)
  | fsLayoutBlocksize
  | fsMaximumSegments
  | fsLocBodySize
  | getWriteVerifier (verfDesc : Nat)
  | extractHandle (inType fhDesc : Nat) (flags : Int)
  deriving DecidableEq, Repr

/-- The call the sub-export receives for a call on an MDCACHE export: the object handle of
`get_fs_dynamic_info` becomes the `sub_handle` of the entry it is the handle of; every other
argument is passed as it is. -/
def ExportOp.subCall (subHandle : Nat → Nat) : ExportOp → ExportOp
  | .getFsDynamicInfo objHdl infop => .getFsDynamicInfo (subHandle objHdl) infop
  | op => op

section Forward

variable {β : Type} (subOps : Nat → Nat → ExportOp → β) (exports : Nat → FsalExport)
  (ctx expHdl : Nat)

/-- An export operation that passes its arguments to the sub-export's operation of the same
name. `subOps ctx sub op` is the answer of the sub-FSAL's operation called on export `sub` with
request context `ctx`. -/
def forwardOp (op : ExportOp) : Option (β × Nat) :=
  passThrough exports ctx expHdl fun ctx sub => subOps ctx sub op

/-- `mdcache_get_dynamic_info` (lines 196-212): unlike the other operations it translates its
object handle, passing the `sub_handle` of the entry `obj_hdl` is the handle of. -/
def mdcacheGetDynamicInfo (subHandle : Nat → Nat) (objHdl infop : Nat) : Option (β × Nat) :=
  passThrough exports ctx expHdl fun ctx sub =>
    subOps ctx sub (.getFsDynamicInfo (subHandle objHdl) infop)

/-- `mdcache_fs_supports` (lines 224-236). -/
def mdcacheFsSupports (option : Nat) : Option (β × Nat) :=
  forwardOp subOps exports ctx expHdl (.fsSupports option)

/-- `mdcache_fs_maxfilesize` (lines 246-257). -/
def mdcacheFsMaxfilesize : Option (β × Nat) := forwardOp subOps exports ctx expHdl .fsMaxfilesize

/-- `mdcache_fs_maxread` (lines 267-278). -/
def mdcacheFsMaxread : Option (β × Nat) := forwardOp subOps exports ctx expHdl .fsMaxread

/-- `mdcache_fs_maxwrite` (lines 288-299). -/
def mdcacheFsMaxwrite : Option (β × Nat) := forwardOp subOps exports ctx expHdl .fsMaxwrite

/-- `mdcache_fs_maxlink` (lines 309-320). -/
def mdcacheFsMaxlink : Option (β × Nat) := forwardOp subOps exports ctx expHdl .fsMaxlink

/-- `mdcache_fs_maxnamelen` (lines 330-341). -/
def mdcacheFsMaxnamelen : Option (β × Nat) := forwardOp subOps exports ctx expHdl .fsMaxnamelen

/-- `mdcache_fs_maxpathlen` (lines 351-362). -/
def mdcacheFsMaxpathlen : Option (β × Nat) := forwardOp subOps exports ctx expHdl .fsMaxpathlen

/-- `mdcache_fs_lease_time` (lines 372-383). -/
def mdcacheFsLeaseTime : Option (β × Nat) := forwardOp subOps exports ctx expHdl .fsLeaseTime

/-- `mdcache_fs_acl_support` (lines 393-404). -/
def mdcacheFsAclSupport : Option (β × Nat) := forwardOp subOps exports ctx expHdl .fsAclSupport

/-- `mdcache_fs_supported_attrs` (lines 414-425). -/
def mdcacheFsSupportedAttrs : Option (β × Nat) :=
  forwardOp subOps exports ctx expHdl .fsSupportedAttrs

/-- `mdcache_fs_umask` (lines 435-446). -/
def mdcacheFsUmask : Option (β × Nat) := forwardOp subOps exports ctx expHdl .fsUmask

/-- `mdcache_fs_xattr_access_rights` (lines 456-467). -/
def mdcacheFsXattrAccessRights : Option (β × Nat) :=
  forwardOp subOps exports ctx expHdl .fsXattrAccessRights

/-- `mdcache_check_quota` (lines 479-492). -/
def mdcacheCheckQuota (filepath : Nat) (quotaType : Int) : Option (β × Nat) :=
  forwardOp subOps exports ctx expHdl (.checkQuota filepath quotaType)

/-- `mdcache_get_quota` (lines 506-521). -/
def mdcacheGetQuota (filepath : Nat) (quotaType quotaId : Int) (pquota : Nat) :
    Option (β × Nat) :=
  forwardOp subOps exports ctx expHdl (.getQuota filepath quotaType quotaId pquota)

/-- `mdcache_set_quota` (lines 536-552). -/
def mdcacheSetQuota (filepath : Nat) (quotaType quotaId : Int) (pquota presquota : Nat) :
    Option (β × Nat) :=
  forwardOp subOps exports ctx expHdl (.setQuota filepath quotaType quotaId pquota presquota)

/-- `mdcache_getdevicelist` (lines 565-581), where `cbArg` is the caller's `opaque` pointer. -/
def mdcacheGetdevicelist (type cbArg cb res : Nat) : Option (β × Nat) :=
  forwardOp subOps exports ctx expHdl (.getdevicelist type cbArg cb res)

/-- `mdcache_fs_layouttypes` (lines 592-602), whose answer is what the sub-FSAL writes through
`count` and `types`. -/
def mdcacheFsLayouttypes (count types : Nat) : Option (β × Nat) :=
  forwardOp subOps exports ctx expHdl (.fsLayouttypes count types)

/-- `mdcache_fs_layout_blocksize` (lines 612-623). -/
def mdcacheFsLayoutBlocksize : Option (β × Nat) :=
  forwardOp subOps exports ctx expHdl .fsLayoutBlocksize

/-- `mdcache_fs_maximum_segments` (lines 633-644). -/
def mdcacheFsMaximumSegments : Option (β × Nat) :=
  forwardOp subOps exports ctx expHdl .fsMaximumSegments

/-- `mdcache_fs_loc_body_size` (lines 654-665). -/
def mdcacheFsLocBodySize : Option (β × Nat) := forwardOp subOps exports ctx expHdl .fsLocBodySize

/-- `mdcache_get_write_verifier` (lines 675-684), whose answer is what the sub-FSAL writes
through `verf_desc`. -/
def mdcacheGetWriteVerifier (verfDesc : Nat) : Option (β × Nat) :=
  forwardOp subOps exports ctx expHdl (.getWriteVerifier verfDesc)

/-- `mdcache_extract_handle` (lines 697-712). -/
def mdcacheExtractHandle (inType fhDesc : Nat) (flags : Int) : Option (β × Nat) :=
  forwardOp subOps exports ctx expHdl (.extractHandle inType fhDesc flags)

/-- `mdcache_get_name` (lines 72-77): the name of `mdc_cur_export()`, the MDCACHE export of the
request context (`op_ctx->fsal_export`), whose `name` is `name ctx`. The export it is called on is
not read. -/
def mdcacheGetName (name : Nat → List Char) (_expHdl : Nat) : Option (List Char) :=
  (mdcExport exports ctx).map fun _ => name ctx

/-- The forwarding entries of the table `mdcache_export_ops_init` fills: the operation an MDCACHE
export runs for each call. The table's other entries are modelled where their functions are:
`get_name` above, `unexport` and `release` in their own modules, `alloc_state` and `free_state`
below; `lookup_path` and `create_handle` are not in the sources. -/
def mdcacheExportOpsInit (subHandle : Nat → Nat) : ExportOp → Option (β × Nat)
  | .getFsDynamicInfo objHdl infop =>
      mdcacheGetDynamicInfo subOps exports ctx expHdl subHandle objHdl infop
  | .fsSupports option => mdcacheFsSupports subOps exports ctx expHdl option
  | .fsMaxfilesize => mdcacheFsMaxfilesize subOps exports ctx expHdl
  | .fsMaxread => mdcacheFsMaxread subOps exports ctx expHdl
  | .fsMaxwrite => mdcacheFsMaxwrite subOps exports ctx expHdl
  | .fsMaxlink => mdcacheFsMaxlink subOps exports ctx expHdl
  | .fsMaxnamelen => mdcacheFsMaxnamelen subOps exports ctx expHdl
  | .fsMaxpathlen => mdcacheFsMaxpathlen subOps exports ctx expHdl
  | .fsLeaseTime => mdcacheFsLeaseTime subOps exports ctx expHdl
  | .fsAclSupport => mdcacheFsAclSupport subOps exports ctx expHdl
  | .fsSupportedAttrs => mdcacheFsSupportedAttrs subOps exports ctx expHdl
  | .fsUmask => mdcacheFsUmask subOps exports ctx expHdl
  | .fsXattrAccessRights => mdcacheFsXattrAccessRights subOps exports ctx expHdl
  | .checkQuota filepath quotaType => mdcacheCheckQuota subOps exports ctx expHdl filepath quotaType
  | .getQuota filepath quotaType quotaId pquota =>
      mdcacheGetQuota subOps exports ctx expHdl filepath quotaType quotaId pquota
  | .setQuota filepath quotaType quotaId pquota presquota =>
      mdcacheSetQuota subOps exports ctx expHdl filepath quotaType quotaId pquota presquota
  | .getdevicelist type cbArg cb res =>
      mdcacheGetdevicelist subOps exports ctx expHdl type cbArg cb res
  | .fsLayouttypes count types => mdcacheFsLayouttypes subOps exports ctx expHdl count types
  | .fsLayoutBlocksize => mdcacheFsLayoutBlocksize subOps exports ctx expHdl
  | .fsMaximumSegments => mdcacheFsMaximumSegments subOps exports ctx expHdl
  | .fsLocBodySize => mdcacheFsLocBodySize subOps exports ctx expHdl
  | .getWriteVerifier verfDesc => mdcacheGetWriteVerifier subOps exports ctx expHdl verfDesc
  | .extractHandle inType fhDesc flags =>
      mdcacheExtractHandle subOps exports ctx expHdl inType fhDesc flags

end Forward

/-! ## State allocation -/

/-- `mdcache_alloc_state`: forward to the sub-export's `alloc_state` inside a subcall, and return
its state. -/
def mdcacheAllocState (ops : SubOps α) (exports : Nat → FsalExport) (ctx expHdl stateType : Nat)
    (related : Option Nat) : Option (StateT × Nat) :=
  passThrough exports ctx expHdl fun ctx sub => ops.allocState ctx sub stateType related

/-- `mdcache_free_state`: find the export from `state->state_exp`, and forward to its
sub-export's `free_state` inside a subcall. -/
def mdcacheFreeState (ops : SubOps α) (exports : Nat → FsalExport) (ctx : Nat) (state : StateT) :
    Option (α × Nat) :=
  (mdcExport exports state.stateExp).map fun exp =>
    subcallRaw exp ctx fun ctx => ops.freeState ctx state

/-- The sub-FSAL operations that record each `free_state` call. -/
def recordingOps (alloc : Nat → Nat → Nat → Option Nat → StateT) (sub : Nat) :
    SubOps FreeCall :=
  ⟨alloc, fun ctx state => ⟨sub, ctx, state⟩⟩

/-- The `alloc_state` of a sub-FSAL that calls `init_state` with the export it is given. -/
def initStateAlloc (_ctx exp stateType : Nat) (related : Option Nat) : StateT :=
  ⟨stateType, related, exp⟩

/-- Export `0` is an MDCACHE export stacked on export `1`, a plain sub-FSAL export. -/
def stackedExports (e : Nat) : FsalExport :=
  if e = 0 then ⟨true, 1⟩ else ⟨false, 0⟩

/-- On export `0` stacked on export `1`, `mdcache_alloc_state` returns a state whose `state_exp`
is export `1`, and `mdcache_free_state` of that state is undefined. -/
theorem alloc_state_exp_not_mdcache :
    mdcacheAllocState (recordingOps initStateAlloc 1) stackedExports 0 0 7 none =
        some (⟨7, none, 1⟩, 0) ∧
      mdcacheFreeState (recordingOps initStateAlloc 1) stackedExports 0 ⟨7, none, 1⟩ = none :=
  ⟨rfl, rfl⟩

end Ganesha.Mdcache
