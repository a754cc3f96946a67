import Ganesha.Admin.CString

/-!
# The admin DBus interface

`admin_methods` (lines 288-294 of `nfs_admin_thread.c`) lists the methods of the `admin` DBus
path. Four take no argument: `shutdown` calls `admin_halt`, `get_grace` appends the answer of
`nfs_in_grace`, `purge_gids` and `purge_netgroups` clear a cache. `grace` takes one string,
`event:address` or `address`, and starts a grace period with the event and address it reads.

Each method returns the reply it builds and the call it makes outside this file. The event and the
node id are C `int`s, read by glibc's `atoi`. The main result, `admin_dbus_grace_split`, says how
`grace` splits its argument.
-/

namespace Ganesha.Admin

/-- The argument of a DBus call as the admin methods read it: a string, or a value of another
DBus type. -/
inductive DbusArg where
  | string (s : CString)
  | other (type : Nat)

/-- The reply a method builds: the values it appends (the flag `get_grace` reads), then the status
that `dbus_status_reply` appends. -/
structure DbusReply where
  values : List Bool
  success : Bool
  message : String
  deriving DecidableEq, Repr

/-- `nfs_grace_start_t`: the event, the node id and the address `nfs4_start_grace` is given. -/
structure NfsGraceStart where
  event : CInt
  nodeid : CInt
  ipaddr : List Char
  deriving DecidableEq, Repr

/-- The calls the admin methods make outside this file. -/
inductive AdminCall where
  | nfsInGrace
  | adminHalt
  | uid2grpClearCache
  | ngClearCache
  | nfs4StartGrace (gsp : NfsGraceStart)
  deriving DecidableEq, Repr

/-- The shape of the methods that take no argument: given one, fail with `errormsg`; given none,
make the call and succeed with `okmsg`, after the values the call answered. -/
def noArgMethod (okmsg errormsg : String) (call : AdminCall) (values : List Bool) :
    Option DbusArg → DbusReply × Option AdminCall
  | some _ => (⟨[], false, errormsg⟩, none)
  | none => (⟨values, true, okmsg⟩, some call)

/-- `admin_dbus_get_grace` (lines 76-98), where `nfs_in_grace` answers `ingrace`. -/
def adminDbusGetGrace (ingrace : Bool) : Option DbusArg → DbusReply × Option AdminCall :=
  noArgMethod "get grace success" "Get grace takes no arguments." .nfsInGrace [ingrace]

/-- `admin_dbus_shutdown` (lines 186-207). -/
def adminDbusShutdown : Option DbusArg → DbusReply × Option AdminCall :=
  noArgMethod "Server shut down" "Shutdown takes no arguments." .adminHalt []

/-- `admin_dbus_purge_gids` (lines 222-243). -/
def adminDbusPurgeGids : Option DbusArg → DbusReply × Option AdminCall :=
  noArgMethod "Purge gids cache" "Purge gids takes no arguments." .uid2grpClearCache []

/-- `admin_dbus_purge_netgroups` (lines 258-279). -/
def adminDbusPurgeNetgroups : Option DbusArg → DbusReply × Option AdminCall :=
  noArgMethod "Purge netgroup cache" "Purge netgroup takes no arguments." .ngClearCache []

/-- `admin_dbus_grace` (lines 120-169) on its argument, with the values of `EVENT_TAKE_IP` and
`EVENT_TAKE_NODEID`, which are not in the sources, as parameters. Given `event:address`, the
address is read at `ip + 1` in the argument, and the event by `atoi` on the copy `buf` cut at the
colon `strstr` finds there; the node id keeps its initial `-1` unless the event is
`EVENT_TAKE_NODEID`. -/
def adminDbusGrace (eventTakeIp eventTakeNodeid : CInt) :
    Option DbusArg → DbusReply × Option AdminCall
  | none => (⟨[], false, "Grace period take 1 arguments: event:IP-address."⟩, none)
  | some (.other _) => (⟨[], false, "Grace period arg 1 not a string."⟩, none)
  | some (.string input) =>
      let gsp : NfsGraceStart := match index input.chars ':' with
        | none => ⟨eventTakeIp, .ofInt (-1), input.chars⟩
        | some ip =>
            let buf := input.bytes
            let ipaddr := cstr (input.bytes.drop (ip + 1))
            let event := match strstr (cstr buf) [':'] with
              | some ip => atoi (cstr (buf.set ip nul))
              | none => eventTakeIp
            ⟨event, if event = eventTakeNodeid then atoi ipaddr else .ofInt (-1), ipaddr⟩
      (⟨[], true, "Started grace period"⟩, some (.nfs4StartGrace gsp))

/-- An event too large for an `int` wraps as the code's `atoi` makes it: `4294967298:7` starts
`EVENT_TAKE_NODEID`, here `2`, with node id `7`. -/
example :
    (adminDbusGrace (.ofInt 0) (.ofInt 2)
      (some (.string ⟨"4294967298:7".toList, by decide⟩))).2 =
    some (.nfs4StartGrace ⟨.ofInt 2, .ofInt 7, "7".toList⟩) := by
  decide

/-- `admin_methods`, by the names their `gsh_dbus_method` entries give. -/
def adminMethods (ingrace : Bool) (eventTakeIp eventTakeNodeid : CInt) :
    List (String × (Option DbusArg → DbusReply × Option AdminCall)) :=
  [("shutdown", adminDbusShutdown), ("grace", adminDbusGrace eventTakeIp eventTakeNodeid),
    ("get_grace", adminDbusGetGrace ingrace), ("purge_gids", adminDbusPurgeGids),
    ("purge_netgroups", adminDbusPurgeNetgroups)]

/-- On a string without colon, `grace` takes the whole string as the address. -/
theorem adminDbusGrace_no_colon (eventTakeIp eventTakeNodeid : CInt) {s : CString}
    (h : ':' ∉ s.chars) : adminDbusGrace eventTakeIp eventTakeNodeid (some (.string s)) =
      (⟨[], true, "Started grace period"⟩,
        some (.nfs4StartGrace ⟨eventTakeIp, .ofInt (-1), s.chars⟩)) := by
  simp only [adminDbusGrace, index_eq_none h]

/-- The C string `":"`. -/
def colon : CString := ⟨[':'], by decide⟩

/-- `grace` on `e:a`, for every `int` `e` and every string `a`, colons in `a` included, starts a
grace period with event `e` and address `a`, and with node id `atoi (a)` exactly when `e` is
`EVENT_TAKE_NODEID`, `-1` otherwise. On a string without colon it starts one with
`EVENT_TAKE_IP`, the string as address and node id `-1`. The two searches agree: `strstr` on the
copy finds the colon `index` finds. -/
theorem admin_dbus_grace_split (eventTakeIp eventTakeNodeid e : CInt) (a s : CString) :
    adminDbusGrace eventTakeIp eventTakeNodeid (some (.string (decimal e.val ++ colon ++ a))) =
      (⟨[], true, "Started grace period"⟩, some (.nfs4StartGrace
        ⟨e, if e = eventTakeNodeid then atoi a.chars else .ofInt (-1), a.chars⟩)) ∧
    (':' ∉ s.chars → adminDbusGrace eventTakeIp eventTakeNodeid (some (.string s)) =
      (⟨[], true, "Started grace period"⟩,
        some (.nfs4StartGrace ⟨eventTakeIp, .ofInt (-1), s.chars⟩))) ∧
    strstr (cstr s.bytes) [':'] = index s.chars ':' := by
  refine ⟨?_, adminDbusGrace_no_colon eventTakeIp eventTakeNodeid,
    by rw [cstr_bytes, strstr_singleton]⟩
  set l := decimalChars e.val
  have hnul : nul ∉ l := decimalChars_not_mem (.inl rfl)
  have hcolon : ':' ∉ l := decimalChars_not_mem (.inr rfl)
  have hbytes : (decimal e.val ++ colon ++ a).bytes = l ++ ':' :: a.bytes := by
    simp [CString.bytes, decimal, colon, l]
  have hidx : index (decimal e.val ++ colon ++ a).chars ':' = some l.length := by
    simp [decimal, colon, l, index_append_of_not_mem hcolon, index]
  have hcut : (l ++ ':' :: a.bytes).set l.length nul = l ++ nul :: a.bytes := by simp
  have haddr : (l ++ ':' :: a.bytes).drop (l.length + 1) = a.bytes := by simp
  have hevent : atoi l = e := atoi_decimal e
  simp only [adminDbusGrace, hidx, cstr_bytes, strstr_singleton]
  simp only [hbytes, hcut, haddr, cstr_append_nul hnul, cstr_bytes, hevent]

/-- An IPv6 address, which holds colons. -/
def ipv6Addr : CString := ⟨"fe80::1".toList, by decide⟩

/-- An IPv4 address. -/
def ipv4Addr : CString := ⟨"10.0.0.1".toList, by decide⟩

/-- Event `2` with an IPv6 address, where `2` is `EVENT_TAKE_NODEID`; and an IPv4 address
alone. -/
theorem admin_dbus_grace_ipv6 :
    adminDbusGrace (.ofInt 0) (.ofInt 2)
        (some (.string (decimal (CInt.ofInt 2).val ++ colon ++ ipv6Addr))) =
      (⟨[], true, "Started grace period"⟩,
        some (.nfs4StartGrace ⟨.ofInt 2, atoi ipv6Addr.chars, ipv6Addr.chars⟩)) ∧
    adminDbusGrace (.ofInt 0) (.ofInt 2) (some (.string ipv4Addr)) =
      (⟨[], true, "Started grace period"⟩,
        some (.nfs4StartGrace ⟨.ofInt 0, .ofInt (-1), ipv4Addr.chars⟩)) := by
  have h := admin_dbus_grace_split (.ofInt 0) (.ofInt 2) (.ofInt 2) ipv6Addr ipv4Addr
  rw [if_pos rfl] at h
  exact ⟨h.1, h.2.1 (by decide)⟩

end Ganesha.Admin
