import UnixStudy.Foundations.CStrings
import UnixStudy.Smi.Clients

/-!
# The names of the FIFOs

The FIFO of a server has a name with a hyphen and the name of the server, that of a client has one
with the pid of the client. `smi_open_fifo` looks at the length of the name of the server before it
copies it, but copies it in any case. A pid that comes from a message may be negative, and is then
written with a hyphen too.

## Main definitions

* `makeFifoNameServer` : the name of the FIFO of a server.
* `smiOpenFifoName` : what is done with the name of the server.
* `NamesRight` : the names are complete and do not clash.

## Main results

* `fifoname_serverName`, `fifoOf_ne_serverFifo` : the name of the server that is used.
* `namesRight_iff` : when the names are right.

## References

* `src/ad_comm/smi_server.c`, lines 1, 25, 88–110 and 206–209.
-/

namespace UnixStudy.Smi

/-- `make_fifo_name_server`: `snprintf` into an array of the given size. -/
def makeFifoNameServer (sq_name : CString) (fifoname_max : ℕ) : Bytes :=
  (snprintf fifoname_max (fifoPrefix ++ 45 :: sq_name.chars)).2

/-- Whether `errno` is `ENAMETOOLONG`, memory from `sq_name` on, and the name of the FIFO. -/
structure OpenedName where
  tooLong : Bool
  sq_name : Bytes
  fifoname : Bytes

/-- The lines of `smi_open_fifo` that deal with the name of the server. The result would be `none`
if the name was refused, but there is only a message. -/
def smiOpenFifoName (mem : Bytes) (name : CString) : Option OpenedName :=
  let tooLong := decide (SERVER_NAME_MAX ≤ name.chars.length)
  let sq_name := strcpy mem name
  let fifoname := makeFifoNameServer (CString.ofMemory sq_name) (SERVER_NAME_MAX + 50)
  some ⟨tooLong, sq_name, fifoname⟩

/-- A name of `SERVER_NAME_MAX` characters or more is refused, and another one is in `sq_name` with
its NUL; the names of the FIFOs are whole; and different names are given to the FIFOs of different
clients, of different servers, and of the clients and the servers. -/
structure NamesRight (mem mem' : Bytes) (name name' : CString) (pid pid' : Pid) : Prop where
  held : SERVER_NAME_MAX ≤ name.chars.length ∧ smiOpenFifoName mem name = none ∨
    ∃ o, smiOpenFifoName mem name = some o ∧ name.chars ++ [nul] <+: o.sq_name.take SERVER_NAME_MAX
  server : ∀ o, smiOpenFifoName mem name = some o → o.fifoname = fifoPrefix ++ 45 :: name.chars
  client : fifoOf pid = fifoPrefix ++ decimal pid.toInt
  clients : pid ≠ pid' → fifoOf pid ≠ fifoOf pid'
  servers : name ≠ name' → ∀ o o', smiOpenFifoName mem name = some o →
    smiOpenFifoName mem' name' = some o' → o.fifoname ≠ o'.fifoname
  apart : ∀ o, smiOpenFifoName mem name = some o → fifoOf pid ≠ o.fifoname

variable {mem mem' : Bytes} {name name' : CString} {pid pid' : Pid}

/-- The name is read as it was copied. -/
theorem smiOpenFifoName_eq : smiOpenFifoName mem name = some
    ⟨decide (SERVER_NAME_MAX ≤ name.chars.length), strcpy mem name,
      makeFifoNameServer name (SERVER_NAME_MAX + 50)⟩ := by
  rw [smiOpenFifoName, ofMemory_strcpy]

/-- `SERVER_NAME`. -/
def serverName : CString := ⟨[115, 109, 115, 103, 95, 115, 101, 114, 118, 101, 114], by decide⟩

/-- The name of the server that is used. -/
theorem fifoname_serverName : ∃ o, smiOpenFifoName mem serverName = some o ∧ o.tooLong = false ∧
    o.fifoname = serverFifo :=
  ⟨_, smiOpenFifoName_eq, rfl, rfl⟩

/-- The name of a FIFO whose server has a short name is whole. -/
theorem length_path_lt (hname : name.chars.length < SERVER_NAME_MAX) :
    (fifoPrefix ++ 45 :: name.chars).length < SERVER_NAME_MAX + 50 - 1 := by
  rw [List.length_append, List.length_cons, show fifoPrefix.length = 12 from rfl]
  omega

theorem makeFifoNameServer_eq (hname : name.chars.length < SERVER_NAME_MAX) :
    makeFifoNameServer name (SERVER_NAME_MAX + 50) = fifoPrefix ++ 45 :: name.chars :=
  (snprintf_eq_iff (by decide)).mpr ((length_path_lt hname).trans (by decide))

/-- The FIFO of a client has the name of that of a server only if the pid is negative, and the name
of the server is the pid without the hyphen. -/
theorem fifoOf_eq_iff (hname : name.chars.length < SERVER_NAME_MAX) :
    fifoOf pid = makeFifoNameServer name (SERVER_NAME_MAX + 50) ↔
      pid.toInt < 0 ∧ name.chars = decimalNat pid.toInt.natAbs := by
  rw [makeFifoNameServer_eq hname, fifoOf, makeFifoNameClient_eq pid (by decide),
    List.append_cancel_left_eq, decimal]
  split_ifs with hpid
  · rw [List.cons_inj_right, eq_comm, and_iff_right hpid]
  · refine iff_of_false (fun h => ?_) fun h => hpid h.1
    exact absurd (mem_decimalNat (h ▸ List.mem_cons_self)) (by decide)

theorem fifoOf_injective : Function.Injective fifoOf := makeFifoNameClient_injective (by decide)

/-- The FIFO of a client does not have the name of that of the server that is used. -/
theorem fifoOf_ne_serverFifo (pid : Pid) : fifoOf pid ≠ serverFifo := by
  intro h
  have hserver : makeFifoNameServer serverName (SERVER_NAME_MAX + 50) = serverFifo := rfl
  have hchars := ((fifoOf_eq_iff (by decide)).mp (h.trans hserver.symm)).2
  have hmem : (115 : UInt8) ∈ decimalNat pid.toInt.natAbs := hchars ▸ List.mem_cons_self
  exact absurd (mem_decimalNat hmem) (by decide)

namespace NamesRight

/-- No name is refused. -/
theorem length_lt (h : NamesRight mem mem' name name' pid pid') :
    name.chars.length < SERVER_NAME_MAX := by
  obtain ⟨-, hrefused⟩ | ⟨o, ho, hheld⟩ := h.held
  · exact absurd (smiOpenFifoName_eq.symm.trans hrefused) (Option.some_ne_none _)
  · obtain rfl := Option.some.inj (smiOpenFifoName_eq.symm.trans ho)
    exact strcpy_isPrefix_iff.mp hheld

theorem ne_decimalNat (h : NamesRight mem mem' name name' pid pid') :
    ¬ (pid.toInt < 0 ∧ name.chars = decimalNat pid.toInt.natAbs) := fun hclash =>
  h.apart _ smiOpenFifoName_eq ((fifoOf_eq_iff h.length_lt).mpr hclash)

end NamesRight

/-- **When the names are right**: if and only if the name of the server has less than
`SERVER_NAME_MAX` characters, and is not what a negative pid looks like behind its hyphen. -/
theorem namesRight_iff : NamesRight mem mem' name name' pid pid' ↔
    name.chars.length < SERVER_NAME_MAX ∧
      ¬ (pid.toInt < 0 ∧ name.chars = decimalNat pid.toInt.natAbs) := by
  refine ⟨fun h => ⟨h.length_lt, h.ne_decimalNat⟩, fun ⟨hname, hclash⟩ => ?_⟩
  refine ⟨.inr ⟨_, smiOpenFifoName_eq, strcpy_isPrefix_iff.mpr hname⟩, fun o ho => ?_, ?_,
    fun hpid h => hpid (fifoOf_injective h), fun hne o o' ho ho' h => ?_,
    fun o ho h => ?_⟩
  · obtain rfl := Option.some.inj (smiOpenFifoName_eq.symm.trans ho)
    exact makeFifoNameServer_eq hname
  · exact makeFifoNameClient_eq pid (by decide)
  · obtain rfl := Option.some.inj (smiOpenFifoName_eq.symm.trans ho)
    obtain rfl := Option.some.inj (smiOpenFifoName_eq.symm.trans ho')
    have hpath := eq_of_snprintf_eq (length_path_lt hname) h
    exact hne (CString.ext (List.cons.inj (List.append_cancel_left hpath)).2)
  · obtain rfl := Option.some.inj (smiOpenFifoName_eq.symm.trans ho)
    exact hclash ((fifoOf_eq_iff hname).mp h)

/-- The structure that `calloc` returns, from `sq_name` on. -/
def zeroed : Bytes := List.replicate 244 nul

/-- A name of `SERVER_NAME_MAX` characters. -/
def longName : CString := ⟨List.replicate SERVER_NAME_MAX 97, by decide⟩

/-- A name that is a digit. -/
def digitName : CString := ⟨[53], by decide⟩

/-- The long name is not refused, and its NUL is behind the array; the FIFO of a client with the pid
`-5` has the name of that of a server with the name `5`. -/
theorem not_namesRight :
    (∃ o, smiOpenFifoName zeroed longName = some o ∧ o.tooLong = true ∧
      ¬ NamesRight zeroed zeroed longName serverName 1 2) ∧
    (∃ o, smiOpenFifoName zeroed digitName = some o ∧ fifoOf (-5) = o.fifoname ∧
      ¬ NamesRight zeroed zeroed digitName serverName (-5) 1) := by
  refine ⟨⟨_, smiOpenFifoName_eq, rfl, fun h => ?_⟩, _, smiOpenFifoName_eq, by decide, fun h => ?_⟩
  · exact absurd h.length_lt (by decide)
  · exact h.ne_decimalNat (by decide)

end UnixStudy.Smi
