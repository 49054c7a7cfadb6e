import UnixStudy.Foundations.Descriptors
import UnixStudy.Foundations.SlotTable
import UnixStudy.Smi.Message

/-!
# The server of the simple messaging interface

The server reads messages from its own FIFO and answers each on the FIFO of the client it came from.
It keeps the descriptors of the client FIFOs in a table of slots, which `clients_find` searches for
a pid; a pid that is not found gets the first slot without a descriptor. When there is none, the
message is passed over.

`clients_find` is `SlotTable.claim` on the table with the descriptors that are not `-1`
(`clientsFind_eq`).

## Main definitions

* `Client`, `File`, `Server` : an entry of `sq_clients`, what descriptors name, the server process.
* `clientsFind` : the search for a pid.
* `Server.receive`, `Server.sendGetaddr`, `Server.sendRelease` : the calls that `main` makes.
* `Clients.table` : the table of slots.

## Main results

* `clientsFind_eq` : the search claims a slot.
* `Server.receive_of_none`, `Server.receive_of_some` : one turn of the loop that receives.

## References

* `src/ad_comm/smi_server.c`.
-/

namespace UnixStudy.Smi

/-- `MAX_CLIENTS`. -/
abbrev MAX_CLIENTS : ℕ := 20

/-- An entry of `sq_clients`. -/
structure Client where
  cl_fd : ℤ
  cl_pid : Pid
  deriving DecidableEq, Repr

/-- `sq_clients`. -/
abbrev Clients := Fin MAX_CLIENTS → Client

/-- What a descriptor of the server names: its own FIFO, that of a client, or something it was
started with. -/
inductive File
  | other
  | server
  | client (fifoname : Bytes)
  deriving DecidableEq, Repr

/-- The server process: the members of its `SMIQ_FIFO`, its descriptors, and the calls of `write` it
has made, with the descriptor and the message. -/
structure Server where
  sq_clients : Clients
  sq_client : ClientId
  sq_msg : SmiMsg
  fds : FdTable File
  writes : List (ℤ × SmiMsg)

/-! ### The search for a pid -/

/-- The loop of `clients_find` over the entries that are left, with the variable `avail`: the entry
it returns, or the value of `avail` at its end. -/
def clientsFindLoop (clients : Clients) (pid : Pid) :
    List (Fin MAX_CLIENTS) → Option (Fin MAX_CLIENTS) → Fin MAX_CLIENTS ⊕ Option (Fin MAX_CLIENTS)
  | [], avail => .inr avail
  | i :: is, avail =>
    if (clients i).cl_pid = pid then .inl i
    else clientsFindLoop clients pid is
      (if (clients i).cl_fd = -1 ∧ avail = none then some i else avail)

/-- `clients_find`; the result `-1` is `none`. -/
def clientsFind (clients : Clients) (pid : Pid) : Option (Fin MAX_CLIENTS) × Clients :=
  match clientsFindLoop clients pid (List.finRange MAX_CLIENTS) none with
  | .inl i => (some i, clients)
  | .inr (some i) => (some i, Function.update clients i { clients i with cl_pid := pid })
  | .inr none => (none, clients)

/-! ### Receiving and sending -/

/-- `clients_bgn` on an array that `calloc` has cleared. -/
def clientsBgn : Clients := fun _ => { cl_fd := -1, cl_pid := 0 }

namespace Server

/-- The server after `smi_open`, which opens its FIFO for reading and for writing. -/
def smiOpen (okR okW : Bool) (t : FdTable File) : Server where
  sq_clients := clientsBgn
  sq_client := ⟨0, 0⟩
  sq_msg := .zero
  fds := ((t.sysOpen okR .server).2.sysOpen okW .server).2
  writes := []

/-- Open the FIFO of a client, where `ok` says whether this succeeds, for the entry `i`. -/
def openClient (ok : Bool) (pid : Pid) (i : Fin MAX_CLIENTS) (s : Server) : Server :=
  let o := s.fds.sysOpen ok (.client (makeFifoNameClient pid (SERVER_NAME_MAX + 50)))
  { s with
    fds := o.2
    sq_clients := Function.update s.sq_clients i { s.sq_clients i with cl_fd := o.1 } }

/-- The buffer after `read` has returned the given bytes, or `-1`. -/
def readMsg (b : Option Bytes) (s : Server) : SmiMsg := b.elim s.sq_msg s.sq_msg.overwrite

/-- One turn of the loop in `smi_receive_getaddr_fifo`, when `read` returns the given bytes, or
`-1`, and `ok` says whether a FIFO can be opened: the entry of the client, or `none` where the
loop goes on. -/
def receive (b : Option Bytes) (ok : Bool) (s : Server) : Option (Fin MAX_CLIENTS) × Server :=
  let msg := s.readMsg b
  let pid := msg.smi_client.pid
  let r := clientsFind s.sq_clients pid
  let s := { s with sq_msg := msg, sq_clients := r.2 }
  match r.1 with
  | none => (none, s)
  | some i => (some i, if (s.sq_clients i).cl_fd = -1 then s.openClient ok pid i else s)

/-- `smi_send_getaddr_fifo`. -/
def sendGetaddr (client : ClientId) (s : Server) : Server := { s with sq_client := client }

/-- `smi_send_release`. Where no entry is found the source writes to the descriptor in front of the
array; the result is then `none`. -/
def sendRelease (s : Server) : Option Server :=
  let r := clientsFind s.sq_clients s.sq_client.pid
  r.1.map fun i =>
    { s with sq_clients := r.2, writes := s.writes ++ [((r.2 i).cl_fd, s.sq_msg)] }

end Server

/-! ### The table of slots -/

/-- A client as a slot: the descriptor is its value unless it is `-1`. -/
def Client.slot (c : Client) : Slot Pid ℤ := ⟨c.cl_pid, if c.cl_fd = -1 then none else some c.cl_fd⟩

theorem Client.isSome_slot_value {c : Client} : c.slot.value.isSome ↔ c.cl_fd ≠ -1 := by
  rw [slot]
  split_ifs with h <;> simp [h]

theorem Client.slot_value_eq_none {c : Client} : c.slot.value = none ↔ c.cl_fd = -1 := by
  rw [slot]
  split_ifs with h <;> simp [h]

theorem Client.slot_injective : Function.Injective Client.slot := by
  rintro ⟨fd, pid⟩ ⟨fd', pid'⟩ h
  simp only [slot, Slot.mk.injEq] at h
  obtain ⟨rfl, h⟩ := h
  split_ifs at h with h₁ h₂ h₂
  · rw [h₁, h₂]
  · rw [Option.some.inj h]

/-- The clients as a table of slots. -/
def Clients.table (clients : Clients) : SlotTable MAX_CLIENTS Pid ℤ := fun i => (clients i).slot

section Find

variable {clients : Clients} {pid : Pid}

/-- The loop returns the first entry with the pid, and otherwise ends with the first entry without a
descriptor. -/
theorem clientsFindLoop_eq (is : List (Fin MAX_CLIENTS)) (avail : Option (Fin MAX_CLIENTS)) :
    clientsFindLoop clients pid is avail =
      match is.find? fun i => decide ((clients i).cl_pid = pid) with
      | some i => .inl i
      | none => .inr (avail.or (is.find? fun i => decide ((clients i).cl_fd = -1))) := by
  induction is generalizing avail with
  | nil => simp [clientsFindLoop]
  | cons i is ih =>
    rw [clientsFindLoop]
    by_cases hpid : (clients i).cl_pid = pid
    · simp [hpid]
    · rw [if_neg hpid, ih]
      by_cases hfd : (clients i).cl_fd = -1 <;> cases avail <;> simp [hpid, hfd]

theorem table_update {i : Fin MAX_CLIENTS} {c : Client} :
    Clients.table (Function.update clients i c) = Function.update clients.table i c.slot := by
  funext j
  by_cases hj : j = i
  · rw [hj, Clients.table, Function.update_self, Function.update_self]
  · rw [Clients.table, Function.update_of_ne hj, Function.update_of_ne hj, Clients.table]

/-- **The search claims a slot** of the table. -/
theorem clientsFind_eq (clients : Clients) (pid : Pid) :
    (clientsFind clients pid).1 = (clients.table.claim pid).1 ∧
      (clientsFind clients pid).2.table = (clients.table.claim pid).2 := by
  have hlookup : clients.table.lookup pid =
      (List.finRange MAX_CLIENTS).find? fun i => decide ((clients i).cl_pid = pid) :=
    Fin.find?_eq_find?_finRange
  have hfree : clients.table.free =
      (List.finRange MAX_CLIENTS).find? fun i => decide ((clients i).cl_fd = -1) := by
    rw [SlotTable.free, Fin.find?_eq_find?_finRange]
    refine congrArg (List.find? · _) (funext fun i => ?_)
    rw [Bool.eq_iff_iff, Option.isNone_iff_eq_none, decide_eq_true_iff]
    exact Client.slot_value_eq_none
  rw [clientsFind, clientsFindLoop_eq, SlotTable.claim, hlookup, hfree, Option.none_or]
  cases (List.finRange MAX_CLIENTS).find? fun i => decide ((clients i).cl_pid = pid) with
  | some i => exact ⟨rfl, rfl⟩
  | none =>
    cases h : (List.finRange MAX_CLIENTS).find? fun i => decide ((clients i).cl_fd = -1) with
    | none => exact ⟨rfl, rfl⟩
    | some i =>
      refine ⟨rfl, ?_⟩
      have hfd : (clients i).cl_fd = -1 := by simpa using List.find?_some h
      dsimp only
      rw [table_update, Client.slot, if_pos hfd]

variable {i : Fin MAX_CLIENTS}

theorem cl_fd_clientsFind (j : Fin MAX_CLIENTS) :
    ((clientsFind clients pid).2 j).cl_fd = -1 ↔ (clients j).cl_fd = -1 := by
  have htable := congrFun (clientsFind_eq clients pid).2 j
  rw [← Client.slot_value_eq_none, ← Client.slot_value_eq_none]
  have hvalue := congrArg Slot.value htable
  rw [SlotTable.value_claim] at hvalue
  exact iff_of_eq (congrArg (· = none) hvalue)

/-- The search leaves the clients with a descriptor as they are. -/
theorem clientsFind_of_ne {j : Fin MAX_CLIENTS} (h : (clients j).cl_fd ≠ -1) :
    (clientsFind clients pid).2 j = clients j := by
  have htable := congrFun (clientsFind_eq clients pid).2 j
  rw [SlotTable.claim_of_isSome (Client.isSome_slot_value.mpr h)] at htable
  exact Client.slot_injective htable

theorem isFirst_of_clientsFind (h : (clientsFind clients pid).1 = some i) :
    (clientsFind clients pid).2.table.IsFirst pid i := by
  rw [(clientsFind_eq clients pid).1] at h
  rw [(clientsFind_eq clients pid).2]
  exact SlotTable.isFirst_of_claim h

theorem clientsFind_of_isFirst (h : clients.table.IsFirst pid i) :
    clientsFind clients pid = (some i, clients) := by
  have hclaim := SlotTable.claim_of_isFirst h
  obtain ⟨hfst, hsnd⟩ := clientsFind_eq clients pid
  rw [hclaim] at hfst hsnd
  exact Prod.ext hfst (funext fun j => Client.slot_injective (congrFun hsnd j))

/-- There is no slot for a client exactly if it has none and all of them have descriptors. -/
theorem clientsFind_eq_none_iff : (clientsFind clients pid).1 = none ↔
    (∀ i, (clients i).cl_pid ≠ pid) ∧ ∀ i, (clients i).cl_fd ≠ -1 := by
  rw [(clientsFind_eq clients pid).1, SlotTable.claim_eq_none_iff]
  exact and_congr Iff.rfl (forall_congr' fun i => Client.isSome_slot_value)

theorem clientsFind_snd_of_none (h : (clientsFind clients pid).1 = none) :
    (clientsFind clients pid).2 = clients :=
  funext fun j => clientsFind_of_ne ((clientsFind_eq_none_iff.mp h).2 j)

/-- Giving a client a descriptor fills its slot, unless the descriptor is `-1`. -/
theorem table_setFd (h : (clients i).cl_fd = -1) (fd : ℤ) :
    Clients.table (Function.update clients i { clients i with cl_fd := fd }) =
      if fd = -1 then clients.table else clients.table.fill i fd := by
  rw [table_update, Client.slot]
  split_ifs with hfd
  · refine Function.update_eq_self_iff.mpr ?_
    rw [Clients.table, Client.slot, if_pos h]
  · rfl

end Find

end UnixStudy.Smi
