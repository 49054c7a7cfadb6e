import UnixStudy.Foundations.Runs
import UnixStudy.Smi.Routing

/-!
# Sending to any client

A server may hand the ids of any client to `smi_send_getaddr`. `smi_send_release` looks the client
up, which may give it a slot, complains if there is no slot or no descriptor, and then writes all
the same: to the descriptor `-1`, or, as the index is `-1` where there is no slot, to what stands in
memory in front of the array. It always reports success. So it does what it should exactly for the
clients that have a descriptor.

## Main definitions

* `Server.release` : `smi_send_release`, with what it prints and returns.
* `Server.ApiStep` : the calls of a server, in any order.
* `Server.SendsRightly` : what sending should do.
* `Server.HasFifo` : a client has a descriptor.

## Main results

* `Server.release_of_some` : the model of `main` makes the same calls.
* `Server.Tidy.step` : what every call keeps.
* `Server.sendsRightly_iff` : when sending does what it should.

## References

* `src/ad_comm/smi_server.c`, lines 52–67 and 151–218.
-/

namespace UnixStudy.Smi.Server

/-- What a call of `smi_send_release` does: its result, what it prints, the index that it uses, with
`none` for `-1`, the descriptors that it writes to, with `none` for what stands in front of the
array, and the server behind it. -/
structure Release where
  returned : Bool
  prints : List String
  nclient : Option (Fin MAX_CLIENTS)
  wrote : List (Option ℤ)
  server : Server

/-- `smi_send_release`. The complaint is not followed by a return. -/
def release (s : Server) : Release :=
  let r := clientsFind s.sq_clients s.sq_client.pid
  let fd := r.1.map fun i => (r.2 i).cl_fd
  { returned := true
    prints := if fd = none ∨ fd = some (-1) then ["Over capacity, cannot send message.\n"] else []
    nclient := r.1
    wrote := [fd]
    server := { s with
      sq_clients := r.2
      writes := fd.elim s.writes fun fd => s.writes ++ [(fd, s.sq_msg)] } }

/-- The calls that a server makes, and what it does to the message in between: a turn of the loop
that receives, with any result of `read`, a change of the buffer, and the two calls that send. -/
inductive ApiLabel
  | receive (b : Option Bytes) (ok : Bool)
  | edit (m : SmiMsg)
  | sendGetaddr (client : ClientId)
  | sendRelease

/-- A call of a server. -/
def apiStep (s : Server) : ApiLabel → Server
  | .receive b ok => (s.receive b ok).2
  | .edit m => { s with sq_msg := m }
  | .sendGetaddr client => s.sendGetaddr client
  | .sendRelease => s.release.server

/-- A step of a server that makes its calls in any order. -/
def ApiStep (s : Server) (l : ApiLabel) (s' : Server) : Prop := s' = s.apiStep l

/-- A client has a slot with a descriptor. -/
def HasFifo (s : Server) (pid : Pid) : Prop :=
  ∃ i, (s.sq_clients i).cl_pid = pid ∧ (s.sq_clients i).cl_fd ≠ -1

/-- What sending to a client should do: write to an open descriptor in a slot of the client; and if
there is no such slot, write nothing, report the failure, and leave the table as it is. -/
def SendsRightly (s : Server) (client : ClientId) : Prop :=
  let r := (s.sendGetaddr client).release
  (∃ i, ∃ d : ℕ, (s.sq_clients i).cl_pid = client.pid ∧ (s.sq_clients i).cl_fd = d ∧
      s.fds.IsOpen d ∧ r.nclient = some i ∧ r.wrote = [some (d : ℤ)]) ∨
    (¬ ∃ i, ∃ d : ℕ, (s.sq_clients i).cl_pid = client.pid ∧ (s.sq_clients i).cl_fd = d ∧
      s.fds.IsOpen d) ∧ r.wrote = [] ∧ r.returned = false ∧ r.server.sq_clients = s.sq_clients

/-- What holds of the table after any calls: only the first slot of a client has a descriptor, and
this is open. -/
structure Tidy (s : Server) : Prop where
  indexed : s.sq_clients.table.Indexed
  opened : ∀ i, (s.sq_clients i).cl_fd ≠ -1 → ∃ d : ℕ, (s.sq_clients i).cl_fd = d ∧ s.fds.IsOpen d

variable {s s' : Server} {l : ApiLabel}

/-- The calls that `main` makes. -/
theorem release_of_some (h : s.release.nclient ≠ none) :
    s.sendRelease = some s.release.server := by
  have hfind : (clientsFind s.sq_clients s.sq_client.pid).1 ≠ none := h
  cases hslot : (clientsFind s.sq_clients s.sq_client.pid).1 with
  | none => exact absurd hslot hfind
  | some i =>
    rw [sendRelease, release]
    dsimp only
    rw [hslot]
    rfl

theorem tidy_smiOpen (okR okW : Bool) (t : FdTable File) : (smiOpen okR okW t).Tidy where
  indexed _ _ _ _ := Client.slot_value_eq_none.mpr rfl
  opened _ hi := absurd rfl hi

/-- A search keeps the table tidy. -/
theorem Tidy.find (h : s.Tidy) (pid : Pid) :
    (clientsFind s.sq_clients pid).2.table.Indexed ∧
      ∀ i, ((clientsFind s.sq_clients pid).2 i).cl_fd ≠ -1 →
        ∃ d : ℕ, ((clientsFind s.sq_clients pid).2 i).cl_fd = d ∧ s.fds.IsOpen d := by
  refine ⟨?_, fun i hi => ?_⟩
  · rw [(clientsFind_eq _ _).2]
    exact h.indexed.claim _
  · have hne : (s.sq_clients i).cl_fd ≠ -1 := fun hfd => hi ((cl_fd_clientsFind i).mpr hfd)
    rw [clientsFind_of_ne hne]
    exact h.opened i hne

/-- **Every call keeps the table tidy.** -/
theorem Tidy.step (h : s.Tidy) (hstep : s.ApiStep l s') : s'.Tidy := by
  subst hstep
  cases l with
  | receive b ok =>
    rcases s.receive_cases b ok with ⟨-, -, hreceive⟩ | ⟨-, i, s₁, hreceive, hrec⟩ <;>
      rw [apiStep, hreceive]
    · exact ⟨h.indexed, h.opened⟩
    · refine ⟨hrec.indexed h.indexed, fun j hj => ?_⟩
      by_cases hold : (s.sq_clients j).cl_fd = -1
      · obtain ⟨d, hd, hslot⟩ := hrec.opened j hj hold
        exact ⟨d, hd, FdTable.isOpen_of_slot _ hslot⟩
      · obtain ⟨d, hd, hopen⟩ := h.opened j hold
        refine ⟨d, by rw [hrec.frame.clients j hold, hd], ?_⟩
        rw [FdTable.IsOpen, hrec.frame.fds d hopen]
        exact hopen
  | edit m => exact ⟨h.indexed, h.opened⟩
  | sendGetaddr client => exact ⟨h.indexed, h.opened⟩
  | sendRelease => exact ⟨(h.find _).1, (h.find _).2⟩

/-- **When sending does what it should**, in every state that a server reaches by any calls: if and
only if the client has a slot with a descriptor. -/
theorem sendsRightly_iff {okR okW : Bool} {t : FdTable File} {ls : List ApiLabel}
    (hrun : Run ApiStep (smiOpen okR okW t) ls s) (client : ClientId) :
    s.SendsRightly client ↔ s.HasFifo client.pid := by
  have htidy : s.Tidy := hrun.invariant (tidy_smiOpen okR okW t) fun _ _ _ h hstep => h.step hstep
  constructor
  · rintro (⟨i, d, hpid, hfd, -⟩ | ⟨-, -, hreturned, -⟩)
    · exact ⟨i, hpid, by omega⟩
    · exact Bool.noConfusion hreturned
  · rintro ⟨i, hpid, hne⟩
    obtain ⟨d, hfd, hopen⟩ := htidy.opened i hne
    have hfirst : s.sq_clients.table.IsFirst client.pid i := by
      refine ⟨hpid, fun j hj hkey => hne ?_⟩
      exact Client.slot_value_eq_none.mp (htidy.indexed j i hj (hkey.trans hpid.symm))
    have hfind := clientsFind_of_isFirst hfirst
    refine .inl ⟨i, d, hpid, hfd, hopen, congrArg Prod.fst hfind, ?_⟩
    rw [sendGetaddr, release]
    dsimp only
    rw [hfind, ← hfd]
    rfl

/-- A client that a message was received from has a descriptor, and can be sent to. -/
theorem sendsRightly_iff_sample :
    ((smiOpen true true ⟨[]⟩).apiStep (.receive (some Main.sample.msg.bytes) true)).SendsRightly
      ⟨5, 0⟩ := by
  have hstep :
      (smiOpen true true ⟨[]⟩).ApiStep (.receive (some Main.sample.msg.bytes) true) _ := rfl
  have hslot : ((smiOpen true true ⟨[]⟩).receive (some Main.sample.msg.bytes) true).2.sq_clients 0 =
      ⟨2, 5⟩ := by decide
  refine (sendsRightly_iff (Run.refl.tail hstep) ⟨5, 0⟩).mpr ⟨0, ?_⟩
  rw [apiStep, hslot]
  decide

/-- **A client that is not known** to a new server is given a slot, the descriptor `-1` is written
to, and the call reports success. -/
theorem not_sendsRightly_new :
    let r := ((smiOpen true true ⟨[]⟩).sendGetaddr ⟨7, 0⟩).release
    r.returned = true ∧ r.wrote = [some (-1)] ∧ r.server.sq_clients 0 = ⟨-1, 7⟩ ∧
      ¬ (smiOpen true true ⟨[]⟩).SendsRightly ⟨7, 0⟩ := by
  refine ⟨rfl, by decide, by decide, ?_⟩
  rintro (⟨i, d, -, hfd, -⟩ | ⟨-, -, hreturned, -⟩)
  · have hneg : (-1 : ℤ) = d := hfd
    omega
  · exact Bool.noConfusion hreturned

end UnixStudy.Smi.Server
