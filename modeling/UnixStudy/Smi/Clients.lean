import UnixStudy.Foundations.Fifos
import UnixStudy.Foundations.Runs
import UnixStudy.Smi.Routing

/-!
# The server and its clients

A client of the simple messaging interface opens the FIFO of the server for writing, removes what is
left of a FIFO with its own name, makes that FIFO, and opens it: for reading first, in a way that
does not wait, and then for writing. The descriptor of the second call is put where that of the
first one was. When it is done, the client closes what its structure knows of, and removes its FIFO.

A client process ends at any moment, and its pid can be used again. The server does not take part in
this: it goes on with the loop of `main`. When it has read a message of a client whose FIFO it does
not have open, it looks the name of the FIFO up and opens what it finds. It waits in this call as
long as nobody has opened that FIFO for reading, and does not look the name up again
(`System.pending`).

What stands in a FIFO is a message with the number of the FIFO of the client whose request it is, or
answers (`Parcel.owner`). No program sees this number; it tells the clients with one pid apart.

## Main definitions

* `Parcel` : a message in a FIFO.
* `ClientPhase`, `ClientProcess` : the processes of the clients.
* `ClientProcess.opens`, `ClientProcess.sends`, `ClientProcess.receives`, `ClientProcess.closes`,
  `ClientProcess.exits` : the steps of a client.
* `Pending` : a call of `open` in which the server waits.
* `System`, `System.serves` : the server and its clients, and the steps of the server.
* `System.step` : a step of the system.

## References

* `src/ad_comm/smi_server.c`, lines 96–218 and 242–262.
-/

namespace UnixStudy.Smi

/-- A message in a FIFO, with the FIFO of the client whose request it is, or answers. -/
structure Parcel where
  msg : SmiMsg
  owner : ℕ
  deriving DecidableEq

/-- The FIFOs of the server and its clients. -/
abbrev SmiFifos := Fifos Bytes Parcel

/-- `make_fifo_name_server` of the server: `/tmp/smififo-smsg_server`. -/
def serverFifo : Bytes :=
  fifoPrefix ++ [45, 115, 109, 115, 103, 95, 115, 101, 114, 118, 101, 114]

/-! ### A client -/

/-- Where a client process is: there is none with its pid; or it is in front of `smi_open`; in its
first call of `open`, which waits; in front of the other calls of `smi_open`; behind `smi_open`; in
front of the calls of `smi_close` behind the first one; or behind `smi_close`. -/
inductive ClientPhase
  | absent
  | started
  | connecting (fd : FifoFd) (seen : ℕ)
  | connected
  | unlinked
  | created
  | reading
  | ready
  | closing
  | disconnected
  | closed
  deriving DecidableEq, Repr

/-- A client process, with the members of its `SMIQ_FIFO`. The member `sq_clients[0].cl_fd` is
`cl_fd`; `reader` is the descriptor that was put there first. The FIFO is the last one that was made
by a process with the pid. -/
structure ClientProcess where
  phase : ClientPhase
  sq_fd_server : Option FifoFd
  reader : Option FifoFd
  cl_fd : Option FifoFd
  sq_msg : SmiMsg
  fifo : ℕ
  sent : List SmiMsg
  obtained : List SmiMsg
  deriving DecidableEq

namespace ClientProcess

/-- A process that has done nothing, or none, where the last FIFO with the pid is known. -/
def blank (phase : ClientPhase) (fifo : ℕ) : ClientProcess :=
  ⟨phase, none, none, none, .zero, fifo, [], []⟩

variable (pid : Pid) (c : ClientProcess) (F : SmiFifos)

/-- The next system call of `smi_open`. -/
def opens : Option (ClientProcess × SmiFifos) :=
  match c.phase with
  | .started =>
    let o := F.sysOpen serverFifo .writing
    match o.1 with
    | .missing => some ({ c with phase := .connected }, o.2)
    | .opened fd => some ({ c with phase := .connected, sq_fd_server := some fd }, o.2)
    | .waits fd seen => some ({ c with phase := .connecting fd seen }, o.2)
  | .connecting fd seen =>
    if F.Ready fd seen then some ({ c with phase := .connected, sq_fd_server := some fd }, F)
    else none
  | .connected => some ({ c with phase := .unlinked }, F.unlink (fifoOf pid))
  | .unlinked =>
    let F' := F.mkfifo (fifoOf pid)
    some ({ c with phase := .created, fifo := (F'.dir (fifoOf pid)).getD 0 }, F')
  | .created =>
    let o := F.sysOpenNonblock (fifoOf pid)
    some ({ c with phase := .reading, reader := o.1 }, o.2)
  | .reading =>
    let o := F.sysOpen (fifoOf pid) .writing
    match o.1 with
    | .missing => some ({ c with phase := .ready, cl_fd := none }, o.2)
    | .opened fd => some ({ c with phase := .ready, cl_fd := some fd }, o.2)
    -- The FIFO is open for reading by the process itself.
    | .waits _ _ => none
  | _ => none

/-- The end of the process closes what it has open. -/
def exits : Option (ClientProcess × SmiFifos) :=
  match c.phase with
  | .absent => none
  | .connecting fd _ => some (blank .absent c.fifo, F.sysClose (some fd))
  | _ => some (blank .absent c.fifo,
      ((F.sysClose c.sq_fd_server).sysClose c.reader).sysClose c.cl_fd)

/-- `smi_send_release`, where the buffer holds the message. -/
def sends (m : SmiMsg) : Option (ClientProcess × SmiFifos) :=
  if c.phase = .ready then
    let msg := m.setPid pid
    let w := F.sysWrite ⟨msg, c.fifo⟩ c.sq_fd_server
    match w.1 with
    | .killed => c.exits w.2
    | _ => some ({ c with sq_msg := msg, sent := c.sent ++ [msg] }, w.2)
  else none

/-- The client obtains the message in its buffer. -/
def obtain_msg (m : SmiMsg) : ClientProcess :=
  { c with sq_msg := m, obtained := c.obtained ++ [m] }

/-- `smi_receive_getaddr`. Where `read` fails, or returns `0`, the buffer is what it was. -/
def receives : Option (ClientProcess × SmiFifos) :=
  if c.phase = .ready then
    let r := F.sysRead c.cl_fd
    match r.1 with
    | .failed | .eof => some (c.obtain_msg c.sq_msg, r.2)
    | .item p => some (c.obtain_msg p.msg, r.2)
    | .waits => none
  else none

/-- The next system call of `smi_close`. -/
def closes : Option (ClientProcess × SmiFifos) :=
  match c.phase with
  | .ready => some ({ c with phase := .closing, cl_fd := none }, F.sysClose c.cl_fd)
  | .closing =>
    some ({ c with phase := .disconnected, sq_fd_server := none }, F.sysClose c.sq_fd_server)
  | .disconnected => some ({ c with phase := .closed }, F.unlink (fifoOf pid))
  | _ => none

end ClientProcess

/-! ### The server -/

/-- The entry whose FIFO the server has to open for a message of the client. -/
def Server.opensFor (s : Server) (pid : Pid) : Option (Fin MAX_CLIENTS) :=
  let r := clientsFind s.sq_clients pid
  r.1.filter fun i => (r.2 i).cl_fd = -1

/-- A reply: what the server has written, to which FIFO, and what the call of `write` did. -/
structure Reply where
  parcel : Parcel
  target : Option ℕ
  result : Writing
  deriving DecidableEq

/-- A call of `open` in which the server waits: the entry that it has found for its client, the FIFO
that the name stood for when it was looked up, and how often this had been opened for reading. -/
structure Pending where
  nclient : Fin MAX_CLIENTS
  fifo : ℕ
  seen : ℕ
  deriving DecidableEq

/-- The server and its clients: the server process, and whether it is still alive; the call of
`open` in which it waits; the FIFO of the client whose message it handles; the FIFO that the
descriptor of each entry is open on; the FIFOs; the client processes; what the server has opened for
whom; and its replies. -/
structure System where
  main : Main
  alive : Bool
  pending : Option Pending
  handling : ℕ
  slotFifo : Fin MAX_CLIENTS → Option ℕ
  fifos : SmiFifos
  clients : Pid → ClientProcess
  served : List (Pid × ℕ)
  replies : List Reply

/-- What the environment decides: which process makes its next step, what a client sends, and when a
client process begins, closes and ends. -/
inductive SystemLabel
  | serves
  | starts (pid : Pid)
  | opens (pid : Pid)
  | sends (pid : Pid) (m : Message)
  | receives (pid : Pid)
  | closes (pid : Pid)
  | exits (pid : Pid)

namespace System

variable (s : System)

/-- The server has read a message, and `ok` says whether a FIFO could be opened. -/
def received (p : Parcel) (ok : Bool) (F : SmiFifos) : System :=
  let r := s.main.server.receive (some p.msg.bytes) ok
  { s with main := ⟨r.2, r.1.elim .receiving .received⟩, handling := p.owner, fifos := F }

/-- The call of `open` for the entry of a client has returned a descriptor. -/
def opened (pid : Pid) (i : Fin MAX_CLIENTS) (n : ℕ) : System :=
  { s with
    slotFifo := Function.update s.slotFifo i (some n)
    served := s.served ++ [(pid, n)] }

/-- The server has read a message, and looks the FIFO of its client up if it has to. The call of
`open` fails, returns, or waits. -/
def receive (p : Parcel) (F : SmiFifos) : System :=
  let pid := p.msg.smi_client.pid
  match s.main.server.opensFor pid with
  | none => s.received p false F
  | some i =>
    let o := F.sysOpen (fifoOf pid) .writing
    match o.1 with
    | .missing => s.received p false o.2
    | .opened fd => (s.received p true o.2).opened pid i fd.fifo
    | .waits fd seen => { s with
        main := ⟨s.main.server.searched p.msg, .receiving⟩
        pending := some ⟨i, fd.fifo, seen⟩
        handling := p.owner
        fifos := o.2 }

/-- The server waits in a call of `open`, which returns when the FIFO has been opened for reading.
-/
def resume (w : Pending) : Option System :=
  let pid := s.main.server.sq_msg.smi_client.pid
  if s.fifos.Ready ⟨w.fifo, .writing⟩ w.seen then
    some ({ s with
      main := ⟨s.main.server.openClient true pid w.nclient, .received w.nclient⟩
      pending := none }.opened pid w.nclient w.fifo)
  else none

/-- What the server has open when it ends. -/
def die (F : SmiFifos) : System :=
  let F := (F.detach ⟨0, .reading⟩).detach ⟨0, .writing⟩
  { s with
    alive := false
    fifos := (List.finRange MAX_CLIENTS).foldl
      (fun F i => F.sysClose ((s.slotFifo i).map (⟨·, .writing⟩))) F }

/-- What the server sends. -/
def answer : Parcel := ⟨s.main.server.sq_msg, s.handling⟩

/-- The server has called `write` for its answer. -/
def release (main : Main) (target : Option ℕ) : System :=
  let w := s.fifos.sysWrite s.answer (target.map (⟨·, .writing⟩))
  let s := { s with main := main, fifos := w.2, replies := s.replies ++ [⟨s.answer, target, w.1⟩] }
  match w.1 with
  | .killed => s.die w.2
  | _ => s

/-- The next step of the server. -/
def serves : Option System :=
  let server := s.main.server
  if s.alive then
    match s.pending, s.main.phase with
    | some w, _ => s.resume w
    | none, .receiving =>
      let r := s.fifos.sysRead (some ⟨0, .reading⟩)
      match r.1 with
      | .item p => some (s.receive p r.2)
      | _ => none
    | none, .received i => server.sq_msg.toUpper.map fun m => { s with
        main := ⟨{ server.sendGetaddr server.sq_msg.smi_client with sq_msg := m }, .answered i⟩ }
    | none, .answered _ => server.sendRelease.map fun server' =>
        s.release ⟨server', .receiving⟩
          ((clientsFind server.sq_clients server.sq_client.pid).1.bind s.slotFifo)
  else none

/-- A step of a client. -/
def client (pid : Pid) (r : Option (ClientProcess × SmiFifos)) : Option System :=
  r.map fun r => { s with clients := Function.update s.clients pid r.1, fifos := r.2 }

/-- A step of the system. -/
def step : SystemLabel → Option System
  | .serves => s.serves
  | .starts pid =>
    s.client pid (if (s.clients pid).phase = .absent then
      some (.blank .started (s.clients pid).fifo, s.fifos)
      else none)
  | .opens pid => s.client pid ((s.clients pid).opens pid s.fifos)
  | .sends pid m => s.client pid ((s.clients pid).sends pid s.fifos m.msg)
  | .receives pid => s.client pid ((s.clients pid).receives s.fifos)
  | .closes pid => s.client pid ((s.clients pid).closes pid s.fifos)
  | .exits pid => s.client pid ((s.clients pid).exits s.fifos)

/-- The steps of the system. -/
def Step (s : System) (l : SystemLabel) (s' : System) : Prop := s.step l = some s'

/-- The server is running: it has made its FIFO and opened both ends of it, and has no client yet.
-/
def start (t : FdTable File) : System where
  main := ⟨.smiOpen true true t, .receiving⟩
  alive := true
  pending := none
  handling := 0
  slotFifo _ := none
  fifos := ((Fifos.empty.mkfifo serverFifo).attach ⟨0, .reading⟩).attach ⟨0, .writing⟩
  clients _ := .blank .absent 0
  served := []
  replies := []

end System

end UnixStudy.Smi
