import UnixStudy.Foundations.Fifos
import UnixStudy.Foundations.Runs
import UnixStudy.Smi.Message

/-!
# The FIFO application

A client sends its words to the server, one after the other, on the FIFO of the server. The server
makes each word upper case and sends it back on the FIFO of the client, whose name has the pid of
the client in it. The server opens that FIFO for each message and closes it again; the client opens
both ends of it before it reads the first reply.

Each program is a list of system calls in a row, with a loop. `Server.step` and `Client.step` make
the next call of a process, unless the call has to wait. A process of which the source prints what
it does to its terminal only is recorded by its replies and by the lines with the replies that a
client shows.

## Main definitions

* `SimpleMessage` : `struct simple_message`.
* `makeFifoName` : the name of the FIFO of a client.
* `Server`, `Server.step` : the program of the server.
* `Client`, `Client.step` : the program of a client.
* `System`, `System.step` : the server and any number of clients.

## References

* `src/ad_comm/fifo_header.h`.
* `src/ad_comm/fifo_app.c`, lines 10–49.
* `src/ad_comm/fifo_app_client.c`, lines 10–70.
-/

namespace UnixStudy.FifoApp

open Smi (Bytes Pid nul decimal toupper upperData length_upperData)

/-! ### Messages and names -/

/-- The number of elements of `sm_data`. -/
abbrev SM_DATA_SIZE : ℕ := 200

/-- A word that a client sends: a string that fits into a message. -/
structure Word where
  chars : Bytes
  short : chars.length < SM_DATA_SIZE
  noNul : nul ∉ chars
  deriving DecidableEq, Repr

/-- `struct simple_message`. -/
structure SimpleMessage where
  sm_clientpid : Pid
  sm_data : Bytes
  size : sm_data.length = SM_DATA_SIZE
  deriving DecidableEq, Repr

/-- `SERVER_FIFO_NAME`. -/
def SERVER_FIFO_NAME : Bytes := [102, 105, 102, 111, 95, 115, 101, 114, 118, 101, 114]

/-- `fifo`. -/
def fifoPrefix : Bytes := [102, 105, 102, 111]

/-- `make_fifo_name`: `snprintf` into an array of the given size. -/
def makeFifoName (pid : Pid) (name_max : ℕ) : Bytes :=
  (fifoPrefix ++ decimal pid.toInt).take (name_max - 1)

/-- The name of the FIFO of a client. -/
def fifoName (pid : Pid) : Bytes := makeFifoName pid 100

namespace SimpleMessage

variable (m : SimpleMessage)

/-- `strcpy` of a word into the data. -/
def strcpy (w : Word) : SimpleMessage where
  sm_clientpid := m.sm_clientpid
  sm_data := w.chars ++ nul :: m.sm_data.drop (w.chars.length + 1)
  size := by
    have hshort := w.short
    rw [List.length_append, List.length_cons, List.length_drop, m.size]
    omega

/-- What the format `%s` prints of the data. -/
def text : Bytes := m.sm_data.takeWhile (· != nul)

/-- The loop of the server over the data of a message. It leaves the message if the data has no
`NUL`; the result is then `none`. -/
def toUpper : Option SimpleMessage :=
  if nul ∈ m.sm_data then
    some ⟨m.sm_clientpid, upperData m.sm_data, (length_upperData _).trans m.size⟩
  else none

end SimpleMessage

/-! ### The server -/

/-- The FIFOs of the application. One message is written, and read, at a time. -/
abbrev AppFifos := Fifos Bytes SimpleMessage

/-- The next call of the server. -/
inductive ServerPc
  | mkfifo | openRead | openWrite
  | read | upper | openClient | write | closeClient
  | exited
  deriving DecidableEq, Repr

/-- The process of the server: its next call, whether this is a call of `open` that waits, and its
variables. -/
structure Server where
  pc : ServerPc
  pending : Option (FifoFd × ℕ)
  fd_server : Option FifoFd
  fd_server_w : Option FifoFd
  fd_client : Option FifoFd
  msg : SimpleMessage
  deriving DecidableEq, Repr

namespace Server

variable (s : Server)

/-- The next call. -/
def goto (pc : ServerPc) : Server := { s with pc := pc, pending := none }

/-- A call of `open` has returned, or waits. -/
def opening (o : Opening) (assign : Option FifoFd → Server) : Server :=
  match o with
  | .missing => assign none
  | .opened fd => assign (some fd)
  | .waits fd seen => { s with pending := some (fd, seen) }

/-- The process ends, and with it what it has open is closed. -/
def exit (F : AppFifos) : Server × AppFifos :=
  (s.goto .exited, ((F.sysClose s.fd_server).sysClose s.fd_server_w).sysClose s.fd_client)

/-- The next call of the server: what becomes of it and of the FIFOs, and the message it has sent
back. -/
def step (F : AppFifos) : Option (Server × AppFifos × Option SimpleMessage) :=
  match s.pc with
  | .mkfifo => some (s.goto .openRead, F.mkfifo SERVER_FIFO_NAME, none)
  | .openRead => (F.resumeOpen s.pending SERVER_FIFO_NAME .reading).map fun o =>
      (s.opening o.1 fun fd => { s.goto .openWrite with fd_server := fd }, o.2, none)
  | .openWrite => (F.resumeOpen s.pending SERVER_FIFO_NAME .writing).map fun o =>
      (s.opening o.1 fun fd => { s.goto .read with fd_server_w := fd }, o.2, none)
  | .read =>
    let r := F.sysRead s.fd_server
    match r.1 with
    | .failed => some (s.goto .upper, r.2, none)
    | .item m => some ({ s.goto .upper with msg := m }, r.2, none)
    | .eof => some ((s.exit r.2).1, (s.exit r.2).2, none)
    | .waits => none
  | .upper => s.msg.toUpper.map fun m => ({ s.goto .openClient with msg := m }, F, none)
  | .openClient => (F.resumeOpen s.pending (fifoName s.msg.sm_clientpid) .writing).map fun o =>
      (s.opening o.1 fun fd => { s.goto .write with fd_client := fd }, o.2, none)
  | .write =>
    let w := F.sysWrite s.msg s.fd_client
    match w.1 with
    | .failed => some (s.goto .closeClient, w.2, none)
    | .written => some (s.goto .closeClient, w.2, some s.msg)
    | .killed => some ((s.exit w.2).1, (s.exit w.2).2, none)
  | .closeClient => some ({ s.goto .read with fd_client := none }, F.sysClose s.fd_client, none)
  | .exited => none

end Server

/-! ### A client -/

/-- The next call of a client. -/
inductive ClientPc
  | mkfifo | openServer
  | write | openRead | openWrite | read
  | closeServer | closeRead | closeWrite | unlink
  | exited
  deriving DecidableEq, Repr

/-- The process of a client: its next call, whether this is a call of `open` that waits, its pid and
its variables. -/
structure Client where
  pc : ClientPc
  pending : Option (FifoFd × ℕ)
  pid : Pid
  fd_server : Option FifoFd
  fd_client : Option FifoFd
  fd_client_w : Option FifoFd
  i : ℕ
  msg : SimpleMessage
  word : List Word
  deriving DecidableEq, Repr

/-- The line that shows the reply to a word. -/
structure Line where
  pid : Pid
  i : ℕ
  word : Word
  text : Bytes
  deriving DecidableEq, Repr

namespace Client

variable (c : Client)

/-- The next call. -/
def goto (pc : ClientPc) : Client := { c with pc := pc, pending := none }

/-- A call of `open` has returned, or waits. -/
def opening (o : Opening) (assign : Option FifoFd → Client) : Client :=
  match o with
  | .missing => assign none
  | .opened fd => assign (some fd)
  | .waits fd seen => { c with pending := some (fd, seen) }

/-- The process ends, and with it what it has open is closed. -/
def exit (F : AppFifos) : Client × AppFifos :=
  (c.goto .exited, ((F.sysClose c.fd_server).sysClose c.fd_client).sysClose c.fd_client_w)

/-- The loop of the client begins again, behind the line with the reply in the message. -/
def again (m : SimpleMessage) : Client := { c.goto .write with msg := m, i := c.i + 1 }

/-- The line that the client prints when it has the message. -/
def line (m : SimpleMessage) : Option Line := c.word[c.i]?.map fun w => ⟨c.pid, c.i, w, m.text⟩

/-- The next call of the client: what becomes of it and of the FIFOs, and the line it has
printed. -/
def step (F : AppFifos) : Option (Client × AppFifos × Option Line) :=
  match c.pc with
  | .mkfifo => some (c.goto .openServer, F.mkfifo SERVER_FIFO_NAME, none)
  | .openServer => (F.resumeOpen c.pending SERVER_FIFO_NAME .writing).map fun o =>
      (c.opening o.1 fun fd => { c.goto .write with fd_server := fd }, o.2, none)
  | .write =>
    match c.word[c.i]? with
    | none => some (c.goto .closeServer, F, none)
    | some word =>
      let c := { c with msg := c.msg.strcpy word }
      let w := F.sysWrite c.msg c.fd_server
      match w.1 with
      | .killed => some ((c.exit w.2).1, (c.exit w.2).2, none)
      | _ => some (c.goto .openRead, w.2, none)
  | .openRead =>
    if c.fd_client = none then
      (F.resumeOpen c.pending (fifoName c.pid) .reading).map fun o =>
        (c.opening o.1 fun fd => { c.goto .openWrite with fd_client := fd }, o.2, none)
    else some (c.goto .openWrite, F, none)
  | .openWrite =>
    if c.fd_client_w = none then
      (F.resumeOpen c.pending (fifoName c.pid) .writing).map fun o =>
        (c.opening o.1 fun fd => { c.goto .read with fd_client_w := fd }, o.2, none)
    else some (c.goto .read, F, none)
  | .read =>
    let r := F.sysRead c.fd_client
    match r.1 with
    | .failed => some (c.again c.msg, r.2, c.line c.msg)
    | .item m => some (c.again m, r.2, c.line m)
    | .eof => some ((c.exit r.2).1, (c.exit r.2).2, none)
    | .waits => none
  | .closeServer => some ({ c.goto .closeRead with fd_server := none },
      F.sysClose c.fd_server, none)
  | .closeRead => some ({ c.goto .closeWrite with fd_client := none },
      F.sysClose c.fd_client, none)
  | .closeWrite => some ({ c.goto .unlink with fd_client_w := none },
      F.sysClose c.fd_client_w, none)
  | .unlink => some (c.goto .exited, F.unlink (fifoName c.pid), none)
  | .exited => none

end Client

/-! ### The system -/

/-- The server, a client for each pid, the FIFOs, the messages that the server has sent back, and
the lines that the clients have printed. A client that makes no step has not been started. -/
structure System where
  fifos : AppFifos
  server : Server
  clients : Pid → Client
  replies : List SimpleMessage
  lines : List Line

/-- The processes. -/
inductive Party
  | server
  | client (pid : Pid)
  deriving DecidableEq, Repr

namespace System

/-- The start, in a directory without FIFOs, with the words of the clients and with what is in the
memory for the message of each process. -/
def start (words : Pid → List Word) (memory : Party → SimpleMessage) : System where
  fifos := .empty
  server := ⟨.mkfifo, none, none, none, none, memory .server⟩
  clients pid := ⟨.mkfifo, none, pid, none, none, none, 0,
    { memory (.client pid) with sm_clientpid := pid }, words pid⟩
  replies := []
  lines := []

/-- The next call of a process. -/
def step (s : System) : Party → Option System
  | .server => (s.server.step s.fifos).map fun r =>
      { s with server := r.1, fifos := r.2.1, replies := s.replies ++ r.2.2.toList }
  | .client pid => ((s.clients pid).step s.fifos).map fun r =>
      { s with
        clients := Function.update s.clients pid r.1
        fifos := r.2.1
        lines := s.lines ++ r.2.2.toList }

/-- A process makes its next call. -/
def Step (s : System) (a : Party) (s' : System) : Prop := s.step a = some s'

end System

end UnixStudy.FifoApp
