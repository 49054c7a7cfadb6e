import UnixStudy.Foundations.CStrings
import UnixStudy.Foundations.Runs

/-!
# A client and a server at a socket

The parent gives a socket a name, listens, and accepts a connection. The child tries to connect
until it can: while the socket has no name yet it sleeps in between, and after any other error it
tries again at once. Each of them writes a message with its NUL, and shows what it has read as a
string; where nothing was read, this is what happens to be in memory.

A message is written and read as a whole, and the calls of `accept`, `read` and `write` succeed for
the sockets of a connection. Nobody else is at the socket: a name that is left from before is one at
which nobody listens.

## Main definitions

* `Env` : the results of the calls that may fail, and what is in memory.
* `System`, `step` : the two processes, and a step of one of them.

## References

* `src/socket/basic.c`.
-/

namespace UnixStudy.Socket

/-- `"Hello!"`, with its NUL. -/
def hello : List UInt8 := [72, 101, 108, 108, 111, 33, 0]

/-- `"Goodbye!"`, with its NUL. -/
def goodbye : List UInt8 := [71, 111, 111, 100, 98, 121, 101, 33, 0]

/-- The next statement of the parent. -/
inductive ServerPc
  | socket | bind | listen | accept | read | printf | write | closeSkt | closeClient | exited
  | killed
  deriving DecidableEq

/-- The next statement of the child, if there is one. -/
inductive ClientPc
  | absent | socket | connect | sleep | write | read | printf | close | exited | killed
  deriving DecidableEq

/-- Which calls succeed: `fork`; `unlink`, or there was no such name; `socket` of the two processes;
`bind` and `listen`, if the calls in front of them did; and what is in memory from the arrays of the
two processes on. -/
structure Env where
  forked : Bool
  unlinked : Bool
  clientSocket : Bool
  serverSocket : Bool
  bound : Bool
  listens : Bool
  clientMem : List UInt8
  serverMem : List UInt8

/-- The two processes. The socket has its name, and is listened at; there is a connection, of which
each end may be open, and the server has accepted it; what was written and not yet read; memory from
the arrays on; and what was shown. -/
structure System where
  server : ServerPc
  client : ClientPc
  isBound : Bool
  isListening : Bool
  connected : Bool
  accepted : Bool
  serverEnd : Bool
  clientEnd : Bool
  toServer : List UInt8
  toClient : List UInt8
  serverMem : List UInt8
  clientMem : List UInt8
  serverOut : Option CString
  clientOut : Option CString

/-- The processes after `fork`. -/
def System.start (env : Env) : System where
  server := .socket
  client := if env.forked then .socket else .absent
  isBound := false
  isListening := false
  connected := false
  accepted := false
  serverEnd := false
  clientEnd := false
  toServer := []
  toClient := []
  serverMem := env.serverMem
  clientMem := env.clientMem
  serverOut := none
  clientOut := none

/-- A step: of the server, of the client, or of the client that tries to connect in vain. -/
inductive Label
  | server
  | client
  | again
  deriving DecidableEq

/-- `read` into an array of 100 characters: it waits while there is nothing and the other end is
open. What is left, and memory from the array on. -/
def sysRead (peer : Bool) (queue mem : List UInt8) : Option (List UInt8 × List UInt8) :=
  if queue = [] ∧ peer then none
  else some (queue.drop 100, queue.take 100 ++ mem.drop (queue.take 100).length)

variable (env : Env) (s : System)

/-- A step of the server. Its calls of `read` and `write` fail if it has accepted nothing. -/
def serverStep : Option System :=
  match s.server with
  | .socket => some { s with server := .bind }
  | .bind =>
    some { s with server := .listen, isBound := env.serverSocket && env.unlinked && env.bound }
  | .listen => some { s with server := .accept, isListening := s.isBound && env.listens }
  | .accept =>
    if s.isListening then
      if s.connected then some { s with server := .read, accepted := true } else none
    else some { s with server := .read }
  | .read =>
    if s.accepted then do
      let (queue, mem) ← sysRead s.clientEnd s.toServer s.serverMem
      some { s with server := .printf, toServer := queue, serverMem := mem }
    else some { s with server := .printf }
  | .printf => some { s with server := .write, serverOut := some (.ofMemory s.serverMem) }
  | .write =>
    if s.accepted then
      if s.clientEnd then some { s with server := .closeSkt, toClient := s.toClient ++ goodbye }
      else some { s with server := .killed }
    else some { s with server := .closeSkt }
  | .closeSkt =>
    some { s with
      server := .closeClient
      isListening := false
      serverEnd := s.serverEnd && s.accepted }
  | .closeClient => some { s with server := .exited, serverEnd := s.serverEnd && !s.accepted }
  | .exited | .killed => none

/-- A step of the client other than a call of `connect` that fails. -/
def clientStep : Option System :=
  match s.client with
  | .socket => some { s with client := .connect }
  | .connect =>
    if env.clientSocket && s.isListening then
      some { s with client := .write, connected := true, serverEnd := true, clientEnd := true }
    else none
  | .write =>
    if s.serverEnd then some { s with client := .read, toServer := s.toServer ++ hello }
    else some { s with client := .killed }
  | .read => do
    let (queue, mem) ← sysRead s.serverEnd s.toClient s.clientMem
    some { s with client := .printf, toClient := queue, clientMem := mem }
  | .printf => some { s with client := .close, clientOut := some (.ofMemory s.clientMem) }
  | .close => some { s with client := .exited, clientEnd := false }
  | .absent | .sleep | .exited | .killed => none

/-- A call of `connect` that fails, with `ENOENT` if there is no such name, or a call of `sleep`. -/
def againStep : Option System :=
  match s.client with
  | .connect =>
    if env.clientSocket && s.isListening then none
    else if env.clientSocket && env.unlinked && !s.isBound then some { s with client := .sleep }
    else some s
  | .sleep => some { s with client := .connect }
  | _ => none

/-- A step. -/
def step : Label → Option System
  | .server => serverStep env s
  | .client => clientStep env s
  | .again => againStep env s

/-- A step of one of the processes. -/
abbrev Step (s : System) (l : Label) (s' : System) : Prop := step env s l = some s'

end UnixStudy.Socket
