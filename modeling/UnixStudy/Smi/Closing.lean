import UnixStudy.Foundations.Runs
import UnixStudy.Smi.Routing
import Mathlib.Data.Fintype.Basic
import Mathlib.Data.Fintype.EquivFin

/-!
# Closing what was opened

`smi_open_fifo` opens two descriptors for a server and three for a client, and a server opens one
more for each of its clients. What is open is known from the structure only, and `smi_close_fifo`
closes what it finds there. The structure of a server has all of its descriptors, each once. That of
a client has not: the descriptor that was opened for reading is overwritten, and so is never closed;
and the slots that are not in use are never set to `-1`, so the standard input is closed for each.

## Main definitions

* `SmiEntity`, `SmiqFifo`, `Endpoint` : a server or a client, its structure and its descriptors.
* `Endpoint.smiOpenFifoFds`, `Endpoint.smiCloseFifo` : opening and closing.
* `Endpoint.Step` : receiving and sending.
* `Endpoint.Undoes` : closing undoes opening.

## Main results

* `Endpoint.Held.step` : the structure of a server has all of its descriptors.
* `Endpoint.Lost.step` : the structure of a client has not.
* `Endpoint.undoes_iff` : for whom closing undoes opening.

## References

* `src/ad_comm/smi_server.c`, lines 31–67, 96–149 and 160–218.
-/

namespace UnixStudy.Smi

/-- `SMIENTITY`. -/
inductive SmiEntity
  | SMI_SERVER
  | SMI_CLIENT
  deriving DecidableEq, Repr

/-- `SMIQ_FIFO`, without the name of the server. -/
structure SmiqFifo where
  sq_entity : SmiEntity
  sq_fd_server : ℤ
  sq_fd_server_w : ℤ
  sq_clients : Clients
  sq_client : ClientId
  sq_msgsize : ℕ
  sq_msg : Bytes

/-- A process with its structure and its descriptors, what `open` has returned to the functions of
the interface, and what they have closed. -/
structure Endpoint where
  pid : Pid
  p : SmiqFifo
  fds : FdTable File
  opened : List ℤ
  closed : List ℤ

namespace Endpoint

/-- `open`, where the result is put into the structure. -/
def openTo (f : File) (assign : SmiqFifo → ℤ → SmiqFifo) (s : Endpoint) : Endpoint :=
  let o := s.fds.sysOpen true f
  { s with p := assign s.p o.1, fds := o.2, opened := s.opened ++ [o.1] }

/-- `close`. -/
def close (fd : ℤ) (s : Endpoint) : Endpoint :=
  { s with fds := s.fds.sysClose fd, closed := s.closed ++ [fd] }

/-- An assignment to `sq_clients[i].cl_fd`. -/
def setFd (i : Fin MAX_CLIENTS) (p : SmiqFifo) (fd : ℤ) : SmiqFifo :=
  { p with sq_clients := Function.update p.sq_clients i { p.sq_clients i with cl_fd := fd } }

/-- The calls of `open` in `smi_open_fifo`, where all of them succeed. The structure comes from
`calloc`. -/
def smiOpenFifoFds (entity : SmiEntity) (msgsize : ℕ) (pid : Pid) (t : FdTable File) : Endpoint :=
  let p : SmiqFifo := ⟨entity, 0, 0, fun _ => ⟨0, 0⟩, ⟨0, 0⟩, msgsize + HEADER_SIZE,
    List.replicate (msgsize + HEADER_SIZE) 0⟩
  match entity with
  | .SMI_SERVER =>
    let s : Endpoint := ⟨pid, { p with sq_clients := clientsBgn }, t, [], []⟩
    let s := s.openTo .server fun p fd => { p with sq_fd_server := fd }
    s.openTo .server fun p fd => { p with sq_fd_server_w := fd }
  | .SMI_CLIENT =>
    let s : Endpoint := ⟨pid, p, t, [], []⟩
    let s := s.openTo .server fun p fd => { p with sq_fd_server := fd }
    let s := s.openTo (.client (fifoOf pid)) (setFd 0)
    s.openTo (.client (fifoOf pid)) (setFd 0)

/-- A turn of the loop of `clients_close_all`. -/
def closeClient (s : Endpoint) (i : Fin MAX_CLIENTS) : Endpoint :=
  if (s.p.sq_clients i).cl_fd ≠ -1 then
    { s.close (s.p.sq_clients i).cl_fd with p := setFd i s.p (-1) }
  else s

/-- `clients_close_all`. -/
def clientsCloseAll (s : Endpoint) : Endpoint := (List.finRange MAX_CLIENTS).foldl closeClient s

/-- The calls of `close` in `smi_close_fifo` itself. -/
def closeServer (s : Endpoint) : Endpoint :=
  match s.p.sq_entity with
  | .SMI_CLIENT => s.close s.p.sq_fd_server
  | .SMI_SERVER => (s.close s.p.sq_fd_server).close s.p.sq_fd_server_w

/-- `smi_close_fifo`. -/
def smiCloseFifo (s : Endpoint) : Endpoint := s.clientsCloseAll.closeServer

/-- A turn of the loop of `smi_receive_getaddr_fifo`, where `read` returns the given bytes. -/
def receive (b : Bytes) (s : Endpoint) : Endpoint :=
  let msg := b ++ s.p.sq_msg.drop b.length
  match s.p.sq_entity with
  | .SMI_CLIENT => { s with p := { s.p with sq_msg := msg } }
  | .SMI_SERVER =>
    let pid := (⟨longAt 8 msg, longAt 16 msg⟩ : ClientId).pid
    let r := clientsFind s.p.sq_clients pid
    let s := { s with p := { s.p with sq_msg := msg, sq_clients := r.2 } }
    match r.1 with
    | none => s
    | some i =>
      if (s.p.sq_clients i).cl_fd = -1 then s.openTo (.client (fifoOf pid)) (setFd i) else s

/-- `smi_send_getaddr_fifo` and `smi_send_release`. -/
def send (client : ClientId) (s : Endpoint) : Endpoint :=
  match s.p.sq_entity with
  | .SMI_CLIENT =>
    { s with p := { s.p with
        sq_msg := s.p.sq_msg.take 8 ++ longBytes s.pid.toInt64 ++ s.p.sq_msg.drop 16 } }
  | .SMI_SERVER =>
    { s with p := { s.p with
        sq_client := client, sq_clients := (clientsFind s.p.sq_clients client.pid).2 } }

/-- What happens between opening and closing: the calls that receive and send, and what the caller
writes to the message in between. -/
inductive Label
  | receive (b : Bytes)
  | edit (b : Bytes)
  | send (client : ClientId)

/-- The steps between opening and closing. -/
inductive Step (s : Endpoint) : Label → Endpoint → Prop
  | receive {b : Bytes} (h : b.length ≤ s.p.sq_msgsize) : Step s (.receive b) (s.receive b)
  | edit {b : Bytes} (h : b.length = s.p.sq_msgsize) :
      Step s (.edit b) { s with p := { s.p with sq_msg := b } }
  | send (client : ClientId) : Step s (.send client) (s.send client)

/-- **Closing undoes opening**: the descriptors that are open are those that were open before; what
was opened is closed, once; and nothing else is closed. -/
structure Undoes (t : FdTable File) (s : Endpoint) : Prop where
  openSet : s.fds.openSet = t.openSet
  once : ∀ fd ∈ s.opened, s.closed.count fd = 1
  own : ∀ fd ∈ s.closed, fd ∈ s.opened

variable {s s' s'' : Endpoint} {t : FdTable File} {fds fds' : List ℤ} {l : Label}

/-! ### What is closed -/

/-- The descriptors of some of the slots. -/
def held (clients : Clients) (is : List (Fin MAX_CLIENTS)) : List ℤ :=
  (is.map fun i => (clients i).cl_fd).filter (· ≠ -1)

/-- Some descriptors are closed, and nothing else changes but the slots. -/
structure Closes (fds : List ℤ) (s s' : Endpoint) : Prop where
  closed : s'.closed = s.closed ++ fds
  isOpen : ∀ m : ℕ, s'.fds.IsOpen m ↔ (m : ℤ) ∉ fds ∧ s.fds.IsOpen m
  opened : s'.opened = s.opened
  entity : s'.p.sq_entity = s.p.sq_entity
  server : s'.p.sq_fd_server = s.p.sq_fd_server
  serverW : s'.p.sq_fd_server_w = s.p.sq_fd_server_w

namespace Closes

theorem refl (s : Endpoint) : Closes [] s s :=
  ⟨(List.append_nil _).symm, fun _ => (and_iff_right List.not_mem_nil).symm, rfl, rfl, rfl, rfl⟩

theorem trans (h : Closes fds s s') (h' : Closes fds' s' s'') : Closes (fds ++ fds') s s'' where
  closed := by rw [h'.closed, h.closed, List.append_assoc]
  isOpen m := by rw [h'.isOpen, h.isOpen, List.mem_append, not_or, and_left_comm, and_assoc]
  opened := h'.opened.trans h.opened
  entity := h'.entity.trans h.entity
  server := h'.server.trans h.server
  serverW := h'.serverW.trans h.serverW

theorem close (fd : ℤ) (s : Endpoint) : Closes [fd] s (s.close fd) where
  closed := rfl
  isOpen m := by
    rw [List.mem_singleton]
    exact s.fds.isOpen_sysClose
  opened := rfl
  entity := rfl
  server := rfl
  serverW := rfl

/-- A slot is closed if it is in use. -/
theorem closeClient (s : Endpoint) (i : Fin MAX_CLIENTS) :
    Closes (held s.p.sq_clients [i]) s (s.closeClient i) := by
  rw [Endpoint.closeClient, held, List.map_singleton, List.filter_singleton]
  split_ifs with hfd
  · rw [decide_eq_true hfd, cond_true]
    obtain ⟨hclosed, hopen, -⟩ := close (s.p.sq_clients i).cl_fd s
    exact ⟨hclosed, hopen, rfl, rfl, rfl, rfl⟩
  · rw [decide_eq_false hfd, cond_false]
    exact refl s

/-- The slots are closed one after the other. -/
theorem foldl_closeClient {is : List (Fin MAX_CLIENTS)} (his : is.Nodup) (s : Endpoint) :
    Closes (held s.p.sq_clients is) s (is.foldl Endpoint.closeClient s) := by
  induction is generalizing s with
  | nil => exact refl s
  | cons i is ih =>
    obtain ⟨hi, his⟩ := List.nodup_cons.mp his
    have hkept : held (s.closeClient i).p.sq_clients is = held s.p.sq_clients is := by
      refine congrArg (List.filter _) (List.map_congr_left fun j hj => ?_)
      have hji : j ≠ i := fun h => hi (h ▸ hj)
      rw [Endpoint.closeClient]
      split_ifs
      · exact congrArg Client.cl_fd (Function.update_of_ne hji ..)
      · rfl
    have hrest := ih his (s.closeClient i)
    rw [hkept] at hrest
    have hall := (closeClient s i).trans hrest
    rw [held, held, ← List.filter_append, ← List.map_append] at hall
    exact hall

theorem clientsCloseAll (s : Endpoint) :
    Closes (held s.p.sq_clients (List.finRange MAX_CLIENTS)) s s.clientsCloseAll := by
  rw [Endpoint.clientsCloseAll]
  exact foldl_closeClient (List.nodup_finRange MAX_CLIENTS) s

/-- What `smi_close_fifo` closes. -/
theorem smiCloseFifo (s : Endpoint) :
    Closes (held s.p.sq_clients (List.finRange MAX_CLIENTS) ++ s.p.sq_fd_server ::
      match s.p.sq_entity with
      | .SMI_CLIENT => []
      | .SMI_SERVER => [s.p.sq_fd_server_w]) s s.smiCloseFifo := by
  have hall := clientsCloseAll s
  rw [Endpoint.smiCloseFifo]
  generalize s.clientsCloseAll = s₁ at hall ⊢
  rw [← hall.entity, ← hall.server, ← hall.serverW, closeServer]
  have hserver := hall.trans (close s₁.p.sq_fd_server s₁)
  cases s₁.p.sq_entity with
  | SMI_CLIENT => exact hserver
  | SMI_SERVER =>
    have hboth := hserver.trans (close s₁.p.sq_fd_server_w _)
    rwa [List.append_assoc] at hboth

end Closes

/-! ### What is opened -/

theorem openTo_eq (f : File) (assign : SmiqFifo → ℤ → SmiqFifo) (s : Endpoint) :
    s.openTo f assign = { s with
      p := assign s.p s.fds.lowestFree, fds := s.fds.put s.fds.lowestFree f
      opened := s.opened ++ [(s.fds.lowestFree : ℤ)] } := rfl

/-- What is open is what was open before, and what was opened. -/
structure Owns (t : FdTable File) (s : Endpoint) : Prop where
  isOpen : ∀ d : ℕ, s.fds.IsOpen d ↔ t.IsOpen d ∨ (d : ℤ) ∈ s.opened
  fresh : ∀ d : ℕ, (d : ℤ) ∈ s.opened → ¬ t.IsOpen d
  nodup : s.opened.Nodup
  closed : s.closed = []

namespace Owns

theorem start (pid : Pid) (p : SmiqFifo) (t : FdTable File) : Owns t ⟨pid, p, t, [], []⟩ :=
  ⟨fun _ => (or_iff_left List.not_mem_nil).symm, fun _ h => absurd h List.not_mem_nil,
    List.nodup_nil, rfl⟩

/-- What is opened was not open. -/
theorem not_mem (h : Owns t s) : (s.fds.lowestFree : ℤ) ∉ s.opened := fun hmem =>
  s.fds.not_isOpen_lowestFree ((h.isOpen _).mpr (.inr hmem))

theorem openTo (h : Owns t s) (f : File) (assign : SmiqFifo → ℤ → SmiqFifo) :
    Owns t (s.openTo f assign) := by
  rw [openTo_eq]
  refine ⟨fun d => ?_, fun d hd => ?_, ?_, h.closed⟩
  · rw [FdTable.isOpen_put, h.isOpen, List.mem_append, List.mem_singleton, Int.natCast_inj, or_comm,
      or_assoc]
  · rcases List.mem_append.mp hd with hd | hd
    · exact h.fresh d hd
    · obtain rfl := Int.natCast_inj.mp (List.mem_singleton.mp hd)
      exact fun hopen => s.fds.not_isOpen_lowestFree ((h.isOpen _).mpr (.inl hopen))
  · exact List.nodup_append.mpr ⟨h.nodup, List.nodup_singleton _, fun fd hfd fd' hfd' heq =>
      h.not_mem (List.mem_singleton.mp hfd' ▸ heq ▸ hfd)⟩

end Owns

/-- The descriptor of another slot joins those that are held. -/
theorem held_update {clients : Clients} {is : List (Fin MAX_CLIENTS)} (his : is.Nodup)
    {i : Fin MAX_CLIENTS} (hi : i ∈ is) {c : Client} (hfree : (clients i).cl_fd = -1)
    (hc : c.cl_fd ≠ -1) :
    (held (Function.update clients i c) is).Perm (c.cl_fd :: held clients is) := by
  obtain ⟨as, bs, rfl⟩ := List.append_of_mem hi
  obtain ⟨has, hbs⟩ : i ∉ as ∧ i ∉ bs := by
    have hnodup := List.nodup_middle.mp his
    exact not_or.mp fun h => (List.nodup_cons.mp hnodup).1 (List.mem_append.mpr h)
  have hmap {js : List (Fin MAX_CLIENTS)} (hjs : i ∉ js) :
      held (Function.update clients i c) js = held clients js := by
    refine congrArg (List.filter _) (List.map_congr_left fun j hj => ?_)
    have hji : j ≠ i := fun h => hjs (h ▸ hj)
    rw [Function.update_of_ne hji]
  have hsplit (clients : Clients) : held clients (as ++ i :: bs) =
      held clients as ++ (held clients [i] ++ held clients bs) := by
    rw [held, held, held, held, ← List.filter_append, ← List.filter_append, ← List.map_append,
      ← List.map_append]
    rfl
  have hnew : held (Function.update clients i c) [i] = [c.cl_fd] := by
    rw [held, List.map_singleton, Function.update_self, List.filter_singleton, decide_eq_true hc,
      cond_true]
  have hold : held clients [i] = [] := by
    rw [held, List.map_singleton, List.filter_singleton, hfree]
    rfl
  rw [hsplit, hsplit, hmap has, hmap hbs, hnew, hold]
  exact List.perm_middle

/-- The search leaves the descriptors in the slots as they are. -/
theorem held_clientsFind (clients : Clients) (pid : Pid) (is : List (Fin MAX_CLIENTS)) :
    held (clientsFind clients pid).2 is = held clients is := by
  refine congrArg (List.filter _) (List.map_congr_left fun j _ => ?_)
  by_cases hfd : (clients j).cl_fd = -1
  · rw [hfd, (cl_fd_clientsFind j).mpr hfd]
  · rw [clientsFind_of_ne hfd]

/-! ### A server -/

/-- The structure of a server has all of its descriptors. -/
structure Held (t : FdTable File) (s : Endpoint) : Prop where
  entity : s.p.sq_entity = .SMI_SERVER
  owns : Owns t s
  perm : s.opened.Perm
    (s.p.sq_fd_server :: s.p.sq_fd_server_w :: held s.p.sq_clients (List.finRange MAX_CLIENTS))

theorem held_clientsBgn : held clientsBgn (List.finRange MAX_CLIENTS) = [] := by
  rw [held, List.filter_eq_nil_iff]
  intro fd hfd
  obtain ⟨i, -, rfl⟩ := List.mem_map.mp hfd
  exact Bool.false_ne_true

theorem held_smiOpenFifoFds (msgsize : ℕ) (pid : Pid) (t : FdTable File) :
    Held t (smiOpenFifoFds .SMI_SERVER msgsize pid t) := by
  rw [smiOpenFifoFds]
  refine ⟨rfl, ((Owns.start ..).openTo ..).openTo .., ?_⟩
  rw [openTo_eq, openTo_eq]
  dsimp only
  rw [held_clientsBgn]
  exact List.Perm.refl _

theorem Owns.congr (h : Owns t s) (p : SmiqFifo) : Owns t { s with p := p } :=
  ⟨h.isOpen, h.fresh, h.nodup, h.closed⟩

/-- A search for a pid, and a change of the message, leave the descriptors. -/
theorem Held.search (h : Held t s) (pid : Pid) (client : ClientId) (b : Bytes) :
    Held t { s with p := { s.p with
      sq_clients := (clientsFind s.p.sq_clients pid).2, sq_client := client, sq_msg := b } } := by
  refine ⟨h.entity, h.owns.congr _, ?_⟩
  dsimp only
  rw [held_clientsFind]
  exact h.perm

/-- What is opened for a slot is put into the slot. -/
theorem Held.openSlot (h : Held t s) (f : File) {i : Fin MAX_CLIENTS}
    (hfree : (s.p.sq_clients i).cl_fd = -1) : Held t (s.openTo f (setFd i)) := by
  refine ⟨h.entity, h.owns.openTo .., ?_⟩
  have hheld := held_update (List.nodup_finRange MAX_CLIENTS) (List.mem_finRange i) hfree
    (c := ⟨s.fds.lowestFree, (s.p.sq_clients i).cl_pid⟩) (Int.noConfusion ·)
  have hmiddle := @List.perm_middle _ (s.fds.lowestFree : ℤ)
    [s.p.sq_fd_server, s.p.sq_fd_server_w] (held s.p.sq_clients (List.finRange MAX_CLIENTS))
  rw [openTo_eq, setFd]
  refine (List.perm_append_singleton _ _).trans ((h.perm.cons _).trans (hmiddle.symm.trans ?_))
  exact (hheld.symm.cons _).cons _

/-- **The structure has all descriptors** after every step. -/
theorem Held.step (h : Held t s) (hstep : Step s l s') : Held t s' := by
  cases hstep with
  | receive hb =>
    rw [receive, h.entity]
    dsimp only
    split
    · exact h.search ..
    · split_ifs with hfree
      · exact (h.search ..).openSlot _ hfree
      · exact h.search ..
  | edit hb => exact ⟨h.entity, h.owns.congr _, h.perm⟩
  | send client =>
    rw [send, h.entity]
    exact h.search ..

/-- A server closes what it has opened. -/
theorem Held.undoes (h : Held t s) : Undoes t s.smiCloseFifo := by
  have hcloses := Closes.smiCloseFifo s
  rw [h.entity] at hcloses
  dsimp only at hcloses
  have hperm : s.opened.Perm s.smiCloseFifo.closed := by
    rw [hcloses.closed, h.owns.closed, List.nil_append]
    exact h.perm.trans (@List.perm_append_comm _ [s.p.sq_fd_server, s.p.sq_fd_server_w] _)
  have hmem (fd : ℤ) : fd ∈ s.smiCloseFifo.closed ↔ fd ∈ s.opened := hperm.mem_iff.symm
  refine ⟨?_, fun fd hfd => ?_, fun fd hfd => ?_⟩
  · ext m
    have hclosed := hcloses.closed
    rw [h.owns.closed, List.nil_append] at hclosed
    rw [FdTable.mem_openSet, FdTable.mem_openSet, hcloses.isOpen, ← hclosed, hmem, h.owns.isOpen]
    have hfresh := h.owns.fresh m
    tauto
  · rw [hcloses.opened] at hfd
    rw [← hperm.count_eq]
    exact List.count_eq_one_of_mem h.owns.nodup hfd
  · rw [hcloses.opened]
    exact (hmem fd).mp hfd

/-! ### A client -/

/-- The structure of a client has not all of its descriptors. -/
structure Lost (s : Endpoint) : Prop where
  entity : s.p.sq_entity = .SMI_CLIENT
  lost : ∃ b ∈ s.opened, b ∉ s.closed ∧ b ≠ s.p.sq_fd_server ∧ ∀ i, b ≠ (s.p.sq_clients i).cl_fd

/-- The descriptor for reading is overwritten, and is none of the cleared slots: if the standard
input was not open before, it is the descriptor of the server's FIFO. -/
theorem lost_smiOpenFifoFds (msgsize : ℕ) (pid : Pid) (t : FdTable File) :
    Lost (smiOpenFifoFds .SMI_CLIENT msgsize pid t) := by
  rw [smiOpenFifoFds, openTo_eq, openTo_eq, openTo_eq]
  refine ⟨rfl, ((t.put t.lowestFree .server).lowestFree : ℤ), ?_⟩
  generalize hw : t.lowestFree = w
  generalize hb : (t.put w .server).lowestFree = b
  generalize hc : ((t.put w .server).put b (.client (fifoOf pid))).lowestFree = c
  have hfree := (t.put w .server).not_isOpen_lowestFree
  have hfree' := ((t.put w .server).put b (.client (fifoOf pid))).not_isOpen_lowestFree
  rw [hb, FdTable.isOpen_put, not_or] at hfree
  rw [hc, FdTable.isOpen_put, not_or] at hfree'
  have hzero : b ≠ 0 := by
    rintro rfl
    have hpos : 0 < w := Nat.pos_of_ne_zero (Ne.symm hfree.1)
    exact hfree.2 (t.isOpen_of_lt_lowestFree (hw ▸ hpos))
  refine ⟨List.mem_append_left _ (List.mem_append_right _ List.mem_cons_self), List.not_mem_nil,
    Int.natCast_inj.not.mpr hfree.1, fun i => ?_⟩
  dsimp only [setFd]
  by_cases hi : i = 0
  · rw [hi, Function.update_self]
    exact Int.natCast_inj.not.mpr (Ne.symm hfree'.1)
  · rw [Function.update_of_ne hi, Function.update_of_ne hi]
    exact Int.natCast_inj.not.mpr hzero

/-- **The descriptor is lost** after every step. -/
theorem Lost.step (h : Lost s) (hstep : Step s l s') : Lost s' := by
  cases hstep with
  | receive hb =>
    rw [receive, h.entity]
    exact ⟨h.entity, h.lost⟩
  | edit hb => exact ⟨h.entity, h.lost⟩
  | send client =>
    rw [send, h.entity]
    exact ⟨h.entity, h.lost⟩

/-- A client does not close what it has lost. -/
theorem Lost.not_undoes (h : Lost s) : ¬ Undoes t s.smiCloseFifo := by
  have hcloses := Closes.smiCloseFifo s
  rw [h.entity] at hcloses
  obtain ⟨b, hopened, hclosed, hserver, hclients⟩ := h.lost
  intro hundoes
  have hone := hundoes.once b (hcloses.opened ▸ hopened)
  have hmem : b ∈ s.smiCloseFifo.closed := List.count_pos_iff.mp (hone ▸ Nat.one_pos)
  rw [hcloses.closed, List.mem_append, List.mem_append] at hmem
  rcases hmem with hmem | hmem | hmem
  · exact hclosed hmem
  · obtain ⟨i, -, rfl⟩ := List.mem_map.mp (List.mem_of_mem_filter hmem)
    exact hclients i rfl
  · exact hserver (List.mem_singleton.mp hmem)

/-- **For whom closing undoes opening**, whatever was received and sent in between: for a server,
and not for a client. -/
theorem undoes_iff {entity : SmiEntity} {msgsize : ℕ} {pid : Pid} {ls : List Label}
    (hrun : Run Step (smiOpenFifoFds entity msgsize pid t) ls s) :
    Undoes t s.smiCloseFifo ↔ entity = .SMI_SERVER := by
  cases entity with
  | SMI_SERVER =>
    have hheld : Held t s :=
      hrun.invariant (held_smiOpenFifoFds msgsize pid t) fun _ _ _ h hstep => h.step hstep
    exact iff_of_true hheld.undoes rfl
  | SMI_CLIENT =>
    have hlost : Lost s :=
      hrun.invariant (lost_smiOpenFifoFds msgsize pid t) fun _ _ _ h hstep => h.step hstep
    exact iff_of_false hlost.not_undoes (SmiEntity.noConfusion ·)

/-- A server that has received a message, for which it opens the FIFO of the client, and has sent
the answer. -/
theorem undoes_iff_server :
    let t : FdTable File := ⟨[some .other, some .other, some .other]⟩
    let s := ((smiOpenFifoFds .SMI_SERVER DATA_SIZE 1 t).receive Main.sample.msg.bytes).send
      Main.sample.msg.smi_client
    s.opened = [3, 4, 5] ∧ Undoes t s.smiCloseFifo := by
  refine ⟨by decide, (undoes_iff ((Run.refl.tail (.receive ?_)).tail (.send _))).mpr rfl⟩
  exact Main.sample.msg.size.le

/-- **A client that opens and closes** has closed its standard input, and has the descriptor `4`. -/
theorem not_undoes_client :
    let t : FdTable File := ⟨[some .other, some .other, some .other]⟩
    let s := smiCloseFifo (smiOpenFifoFds .SMI_CLIENT DATA_SIZE 1 t)
    ¬ s.fds.IsOpen 0 ∧ s.fds.IsOpen 4 ∧ ¬ Undoes t s := by
  refine ⟨?_, ?_, (lost_smiOpenFifoFds DATA_SIZE 1 _).not_undoes⟩
  · decide
  · decide

end Endpoint

end UnixStudy.Smi
