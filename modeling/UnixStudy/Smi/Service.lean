import UnixStudy.Smi.Entries
import UnixStudy.Smi.Ownership

/-!
# What the server does for its clients

The server takes a message from its FIFO and looks for the entry of its client. If there is none, it
passes the message over; if the entry has a descriptor, this is used; and otherwise the server opens
the FIFO that has the name of the client at this time, where it may have to wait. It keeps what it
has opened for ever, so `System.served` has one FIFO for each pid, and this is the first one that
was opened for the pid.

## Main definitions

* `System.Receives`, `System.ServerStep` : the steps of the server.
* `System.Awaits`, `System.Valid` : what holds in every run.
* `System.IsOpen` : a client is open, with its own FIFO.

## Main results

* `System.serverStep_of_serves` : the server makes one of these steps.
* `System.Valid.step` : every step keeps the system valid.
* `System.Valid.hasEntry_iff` : when a message gets an entry.
* `System.Valid.exists_release` : where the answer to an open client goes.

## References

* `src/ad_comm/smi_server.c`, lines 52–67, 160–218 and 242–262.
-/

namespace UnixStudy.Smi

namespace System

variable {s s' : System} {pid : Pid}

/-! ### The steps of the server -/

/-- The server reads a message, where the FIFOs are then the given ones: it passes the message over;
it has found the entry of the client, which has a descriptor, or has none since there is no FIFO to
open; it has opened the FIFO; or it waits for a reader of it. -/
inductive Receives (s : System) (p : Parcel) (F : SmiFifos) : System → Prop
  | passedOver (hfind : (clientsFind s.main.server.sq_clients p.msg.smi_client.pid).1 = none) :
      Receives s p F { s with
        main := ⟨{ s.main.server with sq_msg := p.msg }, .receiving⟩
        handling := p.owner
        fifos := F }
  | found {i : Fin MAX_CLIENTS}
      (hfind : (clientsFind s.main.server.sq_clients p.msg.smi_client.pid).1 = some i)
      (hfd : ((s.main.server.searched p.msg).sq_clients i).cl_fd = -1 →
        F.dir (fifoOf p.msg.smi_client.pid) = none) :
      Receives s p F { s with
        main := ⟨s.main.server.searched p.msg, .received i⟩
        handling := p.owner
        fifos := F }
  | opened {i : Fin MAX_CLIENTS} {n : ℕ}
      (hfind : (clientsFind s.main.server.sq_clients p.msg.smi_client.pid).1 = some i)
      (hfd : ((s.main.server.searched p.msg).sq_clients i).cl_fd = -1)
      (hdir : F.dir (fifoOf p.msg.smi_client.pid) = some n) :
      Receives s p F { s with
        main := ⟨(s.main.server.searched p.msg).openClient true p.msg.smi_client.pid i, .received i⟩
        handling := p.owner
        slotFifo := Function.update s.slotFifo i (some n)
        fifos := F.attach ⟨n, .writing⟩
        served := s.served ++ [(p.msg.smi_client.pid, n)] }
  | waits {i : Fin MAX_CLIENTS} {n : ℕ}
      (hfind : (clientsFind s.main.server.sq_clients p.msg.smi_client.pid).1 = some i)
      (hfd : ((s.main.server.searched p.msg).sq_clients i).cl_fd = -1)
      (hdir : F.dir (fifoOf p.msg.smi_client.pid) = some n) (hreaders : F.readers n = 0) :
      Receives s p F { s with
        main := ⟨s.main.server.searched p.msg, .receiving⟩
        pending := some ⟨i, n, F.openings n⟩
        handling := p.owner
        fifos := F.attach ⟨n, .writing⟩ }

theorem readMsg_bytes (s : Server) (m : SmiMsg) : s.readMsg (some m.bytes) = m :=
  s.sq_msg.overwrite_of_complete m.size

section Receive

variable {p : Parcel} {F : SmiFifos} {i : Fin MAX_CLIENTS}

/-- The server has to open a FIFO for an entry that it has found without a descriptor. -/
theorem opensFor_eq_some_iff {server : Server} : server.opensFor pid = some i ↔
    (clientsFind server.sq_clients pid).1 = some i ∧
      ((clientsFind server.sq_clients pid).2 i).cl_fd = -1 := by
  rw [Server.opensFor, Option.filter_eq_some_iff, decide_eq_true_iff]

theorem received_of_none (ok : Bool)
    (h : (clientsFind s.main.server.sq_clients p.msg.smi_client.pid).1 = none) :
    s.Receives p F (s.received p ok F) := by
  have hreceive : s.main.server.receive (some p.msg.bytes) ok =
      (none, { s.main.server with sq_msg := p.msg }) := by
    rw [Server.receive_of_none ok (by rwa [readMsg_bytes]), readMsg_bytes]
  rw [received, hreceive]
  exact .passedOver h

theorem receive_of_some (ok : Bool)
    (h : (clientsFind s.main.server.sq_clients p.msg.smi_client.pid).1 = some i) :
    s.main.server.receive (some p.msg.bytes) ok = (some i,
      if ((s.main.server.searched p.msg).sq_clients i).cl_fd = -1 then
        (s.main.server.searched p.msg).openClient ok p.msg.smi_client.pid i
      else s.main.server.searched p.msg) := by
  rw [Server.receive_of_some ok (by rwa [readMsg_bytes]), readMsg_bytes]

/-- No FIFO is opened for the entry that is found. -/
theorem received_of_some
    (hfind : (clientsFind s.main.server.sq_clients p.msg.smi_client.pid).1 = some i)
    (hfd : ((s.main.server.searched p.msg).sq_clients i).cl_fd = -1 →
      F.dir (fifoOf p.msg.smi_client.pid) = none) : s.Receives p F (s.received p false F) := by
  have hreceive : s.main.server.receive (some p.msg.bytes) false =
      (some i, s.main.server.searched p.msg) := by
    rw [receive_of_some false hfind]
    split_ifs with hnone
    · rw [Server.openClient_false hnone]
    · rfl
  rw [received, hreceive]
  exact .found hfind hfd

/-- **How the server receives a message.** -/
theorem receives_receive (s : System) (p : Parcel) (F : SmiFifos) :
    s.Receives p F (s.receive p F) := by
  rw [receive]
  cases hopens : s.main.server.opensFor p.msg.smi_client.pid with
  | none =>
    cases hfind : (clientsFind s.main.server.sq_clients p.msg.smi_client.pid).1 with
    | none => exact received_of_none false hfind
    | some i =>
      refine received_of_some hfind fun hfd => ?_
      exact absurd (hopens.symm.trans (opensFor_eq_some_iff.mpr ⟨hfind, hfd⟩))
        (Option.some_ne_none i).symm
  | some i =>
    obtain ⟨hfind, hfd⟩ : _ ∧ ((s.main.server.searched p.msg).sq_clients i).cl_fd = -1 :=
      opensFor_eq_some_iff.mp hopens
    dsimp only
    rcases F.sysOpen_cases (fifoOf p.msg.smi_client.pid) .writing with
      ⟨hdir, hopen⟩ | ⟨n, hdir, hopen⟩
    · rw [hopen]
      exact received_of_some hfind fun _ => hdir
    · rw [hopen]
      split_ifs with hreaders
      · exact .waits hfind hfd hdir hreaders
      · have hreceive := receive_of_some true hfind
        rw [if_pos hfd] at hreceive
        dsimp only
        rw [opened, received, hreceive]
        exact .opened hfind hfd hdir

/-- What holds in `main` goes on to hold when a message is received. -/
theorem Receives.main_inv (h : s.Receives p F s') (hs : s.main.Inv)
    (hp : nul ∈ p.msg.smi_data) : s'.main.Inv := by
  cases h with
  | passedOver => exact ⟨⟨hs.sound.indexed, hs.sound.owned, hs.sound.routed⟩, nofun, nofun⟩
  | found hfind => exact Main.inv_received hs.sound (Server.received_searched hfind) hp
  | opened hfind hfd =>
    exact Main.inv_received hs.sound ((Server.received_searched hfind).openClient hfd true) hp
  | waits hfind => exact ⟨(Server.received_searched hfind).sound hs.sound, nofun, nofun⟩

end Receive

/-- The pid in the message buffer of the server. -/
def bufferPid (s : System) : Pid := s.main.server.sq_msg.smi_client.pid

/-- The steps of the server: it reads a message, has waited for the FIFO of its client, makes the
answer, and sends it to what the descriptor of the entry is open on. -/
inductive ServerStep (s : System) : System → Prop
  | receive {p : Parcel} {ps : List Parcel} {s' : System} (hpending : s.pending = none)
      (hphase : s.main.phase = .receiving) (hqueue : s.fifos.queue 0 = p :: ps)
      (h : s.Receives p (s.fifos.pop 0) s') : ServerStep s s'
  | resume {w : Pending} (hpending : s.pending = some w)
      (hready : w.seen < s.fifos.openings w.fifo) :
      ServerStep s { s with
        main := ⟨s.main.server.openClient true s.bufferPid w.nclient, .received w.nclient⟩
        pending := none
        slotFifo := Function.update s.slotFifo w.nclient (some w.fifo)
        served := s.served ++ [(s.bufferPid, w.fifo)] }
  | answer {i : Fin MAX_CLIENTS} {m : SmiMsg} (hpending : s.pending = none)
      (hphase : s.main.phase = .received i) (h : s.main.server.sq_msg.toUpper = some m) :
      ServerStep s { s with main :=
        ⟨{ s.main.server.sendGetaddr s.main.server.sq_msg.smi_client with sq_msg := m },
          .answered i⟩ }
  | release {i : Fin MAX_CLIENTS} {server' : Server} (hpending : s.pending = none)
      (hphase : s.main.phase = .answered i) (h : s.main.server.sendRelease = some server') :
      ServerStep s (s.release ⟨server', .receiving⟩ (s.slotFifo i))

/-- **The server makes one of these steps.** -/
theorem serverStep_of_serves (h : s.main.Inv) (hstep : s.serves = some s') :
    s.alive ∧ s.ServerStep s' := by
  rw [serves] at hstep
  dsimp only at hstep
  split_ifs at hstep with halive
  refine ⟨halive, ?_⟩
  split at hstep
  · next w hpending =>
    dsimp only [resume] at hstep
    split_ifs at hstep with hready
    obtain rfl := Option.some.inj hstep
    exact .resume hpending hready
  · next hpending hphase =>
    rcases s.fifos.sysRead_reading_cases 0 with ⟨p, ps, hqueue, hread⟩ | ⟨-, hread | hread⟩
    · rw [hread] at hstep
      obtain rfl := Option.some.inj hstep
      exact .receive hpending hphase hqueue (s.receives_receive p _)
    · rw [hread] at hstep
      exact absurd hstep.symm (Option.some_ne_none s')
    · rw [hread] at hstep
      exact absurd hstep.symm (Option.some_ne_none s')
  · next i hpending hphase =>
    obtain ⟨m, hm, rfl⟩ := Option.map_eq_some_iff.mp hstep
    exact .answer hpending hphase hm
  · next i hpending hphase =>
    obtain ⟨server', hserver', rfl⟩ := Option.map_eq_some_iff.mp hstep
    rw [clientsFind_of_isFirst (h.answered i hphase).2]
    exact .release hpending hphase hserver'

/-! ### The reply -/

/-- What has been open of the FIFOs is closed when the server ends, and nothing else changes. -/
theorem die_spec (F : SmiFifos) : (s.die F).fifos.dir = F.dir ∧ (s.die F).fifos.next = F.next ∧
    ∀ n, (n ≠ 0 → (s.die F).fifos.readers n = F.readers n) ∧
      (s.die F).fifos.queue n = F.queue n := by
  have hslots (is : List (Fin MAX_CLIENTS)) (F : SmiFifos) :
      let F' := is.foldl (fun F i => F.sysClose ((s.slotFifo i).map (⟨·, .writing⟩))) F
      F'.dir = F.dir ∧ F'.next = F.next ∧ ∀ n, F'.readers n = F.readers n ∧
        F'.queue n = F.queue n := by
    induction is generalizing F with
    | nil => exact ⟨rfl, rfl, fun _ => ⟨rfl, rfl⟩⟩
    | cons i is ih =>
      obtain ⟨hdir, hnext, hfifo⟩ := ih (F.sysClose ((s.slotFifo i).map (⟨·, .writing⟩)))
      refine ⟨hdir.trans (F.dir_sysClose _), hnext.trans (F.next_sysClose _), fun n => ?_⟩
      refine ⟨(hfifo n).1.trans (F.readers_sysClose ?_), (hfifo n).2.trans (F.queue_sysClose _ n)⟩
      cases s.slotFifo i <;> simp
  obtain ⟨hdir, hnext, hfifo⟩ := hslots (List.finRange MAX_CLIENTS)
    ((F.detach ⟨0, .reading⟩).detach ⟨0, .writing⟩)
  refine ⟨hdir, hnext, fun n => ⟨fun hn => (hfifo n).1.trans ?_, (hfifo n).2.trans ?_⟩⟩
  · simp [Fifos.readers_detach, Ne.symm hn]
  · simp only [Fifos.queue_detach]

/-- **How the server sends its answer**: to nobody; to a FIFO that nobody reads, and then it ends;
or to a FIFO with a reader. -/
theorem release_cases (main : Main) (target : Option ℕ) :
    (target = none ∧ s.release main target = { s with
      main := main
      replies := s.replies ++ [⟨s.answer, none, .failed⟩] }) ∨
    ∃ n, target = some n ∧
      (s.fifos.readers n = 0 ∧ s.release main target =
        die { s with
          main := main
          replies := s.replies ++ [⟨s.answer, some n, .killed⟩] } s.fifos ∨
      s.fifos.readers n ≠ 0 ∧ s.release main target = { s with
        main := main
        fifos := s.fifos.push n s.answer
        replies := s.replies ++ [⟨s.answer, some n, .written⟩] }) := by
  cases target with
  | none => exact Or.inl ⟨rfl, rfl⟩
  | some n =>
    have hwrite := s.fifos.sysWrite_writing n s.answer
    refine Or.inr ⟨n, rfl, ?_⟩
    by_cases hn : s.fifos.readers n = 0
    · rw [if_pos hn] at hwrite
      refine Or.inl ⟨hn, ?_⟩
      simp only [release, Option.map_some, hwrite]
    · rw [if_neg hn] at hwrite
      refine Or.inr ⟨hn, ?_⟩
      simp only [release, Option.map_some, hwrite]

/-- The server leaves the clients as they are. -/
theorem ServerStep.clients (h : s.ServerStep s') : s'.clients = s.clients := by
  cases h with
  | receive _ _ _ hreceives => cases hreceives <;> rfl
  | resume | answer => rfl
  | @release i server' =>
    rcases s.release_cases ⟨server', .receiving⟩ (s.slotFifo i) with
      ⟨-, heq⟩ | ⟨n, -, ⟨-, heq⟩ | ⟨-, heq⟩⟩ <;> rw [heq]
    rfl

/-- A client is open, and the FIFO is its own. -/
def Owns (s : System) (pid : Pid) (n : ℕ) : Prop :=
  (s.clients pid).phase.hasFifo ∧ (s.clients pid).fifo = n

/-- The server handles a message, for which it has found an entry. -/
def Handles (s : System) (i : Fin MAX_CLIENTS) : Prop :=
  s.main.phase = .received i ∨ s.main.phase = .answered i

/-- The server waits in a call of `open`: it has read a message and found the first entry of its
client, which has no descriptor, and the FIFO that it waits for is no newer than the last one that
was made with the pid. -/
structure Awaits (s : System) (w : Pending) : Prop where
  alive : s.alive
  phase : s.main.phase = .receiving
  terminated : nul ∈ s.main.server.sq_msg.smi_data
  isFirst : s.main.server.sq_clients.table.IsFirst s.bufferPid w.nclient
  cl_fd : (s.main.server.sq_clients w.nclient).cl_fd = -1
  fifo : w.fifo ≤ (s.clients s.bufferPid).fifo ∧ w.fifo ≠ 0
  seen : w.seen ≤ s.fifos.openings w.fifo
  handling : s.handling ≤ (s.clients s.bufferPid).fifo

/-- What holds in every run: the system is well formed; what the server has opened is in its
entries, and no newer than the last FIFO that was made with the pid; while a message is handled, its
entry has a descriptor unless its client is gone; and what the server waits for is as it should be.
-/
structure Valid (s : System) : Prop where
  wf : s.Wf
  entries : Entries s.main.server.sq_clients s.slotFifo s.served
  latest : ∀ e ∈ s.served, e.2 ≤ (s.clients e.1).fifo ∧ e.2 ≠ 0
  handling : ∀ i, s.Handles i → s.handling ≤ (s.clients s.bufferPid).fifo ∧
    (s.Owns s.bufferPid s.handling → ∃ n, s.slotFifo i = some n)
  pending : ∀ w, s.pending = some w → s.Awaits w

/-! ### Every step -/

/-- A client that is open has been open before a step of a client. -/
theorem ClientStep.owns (h : ClientStep pid s s') (hs : s.Wf) {pid' : Pid} {n : ℕ}
    (hn : n ≤ (s.clients pid').fifo) (howns : s'.Owns pid' n) : s.Owns pid' n := by
  by_cases hpid : pid' = pid
  · subst hpid
    rcases h.goes.fifo with heq | heq
    · exact ⟨h.goes.owned howns.1 heq, heq.symm.trans howns.2⟩
    · exact absurd (howns.2.symm.trans heq) (hn.trans_lt (hs.clients pid').next).ne
  · rw [Owns, h.of_ne hpid] at howns
    exact howns

/-- **A step of a client** keeps the system valid. -/
theorem Valid.clientStep (hs : s.Valid) (h : ClientStep pid s s') : s'.Valid where
  wf := h.wf hs.wf
  entries := by
    rw [h.eq]
    exact hs.entries
  latest e he := by
    have he' : e ∈ s.served := by
      rw [h.eq] at he
      exact he
    exact ⟨(hs.latest e he').1.trans (h.fifo_le hs.wf e.1), (hs.latest e he').2⟩
  handling i hi := by
    have hsame : s'.bufferPid = s.bufferPid ∧ s'.handling = s.handling ∧
        s'.slotFifo = s.slotFifo ∧ (s'.Handles i → s.Handles i) := by
      rw [h.eq]
      exact ⟨rfl, rfl, rfl, id⟩
    obtain ⟨hpid, hhandling, hslot, hhandles⟩ := hsame
    obtain ⟨hle, hown⟩ := hs.handling i (hhandles hi)
    rw [hpid, hhandling, hslot]
    exact ⟨hle.trans (h.fifo_le hs.wf _), fun howns => hown (h.owns hs.wf hle howns)⟩
  pending w hw := by
    have hsame : s'.main = s.main ∧ s'.alive = s.alive ∧ s'.handling = s.handling ∧
        s'.pending = s.pending := by
      rw [h.eq]
      exact ⟨rfl, rfl, rfl, rfl⟩
    obtain ⟨hmain, halive, hhandling, hpending⟩ := hsame
    have hwaits := hs.pending w (hpending ▸ hw)
    have hpid : s'.bufferPid = s.bufferPid := by rw [bufferPid, hmain, bufferPid]
    have hle := h.fifo_le hs.wf s.bufferPid
    refine ⟨halive ▸ hwaits.alive, hmain ▸ hwaits.phase, hmain ▸ hwaits.terminated, ?_,
      hmain ▸ hwaits.cl_fd, ?_, hwaits.seen.trans (h.goes.openings _), ?_⟩
    · rw [hpid, hmain]
      exact hwaits.isFirst
    · rw [hpid]
      exact ⟨hwaits.fifo.1.trans hle, hwaits.fifo.2⟩
    · rw [hpid, hhandling]
      exact hwaits.handling.trans hle

/-- A step of the server leaves the clients as they are. -/
theorem Wf.of_server (hs : s.Wf) (hmain : s'.main.Inv) (hclients : s'.clients = s.clients)
    (hdir : s'.fifos.dir = s.fifos.dir) (hnext : s'.fifos.next = s.fifos.next)
    (hreaders : ∀ n, n ≠ 0 → s'.fifos.readers n = s.fifos.readers n)
    (halive : s'.alive → s.alive ∧ s'.fifos.readers 0 = s.fifos.readers 0)
    (hqueue : ∀ p ∈ s'.fifos.queue 0, p ∈ s.fifos.queue 0) : s'.Wf where
  main := hmain
  alive h := by
    rw [(halive h).2]
    exact hs.alive (halive h).1
  name := by rw [hdir, hs.name]
  clients pid := by
    rw [hclients]
    refine (hs.clients pid).frame hnext.ge (by rw [hdir]) fun hreader => ?_
    exact (hreaders _ ((hs.clients pid).reads hreader).2.1).ge
  distinct := by
    rw [hclients]
    exact hs.distinct
  requests p hp := by
    rw [hclients]
    exact hs.requests p (hqueue p hp)

/-- The first message is taken out. -/
theorem mem_of_mem_pop {F : SmiFifos} {p : Parcel} (h : p ∈ (F.pop 0).queue 0) : p ∈ F.queue 0 := by
  rw [F.queue_pop, if_pos rfl] at h
  exact List.mem_of_mem_tail h

/-- A FIFO is opened for writing when the first message has been taken out. -/
theorem readers_pop_attach (F : SmiFifos) (n m : ℕ) :
    ((F.pop 0).attach ⟨n, .writing⟩).readers m = F.readers m :=
  (Fifos.readers_attach_writing _ n m).trans (F.readers_pop 0 m)

/-- A message is received. -/
theorem Wf.receive (hs : s.Wf) {p : Parcel} {ps : List Parcel} (hqueue : s.fifos.queue 0 = p :: ps)
    (h : s.Receives p (s.fifos.pop 0) s') : s'.Wf := by
  have hmem : p ∈ s.fifos.queue 0 := by
    rw [hqueue]
    exact List.mem_cons_self
  have hmain := h.main_inv hs.main (hs.requests p hmem).1
  cases h with
  | passedOver | found =>
    exact hs.of_server hmain rfl rfl rfl (fun n _ => s.fifos.readers_pop 0 n)
      (fun halive => ⟨halive, s.fifos.readers_pop 0 0⟩) fun _ hp => mem_of_mem_pop hp
  | @opened i n | @waits i n =>
    refine hs.of_server hmain rfl rfl rfl (fun m _ => readers_pop_attach s.fifos n m)
      (fun halive => ⟨halive, readers_pop_attach s.fifos n 0⟩) fun q hq => ?_
    rw [Fifos.queue_attach] at hq
    exact mem_of_mem_pop hq

/-- The entry that is handled is the one that has been found. -/
theorem eq_of_handles {i j : Fin MAX_CLIENTS} (hphase : s.main.phase = .received i)
    (h : s.Handles j) : j = i := by
  rcases h with h | h
  · exact (Phase.received.inj (hphase.symm.trans h)).symm
  · exact Phase.noConfusion (hphase.symm.trans h)

/-- The server handles no message in front of the loop that receives. -/
theorem not_handles (hphase : s.main.phase = .receiving) (i : Fin MAX_CLIENTS) :
    ¬ s.Handles i := by
  rintro (hi | hi)
  · exact Phase.noConfusion (hphase.symm.trans hi)
  · exact Phase.noConfusion (hphase.symm.trans hi)

/-- Opening a FIFO for the first entry of a client, when it has none. -/
theorem entries_openClient {server : Server} {slotFifo : Fin MAX_CLIENTS → Option ℕ}
    {served : List (Pid × ℕ)} (h : Entries server.sq_clients slotFifo served)
    (hindexed : server.sq_clients.table.Indexed) {i : Fin MAX_CLIENTS}
    (hfirst : server.sq_clients.table.IsFirst pid i) (hfd : (server.sq_clients i).cl_fd = -1)
    (n : ℕ) : Entries (server.openClient true pid i).sq_clients
      (Function.update slotFifo i (some n)) (served ++ [(pid, n)]) := by
  obtain ⟨d, -, hopen⟩ := server.openClient_true pid i
  rw [hopen]
  exact h.setFd hindexed hfirst hfd d n

theorem sq_msg_openClient (server : Server) (pid : Pid) (i : Fin MAX_CLIENTS) :
    (server.openClient true pid i).sq_msg = server.sq_msg := by
  obtain ⟨d, -, hopen⟩ := server.openClient_true pid i
  rw [hopen]

/-- **A message is received.** -/
theorem Valid.receive (hs : s.Valid) (halive : s.alive) (hpending : s.pending = none) {p : Parcel}
    {ps : List Parcel} (hqueue : s.fifos.queue 0 = p :: ps)
    (h : s.Receives p (s.fifos.pop 0) s') : s'.Valid := by
  have hwf := hs.wf.receive hqueue h
  have hrequest := hs.wf.requests p (by rw [hqueue]; exact List.mem_cons_self)
  have hentries := hs.entries.find p.msg.smi_client.pid
  have hnone (w : Pending) : s.pending ≠ some w := fun hw =>
    Option.some_ne_none w (hw.symm.trans hpending)
  cases h with
  | passedOver =>
    exact ⟨hwf, hs.entries, hs.latest, fun j hj => absurd hj (not_handles rfl j),
      fun w hw => absurd hw (hnone w)⟩
  | @found i hfind hfd =>
    refine ⟨hwf, hentries, hs.latest, fun j hj => ⟨hrequest.2, fun howns => ?_⟩,
      fun w hw => absurd hw (hnone w)⟩
    obtain rfl := eq_of_handles rfl hj
    have hdir := ((hs.wf.clients _).made howns.1).1
    obtain ⟨n, hn, -⟩ := hentries.used j fun hj =>
      Option.some_ne_none _ (hdir.symm.trans (hfd hj))
    exact ⟨n, hn⟩
  | @opened i n hfind hfd hdir =>
    have hreceived := Server.received_searched hfind
    have hindexed := hreceived.indexed hs.wf.main.sound.indexed
    refine ⟨hwf, entries_openClient hentries hindexed hreceived.isFirst hfd n, fun e he => ?_,
      fun j hj => ⟨?_, fun _ => ?_⟩, fun w hw => absurd hw (hnone w)⟩
    · rcases List.mem_append.mp he with he | he
      · exact hs.latest e he
      · obtain rfl := List.mem_singleton.mp he
        obtain ⟨hfifo, hpos⟩ := (hs.wf.clients p.msg.smi_client.pid).named n hdir
        exact ⟨hfifo.le, hpos⟩
    · rw [bufferPid, sq_msg_openClient]
      exact hrequest.2
    · obtain rfl := eq_of_handles rfl hj
      exact ⟨n, Function.update_self ..⟩
  | @waits i n hfind hfd hdir =>
    refine ⟨hwf, hentries, hs.latest, fun j hj => absurd hj (not_handles rfl j), fun w hw => ?_⟩
    obtain rfl := Option.some.inj hw
    obtain ⟨hfifo, hpos⟩ := (hs.wf.clients p.msg.smi_client.pid).named n hdir
    exact ⟨halive, rfl, hrequest.1, (Server.received_searched hfind).isFirst, hfd,
      ⟨hfifo.le, hpos⟩, (Fifos.openings_attach_writing _ n n).ge, hrequest.2⟩

/-- **The server has waited for a FIFO**: it goes on as if it had opened it at once. -/
theorem Valid.resume (hs : s.Valid) {w : Pending} (hpending : s.pending = some w) :
    Valid { s with
      main := ⟨s.main.server.openClient true s.bufferPid w.nclient, .received w.nclient⟩
      pending := none
      slotFifo := Function.update s.slotFifo w.nclient (some w.fifo)
      served := s.served ++ [(s.bufferPid, w.fifo)] } := by
  have hwaits := hs.pending w hpending
  have hindexed := hs.wf.main.sound.indexed
  -- Looking for the client again finds the same entry, and changes nothing.
  have hfind := clientsFind_of_isFirst hwaits.isFirst
  have hreceived := Server.received_searched (congrArg Prod.fst hfind)
  have hsearched : s.main.server.searched s.main.server.sq_msg = s.main.server := by
    rw [Server.searched, ← bufferPid, hfind]
  rw [hsearched] at hreceived
  refine ⟨?_, entries_openClient hs.entries hindexed hwaits.isFirst hwaits.cl_fd w.fifo,
    fun e he => ?_, fun j hj => ⟨?_, fun _ => ?_⟩,
    fun w hw => absurd hw.symm (Option.some_ne_none w)⟩
  · exact hs.wf.of_server (Main.inv_received hs.wf.main.sound
      (hreceived.openClient hwaits.cl_fd true) hwaits.terminated) rfl rfl rfl (fun _ _ => rfl)
      (fun halive => ⟨halive, rfl⟩) fun _ hp => hp
  · rcases List.mem_append.mp he with he | he
    · exact hs.latest e he
    · obtain rfl := List.mem_singleton.mp he
      exact hwaits.fifo
  · change s.handling ≤
      (s.clients (s.main.server.openClient true s.bufferPid w.nclient).sq_msg.smi_client.pid).fifo
    rw [sq_msg_openClient]
    exact hwaits.handling
  · obtain rfl := eq_of_handles rfl hj
    exact ⟨w.fifo, Function.update_self ..⟩

/-- The answer is made. -/
theorem Valid.answer (hs : s.Valid) (hpending : s.pending = none) {i : Fin MAX_CLIENTS}
    {m : SmiMsg} (hphase : s.main.phase = .received i) (h : s.main.server.sq_msg.toUpper = some m) :
    Valid { s with main := ⟨{ s.main.server.sendGetaddr s.main.server.sq_msg.smi_client with
      sq_msg := m }, .answered i⟩ } := by
  have hstart : s.main = ⟨s.main.server, .received i⟩ := by rw [← hphase]
  have hmain := hs.wf.main
  rw [hstart] at hmain
  refine ⟨?_, hs.entries, hs.latest, fun j hj => ?_,
    fun w hw => absurd (hw.symm.trans hpending) (Option.some_ne_none w)⟩
  · exact hs.wf.of_server (hmain.step (.answer h)) rfl rfl rfl (fun _ _ => rfl)
      (fun halive => ⟨halive, rfl⟩) fun _ hp => hp
  · have hpid : m.smi_client.pid = s.bufferPid := by
      rw [bufferPid, SmiMsg.smi_client_toUpper h]
    have hji : j = i := by
      rcases hj with hj | hj
      · exact Phase.noConfusion hj
      · exact (Phase.answered.inj hj).symm
    obtain rfl := hji
    rw [bufferPid]
    dsimp only
    rw [hpid]
    exact hs.handling j (Or.inl hphase)

/-- **The answer is sent.** -/
theorem Valid.release (hs : s.Valid) (hpending : s.pending = none) {i : Fin MAX_CLIENTS}
    {server' : Server}
    (hphase : s.main.phase = .answered i) (h : s.main.server.sendRelease = some server') :
    Valid (s.release ⟨server', .receiving⟩ (s.slotFifo i)) := by
  have hstart : s.main = ⟨s.main.server, .answered i⟩ := by rw [← hphase]
  have hmain := hs.wf.main
  rw [hstart] at hmain
  have hmain' := hmain.step (.release h)
  have hclients : server'.sq_clients = s.main.server.sq_clients := by
    rw [Server.sendRelease_of_isFirst (hs.wf.main.answered i hphase).2] at h
    rw [← Option.some.inj h]
  have hentries : Entries server'.sq_clients s.slotFifo s.served := by
    rw [hclients]
    exact hs.entries
  have hnone (w : Pending) : s.pending ≠ some w := fun hw =>
    Option.some_ne_none w (hw.symm.trans hpending)
  rcases s.release_cases ⟨server', .receiving⟩ (s.slotFifo i) with
    ⟨-, heq⟩ | ⟨n, hn, ⟨-, heq⟩ | ⟨-, heq⟩⟩
  · rw [heq]
    refine ⟨?_, hentries, hs.latest, fun j hj => absurd hj (not_handles rfl j),
      fun w hw => absurd hw (hnone w)⟩
    exact hs.wf.of_server hmain' rfl rfl rfl (fun _ _ => rfl) (fun halive => ⟨halive, rfl⟩)
      fun _ hp => hp
  · rw [heq]
    refine ⟨?_, hentries, hs.latest, fun j hj => absurd hj (not_handles rfl j),
      fun w hw => absurd hw (hnone w)⟩
    obtain ⟨hdir, hnext, hfifo⟩ := die_spec (s := { s with
      main := ⟨server', .receiving⟩
      replies := s.replies ++ [⟨s.answer, some n, .killed⟩] }) s.fifos
    exact hs.wf.of_server hmain' rfl hdir hnext (fun m hm => (hfifo m).1 hm)
      (fun halive => Bool.noConfusion halive) fun p hp => (hfifo 0).2 ▸ hp
  · rw [heq]
    refine ⟨?_, hentries, hs.latest, fun j hj => absurd hj (not_handles rfl j),
      fun w hw => absurd hw (hnone w)⟩
    have hpos : n ≠ 0 := (hs.latest _ (hs.entries.mem_of_slotFifo hn)).2
    refine hs.wf.of_server hmain' rfl rfl rfl (fun m _ => s.fifos.readers_push n _ m)
      (fun halive => ⟨halive, s.fifos.readers_push n _ 0⟩) fun p hp => ?_
    rw [s.fifos.queue_push, if_neg hpos.symm, List.append_nil] at hp
    exact hp

/-- **Every step keeps the system valid.** -/
theorem Valid.step (hs : s.Valid) {l : SystemLabel} (h : s.Step l s') : s'.Valid := by
  rcases hs.wf.step_cases h with ⟨-, hserves⟩ | ⟨pid, -, hclient⟩
  · obtain ⟨halive, hserver⟩ := serverStep_of_serves hs.wf.main hserves
    cases hserver with
    | receive hpending _ hqueue hreceives => exact hs.receive halive hpending hqueue hreceives
    | resume hpending => exact hs.resume hpending
    | answer hpending hphase hm => exact hs.answer hpending hphase hm
    | release hpending hphase hsend => exact hs.release hpending hphase hsend
  · exact hs.clientStep hclient

/-- The running server without clients. -/
theorem valid_start (t : FdTable File) : (start t).Valid where
  wf := {
    main := Main.inv_smiOpen true true t
    alive := fun _ => by
      rw [start, Fifos.readers_attach_writing, Fifos.readers_attach, if_pos rfl]
      exact Nat.succ_pos _
    name := show (Fifos.mkfifo (.empty : SmiFifos) serverFifo).dir serverFifo = some 0 from
      Fifos.dir_mkfifo_self .empty rfl
    clients := fun pid => {
      next := Nat.one_pos
      named := fun n hn => by
        have hnone : (start t).fifos.dir (fifoOf pid) = none :=
          Fifos.dir_mkfifo_of_ne .empty (fifoOf_ne_serverFifo pid)
        exact absurd (hnone.symm.trans hn) (Option.some_ne_none n).symm
      unlinked := fun h => ClientPhase.noConfusion h
      made := fun h => Bool.noConfusion h
      connecting := fun _ _ h => ClientPhase.noConfusion h
      connected := fun h => Bool.noConfusion h
      server := fun fd hfd => absurd hfd (Option.some_ne_none fd).symm
      cl_fd := fun fd hfd => absurd hfd (Option.some_ne_none fd).symm
      noReader := fun _ => rfl
      reads := fun h => Bool.noConfusion h }
    distinct := fun _ _ _ _ => rfl
    requests := fun p hp => by
      rw [start, Fifos.queue_attach, Fifos.queue_attach, Fifos.queue, Fifos.fifo_mkfifo] at hp
      exact absurd hp List.not_mem_nil }
  entries := ⟨fun _ h => absurd rfl h, fun _ _ => rfl, fun _ he => absurd he List.not_mem_nil,
    List.nodup_nil⟩
  latest _ he := absurd he List.not_mem_nil
  handling i hi := by
    rcases hi with hi | hi
    · exact Phase.noConfusion hi
    · exact Phase.noConfusion hi
  pending w hw := absurd hw.symm (Option.some_ne_none w)

/-- A client is open, between `smi_open` and `smi_close`, and the FIFO is the one it has made. -/
def IsOpen (s : System) (pid : Pid) (n : ℕ) : Prop :=
  (s.clients pid).phase = .ready ∧ (s.clients pid).fifo = n

theorem IsOpen.owns {pid : Pid} {n : ℕ} (h : s.IsOpen pid n) : s.Owns pid n :=
  ⟨by rw [h.1]; rfl, h.2⟩

/-- An open client reads its FIFO. -/
theorem Wf.readers_pos (hs : s.Wf) {pid : Pid} {n : ℕ} (h : s.IsOpen pid n) :
    s.fifos.readers n ≠ 0 := by
  have hreads := (hs.clients pid).reads (by rw [h.1]; rfl)
  rw [h.2] at hreads
  exact hreads.2.2.ne'

/-- The answer to an open client goes to the FIFO that was opened for its pid, and this is its own
or an older one. -/
theorem Valid.exists_release (hs : s.Valid) (h : s.ServerStep s') {i : Fin MAX_CLIENTS}
    (hi : s.main.phase = .answered i) (hopen : s.IsOpen s.bufferPid s.handling) :
    ∃ n ≤ s.handling, (s.bufferPid, n) ∈ s.served ∧
      ∃ server', s' = s.release ⟨server', .receiving⟩ (some n) := by
  cases h with
  | receive _ hphase => exact Phase.noConfusion (hi.symm.trans hphase)
  | resume hpending => exact Phase.noConfusion (hi.symm.trans (hs.pending _ hpending).phase)
  | answer _ hphase => exact Phase.noConfusion (hi.symm.trans hphase)
  | @release j server' _ hphase hsend =>
    obtain rfl := Phase.answered.inj (hi.symm.trans hphase)
    obtain ⟨n, hn⟩ := (hs.handling i (Or.inr hi)).2 hopen.owns
    have hanswered := hs.wf.main.answered i hi
    have hpid : (s.main.server.sq_clients i).cl_pid = s.bufferPid := by
      rw [bufferPid, ← hanswered.1]
      exact hanswered.2.1
    have hserved := hs.entries.mem_of_slotFifo hn
    rw [hpid] at hserved
    refine ⟨n, ?_, hserved, server', by rw [hn]⟩
    rw [← hopen.2]
    exact (hs.latest _ hserved).1

end System

end UnixStudy.Smi
