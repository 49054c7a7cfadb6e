import UnixStudy.Foundations.Processes
import UnixStudy.Smi.Server

/-!
# The server answers each client on its own FIFO

Whatever messages arrive, and whichever FIFOs can be opened, the descriptors in the table are those
of the FIFOs of their clients, each client has at most one, and they stay there. So an answer goes
to the client that the message came from, or nowhere: if its FIFO could not be opened, the server
writes to the descriptor `-1`. A message is passed over, with no reply and no change to the table,
exactly if there is no slot for its client, or the one it has is without a descriptor and its FIFO
cannot be opened (`table_and_routing`).

## Main definitions

* `Server.OpenedOn` : a descriptor names the FIFO of a client.
* `Server.Extends` : nothing in use has changed.
* `Server.Sound` : what holds of the table and of the answers.
* `Message`, `Phase`, `Main`, `Main.Step` : the loop of `main`.

## Main results

* `Server.receive_cases` : one turn of the loop that receives.
* `Main.Inv.step` : every step keeps the invariant.
* `Main.table_and_routing` : the table and the answers in every reachable state.

## References

* `src/ad_comm/smi_server.c`, lines 52–67, 151–218 and 242–262.
-/

namespace UnixStudy.Smi

/-- The name of the FIFO of a client, as the server makes it. -/
def fifoOf (pid : Pid) : Bytes := makeFifoNameClient pid (SERVER_NAME_MAX + 50)

namespace Server

/-- The descriptor names the FIFO of the client. -/
def OpenedOn (s : Server) (fd : ℤ) (pid : Pid) : Prop :=
  ∃ d : ℕ, fd = d ∧ s.fds.slot d = some (.client (fifoOf pid))

/-- Between the two states no client with a descriptor and no open descriptor has changed. -/
structure Extends (s s' : Server) : Prop where
  clients : ∀ i, (s.sq_clients i).cl_fd ≠ -1 → s'.sq_clients i = s.sq_clients i
  fds : ∀ d, s.fds.IsOpen d → s'.fds.slot d = s.fds.slot d

namespace Extends

variable {s s' s'' : Server}

theorem of_eq (hclients : s'.sq_clients = s.sq_clients) (hfds : s'.fds = s.fds) :
    Extends s s' := ⟨fun i _ => by rw [hclients], fun d _ => by rw [hfds]⟩

theorem trans (h : Extends s s') (h' : Extends s' s'') : Extends s s'' where
  clients i hi := by
    have hi' := h.clients i hi
    rw [h'.clients i (by rwa [hi']), hi']
  fds d hd := by
    have hd' := h.fds d hd
    rw [h'.fds d (by rwa [FdTable.IsOpen, hd']), hd']

theorem openedOn (h : Extends s s') {fd : ℤ} {pid : Pid} (ho : s.OpenedOn fd pid) :
    s'.OpenedOn fd pid := by
  obtain ⟨d, rfl, hd⟩ := ho
  exact ⟨d, rfl, by rw [h.fds d (s.fds.isOpen_of_slot hd), hd]⟩

end Extends

/-- The replies: what was written to a descriptor. The calls of `write` for `-1` fail. -/
def replies (s : Server) : List (ℤ × SmiMsg) := s.writes.filter (·.1 ≠ -1)

/-- Only the first slot of a client has a descriptor, this names the FIFO of the client, and so did
the descriptors of all answers with the clients of these. -/
structure Sound (s : Server) : Prop where
  indexed : s.sq_clients.table.Indexed
  owned : ∀ i, (s.sq_clients i).cl_fd ≠ -1 →
    s.OpenedOn (s.sq_clients i).cl_fd (s.sq_clients i).cl_pid
  routed : ∀ w ∈ s.writes, w.1 ≠ -1 → s.OpenedOn w.1 w.2.smi_client.pid

/-! ### Receiving -/

section Receive

variable {s : Server} {m : SmiMsg} {i : Fin MAX_CLIENTS}

/-- The slot `i` was found for the client of the message, and its FIFO was opened if it had no
descriptor. -/
structure Received (m : SmiMsg) (i : Fin MAX_CLIENTS) (s s' : Server) : Prop where
  msg : s'.sq_msg = m
  writes : s'.writes = s.writes
  isFirst : s'.sq_clients.table.IsFirst m.smi_client.pid i
  indexed : s.sq_clients.table.Indexed → s'.sq_clients.table.Indexed
  frame : Extends s s'
  opened : ∀ j, (s'.sq_clients j).cl_fd ≠ -1 → (s.sq_clients j).cl_fd = -1 →
    s'.OpenedOn (s'.sq_clients j).cl_fd (s'.sq_clients j).cl_pid

/-- The server when `clients_find` has returned. -/
def searched (m : SmiMsg) (s : Server) : Server :=
  { s with sq_msg := m, sq_clients := (clientsFind s.sq_clients m.smi_client.pid).2 }

theorem received_searched (h : (clientsFind s.sq_clients m.smi_client.pid).1 = some i) :
    Received m i s (s.searched m) where
  msg := rfl
  writes := rfl
  isFirst := isFirst_of_clientsFind h
  indexed hindexed := by
    rw [searched, (clientsFind_eq _ _).2]
    exact hindexed.claim _
  frame := ⟨fun j hj => clientsFind_of_ne hj, fun _ _ => rfl⟩
  opened j hj hj' := absurd ((cl_fd_clientsFind j).mpr hj') hj

theorem receive_of_none {b : Option Bytes} (ok : Bool)
    (h : (clientsFind s.sq_clients (s.readMsg b).smi_client.pid).1 = none) :
    s.receive b ok = (none, { s with sq_msg := s.readMsg b }) := by
  simp only [receive, h, clientsFind_snd_of_none h]

theorem receive_of_some {b : Option Bytes} (ok : Bool)
    (h : (clientsFind s.sq_clients (s.readMsg b).smi_client.pid).1 = some i) :
    s.receive b ok = (some i,
      if ((s.searched (s.readMsg b)).sq_clients i).cl_fd = -1 then
        (s.searched (s.readMsg b)).openClient ok (s.readMsg b).smi_client.pid i
      else s.searched (s.readMsg b)) := by
  simp only [receive, h]
  rfl

theorem openClient_false {pid : Pid} (hfd : (s.sq_clients i).cl_fd = -1) :
    s.openClient false pid i = s := by
  have hself : Function.update s.sq_clients i { s.sq_clients i with cl_fd := -1 } = s.sq_clients :=
    Function.update_eq_self_iff.mpr (by rw [← hfd])
  rw [openClient, FdTable.sysOpen, if_neg Bool.false_ne_true, hself]

/-- A FIFO that is opened gets a free descriptor. -/
theorem openClient_true (s : Server) (pid : Pid) (i : Fin MAX_CLIENTS) :
    ∃ d : ℕ, s.fds.slot d = none ∧ s.openClient true pid i = { s with
      fds := s.fds.put d (.client (fifoOf pid))
      sq_clients := Function.update s.sq_clients i { s.sq_clients i with cl_fd := d } } := by
  obtain ⟨d, hopen, -, hfree⟩ := s.fds.exists_sysOpen (n := 0) (.client (fifoOf pid)) nofun
  refine ⟨d, hfree, ?_⟩
  rw [openClient, ← fifoOf, hopen]

theorem Received.openClient {s' : Server} (h : Received m i s s')
    (hfd : (s'.sq_clients i).cl_fd = -1) (ok : Bool) :
    Received m i s (s'.openClient ok m.smi_client.pid i) := by
  cases ok with
  | false => rwa [openClient_false hfd]
  | true =>
    obtain ⟨d, hfree, hopen⟩ := openClient_true s' m.smi_client.pid i
    have htable := table_setFd hfd d
    rw [if_neg (by omega)] at htable
    have hframe : Extends s' (s'.openClient true m.smi_client.pid i) := by
      rw [hopen]
      refine ⟨fun j hj => ?_, fun e he => ?_⟩
      · exact Function.update_of_ne (fun hji : j = i => hj (hji ▸ hfd)) ..
      · refine FdTable.slot_put_of_ne _ _ fun hed => ?_
        exact s'.fds.not_isOpen_iff.mpr hfree (hed ▸ he)
    refine ⟨?_, ?_, ?_, fun hindexed => ?_, h.frame.trans hframe, fun j hj hold => ?_⟩
    · rw [hopen]
      exact h.msg
    · rw [hopen]
      exact h.writes
    · rw [hopen, htable, SlotTable.isFirst_fill]
      exact h.isFirst
    · rw [hopen, htable]
      exact (h.indexed hindexed).fill h.isFirst _
    · by_cases hji : j = i
      · rw [hji, hopen]
        dsimp only
        rw [Function.update_self]
        have hpid : (s'.sq_clients i).cl_pid = m.smi_client.pid := h.isFirst.1
        exact ⟨d, rfl, by rw [FdTable.slot_put_self, hpid]⟩
      · have hclient : (s'.openClient true m.smi_client.pid i).sq_clients j = s'.sq_clients j := by
          rw [hopen]
          exact Function.update_of_ne hji ..
        rw [hclient] at hj ⊢
        exact hframe.openedOn (h.opened j hj hold)

/-- **One turn of the loop that receives**: it goes on if there is no slot for the client, and
otherwise ends with one. -/
theorem receive_cases (b : Option Bytes) (ok : Bool) (s : Server) :
    ((∀ i, (s.sq_clients i).cl_pid ≠ (s.readMsg b).smi_client.pid) ∧
        (∀ i, (s.sq_clients i).cl_fd ≠ -1) ∧
          s.receive b ok = (none, { s with sq_msg := s.readMsg b })) ∨
      ¬ ((∀ i, (s.sq_clients i).cl_pid ≠ (s.readMsg b).smi_client.pid) ∧
          ∀ i, (s.sq_clients i).cl_fd ≠ -1) ∧
        ∃ i s', s.receive b ok = (some i, s') ∧ Received (s.readMsg b) i s s' := by
  have hnone := @clientsFind_eq_none_iff s.sq_clients (s.readMsg b).smi_client.pid
  cases h : (clientsFind s.sq_clients (s.readMsg b).smi_client.pid).1 with
  | none =>
    obtain ⟨hpids, hfds⟩ := hnone.mp h
    exact Or.inl ⟨hpids, hfds, receive_of_none ok h⟩
  | some i =>
    have hreceived := received_searched h
    refine Or.inr ⟨fun hcond => Option.some_ne_none i (h.symm.trans (hnone.mpr hcond)), i, _,
      receive_of_some ok h, ?_⟩
    split_ifs with hfd
    · exact hreceived.openClient hfd ok
    · exact hreceived

/-- The turn ends with a slot. -/
theorem received_of_receive {b : Option Bytes} {ok : Bool} {s' : Server}
    (h : s.receive b ok = (some i, s')) : Received (s.readMsg b) i s s' := by
  rcases s.receive_cases b ok with ⟨-, -, hnone⟩ | ⟨-, j, s₁, hsome, hrec⟩
  · exact absurd (Prod.mk.inj (hnone.symm.trans h)).1.symm (Option.some_ne_none i)
  · obtain ⟨hji, rfl⟩ := Prod.mk.inj (hsome.symm.trans h)
    obtain rfl := Option.some.inj hji
    exact hrec

/-- The server when a slot was found. -/
theorem eq_of_receive {s' : Server} {b : Option Bytes} {ok : Bool}
    (h : s.receive b ok = (some i, s')) : s' =
      if ((s.searched (s.readMsg b)).sq_clients i).cl_fd = -1 then
        (s.searched (s.readMsg b)).openClient ok (s.readMsg b).smi_client.pid i
      else s.searched (s.readMsg b) := by
  cases hfind : (clientsFind s.sq_clients (s.readMsg b).smi_client.pid).1 with
  | none =>
    rw [receive_of_none ok hfind] at h
    exact absurd (Prod.mk.inj h).1.symm (Option.some_ne_none i)
  | some j =>
    rw [receive_of_some ok hfind] at h
    obtain ⟨hji, rfl⟩ := Prod.mk.inj h
    obtain rfl := Option.some.inj hji
    rfl

/-- The server when a slot was found and the FIFO cannot be opened. -/
theorem eq_searched_of_receive {s' : Server} {b : Option Bytes}
    (h : s.receive b false = (some i, s')) : s' = s.searched (s.readMsg b) := by
  rw [eq_of_receive h]
  split_ifs with hfd
  · exact openClient_false hfd
  · rfl

/-- The slot that was found has no descriptor if and only if it had none and the FIFO cannot be
opened. -/
theorem cl_fd_receive_iff {s' : Server} {b : Option Bytes} {ok : Bool}
    (h : s.receive b ok = (some i, s')) :
    (s'.sq_clients i).cl_fd = -1 ↔ (s.sq_clients i).cl_fd = -1 ∧ ok = false := by
  cases ok with
  | false =>
    rw [eq_searched_of_receive h, and_iff_left rfl]
    exact cl_fd_clientsFind i
  | true =>
    refine iff_of_false (fun hnone => ?_) fun h => Bool.noConfusion h.2
    rw [eq_of_receive h] at hnone
    split_ifs at hnone with hsearched
    · obtain ⟨d, -, hopen⟩ :=
        openClient_true (s.searched (s.readMsg b)) (s.readMsg b).smi_client.pid i
      rw [hopen] at hnone
      dsimp only at hnone
      rw [Function.update_self] at hnone
      exact Int.noConfusion hnone
    · exact hsearched hnone

/-- What is in use stays sound while a message is received. -/
theorem Received.sound {s' : Server} (h : Received m i s s') (hs : s.Sound) : s'.Sound where
  indexed := h.indexed hs.indexed
  owned j hj := by
    by_cases hold : (s.sq_clients j).cl_fd = -1
    · exact h.opened j hj hold
    · rw [h.frame.clients j hold]
      exact h.frame.openedOn (hs.owned j hold)
  routed w hw hne := by
    rw [h.writes] at hw
    exact h.frame.openedOn (hs.routed w hw hne)

end Receive

/-! ### Sending -/

/-- **The slot that was received from is sent to.** -/
theorem sendRelease_of_isFirst {s : Server} {i : Fin MAX_CLIENTS}
    (h : s.sq_clients.table.IsFirst s.sq_client.pid i) : s.sendRelease = some { s with
      writes := s.writes ++ [((s.sq_clients i).cl_fd, s.sq_msg)] } := by
  rw [sendRelease, clientsFind_of_isFirst h]
  rfl

/-- An answer to the client of a slot. -/
theorem Sound.write {s : Server} (h : s.Sound) {i : Fin MAX_CLIENTS} {m : SmiMsg}
    (hpid : (s.sq_clients i).cl_pid = m.smi_client.pid) :
    Sound { s with writes := s.writes ++ [((s.sq_clients i).cl_fd, m)] } where
  indexed := h.indexed
  owned := h.owned
  routed w hw hne := by
    rcases List.mem_append.mp hw with hw | hw
    · exact h.routed w hw hne
    · obtain rfl := List.mem_singleton.mp hw
      exact hpid ▸ h.owned i hne

theorem sound_smiOpen (okR okW : Bool) (t : FdTable File) : (smiOpen okR okW t).Sound where
  indexed _ _ _ _ := Client.slot_value_eq_none.mpr rfl
  owned _ hi := absurd rfl hi
  routed := nofun

end Server

/-! ### The loop of `main` -/

/-- A message as it arrives at the server: complete, and with data that ends with a `NUL`. -/
structure Message where
  msg : SmiMsg
  terminated : nul ∈ msg.smi_data

/-- Where `main` is: in front of the loop that receives, behind it with the slot of the client, or
behind the loop that makes the answer. -/
inductive Phase
  | receiving
  | received (nclient : Fin MAX_CLIENTS)
  | answered (nclient : Fin MAX_CLIENTS)
  deriving DecidableEq

/-- The state of `main`. -/
structure Main where
  server : Server
  phase : Phase

namespace Main

/-- What happens in a run: a message is read, and a FIFO can be opened or not; the answer is made;
and it is sent. -/
inductive Label
  | message (m : Message) (ok : Bool)
  | answer
  | release

/-- The steps of `main`. -/
inductive Step : Main → Label → Main → Prop
  | message (s : Server) (m : Message) (ok : Bool) :
      Step ⟨s, .receiving⟩ (.message m ok) ⟨(s.receive (some m.msg.bytes) ok).2,
        (s.receive (some m.msg.bytes) ok).1.elim .receiving .received⟩
  | answer {s : Server} {i : Fin MAX_CLIENTS} {m : SmiMsg} (h : s.sq_msg.toUpper = some m) :
      Step ⟨s, .received i⟩ .answer
        ⟨{ s.sendGetaddr s.sq_msg.smi_client with sq_msg := m }, .answered i⟩
  | release {s s' : Server} {i : Fin MAX_CLIENTS} (h : s.sendRelease = some s') :
      Step ⟨s, .answered i⟩ .release ⟨s', .receiving⟩

/-- One state of `main` leads to another in some steps. -/
def Reaches : Main → Main → Prop := Relation.ReflTransGen fun L L' => ∃ l, Step L l L'

/-- A message is handled: it is read, and passed over or answered. -/
inductive Handles (L : Main) (m : Message) (ok : Bool) : Main → Prop
  | passedOver {L' : Main} (h : Step L (.message m ok) L') (hphase : L'.phase = .receiving) :
      Handles L m ok L'
  | answered {L₁ L₂ L' : Main} (h₁ : Step L (.message m ok) L₁) (h₂ : Step L₁ .answer L₂)
      (h₃ : Step L₂ .release L') : Handles L m ok L'

/-- What holds in every reachable state: the server is sound, and while a message is handled, the
slot that was found is the first one of its client. -/
structure Inv (L : Main) : Prop where
  sound : L.server.Sound
  received : ∀ i, L.phase = .received i → nul ∈ L.server.sq_msg.smi_data ∧
    L.server.sq_clients.table.IsFirst L.server.sq_msg.smi_client.pid i
  answered : ∀ i, L.phase = .answered i → L.server.sq_client = L.server.sq_msg.smi_client ∧
    L.server.sq_clients.table.IsFirst L.server.sq_client.pid i

theorem readMsg_message (s : Server) (m : Message) : s.readMsg (some m.msg.bytes) = m.msg :=
  s.sq_msg.overwrite_of_complete m.msg.size

variable {L L' : Main} {l : Label}

/-- Every step leaves what is in use as it is. -/
theorem Step.extends (h : Step L l L') (hinv : L.Inv) : L.server.Extends L'.server := by
  cases h with
  | message s m ok =>
    rcases s.receive_cases (some m.msg.bytes) ok with ⟨-, -, h⟩ | ⟨-, i, s', h, hrec⟩ <;>
      rw [h]
    · exact .of_eq rfl rfl
    · exact hrec.frame
  | answer h => exact .of_eq rfl rfl
  | release h =>
    rw [Server.sendRelease_of_isFirst (hinv.answered _ rfl).2] at h
    obtain rfl := Option.some.inj h
    exact .of_eq rfl rfl

/-- The slot of a message has been found. -/
theorem inv_received {s s' : Server} (hs : s.Sound) {m : SmiMsg} {i : Fin MAX_CLIENTS}
    (h : Server.Received m i s s') (hm : nul ∈ m.smi_data) : Inv ⟨s', .received i⟩ := by
  refine ⟨h.sound hs, fun j hj => ?_, nofun⟩
  obtain rfl := Phase.received.inj hj
  dsimp only
  rw [h.msg]
  exact ⟨hm, h.isFirst⟩

/-- **Every step keeps the invariant.** -/
theorem Inv.step (hinv : L.Inv) (h : Step L l L') : L'.Inv := by
  cases h with
  | message s m ok =>
    rcases s.receive_cases (some m.msg.bytes) ok with ⟨-, -, h⟩ | ⟨-, i, s', h, hrec⟩ <;>
      rw [h]
    · exact ⟨⟨hinv.sound.indexed, hinv.sound.owned, hinv.sound.routed⟩, nofun, nofun⟩
    · rw [readMsg_message] at hrec
      exact inv_received hinv.sound hrec m.terminated
  | answer h =>
    refine ⟨⟨hinv.sound.indexed, hinv.sound.owned, hinv.sound.routed⟩, nofun, fun j hj => ?_⟩
    obtain rfl := Phase.answered.inj hj
    exact ⟨(SmiMsg.smi_client_toUpper h).symm, (hinv.received _ rfl).2⟩
  | release h =>
    obtain ⟨hclient, hfirst⟩ := hinv.answered _ rfl
    rw [Server.sendRelease_of_isFirst hfirst] at h
    obtain rfl := Option.some.inj h
    exact ⟨hinv.sound.write (hclient ▸ hfirst.1), nofun, nofun⟩

theorem Inv.reaches (hinv : L.Inv) (hrun : Reaches L L') : L'.Inv :=
  invariant_of_reachable Inv (fun _ _ h ⟨_, hstep⟩ => h.step hstep) hrun hinv

theorem Reaches.extends (hrun : Reaches L L') (hinv : L.Inv) : L.server.Extends L'.server := by
  induction hrun with
  | refl => exact .of_eq rfl rfl
  | tail hrun hstep ih =>
    obtain ⟨l, hstep⟩ := hstep
    exact ih.trans (hstep.extends (hinv.reaches hrun))

theorem inv_smiOpen (okR okW : Bool) (t : FdTable File) :
    Inv ⟨.smiOpen okR okW t, .receiving⟩ := ⟨Server.sound_smiOpen okR okW t, nofun, nofun⟩

/-! ### Handling a message -/

theorem Step.eq_of_message {m : Message} {ok : Bool} (h : Step L (.message m ok) L') :
    L' = ⟨(L.server.receive (some m.msg.bytes) ok).2,
      (L.server.receive (some m.msg.bytes) ok).1.elim .receiving .received⟩ := by
  cases h
  rfl

theorem Step.exists_of_answer (h : Step L .answer L') : ∃ i a, L.phase = .received i ∧
    L.server.sq_msg.toUpper = some a ∧ L' =
      ⟨{ L.server.sendGetaddr L.server.sq_msg.smi_client with sq_msg := a }, .answered i⟩ := by
  cases h with
  | answer h => exact ⟨_, _, rfl, h, rfl⟩

theorem Step.exists_of_release (h : Step L .release L') : ∃ i, L.phase = .answered i ∧
    L.server.sendRelease = some L'.server := by
  cases h with
  | release h => exact ⟨_, rfl, h⟩

/-- There is no slot for the client of a message: it has none, and all of them are in use. -/
def NoSlot (L : Main) (m : Message) : Prop :=
  (∀ i, (L.server.sq_clients i).cl_pid ≠ m.msg.smi_client.pid) ∧
    ∀ i, (L.server.sq_clients i).cl_fd ≠ -1

/-- The client of a message has a slot without a descriptor, and its FIFO cannot be opened. -/
def Unopened (L : Main) (m : Message) (ok : Bool) : Prop :=
  ok = false ∧ ∃ i, L.server.sq_clients.table.IsFirst m.msg.smi_client.pid i ∧
    (L.server.sq_clients i).cl_fd = -1

/-- The message was passed over, with no reply and no change to the table. -/
structure PassedOver (L L' : Main) : Prop where
  replies : L'.server.replies = L.server.replies
  clients : L'.server.sq_clients = L.server.sq_clients

/-- What is written for the message, in upper case, to the descriptor in the slot of its client, or
to `-1`. -/
structure Answered (L : Main) (m : Message) (L' : Main) (i : Fin MAX_CLIENTS) (a : SmiMsg) :
    Prop where
  answer : m.msg.toUpper = some a
  client : (L'.server.sq_clients i).cl_pid = m.msg.smi_client.pid
  writes : L'.server.writes = L.server.writes ++ [((L'.server.sq_clients i).cl_fd, a)]

/-- What a message does to the table: the slot of its client is the first one with its pid, and is
without a descriptor then exactly if it was so before and the FIFO cannot be opened. -/
structure Finds (L : Main) (m : Message) (ok : Bool) (L' : Main) (i : Fin MAX_CLIENTS) : Prop where
  isFirst : L'.server.sq_clients.table.IsFirst m.msg.smi_client.pid i
  cl_fd : (L'.server.sq_clients i).cl_fd = -1 ↔ (L.server.sq_clients i).cl_fd = -1 ∧ ok = false
  unchanged : L.Unopened m ok → L'.server.sq_clients = L.server.sq_clients

/-- **A message is passed over or answered.** -/
theorem Handles.spec {m : Message} {ok : Bool} (hinv : L.Inv) (h : Handles L m ok L') :
    L.NoSlot m ∧ PassedOver L L' ∨
      ¬ L.NoSlot m ∧ ∃ i a, Answered L m L' i a ∧ Finds L m ok L' i := by
  have hcases := L.server.receive_cases (some m.msg.bytes) ok
  rw [readMsg_message] at hcases
  cases h with
  | passedOver h hphase =>
    obtain rfl := h.eq_of_message
    rcases hcases with ⟨hpids, hfds, h⟩ | ⟨-, i, s', h, -⟩ <;> rw [h] at hphase ⊢
    · exact Or.inl ⟨⟨hpids, hfds⟩, rfl, rfl⟩
    · exact Phase.noConfusion hphase
  | @answered L₁ L₂ _ h₁ h₂ h₃ =>
    have hinv₂ := (hinv.step h₁).step h₂
    obtain rfl := h₁.eq_of_message
    obtain ⟨i, a, hphase, hupper, rfl⟩ := h₂.exists_of_answer
    obtain ⟨j, hphase', hsend⟩ := h₃.exists_of_release
    obtain rfl := Phase.answered.inj hphase'
    rw [Server.sendRelease_of_isFirst (hinv₂.answered i rfl).2] at hsend
    have hserver := Option.some.inj hsend
    rcases hcases with ⟨-, -, h⟩ | ⟨hnot, j, s', h, hrec⟩
    · rw [h] at hphase
      exact Phase.noConfusion hphase
    · rw [h] at hphase hupper hserver
      obtain rfl : j = i := Phase.received.inj hphase
      have hclients : L'.server.sq_clients = s'.sq_clients := by rw [← hserver]; rfl
      refine Or.inr ⟨hnot, j, a, ⟨?_, ?_, ?_⟩, ⟨?_, ?_, ?_⟩⟩
      · rw [← hrec.msg]
        exact hupper
      · rw [← hserver]
        exact hrec.isFirst.1
      · rw [← hserver, ← hrec.writes]
        rfl
      · rw [hclients]
        exact hrec.isFirst
      · rw [hclients]
        exact Server.cl_fd_receive_iff h
      · rintro ⟨rfl, k, hfirst, -⟩
        have hsearched := Server.eq_searched_of_receive h
        rw [readMsg_message] at hsearched
        rw [hclients, hsearched, Server.searched, clientsFind_of_isFirst hfirst]

/-- **When a message is passed over**: if and only if there is no slot for its client, or the one it
has is without a descriptor and the FIFO cannot be opened. -/
theorem Handles.passedOver_iff {m : Message} {ok : Bool} (hinv : L.Inv) (h : Handles L m ok L') :
    PassedOver L L' ↔ L.NoSlot m ∨ L.Unopened m ok := by
  rcases h.spec hinv with ⟨hno, hpassed⟩ | ⟨hno, i, a, hanswered, hfinds⟩
  · exact iff_of_true hpassed (Or.inl hno)
  · rw [or_iff_right hno]
    constructor
    · intro hpassed
      have hfd : (L'.server.sq_clients i).cl_fd = -1 := by
        by_contra hne
        have hlen := congrArg List.length hpassed.replies
        simp [Server.replies, hanswered.writes, hne] at hlen
      obtain ⟨hnone, hok⟩ := hfinds.cl_fd.mp hfd
      exact ⟨hok, i, hpassed.clients ▸ hfinds.isFirst, hnone⟩
    · intro hunopened
      have hclients := hfinds.unchanged hunopened
      obtain ⟨hok, k, hfirst, hnone⟩ := hunopened
      -- The slot that was found is the first one of the client, before as after.
      have hki : k = i := by
        have hfirst' := hfinds.isFirst
        rw [hclients] at hfirst'
        have hfind := (clientsFind_of_isFirst hfirst).symm.trans (clientsFind_of_isFirst hfirst')
        exact Option.some.inj (Prod.mk.inj hfind).1
      refine ⟨?_, hclients⟩
      rw [Server.replies, hanswered.writes, List.filter_append, hfinds.cl_fd.mpr ⟨hki ▸ hnone, hok⟩]
      simp [Server.replies]

/-- Every message is handled. -/
theorem exists_handles (hinv : L.Inv) (hphase : L.phase = .receiving) (m : Message) (ok : Bool) :
    ∃ L', Handles L m ok L' ∧ L'.phase = .receiving := by
  obtain ⟨s, phase⟩ := L
  obtain rfl : phase = .receiving := hphase
  have hstep := Step.message s m ok
  have hinv₁ := hinv.step hstep
  cases h : (s.receive (some m.msg.bytes) ok).1 with
  | none =>
    rw [h] at hstep
    exact ⟨_, .passedOver hstep rfl, rfl⟩
  | some i =>
    rw [h] at hstep hinv₁
    obtain ⟨hterm, hfirst⟩ := hinv₁.received i rfl
    have hupper : ∃ a, (s.receive (some m.msg.bytes) ok).2.sq_msg.toUpper = some a := by
      rw [SmiMsg.toUpper, if_pos hterm]
      exact ⟨_, rfl⟩
    obtain ⟨a, ha⟩ := hupper
    have hanswer := Step.answer (i := i) ha
    have hinv₂ := hinv₁.step hanswer
    exact ⟨_, .answered hstep hanswer
      (.release (Server.sendRelease_of_isFirst (hinv₂.answered i rfl).2)), rfl⟩

/-- **The table and the answers.** In every reachable state of the server: different slots with
descriptors belong to different clients; a slot with a descriptor names the FIFO of its client, and
stays as it is; an answer is made for the client of its message, and goes to a descriptor of the
FIFO of this client or to `-1`; the slot that is looked up for sending is the one that was found on
receiving; and every message is handled, and passed over with no reply and no change to the table
exactly if its client has no slot and all slots have descriptors, or its slot has no descriptor and
its FIFO cannot be opened. -/
theorem table_and_routing {okR okW : Bool} {t : FdTable File}
    (hrun : Reaches ⟨.smiOpen okR okW t, .receiving⟩ L) :
    (∀ i j, i ≠ j → (L.server.sq_clients i).cl_fd ≠ -1 → (L.server.sq_clients j).cl_fd ≠ -1 →
      (L.server.sq_clients i).cl_pid ≠ (L.server.sq_clients j).cl_pid) ∧
    (∀ i, (L.server.sq_clients i).cl_fd ≠ -1 →
      L.server.OpenedOn (L.server.sq_clients i).cl_fd (L.server.sq_clients i).cl_pid ∧
        ∀ L', Reaches L L' → L'.server.sq_clients i = L.server.sq_clients i) ∧
    (∀ w ∈ L.server.writes, w.1 ≠ -1 → L.server.OpenedOn w.1 w.2.smi_client.pid) ∧
    (∀ i, L.phase = .answered i →
      clientsFind L.server.sq_clients L.server.sq_client.pid = (some i, L.server.sq_clients)) ∧
    ∀ m ok, L.phase = .receiving → (∃ L', Handles L m ok L' ∧ L'.phase = .receiving) ∧
      ∀ L', Handles L m ok L' → (PassedOver L L' ↔ L.NoSlot m ∨ L.Unopened m ok) ∧
        (¬ L.NoSlot m → ∃ i a, Answered L m L' i a ∧ a.smi_client = m.msg.smi_client) := by
  have hinv := (inv_smiOpen okR okW t).reaches hrun
  refine ⟨fun i j hij hi hj hpid => ?_, fun i hi => ⟨hinv.sound.owned i hi, fun L' hrun' => ?_⟩,
    hinv.sound.routed, fun i hi => ?_, fun m ok hphase => ⟨exists_handles hinv hphase m ok,
      fun L' h => ⟨h.passedOver_iff hinv, fun hslot => ?_⟩⟩⟩
  · exact hij (hinv.sound.indexed.injective (Client.isSome_slot_value.mpr hi)
      (Client.isSome_slot_value.mpr hj) hpid)
  · exact (hrun'.extends hinv).clients i hi
  · exact clientsFind_of_isFirst (hinv.answered i hi).2
  · rcases h.spec hinv with ⟨hno, -⟩ | ⟨-, i, a, hanswered, -⟩
    · exact absurd hno hslot
    · exact ⟨i, a, hanswered, SmiMsg.smi_client_toUpper hanswered.answer⟩

/-- A message from the client with the pid `5`, with no data. -/
def sample : Message where
  msg := ⟨(List.replicate MSG_SIZE 0).set 8 5, by rw [List.length_set, List.length_replicate]⟩
  terminated := by decide

/-- Once the FIFO of the client with the pid `5` is opened, its descriptor stays in the first
slot. -/
theorem table_and_routing_sample : ∃ L, Step ⟨.smiOpen true true ⟨[]⟩, .receiving⟩
    (.message sample true) L ∧ (L.server.sq_clients 0).cl_fd = 2 ∧ L.server.OpenedOn 2 5 ∧
      ∀ L', Reaches L L' → L'.server.sq_clients 0 = ⟨2, 5⟩ := by
  have hstep := Step.message (.smiOpen true true ⟨[]⟩) sample true
  have hrouting := table_and_routing (.single ⟨_, hstep⟩)
  have hclient : ((Server.smiOpen true true ⟨[]⟩).receive (some sample.msg.bytes)
      true).2.sq_clients 0 = ⟨2, 5⟩ := by decide
  obtain ⟨hopened, hkept⟩ := hrouting.2.1 0 (by dsimp only; rw [hclient]; decide)
  dsimp only at hopened hkept
  rw [hclient] at hopened hkept
  exact ⟨_, hstep, congrArg Client.cl_fd hclient, hopened, hkept⟩

/-- A message with the pid `0`, which is that of the slots that are not in use, and no data. -/
def unnamed : Message where
  msg := .zero
  terminated := by decide

/-- **The first message is passed over, though all slots are free**: it has the pid `0`, as the
first slot has, and its FIFO cannot be opened. -/
theorem passedOver_unnamed : ∃ L', Handles ⟨.smiOpen true true ⟨[]⟩, .receiving⟩ unnamed false L' ∧
    PassedOver ⟨.smiOpen true true ⟨[]⟩, .receiving⟩ L' ∧
      ¬ NoSlot ⟨.smiOpen true true ⟨[]⟩, .receiving⟩ unnamed := by
  have hinv := inv_smiOpen true true ⟨[]⟩
  obtain ⟨L', h, -⟩ := exists_handles hinv rfl unnamed false
  refine ⟨L', h, (h.passedOver_iff hinv).mpr (Or.inr ⟨rfl, 0, ⟨by decide, ?_⟩, rfl⟩),
    fun hno => hno.2 0 rfl⟩
  exact fun j hj => absurd hj (Fin.not_lt_zero j)

end Main

end UnixStudy.Smi
