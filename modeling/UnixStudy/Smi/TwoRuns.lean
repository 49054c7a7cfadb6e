import UnixStudy.Smi.Reads

/-!
# Data of one client in the reply to another

The server reads every message into the same buffer, does not keep how many bytes it has read, and
always sends the whole buffer. Two runs in which the same messages arrive, up to the data of other
clients, have the same table and the same descriptors at the end. But a client whose message is
shorter than the buffer is sent what the buffer had behind its message, and that can be the data of
another client.

## Main definitions

* `SameIds`, `Main.Differ` : messages, and labels of runs, with the same ids.
* `Main.Agree` : what two runs have in common.
* `Server.Answers` : the server has, or gets, a descriptor for a client.
* `Main.SameReply` : the replies to the next message are the same.

## Main results

* `Main.Agree.run` : what two runs have in common.
* `Main.sameReply_iff` : the replies in two states.
* `Main.no_data_of_others_iff` : the replies in two runs.

## References

* `src/ad_comm/smi_server.c`, lines 160–218 and 242–262.
-/

namespace UnixStudy.Smi

/-- The bytes of the ids, behind the type of the message, are the same. -/
def AgreeOnIds (b b' : Bytes) : Prop := ∀ k, 8 ≤ k → k < HEADER_SIZE → b[k]? = b'[k]?

/-- Two messages, each with a complete header, with the same ids. -/
def SameIds (b b' : Bytes) : Prop :=
  HEADER_SIZE ≤ b.length ∧ HEADER_SIZE ≤ b'.length ∧ AgreeOnIds b b'

/-- The pid in the header of a message. -/
def pidOf (b : Bytes) : Pid := (⟨longAt 8 b, longAt 16 b⟩ : ClientId).pid

/-- The ids that are read from the bytes. -/
theorem AgreeOnIds.longAt {b b' : Bytes} (h : AgreeOnIds b b') :
    longAt 8 b = longAt 8 b' ∧ longAt 16 b = longAt 16 b' := by
  have hdrop (offset : ℕ) (hlow : 8 ≤ offset) (hhigh : offset + 8 ≤ HEADER_SIZE) :
      (b.drop offset).take 8 = (b'.drop offset).take 8 := by
    refine List.ext_getElem? fun k => ?_
    rw [List.getElem?_take, List.getElem?_take]
    split_ifs with hk
    · rw [List.getElem?_drop, List.getElem?_drop, h _ (by omega) (by omega)]
    · rfl
  rw [Smi.longAt, Smi.longAt, hdrop 8 (by decide) (by decide), Smi.longAt, Smi.longAt,
    hdrop 16 (by decide) (by decide)]
  exact ⟨rfl, rfl⟩

theorem AgreeOnIds.smi_client {m m' : SmiMsg} (h : AgreeOnIds m.bytes m'.bytes) :
    m.smi_client = m'.smi_client := by
  rw [SmiMsg.smi_client, SmiMsg.smi_client, h.longAt.1, h.longAt.2]

namespace SmiMsg

theorem bytes_inj {m m' : SmiMsg} : m.bytes = m'.bytes ↔ m = m' := by
  refine ⟨fun h => ?_, congrArg bytes⟩
  obtain ⟨b, hb⟩ := m
  obtain rfl : b = m'.bytes := h
  rfl

/-- The bytes of the buffer when a message was read over its start. -/
theorem bytes_overwrite (m : SmiMsg) {b : Bytes} (hb : b.length ≤ MSG_SIZE) :
    (m.overwrite b).bytes = b ++ m.bytes.drop b.length :=
  congrArg (· ++ m.bytes.drop b.length) (List.take_of_length_le hb)

/-- A message with a complete header brings its own ids. -/
theorem agreeOnIds_overwrite (m : SmiMsg) {b : Bytes} (hb : b.length ≤ MSG_SIZE)
    (hheader : HEADER_SIZE ≤ b.length) : AgreeOnIds (m.overwrite b).bytes b := by
  intro k _ hk
  rw [bytes_overwrite m hb, List.getElem?_append_left (hk.trans_le hheader)]

/-- The answer has the ids of the message. -/
theorem agreeOnIds_toUpper {m a : SmiMsg} (h : m.toUpper = some a) :
    AgreeOnIds a.bytes m.bytes := by
  intro k _ hk
  rw [toUpper] at h
  split_ifs at h
  obtain rfl := Option.some.inj h
  dsimp only
  rw [List.getElem?_append_left, List.getElem?_take, if_pos hk]
  rwa [List.length_take, m.size]

/-- The data in front of a `NUL` are made upper case, and those behind it are kept. -/
theorem upperData_append {b : Bytes} (h : nul ∈ b) (b' : Bytes) :
    upperData (b ++ b') = upperData b ++ b' := by
  induction b with
  | nil => exact absurd h List.not_mem_nil
  | cons c cs ih =>
    rw [List.cons_append, upperData, upperData]
    split_ifs with hc
    · rfl
    · rw [ih ((List.mem_cons.mp h).resolve_left (Ne.symm hc))]
      rfl

/-- The answer to a message that was read over the start of the buffer: behind it is what the buffer
had there. -/
theorem bytes_toUpper_overwrite (m : SmiMsg) {b : Bytes} (hb : b.length ≤ MSG_SIZE)
    (hheader : HEADER_SIZE ≤ b.length) (hnul : nul ∈ b.drop HEADER_SIZE) :
    ∃ a, (m.overwrite b).toUpper = some a ∧
      a.bytes = b.take HEADER_SIZE ++ upperData (b.drop HEADER_SIZE) ++ m.bytes.drop b.length := by
  have hdata : (m.overwrite b).smi_data = b.drop HEADER_SIZE ++ m.bytes.drop b.length := by
    rw [smi_data, bytes_overwrite m hb, List.drop_append_of_le_length hheader]
  refine ⟨_, if_pos (hdata ▸ List.mem_append_left _ hnul), ?_⟩
  dsimp only
  rw [hdata, upperData_append hnul, bytes_overwrite m hb, List.take_append_of_le_length hheader,
    List.append_assoc]

end SmiMsg

/-- What is behind a message is kept. -/
theorem AgreeOnIds.overwrite {m m' : SmiMsg} (h : AgreeOnIds m.bytes m'.bytes) {b : Bytes}
    (hb : b.length ≤ MSG_SIZE) : AgreeOnIds (m.overwrite b).bytes (m'.overwrite b).bytes := by
  intro k hlow hk
  rw [m.bytes_overwrite hb, m'.bytes_overwrite hb, List.getElem?_append, List.getElem?_append]
  split_ifs with hlt
  · rfl
  · rw [List.getElem?_drop, List.getElem?_drop, h _ (by omega) (by omega)]

/-! ### Two runs -/

namespace Server

/-- The server has a descriptor for the client, or it gets one: the FIFO of the client can be opened
and there is a slot without a descriptor. -/
def Answers (s : Server) (pid : Pid) (ok : Bool) : Prop :=
  (∃ i, (s.sq_clients i).cl_pid = pid ∧ (s.sq_clients i).cl_fd ≠ -1) ∨
    ok = true ∧ ∃ i, (s.sq_clients i).cl_fd = -1

theorem receive_fields (s : Server) (b : Option Bytes) (ok : Bool) :
    (s.receive b ok).2.sq_msg = s.readMsg b ∧ (s.receive b ok).2.sq_client = s.sq_client ∧
      (s.receive b ok).2.writes = s.writes := by
  rw [receive]
  dsimp only
  split
  · exact ⟨rfl, rfl, rfl⟩
  · split_ifs <;> exact ⟨rfl, rfl, rfl⟩

/-- What is received depends on the table, the descriptors and the pid in the buffer only. -/
theorem receive_congr {s s' : Server} {b b' : Option Bytes} (ok : Bool)
    (hclients : s.sq_clients = s'.sq_clients) (hfds : s.fds = s'.fds)
    (hpid : (s.readMsg b).smi_client.pid = (s'.readMsg b').smi_client.pid) :
    (s.receive b ok).1 = (s'.receive b' ok).1 ∧
      (s.receive b ok).2.sq_clients = (s'.receive b' ok).2.sq_clients ∧
        (s.receive b ok).2.fds = (s'.receive b' ok).2.fds := by
  rw [receive, receive]
  dsimp only
  rw [hclients, hpid]
  split
  · exact ⟨rfl, rfl, hfds⟩
  · split_ifs
    · rw [openClient, openClient]
      dsimp only
      rw [hfds]
      exact ⟨rfl, rfl, rfl⟩
    · exact ⟨rfl, rfl, hfds⟩

/-- A client is sent a reply if and only if the server has, or gets, a descriptor for it. -/
theorem answers_iff {s s' : Server} {b : Option Bytes} {ok : Bool} {i : Fin MAX_CLIENTS}
    (hindexed : s.sq_clients.table.Indexed) (h : s.receive b ok = (some i, s')) :
    (s'.sq_clients i).cl_fd ≠ -1 ↔ s.Answers (s.readMsg b).smi_client.pid ok := by
  have hrec := received_of_receive h
  rw [ne_eq, cl_fd_receive_iff h]
  constructor
  · intro hne
    by_cases hfd : (s.sq_clients i).cl_fd = -1
    · exact .inr ⟨eq_true_of_ne_false fun hok => hne ⟨hfd, hok⟩, i, hfd⟩
    · refine .inl ⟨i, ?_, hfd⟩
      rw [← hrec.frame.clients i hfd]
      exact hrec.isFirst.1
  · rintro (⟨j, hpid, hj⟩ | ⟨htrue, -⟩) ⟨hfd, hfalse⟩
    · -- The first entry with the pid has no descriptor, so no other one has.
      have hkept := hrec.frame.clients j hj
      have hkey : (s'.sq_clients j).cl_pid = (s.readMsg b).smi_client.pid := by rw [hkept, hpid]
      rcases lt_trichotomy i j with hlt | rfl | hlt
      · have hnone := hrec.indexed hindexed i j hlt (hrec.isFirst.1.trans hkey.symm)
        rw [Clients.table, Client.slot_value_eq_none, hkept] at hnone
        exact hj hnone
      · exact hj hfd
      · exact hrec.isFirst.2 j hlt hkey
    · exact Bool.noConfusion (htrue.symm.trans hfalse)

end Server

namespace Main

/-- The labels are the same, up to the data of a client that has another pid. -/
inductive Differ (pid : Pid) : ReadLabel → ReadLabel → Prop
  | same (l : ReadLabel) : Differ pid l l
  | message {b b' : Bytes} (ok : Bool) (h : SameIds b b') (hpid : pidOf b ≠ pid) :
      Differ pid (.read (some b) ok) (.read (some b') ok)

/-- Steps of two runs, side by side, that differ in data of other clients only. -/
def Step₂ (pid : Pid) (s : Main × Main) (l : ReadLabel × ReadLabel) (s' : Main × Main) : Prop :=
  Differ pid l.1 l.2 ∧ ReadStep s.1 l.1 s'.1 ∧ ReadStep s.2 l.2 s'.2

/-- What two runs have in common: all but the data in the buffer and in the answers. -/
structure Agree (L L' : Main) : Prop where
  clients : L.server.sq_clients = L'.server.sq_clients
  client : L.server.sq_client = L'.server.sq_client
  fds : L.server.fds = L'.server.fds
  ids : AgreeOnIds L.server.sq_msg.bytes L'.server.sq_msg.bytes
  phase : L.phase = L'.phase

/-- What is sent to a client between two states. -/
def replies (L L' : Main) : List SmiMsg :=
  ((L'.server.writes.drop L.server.writes.length).filter (·.1 ≠ -1)).map (·.2)

/-- In both states the next message is handled, and the replies to it are the same. -/
def SameReply (L L' : Main) (b : Bytes) (ok : Bool) : Prop :=
  ∃ L₁ L₁', Reacts L (some b) ok L₁ ∧ Reacts L' (some b) ok L₁' ∧ replies L L₁ = replies L' L₁'

variable {L L' L₁ L₁' : Main} {l l' : ReadLabel} {pid : Pid}

/-- The ids in the buffer after a read. -/
theorem Agree.readMsg (h : L.Agree L') {b b' : Option Bytes} {ok ok' : Bool}
    (hb : ∀ c ∈ b, c.length ≤ MSG_SIZE) (hb' : ∀ c ∈ b', c.length ≤ MSG_SIZE)
    (hl : Differ pid (.read b ok) (.read b' ok')) :
    AgreeOnIds (L.server.readMsg b).bytes (L'.server.readMsg b').bytes ∧ ok = ok' := by
  cases hl with
  | same =>
    cases b with
    | none => exact ⟨h.ids, rfl⟩
    | some c => exact ⟨h.ids.overwrite (hb c rfl), rfl⟩
  | message ok hids =>
    obtain ⟨hheader, hheader', hids⟩ := hids
    refine ⟨fun k hlow hk => ?_, rfl⟩
    exact (L.server.sq_msg.agreeOnIds_overwrite (hb _ rfl) hheader k hlow hk).trans
      ((hids k hlow hk).trans
        (L'.server.sq_msg.agreeOnIds_overwrite (hb' _ rfl) hheader' k hlow hk).symm)

/-- **Every step keeps what two runs have in common.** -/
theorem Agree.step (h : L.Agree L') (hl : Differ pid l l') (hstep : ReadStep L l L₁)
    (hstep' : ReadStep L' l' L₁') : L₁.Agree L₁' := by
  cases hstep with
  | read s ok hb =>
    cases hstep' with
    | read s' ok' hb' =>
      obtain ⟨hids, rfl⟩ := h.readMsg hb hb' hl
      obtain ⟨hslot, hclients, hfds⟩ := Server.receive_congr ok h.clients h.fds
        (congrArg ClientId.pid hids.smi_client)
      obtain ⟨hmsg, hclient, -⟩ := s.receive_fields _ ok
      obtain ⟨hmsg', hclient', -⟩ := s'.receive_fields _ ok
      refine ⟨hclients, ?_, hfds, ?_, ?_⟩
      · exact hclient.trans (h.client.trans hclient'.symm)
      · dsimp only
        rw [hmsg, hmsg']
        exact hids
      · dsimp only
        rw [hslot]
    | answer => cases hl
    | release => cases hl
  | answer hupper =>
    cases hl
    cases hstep' with
    | answer hupper' =>
      refine ⟨h.clients, h.ids.smi_client, h.fds, fun k hlow hk => ?_, ?_⟩
      · exact (SmiMsg.agreeOnIds_toUpper hupper k hlow hk).trans
          ((h.ids k hlow hk).trans (SmiMsg.agreeOnIds_toUpper hupper' k hlow hk).symm)
      · exact congrArg Phase.answered (Phase.received.inj h.phase)
  | release hsend =>
    cases hl
    cases hstep' with
    | release hsend' =>
      obtain ⟨i, -, rfl⟩ := Option.map_eq_some_iff.mp hsend
      obtain ⟨i', -, rfl⟩ := Option.map_eq_some_iff.mp hsend'
      refine ⟨?_, h.client, h.fds, h.ids, rfl⟩
      exact congrArg Prod.snd
        (congrArg₂ clientsFind h.clients (congrArg ClientId.pid h.client))

/-- What two runs have in common. -/
theorem Agree.run (h : L.Agree L') {ls : List (ReadLabel × ReadLabel)}
    (hrun : Run (Step₂ pid) (L, L') ls (L₁, L₁')) : L₁.Agree L₁' :=
  hrun.invariant (p := fun s => s.1.Agree s.2) h
    fun _ _ _ h ⟨hl, hstep, hstep'⟩ => h.step hl hstep hstep'

theorem agree_refl (L : Main) : L.Agree L := ⟨rfl, rfl, rfl, fun _ _ _ => rfl, rfl⟩

/-! ### The replies -/

/-- Nothing is sent in reaction to a read, if no slot was found. -/
theorem replies_of_none {b : Option Bytes} {ok : Bool} (hphase : L.phase = .receiving)
    (hb : ∀ c ∈ b, c.length ≤ MSG_SIZE) (hnone : (L.server.receive b ok).1 = none) :
    ∃ L₁, Reacts L b ok L₁ ∧ replies L L₁ = [] := by
  refine ⟨_, (reacts_iff hphase hb).mpr (.inl ⟨hnone, rfl⟩), ?_⟩
  rw [replies, (L.server.receive_fields _ ok).2.2, List.drop_length]
  rfl

/-- What is sent in reaction to a read, if a slot was found. -/
theorem replies_of_some {b : Option Bytes} {ok : Bool} {i : Fin MAX_CLIENTS} {s' : Server}
    {a : SmiMsg} (hphase : L.phase = .receiving) (hb : ∀ c ∈ b, c.length ≤ MSG_SIZE)
    (hreceive : L.server.receive b ok = (some i, s')) (hupper : s'.sq_msg.toUpper = some a) :
    (∃ L₁, Reacts L b ok L₁) ∧ ∀ L₁, Reacts L b ok L₁ →
      replies L L₁ = if (s'.sq_clients i).cl_fd = -1 then [] else [a] := by
  refine ⟨⟨_, (reacts_iff hphase hb).mpr (.inr ⟨i, s', a, hreceive, hupper, rfl⟩)⟩,
    fun L₁ hreacts => ?_⟩
  rcases (reacts_iff hphase hb).mp hreacts with ⟨hnone, -⟩ | ⟨j, s₁, a₁, h, hupper₁, rfl⟩
  · rw [hreceive] at hnone
    exact absurd hnone (Option.some_ne_none i)
  · obtain ⟨hij, rfl⟩ := Prod.mk.inj (hreceive.symm.trans h)
    obtain rfl := Option.some.inj hij
    obtain rfl := Option.some.inj (hupper.symm.trans hupper₁)
    have hwrites : s'.writes = L.server.writes := by
      have hfields := (L.server.receive_fields b ok).2.2
      rwa [hreceive] at hfields
    dsimp only [replies, replied]
    rw [hwrites, List.drop_left, List.filter_singleton]
    by_cases hfd : (s'.sq_clients i).cl_fd = -1 <;> simp [hfd]

/-- Where no slot is found in either state, the replies are the same. -/
theorem sameReply_of_none (hphase : L.phase = .receiving) (hphase' : L'.phase = .receiving)
    {b : Bytes} {ok : Bool} (hb : b.length ≤ MSG_SIZE)
    (hnone : (L.server.receive (some b) ok).1 = none)
    (hnone' : (L'.server.receive (some b) ok).1 = none) : SameReply L L' b ok := by
  have hb' : ∀ c ∈ some b, c.length ≤ MSG_SIZE := fun c hc => Option.some.inj hc ▸ hb
  obtain ⟨L₁, hreacts, hnil⟩ := replies_of_none hphase hb' hnone
  obtain ⟨L₁', hreacts', hnil'⟩ := replies_of_none hphase' hb' hnone'
  exact ⟨L₁, L₁', hreacts, hreacts', hnil.trans hnil'.symm⟩

/-- Where a slot with the same descriptor is found in both states, the replies are the same if and
only if none is sent, or the answers are the same. -/
theorem sameReply_of_some (hphase : L.phase = .receiving) (hphase' : L'.phase = .receiving)
    {b : Bytes} {ok : Bool} (hb : b.length ≤ MSG_SIZE) {i : Fin MAX_CLIENTS} {s s' : Server}
    {a a' : SmiMsg} (hreceive : L.server.receive (some b) ok = (some i, s))
    (hreceive' : L'.server.receive (some b) ok = (some i, s'))
    (hupper : s.sq_msg.toUpper = some a) (hupper' : s'.sq_msg.toUpper = some a')
    (hfd : (s'.sq_clients i).cl_fd = (s.sq_clients i).cl_fd) :
    SameReply L L' b ok ↔ (s.sq_clients i).cl_fd = -1 ∨ a = a' := by
  have hb' : ∀ c ∈ some b, c.length ≤ MSG_SIZE := fun c hc => Option.some.inj hc ▸ hb
  obtain ⟨⟨L₁, hreacts⟩, hreplies⟩ := replies_of_some hphase hb' hreceive hupper
  obtain ⟨⟨L₁', hreacts'⟩, hreplies'⟩ := replies_of_some hphase' hb' hreceive' hupper'
  rw [hfd] at hreplies'
  constructor
  · rintro ⟨M, M', hM, hM', hsame⟩
    rw [hreplies M hM, hreplies' M' hM'] at hsame
    split_ifs at hsame with hclosed
    · exact .inl hclosed
    · exact .inr (List.singleton_inj.mp hsame)
  · intro hor
    refine ⟨L₁, L₁', hreacts, hreacts', ?_⟩
    rw [hreplies L₁ hreacts, hreplies' L₁' hreacts']
    rcases hor with hclosed | rfl
    · rw [if_pos hclosed, if_pos hclosed]
    · rfl

/-- The pid in what was read. -/
theorem pid_readMsg (s : Server) {b : Bytes} (hb : b.length ≤ MSG_SIZE)
    (hheader : HEADER_SIZE ≤ b.length) : (s.readMsg (some b)).smi_client.pid = pidOf b := by
  have hids := (s.sq_msg.agreeOnIds_overwrite hb hheader).longAt
  rw [pidOf, ← hids.1, ← hids.2]
  rfl

/-- **When two replies are the same**: if and only if none is sent, or what the buffers have behind
the message is the same. -/
theorem sameReply_iff (hinv : L.ReadInv) (h : L.Agree L') (hphase : L.phase = .receiving)
    {b : Bytes} (hb : b.length ≤ MSG_SIZE) (hheader : HEADER_SIZE ≤ b.length)
    (hnul : nul ∈ b.drop HEADER_SIZE) (ok : Bool) :
    SameReply L L' b ok ↔ ¬ L.server.Answers (pidOf b) ok ∨
      L.server.sq_msg.bytes.drop b.length = L'.server.sq_msg.bytes.drop b.length := by
  have hpid (s : Server) := pid_readMsg s hb hheader
  obtain ⟨hslot, hclients, -⟩ := Server.receive_congr ok h.clients h.fds
    ((hpid L.server).trans (hpid L'.server).symm)
  have hphase' : L'.phase = .receiving := h.phase.symm.trans hphase
  rcases L.server.receive_cases (some b) ok with ⟨hpids, hfds, hreceive⟩ | ⟨-, i, s, hreceive, hrec⟩
  · have hnone : (L.server.receive (some b) ok).1 = none := congrArg Prod.fst hreceive
    refine iff_of_true (sameReply_of_none hphase hphase' hb hnone (hslot.symm.trans hnone))
      (.inl ?_)
    rw [← hpid L.server]
    rintro (⟨j, hj, -⟩ | ⟨-, j, hj⟩)
    · exact hpids j hj
    · exact hfds j hj
  · obtain ⟨s', hreceive'⟩ : ∃ s', L'.server.receive (some b) ok = (some i, s') := by
      refine ⟨_, Prod.ext ?_ rfl⟩
      rw [← hslot, hreceive]
    have hrec' := Server.received_of_receive hreceive'
    rw [hreceive, hreceive'] at hclients
    obtain ⟨a, ha, hbytes⟩ := L.server.sq_msg.bytes_toUpper_overwrite hb hheader hnul
    obtain ⟨a', ha', hbytes'⟩ := L'.server.sq_msg.bytes_toUpper_overwrite hb hheader hnul
    have hreply := sameReply_of_some hphase hphase' hb hreceive hreceive'
      (by rw [hrec.msg]; exact ha) (by rw [hrec'.msg]; exact ha')
      (congrArg (fun clients => (clients i).cl_fd) hclients).symm
    have hanswers := Server.answers_iff hinv.sound.indexed hreceive
    rw [hpid] at hanswers
    have hsame : a = a' ↔
        L.server.sq_msg.bytes.drop b.length = L'.server.sq_msg.bytes.drop b.length := by
      rw [← SmiMsg.bytes_inj, hbytes, hbytes', List.append_cancel_left_eq]
    rw [hreply, hsame, ← hanswers, not_not]

/-- **The replies to a client in two runs.** In two runs in which the same messages arrive, up to
the data of other clients, the next message of the client, if it has a complete header and its data
end with a `NUL`, is answered with the same bytes, if and only if it is not answered, or what the
buffer has behind it is the same in both runs. -/
theorem no_data_of_others_iff {okR okW : Bool} {t : FdTable File} {b : Bytes}
    {ls : List (ReadLabel × ReadLabel)}
    (hrun : Run (Step₂ (pidOf b))
      (⟨.smiOpen okR okW t, .receiving⟩, ⟨.smiOpen okR okW t, .receiving⟩) ls (L, L'))
    (hphase : L.phase = .receiving) (hb : b.length ≤ MSG_SIZE) (hheader : HEADER_SIZE ≤ b.length)
    (hnul : nul ∈ b.drop HEADER_SIZE) (ok : Bool) :
    SameReply L L' b ok ↔ ¬ L.server.Answers (pidOf b) ok ∨
      L.server.sq_msg.bytes.drop b.length = L'.server.sq_msg.bytes.drop b.length := by
  have hinv : L.ReadInv := hrun.invariant (p := fun s => s.1.ReadInv) (readInv_smiOpen okR okW t)
    fun _ _ _ h hstep => h.step hstep.2.1
  exact sameReply_iff hinv ((agree_refl _).run hrun) hphase hb hheader hnul ok

/-- A message from the client with the pid `5`, with the data `a` and one more character. -/
def note (c : UInt8) : SmiMsg where
  bytes := (((List.replicate MSG_SIZE 0).set 8 5).set 24 97).set 25 c
  size := by rw [List.length_set, List.length_set, List.length_set, List.length_replicate]

/-- The header of a message from the client with the pid `7`, and a `NUL`. -/
def knock : Bytes := (List.replicate 25 0).set 8 7

/-- The first message of a run is answered, and the answer is what the buffer has then. -/
theorem exists_note {c : UInt8} (hc : c = 97 ∨ c = 98) : ∃ L₁ L₂ L,
    ReadStep ⟨.smiOpen true true ⟨[]⟩, .receiving⟩ (.read (some (note c).bytes) true) L₁ ∧
      ReadStep L₁ .answer L₂ ∧ ReadStep L₂ .release L ∧ L.phase = .receiving ∧
        (L.server.sq_clients 1).cl_fd = -1 ∧
          L.server.sq_msg.smi_data = upperData (note c).smi_data := by
  have hb : ∀ b ∈ some (note c).bytes, b.length ≤ MSG_SIZE := fun b hb =>
    Option.some.inj hb ▸ (note c).size.le
  have hslot : ((Server.smiOpen true true ⟨[]⟩).receive (some (note c).bytes) true).1 = some 0 := by
    rcases hc with rfl | rfl <;> decide
  have hfree : (((Server.smiOpen true true ⟨[]⟩).receive (some (note c).bytes)
      true).2.sq_clients 1).cl_fd = -1 := by
    rcases hc with rfl | rfl <;> decide
  have hnul : nul ∈ (note c).smi_data := by
    rcases hc with rfl | rfl <;> decide
  have hmsg : ((Server.smiOpen true true ⟨[]⟩).receive (some (note c).bytes) true).2.sq_msg =
      note c :=
    (Server.receive_fields ..).1.trans (SmiMsg.overwrite_of_complete _ (note c).size)
  generalize hreceive : (Server.smiOpen true true ⟨[]⟩).receive (some (note c).bytes) true = r
  rw [hreceive] at hslot hfree hmsg
  obtain ⟨a, ha⟩ : ∃ a, r.2.sq_msg.toUpper = some a := by
    rw [hmsg, SmiMsg.toUpper, if_pos hnul]
    exact ⟨_, rfl⟩
  obtain ⟨L₁, L₂, h₁, h₂, h₃⟩ := exists_steps hb (hreceive.trans (Prod.ext hslot rfl)) ha
  rw [hmsg] at ha
  exact ⟨L₁, L₂, _, h₁, h₂, h₃, rfl, hfree, SmiMsg.smi_data_toUpper ha⟩

/-- Two runs: the client with the pid `5` has sent `aa` in one, and `ab` in the other. -/
theorem exists_notes {pid : Pid} (hpid : pidOf (note 97).bytes ≠ pid) : ∃ ls L L',
    Run (Step₂ pid) (⟨.smiOpen true true ⟨[]⟩, .receiving⟩, ⟨.smiOpen true true ⟨[]⟩, .receiving⟩)
      ls (L, L') ∧ L.ReadInv ∧ L.phase = .receiving ∧ (L.server.sq_clients 1).cl_fd = -1 ∧
        L.server.sq_msg.smi_data[1]? ≠ L'.server.sq_msg.smi_data[1]? := by
  obtain ⟨L₁, L₂, L, h₁, h₂, h₃, hphase, hfree, hdata⟩ := exists_note (c := 97) (.inl rfl)
  obtain ⟨L₁', L₂', L', h₁', h₂', h₃', -, -, hdata'⟩ := exists_note (c := 98) (.inr rfl)
  have hids : SameIds (note 97).bytes (note 98).bytes := by
    refine ⟨(note 97).size ▸ by decide, (note 98).size ▸ by decide, fun k _ hk => ?_⟩
    have hne : 25 ≠ k := (hk.trans (by decide)).ne'
    exact (List.getElem?_set_ne hne).trans (List.getElem?_set_ne hne).symm
  have hstep₁ : Step₂ pid
      (⟨.smiOpen true true ⟨[]⟩, .receiving⟩, ⟨.smiOpen true true ⟨[]⟩, .receiving⟩) (_, _)
      (L₁, L₁') :=
    ⟨.message true hids hpid, h₁, h₁'⟩
  have hstep₂ : Step₂ pid (L₁, L₁') (_, _) (L₂, L₂') := ⟨.same .answer, h₂, h₂'⟩
  have hstep₃ : Step₂ pid (L₂, L₂') (_, _) (L, L') := ⟨.same .release, h₃, h₃'⟩
  refine ⟨_, L, L', ((Run.refl.tail hstep₁).tail hstep₂).tail hstep₃,
    (((readInv_smiOpen true true ⟨[]⟩).step h₁).step h₂).step h₃, hphase, hfree, ?_⟩
  rw [hdata, hdata']
  decide

/-- A whole message from the client with the pid `7`, with no data. -/
def call : SmiMsg where
  bytes := (List.replicate MSG_SIZE 0).set 8 7
  size := by rw [List.length_set, List.length_replicate]

/-- The client with the pid `5` has sent `aa` in one run, and `ab` in the other; a whole message of
the client with the pid `7` is answered with the same bytes. -/
theorem no_data_of_others_call : ∃ ls L L', Run (Step₂ (pidOf call.bytes))
    (⟨.smiOpen true true ⟨[]⟩, .receiving⟩, ⟨.smiOpen true true ⟨[]⟩, .receiving⟩) ls (L, L') ∧
      L.server.sq_msg ≠ L'.server.sq_msg ∧ SameReply L L' call.bytes true := by
  obtain ⟨ls, L, L', hrun, -, hphase, -, hdata⟩ :=
    exists_notes (show pidOf (note 97).bytes ≠ pidOf call.bytes by decide)
  refine ⟨ls, L, L', hrun, fun h => hdata (by rw [h]), ?_⟩
  refine (no_data_of_others_iff hrun hphase call.size.le (call.size.symm ▸ by decide) (by decide)
    true).mpr (.inr ?_)
  rw [call.size, List.drop_of_length_le L.server.sq_msg.size.le,
    List.drop_of_length_le L'.server.sq_msg.size.le]

/-- **The data of another client are sent.** The client with the pid `5` has sent `aa` in one run,
and `ab` in the other, and the client with the pid `7` sends a header and a `NUL`. -/
theorem not_no_data_of_others : ∃ ls L L', Run (Step₂ (pidOf knock))
    (⟨.smiOpen true true ⟨[]⟩, .receiving⟩, ⟨.smiOpen true true ⟨[]⟩, .receiving⟩) ls (L, L') ∧
      L.phase = .receiving ∧ knock.length ≤ MSG_SIZE ∧ HEADER_SIZE ≤ knock.length ∧
        nul ∈ knock.drop HEADER_SIZE ∧ ¬ SameReply L L' knock true := by
  obtain ⟨ls, L, L', hrun, hinv, hphase, hfree, hdata⟩ :=
    exists_notes (show pidOf (note 97).bytes ≠ pidOf knock by decide)
  refine ⟨ls, L, L', hrun, hphase, by decide, by decide, by decide, fun hsame => ?_⟩
  rw [sameReply_iff hinv ((agree_refl _).run hrun) hphase (by decide) (by decide)
    (by decide)] at hsame
  rcases hsame with hanswers | hdrop
  · exact hanswers (.inr ⟨rfl, 1, hfree⟩)
  · -- The second character of the data is the first one behind what was read.
    refine hdata ?_
    rw [SmiMsg.smi_data, SmiMsg.smi_data, List.getElem?_drop, List.getElem?_drop]
    have hfirst := congrArg (·[0]?) hdrop
    rwa [List.getElem?_drop, List.getElem?_drop] at hfirst

end Main

end UnixStudy.Smi
