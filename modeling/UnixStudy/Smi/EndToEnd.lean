import UnixStudy.Smi.Departures
import UnixStudy.Smi.Session

/-!
# What a client obtains

Of the two descriptors of a client for its FIFO, the one for reading is lost: `smi_open` puts the
one for writing in its place. So the call of `read` in `smi_receive_getaddr` fails, the answer stays
in the FIFO, and the client obtains what it has left in its buffer: the message that it has sent.
The answers are all there, in order, but from its first call of `smi_receive_getaddr` on, what a
client has obtained are not the answers to its messages.

## Main definitions

* `System.EndToEnd` : a client obtains the answers to its messages.

## Main results

* `endToEnd_iff` : when it does.
* `not_endToEnd_a` : a client that sends `a` obtains `a`.

## References

* `src/ad_comm/smi_server.c`, lines 96–131, 160–218 and 242–262.
-/

namespace UnixStudy.Smi

/-- The `k`-th message that the client obtains has the data of the `k`-th one that it has sent in
upper case; the answers to the client are those that it has obtained and then those in its FIFO; and
for each message that it has sent, in order, there is an answer, or one is to come. -/
structure System.EndToEnd (s : System) (pid : Pid) : Prop where
  obtained : ∀ (k : ℕ) (m : SmiMsg), (s.clients pid).obtained[k]? = some m →
    ∃ m' : SmiMsg, (s.clients pid).sent[k]? = some m' ∧ m.smi_data = m'.upper
  delivered : s.repliesTo pid =
    (s.clients pid).obtained ++ (s.fifos.queue (s.clients pid).fifo).map Parcel.msg
  inOrder : (s.clients pid).sent.map SmiMsg.upper =
    (s.repliesTo pid).map SmiMsg.smi_data ++ dataFor pid s.toCome

/-- **When an open client obtains the answers to its messages.** In every run in which at most
`MAX_CLIENTS` clients take part, and none closes or ends: if and only if it has not received yet. -/
theorem endToEnd_iff {cs : Finset Pid} (hcard : cs.card ≤ MAX_CLIENTS) {t : FdTable File}
    {ls : List SystemLabel} {s : System} (hrun : Run System.Step (.start t) ls s)
    (hls : ∀ l ∈ ls, l.InSession cs) {pid : Pid} (hready : (s.clients pid).phase = .ready) :
    s.EndToEnd pid ↔ SystemLabel.receives pid ∉ ls := by
  have hsession := System.Session.run hcard hrun hls
  have hdelivered := hsession.delivered pid (by rw [hready]; rfl)
  rw [← System.Session.obtained_eq_nil_iff hcard hrun hls]
  constructor
  · intro h
    have hlost := h.delivered
    rw [hdelivered] at hlost
    exact List.self_eq_append_left.mp hlost
  · intro hnone
    refine ⟨fun k m hm => ?_, ?_, ?_⟩
    · rw [hnone] at hm
      exact absurd hm.symm (Option.some_ne_none m)
    · rw [hnone, hdelivered, List.nil_append]
    · rw [hsession.inOrder pid, System.traffic, dataFor_append, System.map_smi_data_repliesTo]

/-! ### One client -/

theorem inSession_of_mem_session : ∀ l ∈ session, l.InSession {7} := by
  simp [session, SystemLabel.InSession]

/-- The process with the pid `7` has sent a message, and the server has made the answer. -/
theorem endToEnd_iff_session :
    ∃ s, Run System.Step .running session s ∧ s.main.phase = .answered 0 ∧ s.EndToEnd 7 := by
  have hrun : (session.foldlM System.step .running).map
      (fun s => (s.main.phase, (s.clients 7).phase)) = some (.answered 0, .ready) := rfl
  obtain ⟨s, hs, hshows⟩ := Option.map_eq_some_iff.mp hrun
  obtain ⟨hphase, hready⟩ := Prod.mk.inj hshows
  refine ⟨s, .of_foldlM hs, hphase, ?_⟩
  refine (endToEnd_iff (by decide) (.of_foldlM hs) inSession_of_mem_session hready).mpr ?_
  simp [session]

/-- The answer is sent, and the process calls `smi_receive_getaddr`. -/
def reception : List SystemLabel := session ++ [.serves, .receives 7]

/-- **A client that sends `a` obtains `a`.** The process with the pid `7` is the only client; its
message is answered, and it calls `smi_receive_getaddr`. It obtains its message, and the answer `A`
is left in its FIFO. -/
theorem not_endToEnd_a : ∃ s, Run System.Step .running reception s ∧
    (∀ l ∈ reception, l.InSession {7}) ∧ (s.clients 7).phase = .ready ∧
    (s.clients 7).obtained.map (·.smi_data.head?) = [some 97] ∧
    (s.fifos.queue (s.clients 7).fifo).map (·.msg.smi_data.head?) = [some 65] ∧
    ¬ s.EndToEnd 7 := by
  have hrun : (reception.foldlM System.step .running).map
      (fun s => ((s.clients 7).phase, (s.clients 7).sent.map (·.upper.head?),
        (s.clients 7).obtained.map (·.smi_data.head?),
        (s.fifos.queue (s.clients 7).fifo).map (·.msg.smi_data.head?))) =
      some (.ready, [some 65], [some 97], [some 65]) := rfl
  obtain ⟨s, hs, hshows⟩ := Option.map_eq_some_iff.mp hrun
  rw [Prod.mk.injEq, Prod.mk.injEq, Prod.mk.injEq] at hshows
  obtain ⟨hready, hsent, hobtained, hqueue⟩ := hshows
  refine ⟨s, .of_foldlM hs, ?_, hready, hobtained, hqueue, fun h => ?_⟩
  · intro l hl
    rcases List.mem_append.mp hl with hl | hl
    · exact inSession_of_mem_session l hl
    · rcases List.mem_pair.mp hl with rfl | rfl
      · exact trivial
      · exact trivial
  · obtain ⟨m, hm, ha⟩ := List.map_eq_singleton_iff.mp hobtained
    obtain ⟨m', hm', hA⟩ := List.map_eq_singleton_iff.mp hsent
    obtain ⟨m₁, hm₁, hdata⟩ := h.obtained 0 m (by rw [hm]; rfl)
    rw [hm'] at hm₁
    obtain rfl := Option.some.inj hm₁
    rw [hdata, hA] at ha
    exact absurd ha (by decide)

end UnixStudy.Smi
