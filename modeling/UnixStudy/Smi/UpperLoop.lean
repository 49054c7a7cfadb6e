import UnixStudy.FifoApp.Programs
import UnixStudy.Foundations.ScanLoop

/-!
# How far the loops over the data go

The two servers make a message upper case in a loop that stops at a `NUL`. Whoever may write to
their FIFOs can send a message without one. The loop then goes on behind the message, with what is
in memory there; the header is in front of the data, so it stays as it is in any case. The loop
stays in the message if and only if the data have a `NUL`, and it then leaves what the server model
has as its answer.

## Main definitions

* `memory` : the memory from a message on.
* `SmiMsg.upperLoop`, `SimpleMessage.upperLoop` : the loops of the two servers.

## Main results

* `SmiMsg.ended_upperLoop`, `SimpleMessage.ended_upperLoop` : what the loops leave.
* `upperLoops_stayInside_iff` : when the loops stay in the message.

## References

* `src/ad_comm/smi_server.c`, lines 96–103 and 249–259.
* `src/ad_comm/fifo_app.c`, lines 26–46, and `src/ad_comm/fifo_header.h`.
-/

namespace UnixStudy

open Smi (Bytes nul toupper upperData length_upperData leBytes length_leBytes HEADER_SIZE
  DATA_SIZE MSG_SIZE SmiMsg)
open FifoApp (SM_DATA_SIZE SimpleMessage)

/-- The memory from a message on, with whatever is behind it. -/
def memory (b : Bytes) (behind : ℕ → UInt8) (a : ℕ) : UInt8 := b[a]?.getD (behind (a - b.length))

/-- The loop of `main` over `smi_data`, and the `NUL` that is written behind it. The messages that
are received and sent are the same buffer. -/
def Smi.SmiMsg.upperLoop (m : SmiMsg) (behind : ℕ → UInt8) : ℕ → ScanLoop UInt8 :=
  .run nul toupper true HEADER_SIZE (memory m.bytes behind)

/-- `sizeof(pid_t)`. -/
abbrev PID_SIZE : ℕ := 4

/-- The bytes of a message: the pid, and the data. -/
def FifoApp.SimpleMessage.bytes (m : SimpleMessage) : Bytes :=
  leBytes PID_SIZE m.sm_clientpid.toUInt32.toNat ++ m.sm_data

/-- The loop of `main` over `sm_data`. -/
def FifoApp.SimpleMessage.upperLoop (m : SimpleMessage) (behind : ℕ → UInt8) : ℕ → ScanLoop UInt8 :=
  .run nul toupper false PID_SIZE (memory m.bytes behind)

section Loop

variable {b : Bytes} {behind : ℕ → UInt8} {base size : ℕ}

/-- There is a `NUL` in memory, as far as the message goes, if and only if its data have one. -/
theorem exists_memory_iff (h : b.length = base + size) :
    (∃ n < size, memory b behind (base + n) = nul) ↔ nul ∈ b.drop base := by
  have hget {n : ℕ} (hn : n < size) : b[base + n]? = some (memory b behind (base + n)) := by
    have hlt : base + n < b.length := h ▸ Nat.add_lt_add_left hn base
    rw [memory, List.getElem?_eq_getElem hlt, Option.getD_some]
  rw [List.mem_iff_getElem?]
  constructor
  · rintro ⟨n, hn, hnul⟩
    exact ⟨n, by rw [List.getElem?_drop, hget hn, hnul]⟩
  · rintro ⟨n, hnul⟩
    rw [List.getElem?_drop] at hnul
    obtain ⟨hlt, -⟩ := List.getElem?_eq_some_iff.mp hnul
    have hn : n < size := Nat.lt_of_add_lt_add_left (h ▸ hlt)
    exact ⟨n, hn, Option.some.inj ((hget hn).symm.trans hnul)⟩

/-- What is in front of the first `NUL` is made upper case. -/
theorem getElem?_upperData {n : ℕ} (h : ∀ j < n, b[j]? ≠ some nul) (hn : b[n]? = some nul) (j : ℕ) :
    (upperData b)[j]? = if j < n then b[j]?.map toupper else b[j]? := by
  induction b generalizing n j with
  | nil => exact absurd hn (Option.some_ne_none _).symm
  | cons c cs ih =>
    rw [upperData]
    cases n with
    | zero =>
      rw [if_pos (Option.some.inj hn), if_neg (Nat.not_lt_zero j)]
    | succ n =>
      have hc : ¬ c = nul := fun hc => h 0 (Nat.succ_pos n) (congrArg some hc)
      rw [if_neg hc]
      cases j with
      | zero => rw [if_pos (Nat.succ_pos n)]; rfl
      | succ j =>
        rw [List.getElem?_cons_succ, List.getElem?_cons_succ,
          ih (fun j hj => h (j + 1) (Nat.succ_lt_succ hj)) hn,
          if_congr Nat.succ_lt_succ_iff rfl rfl]

/-- The memory when the data in front of the first `NUL` are replaced. -/
theorem replaced_memory {n : ℕ} (hlt : base + n < b.length)
    (h : ∀ j < n, memory b behind (base + j) ≠ nul) (hn : memory b behind (base + n) = nul) :
    ScanLoop.replaced toupper base (memory b behind) n =
      memory (b.take base ++ upperData (b.drop base)) behind := by
  have hget {a : ℕ} (ha : a < b.length) : b[a]? = some (memory b behind a) := by
    rw [memory, List.getElem?_eq_getElem ha, Option.getD_some]
  have htake : (b.take base).length = base :=
    List.length_take_of_le ((Nat.le_add_right _ _).trans hlt.le)
  have hlength : (b.take base ++ upperData (b.drop base)).length = b.length := by
    rw [List.length_append, length_upperData, ← List.length_append, List.take_append_drop]
  have hupper := getElem?_upperData (b := b.drop base) (n := n)
    (fun j hj hnul => by
      rw [List.getElem?_drop, hget ((Nat.add_lt_add_left hj base).trans hlt)] at hnul
      exact h j hj (Option.some.inj hnul))
    (by rw [List.getElem?_drop, hget hlt, hn])
  funext a
  rw [memory, hlength, List.getElem?_append, htake]
  by_cases ha : a < base
  · rw [if_pos ha, List.getElem?_take, if_pos ha]
    exact if_neg fun h => Nat.not_lt.mpr h.1 ha
  · have hle : base ≤ a := Nat.le_of_not_lt ha
    rw [if_neg ha, hupper, List.getElem?_drop, Nat.add_sub_cancel' hle]
    by_cases hlow : a < base + n
    · have hsub : a - base < n := Nat.sub_lt_left_of_lt_add hle hlow
      rw [if_pos hsub, hget (hlow.trans hlt)]
      exact if_pos ⟨hle, hlow⟩
    · have hsub : ¬ a - base < n := fun h => hlow (by omega)
      rw [if_neg hsub]
      exact if_neg fun h => hlow h.2

/-- **What the loop leaves**, if the data have a `NUL`. -/
theorem ended_run (behind : ℕ → UInt8) (closes : Bool) (h : b.length = base + size)
    (hnul : nul ∈ b.drop base) :
    ∃ k, (ScanLoop.run nul toupper closes base (memory b behind) k).ended = true ∧
      (ScanLoop.run nul toupper closes base (memory b behind) k).mem =
        memory (b.take base ++ upperData (b.drop base)) behind := by
  obtain ⟨n, hn, hmark⟩ := (exists_memory_iff h).mpr hnul
  have hex : ∃ n, memory b behind (base + n) = nul := ⟨n, hmark⟩
  have hfirst : ∀ j < Nat.find hex, memory b behind (base + j) ≠ nul :=
    fun j hj => Nat.find_min hex hj
  have hlt : base + Nat.find hex < b.length :=
    h ▸ Nat.add_lt_add_left ((Nat.find_min' hex hmark).trans_lt hn) base
  refine ⟨Nat.find hex + 1, ?_⟩
  rw [ScanLoop.run_of_first hfirst (Nat.find_spec hex) (Nat.lt_succ_self _)]
  exact ⟨rfl, replaced_memory hlt hfirst (Nat.find_spec hex)⟩

end Loop

/-! ### The two servers -/

variable {behind : ℕ → UInt8}

theorem FifoApp.SimpleMessage.length_bytes (m : SimpleMessage) :
    m.bytes.length = PID_SIZE + SM_DATA_SIZE := by
  rw [bytes, List.length_append, length_leBytes, m.size]

theorem FifoApp.SimpleMessage.drop_bytes (m : SimpleMessage) : m.bytes.drop PID_SIZE = m.sm_data :=
  List.drop_left' (length_leBytes ..)

/-- The loop leaves the answer that the server sends. -/
theorem Smi.SmiMsg.ended_upperLoop {m a : SmiMsg} (h : m.toUpper = some a) (behind : ℕ → UInt8) :
    ∃ k, (m.upperLoop behind k).ended = true ∧
      (m.upperLoop behind k).mem = memory a.bytes behind := by
  rw [toUpper] at h
  split_ifs at h with hnul
  obtain rfl := Option.some.inj h
  exact ended_run behind true (m.size.trans (Nat.add_comm _ _)) hnul

/-- The loop leaves the answer that the server sends. -/
theorem FifoApp.SimpleMessage.ended_upperLoop {m a : SimpleMessage} (h : m.toUpper = some a)
    (behind : ℕ → UInt8) : ∃ k, (m.upperLoop behind k).ended = true ∧
      (m.upperLoop behind k).mem = memory a.bytes behind := by
  rw [toUpper] at h
  split_ifs at h with hnul
  obtain rfl := Option.some.inj h
  have hended := ended_run behind false m.length_bytes (m.drop_bytes ▸ hnul)
  rw [m.drop_bytes, bytes, List.take_left' (length_leBytes ..)] at hended
  exact hended

/-- **When the loops stay in the message**: if and only if the data have a `NUL`, whatever is in
memory behind the message. -/
theorem upperLoops_stayInside_iff (m : SmiMsg) (m' : SimpleMessage) (behind : ℕ → UInt8) :
    (ScanLoop.StaysInside DATA_SIZE HEADER_SIZE (m.upperLoop behind) ↔ nul ∈ m.smi_data) ∧
      (ScanLoop.StaysInside SM_DATA_SIZE PID_SIZE (m'.upperLoop behind) ↔ nul ∈ m'.sm_data) := by
  constructor
  · exact ScanLoop.staysInside_iff.trans (exists_memory_iff (m.size.trans (Nat.add_comm _ _)))
  · refine ScanLoop.staysInside_iff.trans ((exists_memory_iff m'.length_bytes).trans ?_)
    rw [m'.drop_bytes]

/-- **A message full of letters** makes both loops leave it. -/
theorem not_upperLoops_stayInside :
    (∃ m : SmiMsg, m.bytes = List.replicate MSG_SIZE 97 ∧ ∀ behind,
      ¬ ScanLoop.StaysInside DATA_SIZE HEADER_SIZE (m.upperLoop behind)) ∧
    ∃ m : SimpleMessage, m.sm_data = List.replicate SM_DATA_SIZE 97 ∧ ∀ behind,
      ¬ ScanLoop.StaysInside SM_DATA_SIZE PID_SIZE (m.upperLoop behind) := by
  have hne (n : ℕ) : nul ∉ List.replicate n 97 := fun h =>
    absurd (List.eq_of_mem_replicate h) (by decide)
  refine ⟨⟨⟨List.replicate MSG_SIZE 97, List.length_replicate⟩, rfl, fun behind h => ?_⟩,
    ⟨0, List.replicate SM_DATA_SIZE 97, List.length_replicate⟩, rfl, fun behind h => ?_⟩
  · have hnul := (exists_memory_iff List.length_replicate).mp (ScanLoop.staysInside_iff.mp h)
    exact hne _ (List.mem_of_mem_drop hnul)
  · have hmem := ScanLoop.staysInside_iff.mp h
    have hnul := (exists_memory_iff (SimpleMessage.length_bytes _)).mp hmem
    rw [SimpleMessage.drop_bytes] at hnul
    exact hne _ hnul

end UnixStudy
