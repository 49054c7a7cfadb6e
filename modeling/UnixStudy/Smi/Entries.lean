import Mathlib.Data.Finset.Card
import Mathlib.Data.Fintype.Card
import UnixStudy.Smi.Routing

/-!
# The entries of the server and the FIFOs that were opened for them

A descriptor in an entry of the table was opened on some FIFO, which is no longer to be seen from
its number. Beside the table we keep, for each entry, what its descriptor is open on, and a list of
all that has been opened, with the pids. As an entry with a descriptor is never given up, the list
has one FIFO for each entry with a descriptor, and for each pid at most one.

## Main definitions

* `Entries` : the table, the FIFOs of its descriptors and what has been opened belong together.

## Main results

* `Entries.find`, `Entries.setFd` : the server keeps this.
* `Entries.unique` : there is one FIFO for each pid.
* `Entries.find_isSome_iff` : when a client gets an entry.

## References

* `src/ad_comm/smi_server.c`, lines 52–67 and 200–210.
-/

namespace UnixStudy.Smi

/-- The entries with descriptors, what these are open on, and what has been opened for whom, belong
together; and nothing is opened twice for a pid. -/
structure Entries (clients : Clients) (slotFifo : Fin MAX_CLIENTS → Option ℕ)
    (served : List (Pid × ℕ)) : Prop where
  used : ∀ i, (clients i).cl_fd ≠ -1 → ∃ n, slotFifo i = some n ∧ ((clients i).cl_pid, n) ∈ served
  unused : ∀ i, (clients i).cl_fd = -1 → slotFifo i = none
  entry : ∀ e ∈ served, ∃ i, (clients i).cl_pid = e.1 ∧ slotFifo i = some e.2
  nodup : (served.map Prod.fst).Nodup

namespace Entries

variable {clients : Clients} {slotFifo : Fin MAX_CLIENTS → Option ℕ} {served : List (Pid × ℕ)}

/-- What has been opened is in an entry with a descriptor. -/
theorem exists_used (h : Entries clients slotFifo served) {e : Pid × ℕ} (he : e ∈ served) :
    ∃ i, (clients i).cl_fd ≠ -1 ∧ (clients i).cl_pid = e.1 ∧ slotFifo i = some e.2 := by
  obtain ⟨i, hpid, hfifo⟩ := h.entry e he
  exact ⟨i, fun hfd => Option.some_ne_none e.2 (hfifo.symm.trans (h.unused i hfd)), hpid, hfifo⟩

/-- What the descriptor of an entry is open on was opened for its client. -/
theorem mem_of_slotFifo (h : Entries clients slotFifo served) {i : Fin MAX_CLIENTS} {n : ℕ}
    (hn : slotFifo i = some n) : ((clients i).cl_pid, n) ∈ served := by
  have hi : (clients i).cl_fd ≠ -1 := fun hfd =>
    Option.some_ne_none n (hn.symm.trans (h.unused i hfd))
  obtain ⟨m, hm, hserved⟩ := h.used i hi
  obtain rfl := Option.some.inj (hm.symm.trans hn)
  exact hserved

/-- The search for a client. -/
theorem find (h : Entries clients slotFifo served) (pid : Pid) :
    Entries (clientsFind clients pid).2 slotFifo served where
  used i hi := by
    have hi' := mt (cl_fd_clientsFind i).mpr hi
    rw [clientsFind_of_ne hi']
    exact h.used i hi'
  unused i hi := h.unused i ((cl_fd_clientsFind i).mp hi)
  entry e he := by
    obtain ⟨i, hi, hpid, hfifo⟩ := h.exists_used he
    exact ⟨i, by rw [clientsFind_of_ne hi, hpid], hfifo⟩
  nodup := h.nodup

/-- A FIFO is opened for the first entry of a client. -/
theorem setFd (h : Entries clients slotFifo served) (hindexed : clients.table.Indexed) {pid : Pid}
    {i : Fin MAX_CLIENTS} (hfirst : clients.table.IsFirst pid i) (hi : (clients i).cl_fd = -1)
    (d n : ℕ) : Entries (Function.update clients i { clients i with cl_fd := d })
      (Function.update slotFifo i (some n)) (served ++ [(pid, n)]) where
  used j hj := by
    by_cases hji : j = i
    · subst hji
      have hpid : (clients j).cl_pid = pid := hfirst.1
      rw [Function.update_self, Function.update_self, hpid]
      exact ⟨n, rfl, List.mem_append_right _ List.mem_cons_self⟩
    · rw [Function.update_of_ne hji] at hj ⊢
      rw [Function.update_of_ne hji]
      obtain ⟨m, hm, hserved⟩ := h.used j hj
      exact ⟨m, hm, List.mem_append_left _ hserved⟩
  unused j hj := by
    by_cases hji : j = i
    · subst hji
      rw [Function.update_self] at hj
      exact absurd hj (by dsimp only; omega)
    · rw [Function.update_of_ne hji] at hj ⊢
      exact h.unused j hj
  entry e he := by
    rcases List.mem_append.mp he with he | he
    · obtain ⟨j, hj, hpid, hfifo⟩ := h.exists_used he
      have hji : j ≠ i := fun hji => hj (hji ▸ hi)
      exact ⟨j, by rw [Function.update_of_ne hji, hpid], by rw [Function.update_of_ne hji, hfifo]⟩
    · obtain rfl := List.mem_singleton.mp he
      exact ⟨i, by rw [Function.update_self]; exact hfirst.1, Function.update_self ..⟩
  nodup := by
    rw [List.map_append, List.nodup_append']
    refine ⟨h.nodup, List.nodup_singleton _, ?_⟩
    rw [List.map_singleton, List.disjoint_singleton]
    intro hmem
    obtain ⟨e, he, hpid⟩ := List.mem_map.mp hmem
    obtain ⟨j, hj, hjpid, -⟩ := h.exists_used he
    -- Another entry of the client with a descriptor would be the first one.
    have hkey : (clients.table j).key = pid := hjpid.trans hpid
    rcases lt_trichotomy i j with hlt | rfl | hlt
    · have hvalue := hindexed i j hlt (hfirst.1.trans hkey.symm)
      exact hj (Client.slot_value_eq_none.mp hvalue)
    · exact hj hi
    · exact hfirst.2 j hlt hkey

/-- One FIFO was opened for each entry with a descriptor. -/
theorem length_eq (h : Entries clients slotFifo served) (hindexed : clients.table.Indexed) :
    served.length = (Finset.univ.filter fun i => (clients i).cl_fd ≠ -1).card := by
  have hpids : (served.map Prod.fst).toFinset =
      (Finset.univ.filter fun i => (clients i).cl_fd ≠ -1).image fun i => (clients i).cl_pid := by
    ext pid
    simp only [List.mem_toFinset, List.mem_map, Finset.mem_image, Finset.mem_filter,
      Finset.mem_univ, true_and]
    constructor
    · rintro ⟨e, he, rfl⟩
      obtain ⟨i, hi, hpid, -⟩ := h.exists_used he
      exact ⟨i, hi, hpid⟩
    · rintro ⟨i, hi, rfl⟩
      obtain ⟨n, -, hn⟩ := h.used i hi
      exact ⟨_, hn, rfl⟩
  have hinj : Set.InjOn (fun i => (clients i).cl_pid)
      (Finset.univ.filter fun i => (clients i).cl_fd ≠ -1 : Finset (Fin MAX_CLIENTS)) := by
    intro i hi j hj hij
    have hi' := (Finset.mem_filter.mp (Finset.mem_coe.mp hi)).2
    have hj' := (Finset.mem_filter.mp (Finset.mem_coe.mp hj)).2
    exact hindexed.injective (Client.isSome_slot_value.mpr hi')
      (Client.isSome_slot_value.mpr hj') hij
  rw [← Finset.card_image_of_injOn hinj, ← hpids, List.toFinset_card_of_nodup h.nodup,
    List.length_map]

/-- **There is an entry without a descriptor** exactly if fewer than `MAX_CLIENTS` FIFOs have been
opened. -/
theorem length_lt_iff (h : Entries clients slotFifo served) (hindexed : clients.table.Indexed) :
    served.length < MAX_CLIENTS ↔ ∃ i, (clients i).cl_fd = -1 := by
  have hcard := Finset.card_lt_iff_ne_univ (Finset.univ.filter fun i => (clients i).cl_fd ≠ -1)
  rw [Fintype.card_fin] at hcard
  rw [h.length_eq hindexed, hcard, Ne, Finset.filter_eq_self]
  simp only [Finset.mem_univ, true_implies, not_forall, not_not]

/-- There is one FIFO for each pid. -/
theorem unique (h : Entries clients slotFifo served) {pid : Pid} {n m : ℕ}
    (hn : (pid, n) ∈ served) (hm : (pid, m) ∈ served) : n = m :=
  (Prod.mk.inj (List.inj_on_of_nodup_map h.nodup hn hm rfl)).2

/-- **A client gets an entry** exactly if its pid has one, or one has no descriptor. -/
theorem find_isSome_iff (h : Entries clients slotFifo served) (hindexed : clients.table.Indexed)
    (pid : Pid) : (∃ i, (clientsFind clients pid).1 = some i) ↔
      (∃ n, (pid, n) ∈ served) ∨ served.length < MAX_CLIENTS := by
  rw [h.length_lt_iff hindexed, ← Option.isSome_iff_exists, ← Option.ne_none_iff_isSome, Ne,
    clientsFind_eq_none_iff]
  constructor
  · intro hsome
    by_cases hfree : ∃ i, (clients i).cl_fd = -1
    · exact Or.inr hfree
    · have hused := not_exists.mp hfree
      obtain ⟨i, hi⟩ : ∃ i, (clients i).cl_pid = pid := by
        by_contra hpid
        exact hsome ⟨not_exists.mp hpid, hused⟩
      obtain ⟨n, -, hn⟩ := h.used i (hused i)
      exact Or.inl ⟨n, hi ▸ hn⟩
  · rintro (⟨n, hn⟩ | ⟨i, hi⟩) ⟨hpids, hused⟩
    · obtain ⟨i, hpid, -⟩ := h.entry _ hn
      exact hpids i hpid
    · exact hused i hi

end Entries

end UnixStudy.Smi
