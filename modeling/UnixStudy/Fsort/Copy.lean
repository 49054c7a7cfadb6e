import UnixStudy.Foundations.CStrings
import UnixStudy.Foundations.Runs

/-!
# The copy loops of `fsort`

`fsort` copies a file to the program `sort`, and then what that program has written to its own
standard output. Both loops read into a buffer and write what was read. They end when `read` returns
0, and look at nothing else: when a call of `read` has failed, its result is passed to `write` as a
number of bytes, and when `write` accepts less than it was given, the rest is not written.

A turn of a loop is a call of `read` and, unless that returns 0, one of `write`.

## Main definitions

* `Copy`, `Copy.step` : the state of a loop, and a turn of it.
* `Loop` : the two loops.
* `Copy.CopiesRightly` : the loop ends in time, and loses nothing.

## Main results

* `Copy.turned` : what a turn does.
* `Copy.copiesRightly_iff` : when a loop copies rightly.
* `Copy.length_le`, `Copy.ended_eq_false` : a loop has an end if no call of `read` fails, and none
  if the file cannot be opened.

## References

* `src/communication/fsort.c`, lines 31–53.
-/

namespace UnixStudy.Fsort

/-- `sizeof(buf)`. -/
abbrev bufSize : ℕ := 512

/-- The calls of a turn return a number of bytes, or fail. -/
structure Turn where
  read : Option ℕ
  write : Option ℕ

/-- What a call returns. -/
def result : Option ℕ → ℤ
  | none => -1
  | some k => k

/-- What there is to read, unless the descriptor is `-1`; memory from the buffer on; whether the
loop has ended; the results of `read`, what was passed to `write` for the number of bytes, and the
results of `write`; the bytes that were read, and those that were accepted. -/
structure Copy where
  unread : Option (List UInt8)
  buf : ℕ → UInt8
  ended : Bool
  reads : List ℤ
  counts : List ℤ
  writes : List ℤ
  taken : List UInt8
  accepted : List UInt8

/-- `read` into the buffer. At the end of what there is to read, and only there, it returns 0. -/
def sysRead (unread : Option (List UInt8)) (buf : ℕ → UInt8) :
    Option ℕ → Option (ℤ × Option (List UInt8) × (ℕ → UInt8))
  | none => some (-1, unread, buf)
  | some k => do
    let bytes ← unread
    if k ≤ bufSize ∧ k ≤ bytes.length ∧ (k = 0 → bytes = []) then
      some (k, some (bytes.drop k), fun i => (bytes.take k)[i]?.getD (buf i))
    else none

/-- `write` from the buffer, with the bytes that it accepts. -/
def sysWrite (buf : ℕ → UInt8) (count : ℕ) : Option ℕ → Option (ℤ × List UInt8)
  | none => some (-1, [])
  | some w => if w ≤ count then some (w, (List.range w).map buf) else none

namespace Copy

/-- A turn of a loop. -/
def step (s : Copy) (t : Turn) : Option Copy :=
  if s.ended then none
  else do
    let (nread, unread, buf) ← sysRead s.unread s.buf t.read
    let s := { s with
      unread := unread, buf := buf, reads := s.reads ++ [nread]
      taken := s.taken ++ (List.range nread.toNat).map buf }
    if nread = 0 then some { s with ended := true }
    else do
      let (written, bytes) ← sysWrite s.buf (toSizeT nread) t.write
      some { s with
        counts := s.counts ++ [nread], writes := s.writes ++ [written]
        accepted := s.accepted ++ bytes }

/-- The turns of a loop. -/
abbrev Step (s : Copy) (t : Turn) (s' : Copy) : Prop := s.step t = some s'

end Copy

/-- The two loops: with the contents of the file, unless it cannot be opened, and with what the
program `sort` writes. -/
inductive Loop
  | fileToChild (datafile : Option (List UInt8))
  | childToStdout (output : List UInt8)

/-- What there is to read. -/
def Loop.input : Loop → Option (List UInt8)
  | .fileToChild datafile => datafile
  | .childToStdout output => some output

/-- The beginning of a loop, with what happens to be in memory. -/
def Loop.start (loop : Loop) (buf : ℕ → UInt8) : Copy :=
  ⟨loop.input, buf, false, [], [], [], [], []⟩

namespace Copy

/-- The loop ends with a call of `read` that fails or reports the end of the file; no negative
number is passed to `write`; and if no call fails, the bytes that were accepted are those that were
read, which are all when the loop has ended. -/
structure CopiesRightly (input : Option (List UInt8)) (s : Copy) : Prop where
  ends : ∀ as r bs, s.reads = as ++ r :: bs → r ≤ 0 → bs = [] ∧ s.ended
  nonneg : ∀ c ∈ s.counts, 0 ≤ c
  complete : (∀ r ∈ s.reads, 0 ≤ r) → (∀ w ∈ s.writes, 0 ≤ w) →
    s.accepted = s.taken ∧ (s.ended → input = some s.taken)

variable {s s' : Copy} {t : Turn} {turns : List Turn} {loop : Loop} {buf : ℕ → UInt8}

/-! ### A turn -/

/-- The beginning of the buffer is what was read. -/
theorem map_range_buf {bytes : List UInt8} {k w : ℕ} (hw : w ≤ k) (hk : k ≤ bytes.length) :
    (List.range w).map (fun i => (bytes.take k)[i]?.getD (buf i)) = bytes.take w := by
  refine List.ext_getElem ?_ fun i hi hi' => ?_
  · rw [List.length_map, List.length_range, List.length_take, Nat.min_eq_left (hw.trans hk)]
  · have hiw : i < w := by rwa [List.length_map, List.length_range] at hi
    have hik : i < (bytes.take k).length := by
      rw [List.length_take]
      omega
    rw [List.getElem_map, List.getElem_range, List.getElem?_eq_getElem hik, Option.getD_some,
      List.getElem_take, List.getElem_take]

/-- What a turn does. -/
inductive Turned (s : Copy) (t : Turn) : Copy → Prop
  | failed (bytes : List UInt8) (hread : t.read = none) :
      Turned s t { s with
        reads := s.reads ++ [-1], counts := s.counts ++ [-1]
        writes := s.writes ++ [result t.write], accepted := s.accepted ++ bytes }
  | endOfFile (buf : ℕ → UInt8) (hread : t.read = some 0) (hunread : s.unread = some []) :
      Turned s t { s with unread := some [], buf := buf, ended := true, reads := s.reads ++ [0] }
  | chunk (k : ℕ) (bytes : List UInt8) (buf : ℕ → UInt8) (hread : t.read = some k) (hk : k ≠ 0)
      (hunread : s.unread = some bytes) (hlength : k ≤ bytes.length) (hwrite : t.write.getD 0 ≤ k) :
      Turned s t { s with
        unread := some (bytes.drop k), buf := buf
        reads := s.reads ++ [(k : ℤ)], counts := s.counts ++ [(k : ℤ)]
        writes := s.writes ++ [result t.write]
        taken := s.taken ++ bytes.take k, accepted := s.accepted ++ bytes.take (t.write.getD 0) }

/-- What `write` returns and accepts. -/
theorem sysWrite_eq_some {count : ℕ} {r : Option ℕ} {written : ℤ} {bytes : List UInt8}
    (h : sysWrite buf count r = some (written, bytes)) :
    written = result r ∧ r.getD 0 ≤ count ∧ bytes = (List.range (r.getD 0)).map buf := by
  cases r with
  | none =>
    obtain ⟨rfl, rfl⟩ := Prod.mk.inj (Option.some.inj h)
    exact ⟨rfl, Nat.zero_le _, rfl⟩
  | some w =>
    dsimp only [sysWrite] at h
    split_ifs at h with hw
    obtain ⟨rfl, rfl⟩ := Prod.mk.inj (Option.some.inj h)
    exact ⟨rfl, hw, rfl⟩

theorem turned (hs : Step s t s') : s.ended = false ∧ Turned s t s' := by
  dsimp only [Step, step] at hs
  split_ifs at hs with hended
  refine ⟨Bool.eq_false_iff.mpr hended, ?_⟩
  obtain ⟨⟨nread, unread, buf⟩, hcall, hs⟩ := Option.bind_eq_some_iff.mp hs
  cases hread : t.read with
  | none =>
    rw [hread] at hcall
    obtain ⟨rfl, hrest⟩ := Prod.mk.inj (Option.some.inj hcall)
    obtain ⟨rfl, rfl⟩ := Prod.mk.inj hrest
    dsimp only at hs
    rw [if_neg (by decide)] at hs
    obtain ⟨⟨written, bytes⟩, hwrite, hs⟩ := Option.bind_eq_some_iff.mp hs
    obtain ⟨rfl, -, -⟩ := sysWrite_eq_some hwrite
    obtain rfl := Option.some.inj hs
    have htaken : s.taken ++ (List.range (-1 : ℤ).toNat).map s.buf = s.taken := List.append_nil _
    rw [htaken]
    exact .failed bytes hread
  | some k =>
    rw [hread] at hcall
    obtain ⟨bytes, hunread, hcall⟩ := Option.bind_eq_some_iff.mp hcall
    split_ifs at hcall with hk
    obtain ⟨hsize, hlength, hempty⟩ := hk
    obtain ⟨rfl, hrest⟩ := Prod.mk.inj (Option.some.inj hcall)
    obtain ⟨rfl, rfl⟩ := Prod.mk.inj hrest
    dsimp only at hs
    rw [Int.toNat_natCast, map_range_buf le_rfl hlength] at hs
    by_cases hzero : k = 0
    · subst hzero
      obtain rfl := hempty rfl
      rw [if_pos Int.natCast_zero, List.take_zero, List.append_nil] at hs
      obtain rfl := Option.some.inj hs
      exact .endOfFile _ hread hunread
    · have hcount : k < 2 ^ 64 := hsize.trans_lt (by decide)
      rw [if_neg (Int.natCast_ne_zero.mpr hzero), toSizeT_natCast hcount] at hs
      obtain ⟨⟨written, accepted⟩, hwrite, hs⟩ := Option.bind_eq_some_iff.mp hs
      obtain ⟨rfl, hw, rfl⟩ := sysWrite_eq_some hwrite
      rw [map_range_buf hw hlength] at hs
      obtain rfl := Option.some.inj hs
      exact .chunk k bytes _ hread hzero hunread hlength hw

/-! ### A run -/

theorem result_nonneg_iff {r : Option ℕ} : 0 ≤ result r ↔ r ≠ none := by
  cases r with
  | none => simp [result]
  | some k => simp [result]

/-- The results of the calls. -/
structure Follows (turns : List Turn) (s : Copy) : Prop where
  reads : s.reads = turns.map (result ·.read)
  counts : s.counts = s.reads.filter (· ≠ 0)
  writes : s.writes = (turns.filter (·.read ≠ some 0)).map (result ·.write)

theorem follows (hrun : Run Step (loop.start buf) turns s) : s.Follows turns := by
  induction hrun with
  | refl => exact ⟨rfl, rfl, rfl⟩
  | tail hrun hs ih =>
    cases (turned hs).2 with
    | failed bytes hread =>
      exact ⟨by simp [ih.reads, hread, result], by simp [ih.counts], by simp [ih.writes, hread]⟩
    | endOfFile buf hread hunread =>
      exact ⟨by simp [ih.reads, hread, result], by simp [ih.counts], by simp [ih.writes, hread]⟩
    | chunk k bytes buf hread hk hunread hlength hwrite =>
      exact ⟨by simp [ih.reads, hread, result], by simp [ih.counts, hk],
        by simp [ih.writes, hread, hk]⟩

/-- What there is to read is what was read with what is left. -/
theorem input_eq (hrun : Run Step (loop.start buf) turns s) :
    loop.input = s.unread.map (s.taken ++ ·) ∧ (s.ended → s.unread = some []) := by
  induction hrun with
  | refl =>
    have hmap (input : Option (List UInt8)) : input = input.map ([] ++ ·) := by
      cases input <;> rfl
    exact ⟨hmap loop.input, fun h => Bool.noConfusion h⟩
  | tail hrun hs ih =>
    obtain ⟨hended, hturned⟩ := turned hs
    cases hturned with
    | failed bytes hread => exact ih
    | endOfFile buf hread hunread =>
      refine ⟨ih.1.trans ?_, fun _ => rfl⟩
      rw [hunread]
    | chunk k bytes buf hread hk hunread hlength hwrite =>
      refine ⟨ih.1.trans ?_, fun h => absurd h (Bool.eq_false_iff.mp hended)⟩
      rw [hunread, Option.map_some, Option.map_some, List.append_assoc, List.take_append_drop]

/-- Where no call of `read` fails, the loop ends with the one that returns 0. -/
theorem ends_of_forall (hrun : Run Step (loop.start buf) turns s)
    (hread : ∀ t ∈ turns, t.read ≠ none) :
    ∀ as r bs, s.reads = as ++ r :: bs → r ≤ 0 → bs = [] ∧ s.ended := by
  induction hrun with
  | refl => exact fun as r bs h => absurd h nil_ne_append_cons
  | @tail turns t s s' hrun hs ih =>
    obtain ⟨hended, hturned⟩ := turned hs
    obtain ⟨hfront, hlast⟩ := List.forall_mem_append.mp hread
    have hbefore : ∀ as r bs, s.reads = as ++ r :: bs → ¬ r ≤ 0 := fun as r bs h hr =>
      absurd (ih hfront as r bs h hr).2 (Bool.eq_false_iff.mp hended)
    cases hturned with
    | failed bytes hnone => exact absurd hnone (hlast t List.mem_cons_self)
    | endOfFile buf hzero hunread =>
      exact forall_split_append_singleton.mpr
        ⟨fun as r bs h hr => absurd hr (hbefore as r bs h), fun _ => ⟨rfl, rfl⟩⟩
    | chunk k bytes buf hsome hk hunread hlength hwrite =>
      exact forall_split_append_singleton.mpr
        ⟨fun as r bs h hr => absurd hr (hbefore as r bs h), fun hr => absurd hr (by omega)⟩

/-- Two beginnings of one list, behind two others of which the first is not longer. -/
theorem append_take_eq_iff {as bs xs : List UInt8} {w k : ℕ} (hlength : as.length ≤ bs.length)
    (hw : w ≤ k) (hk : k ≤ xs.length) :
    as ++ xs.take w = bs ++ xs.take k ↔ as = bs ∧ w = k := by
  refine ⟨fun h => ?_, fun ⟨has, hw⟩ => by rw [has, hw]⟩
  have heq := congrArg List.length h
  simp only [List.length_append, List.length_take, Nat.min_eq_left hk,
    Nat.min_eq_left (hw.trans hk)] at heq
  exact ⟨(List.append_inj h (by omega)).1, by omega⟩

/-- Where no call of `read` fails, the bytes that were read are accepted if and only if each call of
`write` accepts all. -/
theorem accepted_eq_iff (hrun : Run Step (loop.start buf) turns s)
    (hread : ∀ t ∈ turns, t.read ≠ none) : s.accepted.length ≤ s.taken.length ∧
      (s.accepted = s.taken ↔ ∀ t ∈ turns, t.read = some 0 ∨ t.write = t.read) := by
  induction hrun with
  | refl => exact ⟨le_rfl, iff_of_true rfl fun t ht => absurd ht List.not_mem_nil⟩
  | @tail turns t s s' hrun hs ih =>
    obtain ⟨hfront, hlast⟩ := List.forall_mem_append.mp hread
    obtain ⟨hle, hiff⟩ := ih hfront
    rw [List.forall_mem_append, List.forall_mem_singleton]
    cases (turned hs).2 with
    | failed bytes hnone => exact absurd hnone (hlast t List.mem_cons_self)
    | endOfFile buf hzero hunread =>
      exact ⟨hle, hiff.trans (and_iff_left (.inl hzero)).symm⟩
    | chunk k bytes buf hsome hk hunread hlength hwrite =>
      refine ⟨?_, ?_⟩
      · simp only [List.length_append, List.length_take]
        omega
      · dsimp only
        rw [append_take_eq_iff hle hwrite hlength, hiff, hsome]
        refine and_congr_right fun _ => ?_
        cases t.write <;> simp [hk, hk.symm]

/-- The results of `read` that are not negative. -/
theorem reads_nonneg_iff (hrun : Run Step (loop.start buf) turns s) :
    (∀ r ∈ s.reads, 0 ≤ r) ↔ ∀ t ∈ turns, t.read ≠ none := by
  rw [(follows hrun).reads, List.forall_mem_map]
  simp only [result_nonneg_iff]

/-- A call of `read` that fails, and none else, has its result passed to `write` and is negative. -/
theorem counts_nonneg_iff (hrun : Run Step (loop.start buf) turns s) :
    (∀ c ∈ s.counts, 0 ≤ c) ↔ ∀ t ∈ turns, t.read ≠ none := by
  rw [← reads_nonneg_iff hrun, (follows hrun).counts]
  refine ⟨fun h r hr => ?_, fun h r hr => h r (List.mem_of_mem_filter hr)⟩
  by_cases hzero : r = 0
  · exact Int.le_of_eq hzero.symm
  · exact h r (List.mem_filter.mpr ⟨hr, decide_eq_true hzero⟩)

/-- The results of `write` that are not negative. -/
theorem writes_nonneg_iff (hrun : Run Step (loop.start buf) turns s) :
    (∀ w ∈ s.writes, 0 ≤ w) ↔ ¬ ∃ t ∈ turns, t.read ≠ some 0 ∧ t.write = none := by
  rw [(follows hrun).writes, List.forall_mem_map]
  simp only [result_nonneg_iff, List.mem_filter, decide_eq_true_eq, not_exists, not_and, and_imp]

/-- **When a loop copies rightly**: if and only if no call of `read` fails, and each call of `write`
accepts all it is given, or one of them fails. -/
theorem copiesRightly_iff (hrun : Run Step (loop.start buf) turns s) :
    s.CopiesRightly loop.input ↔ (∀ t ∈ turns, t.read ≠ none) ∧
      ((∃ t ∈ turns, t.read ≠ some 0 ∧ t.write = none) ∨
        ∀ t ∈ turns, t.read = some 0 ∨ t.write = t.read) := by
  constructor
  · intro h
    have hread := (counts_nonneg_iff hrun).mp h.nonneg
    refine ⟨hread, or_iff_not_imp_left.mpr fun hwrite => ?_⟩
    have hcomplete :=
      h.complete ((reads_nonneg_iff hrun).mpr hread) ((writes_nonneg_iff hrun).mpr hwrite)
    exact (accepted_eq_iff hrun hread).2.mp hcomplete.1
  · rintro ⟨hread, hwrite⟩
    refine ⟨ends_of_forall hrun hread, (counts_nonneg_iff hrun).mpr hread, fun _ hwrites => ?_⟩
    have hall := hwrite.resolve_left ((writes_nonneg_iff hrun).mp hwrites)
    obtain ⟨hinput, hend⟩ := input_eq hrun
    refine ⟨(accepted_eq_iff hrun hread).2.mpr hall, fun hended => ?_⟩
    rw [hinput, hend hended, Option.map_some, List.append_nil]

/-- The file cannot be opened. -/
def unopened : List Turn := [⟨none, none⟩, ⟨none, none⟩]

/-- The file has two bytes, of which one is accepted. -/
def short : List Turn := [⟨some 2, some 1⟩, ⟨some 0, none⟩]

theorem exists_unopened : ∃ s, Run Step ((Loop.fileToChild none).start fun _ => 0) unopened s ∧
    s.counts = [-1, -1] ∧ s.ended = false := by
  have hrun : (unopened.foldlM step ((Loop.fileToChild none).start fun _ => 0)).map
      (fun s => (s.counts, s.ended)) = some ([-1, -1], false) := rfl
  obtain ⟨s, hs, hshows⟩ := Option.map_eq_some_iff.mp hrun
  exact ⟨s, .of_foldlM hs, Prod.mk.inj hshows⟩

theorem exists_short : ∃ s, Run Step ((Loop.fileToChild (some [65, 66])).start fun _ => 0) short s ∧
    s.reads = [2, 0] ∧ s.writes = [1] ∧ s.taken = [65, 66] ∧ s.accepted = [65] := by
  have hrun : (short.foldlM step ((Loop.fileToChild (some [65, 66])).start fun _ => 0)).map
      (fun s => (s.reads, s.writes, s.taken, s.accepted)) =
        some ([2, 0], [1], [65, 66], [65]) := rfl
  obtain ⟨s, hs, hshows⟩ := Option.map_eq_some_iff.mp hrun
  simp only [Prod.mk.injEq] at hshows
  exact ⟨s, .of_foldlM hs, hshows⟩

/-- When the file cannot be opened, `-1` is passed to `write` in every turn, and there is another
turn; when `write` accepts one byte of two, the other one is lost. -/
theorem not_copiesRightly :
    (∃ s, Run Step ((Loop.fileToChild none).start fun _ => 0) unopened s ∧
      s.counts = [-1, -1] ∧ s.ended = false ∧ ¬ s.CopiesRightly none) ∧
    ∃ s, Run Step ((Loop.fileToChild (some [65, 66])).start fun _ => 0) short s ∧
      s.taken = [65, 66] ∧ s.accepted = [65] ∧ ¬ s.CopiesRightly (some [65, 66]) := by
  constructor
  · obtain ⟨s, hrun, hcounts, hended⟩ := exists_unopened
    refine ⟨s, hrun, hcounts, hended, fun h => ?_⟩
    exact absurd (h.nonneg (-1) (hcounts ▸ List.mem_cons_self)) (by decide)
  · obtain ⟨s, hrun, hreads, hwrites, htaken, haccepted⟩ := exists_short
    refine ⟨s, hrun, htaken, haccepted, fun h => ?_⟩
    have hcomplete := (h.complete (by rw [hreads]; decide) (by rw [hwrites]; decide)).1
    rw [htaken, haccepted] at hcomplete
    exact absurd hcomplete (by decide)

theorem copiesRightly_iff_short : ∃ s,
    Run Step ((Loop.fileToChild (some [65, 66])).start fun _ => 0) short s ∧
      (s.CopiesRightly (some [65, 66]) ↔ (∀ t ∈ short, t.read ≠ none) ∧
        ((∃ t ∈ short, t.read ≠ some 0 ∧ t.write = none) ∨
          ∀ t ∈ short, t.read = some 0 ∨ t.write = t.read)) := by
  obtain ⟨s, hrun, -⟩ := exists_short
  exact ⟨s, hrun, copiesRightly_iff hrun⟩

/-! ### The end -/

/-- Every turn of which the call of `read` does not fail takes a byte, or is the last one. -/
theorem length_turns_le (hrun : Run Step (loop.start buf) turns s)
    (hread : ∀ t ∈ turns, t.read ≠ none) :
    turns.length ≤ s.taken.length + if s.ended then 1 else 0 := by
  induction hrun with
  | refl => exact Nat.zero_le _
  | @tail turns t s s' hrun hs ih =>
    obtain ⟨hfront, hlast⟩ := List.forall_mem_append.mp hread
    obtain ⟨hended, hturned⟩ := turned hs
    have hle := ih hfront
    rw [hended, if_neg Bool.false_ne_true] at hle
    rw [List.length_append, List.length_singleton]
    cases hturned with
    | failed bytes hnone => exact absurd hnone (hlast t List.mem_cons_self)
    | endOfFile buf hzero hunread => exact Nat.succ_le_succ hle
    | chunk k bytes buf hsome hk hunread hlength hwrite =>
      simp only [List.length_append, List.length_take, Nat.min_eq_left hlength]
      omega

/-- **A loop has an end** if no call of `read` fails: it has at most one turn more than there are
bytes to read. -/
theorem length_le (hrun : Run Step (loop.start buf) turns s) {bytes : List UInt8}
    (hinput : loop.input = some bytes) (hread : ∀ t ∈ turns, t.read ≠ none) :
    turns.length ≤ bytes.length + 1 := by
  have hle := length_turns_le hrun hread
  obtain ⟨hbytes, -⟩ := input_eq hrun
  obtain ⟨rest, -, hrest⟩ := Option.map_eq_some_iff.mp (hbytes.symm.trans hinput)
  have hlength := congrArg List.length hrest
  rw [List.length_append] at hlength
  have hone : (if s.ended then 1 else 0) ≤ 1 := by split_ifs <;> decide
  omega

/-- **A loop has no end** if the file cannot be opened. -/
theorem ended_eq_false (hrun : Run Step (loop.start buf) turns s) (hinput : loop.input = none) :
    s.ended = false := by
  refine Bool.eq_false_iff.mpr fun hended => ?_
  obtain ⟨hbytes, hend⟩ := input_eq hrun
  rw [hinput, hend hended] at hbytes
  exact Option.some_ne_none _ hbytes.symm

end Copy

end UnixStudy.Fsort
