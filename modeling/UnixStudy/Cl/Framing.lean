import UnixStudy.Cl.Lines

/-!
# When `getargs` takes one line at a time

On any bytes, a call of `getargs` should return, and take one line. There are two kinds of input for
which it does not. At the end of the input the loop that eats up the rest of a line has no `break`,
so an unfinished last line is never given up. And a line with a `NUL` ends, for `strchr`, in front
of it: the newline behind it is not seen, and what is eaten up is the next line, or an end of the
input. A line that does not fit in the buffer has no newline there in any case, so a `NUL` in it
does no harm.

## Main definitions

* `behindLine` : the input behind its first line.
* `Frames`, `KeepsFraming` : every call returns and takes one line, and the calls come to an end.
* `Framed` : the inputs on which this is so.

## Main results

* `keepsFraming_iff` : the inputs on which `getargs` keeps the framing.

## References

* `src/process/cl.c`, lines 57–81 and 167–181.
-/

namespace UnixStudy.Cl

open Shell (Byte Bytes nul newline)

/-- What is behind the newline of the first line; nothing, if there is no newline. -/
def behindLine (cs : Bytes) : Bytes := (cs.dropWhile (· != newline)).drop 1

/-- Every call returns, and takes one line. -/
def Frames (max argc : ℕ) (cs : Bytes) : Prop :=
  ∀ rs s, Run (Call max) (argc, cs) rs s →
    (∃ r s', Call max s r s') ∧ ∀ r s', Call max s r s' → s'.2 = behindLine s.2

/-- Every call returns and takes one line, and the end of the input is found after finitely many
calls. -/
def KeepsFraming (max argc : ℕ) (cs : Bytes) : Prop :=
  Frames max argc cs ∧
    ∃ n, ∀ rs s, Run (Call max) (argc, cs) rs s → rs.length = n → ∃ r ∈ rs, r.eof = true

/-- The last line is finished, and the lines that fit in the buffer have no `NUL`. -/
def Framed (cs : Bytes) : Prop := ∃ lines, cs = text lines ∧ ∀ line ∈ lines, Plain line

variable {max argc : ℕ} {cs line rest : Bytes}

theorem behindLine_append (hline : newline ∉ line) :
    behindLine (line ++ newline :: rest) = rest := by
  have hne : ∀ c ∈ line, (c != newline) = true := fun c hc =>
    bne_iff_ne.mpr fun h => hline (h ▸ hc)
  rw [behindLine, List.dropWhile_append_of_pos hne, List.dropWhile_cons_of_neg (by decide)]
  rfl

/-- On a framed input every call takes its line. -/
theorem frames_text {lines : List Bytes} (hlines : ∀ line ∈ lines, Plain line) :
    Frames max argc (text lines) := by
  intro rs s hrun
  have hs := run_text hlines hrun
  obtain ⟨argc', cs⟩ := s
  obtain rfl : cs = text (lines.drop rs.length) := hs
  have hdrop (line : Bytes) (hline : line ∈ lines.drop rs.length) : Plain line :=
    hlines line (List.mem_of_mem_drop hline)
  generalize lines.drop rs.length = lines at hdrop
  refine ⟨⟨_, _, (call_text_iff hdrop).mpr ⟨rfl, rfl⟩⟩, fun r s' hcall => ?_⟩
  obtain ⟨-, rfl⟩ := (call_text_iff hdrop).mp hcall
  cases lines with
  | nil => rfl
  | cons line lines =>
    rw [text_cons, behindLine_append (hdrop line List.mem_cons_self).1]
    rfl

/-- Behind the lines, the next call finds the end of the input. -/
theorem exists_eof {lines : List Bytes} (hlines : ∀ line ∈ lines, Plain line) {rs : List Result}
    {s : ℕ × Bytes} (hrun : Run (Call max) (argc, text lines) rs s)
    (hlength : rs.length = lines.length + 1) : ∃ r ∈ rs, r.eof = true := by
  cases hrun with
  | refl => exact absurd hlength (Nat.succ_ne_zero _).symm
  | tail hrun hcall =>
    rename_i rs r s
    rw [List.length_append, List.length_singleton, Nat.add_right_cancel_iff] at hlength
    have hs := run_text hlines hrun
    rw [hlength, List.drop_length] at hs
    obtain ⟨argc', cs⟩ := s
    obtain rfl : cs = [] := hs
    obtain ⟨rfl, -⟩ := call_nil_iff.mp hcall
    exact ⟨_, List.mem_append_right _ List.mem_cons_self, rfl⟩

/-- A call does not return on an unfinished line. -/
theorem not_call_of_not_mem (hne : cs ≠ []) (h : newline ∉ cs) {r : Result} {s' : ℕ × Bytes} :
    ¬ Call max (argc, cs) r s' := by
  have hfgets : fgets (MAXLINE - 1) cs = cs.take (MAXLINE - 1) :=
    fgets_of_not_mem fun hmem => h (List.mem_of_mem_take hmem)
  have htake : cs.take (MAXLINE - 1) ≠ [] := fun hnil =>
    (List.take_eq_nil_iff.mp hnil).elim (by decide) hne
  intro hcall
  rw [call_iff_of_not_mem (hfgets ▸ htake)] at hcall
  · obtain ⟨-, -, eaten, -, hdrop⟩ := hcall
    have hmem : newline ∈ eaten ++ newline :: s'.2 := List.mem_append_right _ List.mem_cons_self
    rw [← hdrop] at hmem
    exact h (List.mem_of_mem_drop hmem)
  · rw [hfgets]
    exact fun hmem => h (List.mem_of_mem_take (List.takeWhile_subset _ hmem))

/-- A call on a line that fits and has a `NUL` takes another newline. -/
theorem length_lt_of_nul (hline : newline ∉ line) (hfits : line.length ≤ MAXLINE - 2)
    (hnul : nul ∈ line) {r : Result} {s' : ℕ × Bytes}
    (hcall : Call max (argc, line ++ newline :: rest) r s') : s'.2.length < rest.length := by
  have hfgets : fgets (MAXLINE - 1) (line ++ newline :: rest) = line ++ [newline] :=
    fgets_of_lt hline (Nat.lt_succ_of_le hfits)
  have hcmd : newline ∉ (line ++ [newline]).takeWhile (· != nul) := by
    obtain ⟨before, behind, rfl, hbefore⟩ := List.eq_append_cons_of_mem hnul
    rw [List.append_assoc, List.takeWhile_append_of_pos fun c hc =>
      bne_iff_ne.mpr fun h : c = nul => hbefore (h ▸ hc), List.cons_append,
      List.takeWhile_cons_of_neg (by decide), List.append_nil]
    exact fun hmem => hline (List.mem_append_left _ hmem)
  rw [call_iff_of_not_mem, hfgets, List.append_cons line newline rest, List.drop_left] at hcall
  · obtain ⟨-, -, eaten, -, hdrop⟩ := hcall
    rw [hdrop, List.length_append]
    exact Nat.lt_of_lt_of_le (Nat.lt_succ_self _) (Nat.le_add_left _ _)
  · rw [hfgets]
    exact List.append_ne_nil_of_right_ne_nil _ (List.cons_ne_nil _ _)
  · rwa [hfgets]

/-- If every call takes one line, the input is framed. -/
theorem framed_of_frames (h : Frames max argc cs) : Framed cs := by
  induction hn : cs.length using Nat.strong_induction_on generalizing argc cs with
  | _ n ih =>
    obtain ⟨⟨r, s', hcall⟩, htakes⟩ := h [] (argc, cs) .refl
    by_cases hnil : cs = []
    · exact ⟨[], hnil, fun line hline => absurd hline List.not_mem_nil⟩
    by_cases hmem : newline ∈ cs
    · obtain ⟨line, rest, rfl, hline⟩ := List.eq_append_cons_of_mem hmem
      obtain ⟨argc', rest'⟩ := s'
      obtain rfl : rest' = rest := (htakes r _ hcall).trans (behindLine_append hline)
      have hplain : Plain line := by
        refine ⟨hline, fun hfits hnul => ?_⟩
        have hlt : rest'.length < rest'.length := length_lt_of_nul hline hfits hnul hcall
        exact Nat.lt_irrefl _ hlt
      have hrest : Frames max argc' rest' := fun rs s hrun => h (r :: rs) s (hrun.head hcall)
      have hlt : rest'.length < n := by
        rw [← hn, List.length_append]
        exact Nat.lt_of_lt_of_le (Nat.lt_succ_self _) (Nat.le_add_left _ _)
      obtain ⟨lines, rfl, hlines⟩ := ih rest'.length hlt hrest rfl
      refine ⟨line :: lines, (text_cons line lines).symm, ?_⟩
      exact List.forall_mem_cons.mpr ⟨hplain, hlines⟩
    · exact absurd hcall (not_call_of_not_mem hnil hmem)

/-- **When `getargs` keeps the framing**: if and only if the last line is finished, and the lines
that fit in the buffer have no `NUL`. -/
theorem keepsFraming_iff (max argc : ℕ) (cs : Bytes) : KeepsFraming max argc cs ↔ Framed cs := by
  constructor
  · exact fun h => framed_of_frames h.1
  · rintro ⟨lines, rfl, hlines⟩
    exact ⟨frames_text hlines, lines.length + 1, fun rs s hrun => exists_eof hlines hrun⟩

/-- **The unfinished line `a`** is never given up; and the first call on the line of a single `NUL`
takes the line `b` behind it. -/
theorem not_keepsFraming :
    (∀ r s', ¬ Call MAXARG (0, [97]) r s') ∧
      ¬ KeepsFraming MAXARG 0 [97] ∧
      (∃ r, Call MAXARG (0, [0, 10, 98, 10]) r (0, [])) ∧
      ¬ KeepsFraming MAXARG 0 [0, 10, 98, 10] := by
  have hstuck (r : Result) (s' : ℕ × Bytes) : ¬ Call MAXARG (0, [97]) r s' :=
    not_call_of_not_mem (by decide) (by decide)
  have hnul : Call MAXARG (0, [0, 10, 98, 10]) (tooLong 0) (0, []) := ⟨2, rfl, rfl⟩
  refine ⟨hstuck, fun h => ?_, ⟨_, hnul⟩, fun h => ?_⟩
  · obtain ⟨r, s', hcall⟩ := (h.1 [] _ .refl).1
    exact hstuck r s' hcall
  · exact absurd ((h.1 [] _ .refl).2 _ _ hnul) (by decide)

end UnixStudy.Cl
