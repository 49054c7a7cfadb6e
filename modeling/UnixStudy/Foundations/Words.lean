import Mathlib.Data.List.TakeWhile

/-!
# Words between delimiters

The words of a list are its maximal nonempty runs of elements that are no delimiters. A tokenizer
that skips delimiters, takes a word, and steps over the one delimiter behind it gives the words one
after the other.

## Main definitions

* `words` : the words of a list.
* `strtok` : the first word, and what is behind its delimiter.

## Main results

* `strtok_append`, `strtok_append_cons`, `strtok_of_forall` : what the tokenizer finds.
* `words_eq_nil_of_strtok`, `words_of_strtok` : the tokenizer gives the words in order.
-/

namespace UnixStudy

variable {α : Type*} {p q : α → Bool} {s w rest : List α} {c : α}

/-- The maximal nonempty runs of elements that are no delimiters. -/
def words (p : α → Bool) (s : List α) : List (List α) := (s.splitOnP p).filter (!·.isEmpty)

/-- The first word, and what is behind the delimiter that ends it. -/
def strtok (p : α → Bool) (s : List α) : Option (List α × List α) :=
  let s := s.dropWhile p
  if s.isEmpty then none else some (s.takeWhile (!p ·), (s.dropWhile (!p ·)).drop 1)

theorem words_cons_of_pos (hc : p c = true) : words p (c :: s) = words p s := by
  rw [words, List.splitOnP_cons_eq_if_modifyHead, if_pos hc]
  rfl

/-- The delimiters in front are no part of a word. -/
theorem words_dropWhile (p : α → Bool) (s : List α) : words p (s.dropWhile p) = words p s := by
  induction s with
  | nil => rfl
  | cons c s ih =>
    rw [List.dropWhile_cons]
    split_ifs with hc
    · rw [ih, words_cons_of_pos hc]
    · rfl

/-- A word with nothing behind it. -/
theorem words_of_forall (hw : ∀ c ∈ w, p c = false) (hne : w ≠ []) : words p w = [w] := by
  rw [words, List.splitOnP_eq_singleton hw]
  exact List.filter_cons_of_pos (by rwa [Bool.not_eq_true', List.isEmpty_eq_false_iff])

/-- A word with a delimiter behind it. -/
theorem words_append_cons (hw : ∀ c ∈ w, p c = false) (hne : w ≠ []) (hc : p c = true) :
    words p (w ++ c :: s) = w :: words p s := by
  rw [words, List.splitOnP_append_cons_of_forall_mem hw c hc]
  exact List.filter_cons_of_pos (by rwa [Bool.not_eq_true', List.isEmpty_eq_false_iff])

/-- A delimiter at the end ends no further word. -/
theorem words_append_singleton (s : List α) (hc : p c = true) : words p (s ++ [c]) = words p s := by
  rw [words, List.splitOnP_append_cons s [] hc, List.splitOnP_nil, List.filter_append]
  exact List.append_nil _

/-- Only the delimiters among the elements of the list matter. -/
theorem words_congr (h : ∀ c ∈ s, p c = q c) : words p s = words q s := by
  have hsplit : s.splitOnP p = s.splitOnP q := by
    induction s with
    | nil => rfl
    | cons c s ih =>
      rw [List.splitOnP_cons_eq_if_modifyHead, List.splitOnP_cons_eq_if_modifyHead,
        h c List.mem_cons_self, ih fun c hc => h c (List.mem_cons_of_mem _ hc)]
  rw [words, hsplit, words]

/-- The tokenizer skips the delimiters in front. -/
theorem strtok_append {ds : List α} (hds : ∀ c ∈ ds, p c = true) :
    strtok p (ds ++ s) = strtok p s := by
  rw [strtok, strtok, List.dropWhile_append_of_pos hds]

/-- The tokenizer finds a word with a delimiter behind it. -/
theorem strtok_append_cons (hw : ∀ c ∈ w, p c = false) (hne : w ≠ []) (hc : p c = true) :
    strtok p (w ++ c :: rest) = some (w, rest) := by
  obtain ⟨d, w, rfl⟩ := List.exists_cons_of_ne_nil hne
  have hd : ¬ p d = true := by rw [hw d List.mem_cons_self]; exact Bool.false_ne_true
  have hdrop : (d :: w ++ c :: rest).dropWhile p = d :: w ++ c :: rest :=
    List.dropWhile_cons_of_neg hd
  have hnot : ∀ c ∈ d :: w, (!p c) = true := fun c hc => by rw [hw c hc]; rfl
  rw [strtok, hdrop, List.takeWhile_append_of_pos hnot, List.dropWhile_append_of_pos hnot,
    List.takeWhile_cons_of_neg (by rw [hc]; exact Bool.false_ne_true),
    List.dropWhile_cons_of_neg (by rw [hc]; exact Bool.false_ne_true), List.append_nil]
  rfl

/-- The tokenizer finds a word with nothing behind it. -/
theorem strtok_of_forall (hw : ∀ c ∈ w, p c = false) (hne : w ≠ []) :
    strtok p w = some (w, []) := by
  obtain ⟨d, w, rfl⟩ := List.exists_cons_of_ne_nil hne
  have hd : ¬ p d = true := by rw [hw d List.mem_cons_self]; exact Bool.false_ne_true
  have hnot : ∀ c ∈ d :: w, (!p c) = true := fun c hc => by rw [hw c hc]; rfl
  rw [strtok, List.dropWhile_cons_of_neg hd, List.takeWhile_eq_self_iff.mpr hnot,
    List.dropWhile_eq_nil_iff.mpr hnot]
  rfl

/-- The tokenizer finds nothing if and only if there are only delimiters. -/
theorem strtok_eq_none_iff : strtok p s = none ↔ ∀ c ∈ s, p c = true := by
  rw [strtok, ← List.dropWhile_eq_nil_iff]
  split_ifs with hnil
  · exact iff_of_true rfl (List.isEmpty_iff.mp hnil)
  · exact iff_of_false id (mt List.isEmpty_iff.mpr hnil)

/-- If the tokenizer finds nothing, there is no word. -/
theorem words_eq_nil_of_strtok (h : strtok p s = none) : words p s = [] := by
  rw [← words_dropWhile]
  unfold strtok at h
  dsimp only at h
  split_ifs at h with hnil
  rw [List.isEmpty_iff.mp hnil]
  rfl

/-- If the tokenizer finds something, it is the first word, and the others are behind it. -/
theorem words_of_strtok (h : strtok p s = some (w, rest)) : words p s = w :: words p rest := by
  rw [← words_dropWhile]
  unfold strtok at h
  dsimp only at h
  split_ifs at h with hnil
  obtain ⟨rfl, rfl⟩ := Prod.mk.inj (Option.some.inj h)
  have hne : s.dropWhile p ≠ [] := mt List.isEmpty_iff.mpr hnil
  have hhead : p ((s.dropWhile p).head hne) = false := List.head_dropWhile_not p hne
  generalize s.dropWhile p = s at hne hhead
  have hw (c : α) (hc : c ∈ s.takeWhile (!p ·)) : p c = false := by
    simpa only [Bool.not_eq_true'] using List.mem_takeWhile_imp hc
  have hwne : s.takeWhile (!p ·) ≠ [] := by
    obtain ⟨c, s, rfl⟩ := List.exists_cons_of_ne_nil hne
    rw [List.takeWhile_cons_of_pos (by rwa [Bool.not_eq_true'])]
    exact List.cons_ne_nil _ _
  have hs : s.takeWhile (!p ·) ++ s.dropWhile (!p ·) = s := List.takeWhile_append_dropWhile
  rcases hdrop : s.dropWhile (!p ·) with _ | ⟨d, rest⟩
  · rw [hdrop, List.append_nil] at hs
    rw [hs] at hw hwne ⊢
    exact words_of_forall hw hwne
  · have hd : p d = true := by
      have := List.head_dropWhile_not (!p ·) (by rw [hdrop]; exact List.cons_ne_nil _ _)
      simpa [hdrop] using this
    rw [hdrop] at hs
    exact (congrArg (words p) hs.symm).trans (words_append_cons hw hwne hd)

end UnixStudy
