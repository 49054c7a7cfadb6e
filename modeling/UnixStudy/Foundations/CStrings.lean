import Mathlib.Algebra.Order.Ring.Int
import Mathlib.Data.List.Basic
import Mathlib.Data.List.TakeWhile

/-!
# Strings and sizes in C

A string is some characters other than NUL, and lies in memory with a NUL behind it. `snprintf`
writes as much of a text as an array holds, always with a NUL, and returns the length of the whole
text; `strcpy` writes the whole string, whatever the size of the array. A signed number is converted
to `size_t` modulo `2 ^ 64`.

## Main definitions

* `toSizeT` : the conversion to `size_t`.
* `CString` : a string.
* `snprintf`, `strcpy` : writing a text to an array, and a string to memory.

## Main results

* `lt_toSizeT_snprintf_iff` : the result, compared with a size.
* `snprintf_eq_iff` : when the array has the whole text.
* `eq_of_snprintf_eq` : a text that leaves room in the array is known from its contents.
* `strcpy_isPrefix_iff` : when the string is in an array with its NUL.
-/

namespace UnixStudy

/-! ### Sizes -/

/-- The conversion of a signed number to `size_t`, which has 64 bits. -/
def toSizeT (z : ℤ) : ℕ := (z % 2 ^ 64).toNat

theorem toSizeT_natCast {k : ℕ} (hk : k < 2 ^ 64) : toSizeT k = k := by
  rw [toSizeT]
  omega

/-! ### Strings -/

/-- A string: its characters, without the NUL behind them. -/
@[ext]
structure CString where
  chars : List UInt8
  noNul : 0 ∉ chars

instance : DecidableEq CString := fun _ _ => decidable_of_iff' _ CString.ext_iff

/-- The string that lies in memory: what is in front of the first NUL. -/
def CString.ofMemory (mem : List UInt8) : CString where
  chars := mem.takeWhile (· ≠ 0)
  noNul h := by simpa using List.mem_takeWhile_imp h

/-- `strcpy` to the beginning of a part of memory. -/
def strcpy (mem : List UInt8) (s : CString) : List UInt8 :=
  s.chars ++ 0 :: mem.drop (s.chars.length + 1)

variable {mem : List UInt8} {s : CString} {text text' : List UInt8} {size : ℕ}

/-- What was written is read. -/
theorem ofMemory_strcpy : CString.ofMemory (strcpy mem s) = s := by
  refine CString.ext ?_
  have hchars : ∀ c ∈ s.chars, decide (c ≠ 0) = true := fun c hc =>
    decide_eq_true fun h => s.noNul (h ▸ hc)
  refine (List.takeWhile_append_of_pos hchars).trans ?_
  rw [List.takeWhile_cons_of_neg (by decide), List.append_nil]

/-- **The string is in an array** with its NUL if and only if it is shorter than the array. -/
theorem strcpy_isPrefix_iff :
    s.chars ++ [0] <+: (strcpy mem s).take size ↔ s.chars.length < size := by
  have hfront : s.chars ++ [0] <+: strcpy mem s := ⟨mem.drop (s.chars.length + 1), by simp [strcpy]⟩
  constructor
  · intro h
    have hlength := h.length_le.trans (List.length_take_le _ _)
    rwa [List.length_append, List.length_singleton] at hlength
  · intro h
    rw [List.prefix_take_iff]
    exact ⟨hfront, by rwa [List.length_append, List.length_singleton]⟩

/-- `snprintf` of a text to an array of the given size: what it returns, and what it writes in front
of the NUL. It returns a negative number if the length of the text is not an `int`. -/
def snprintf (size : ℕ) (text : List UInt8) : ℤ × List UInt8 :=
  (if text.length < 2 ^ 31 then text.length else -1, text.take (size - 1))

/-- As a `size_t`, an error is larger than any size. -/
theorem lt_toSizeT_snprintf_iff {n : ℕ} (hn : n < 2 ^ 31) :
    n < toSizeT (snprintf size text).1 ↔ n < text.length := by
  rw [snprintf]
  dsimp only
  split_ifs with htext
  · rw [toSizeT_natCast (htext.trans (by decide))]
  · have herror : toSizeT (-1) = 2 ^ 64 - 1 := rfl
    omega

/-- **The array has the whole text** if and only if the text is shorter than the array. -/
theorem snprintf_eq_iff (hsize : 0 < size) :
    (snprintf size text).2 = text ↔ text.length < size := by
  constructor
  · intro h
    have hlength := (congrArg List.length h).symm.trans_le (List.length_take_le _ _)
    omega
  · intro h
    exact List.take_of_length_le (by omega)

/-- A text that leaves room in the array, beside the NUL, is known from what was written. -/
theorem eq_of_snprintf_eq (hlength : text.length < size - 1)
    (h : (snprintf size text).2 = (snprintf size text').2) : text = text' := by
  have hwhole : text.take (size - 1) = text := List.take_of_length_le hlength.le
  have htake : text = text'.take (size - 1) := hwhole.symm.trans h
  have hlength' : text'.length ≤ size - 1 := by
    by_contra hlt
    have heq := congrArg List.length htake
    rw [List.length_take] at heq
    omega
  exact htake.trans (List.take_of_length_le hlength')

end UnixStudy
