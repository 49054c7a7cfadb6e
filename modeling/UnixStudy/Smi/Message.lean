import Mathlib.Data.List.Basic
import Mathlib.Data.Nat.Digits.Lemmas

/-!
# Messages of the simple messaging interface

A message is a fixed number of bytes: a header of three `long`s, the type of the message and the two
numbers that identify a client, and then the data. The server keeps one message buffer. What it
reads is written over the start of the buffer, and its answer is made in place.

## Main definitions

* `ClientId`, `SmiMsg` : the structures of `smi.h`.
* `SmiMsg.smi_client`, `SmiMsg.smi_data` : their parts.
* `SmiMsg.overwrite`, `SmiMsg.toUpper` : what the server does to a message.
* `SmiMsg.setPid` : what a client does to a message.
* `makeFifoNameClient` : the name of the FIFO of a client.

## Main results

* `makeFifoNameClient_injective` : different clients have FIFOs with different names.
* `SmiMsg.pid_setPid` : a message has the pid that was written to it.
* `SmiMsg.smi_client_toUpper` : the answer has the header of the message.

## References

* `src/ad_comm/smi.h`.
* `src/ad_comm/smi_server.c`, lines 86–94 and 242–262.
-/

namespace UnixStudy.Smi

abbrev Bytes := List UInt8

/-- The character `NUL`. -/
abbrev nul : UInt8 := 0

/-- `DATA_SIZE`. -/
abbrev DATA_SIZE : ℕ := 200

/-- `offsetof(struct smi_msg, smi_data)`: three `long`s. -/
abbrev HEADER_SIZE : ℕ := 24

/-- `sq_msgsize` of the server. -/
abbrev MSG_SIZE : ℕ := DATA_SIZE + HEADER_SIZE

/-- `SERVER_NAME_MAX`. -/
abbrev SERVER_NAME_MAX : ℕ := 50

/-- `pid_t`. -/
abbrev Pid := Int32

/-! ### Names of FIFOs -/

/-- `/tmp/smififo`. -/
def fifoPrefix : Bytes := [47, 116, 109, 112, 47, 115, 109, 105, 102, 105, 102, 111]

/-- The digits of a number, as `printf` writes them. -/
def decimalNat (n : ℕ) : Bytes :=
  if n = 0 then [48] else ((Nat.digits 10 n).reverse).map fun d => 48 + d.toUInt8

/-- A number, as the format `%ld` writes it. -/
def decimal (z : ℤ) : Bytes := if z < 0 then 45 :: decimalNat z.natAbs else decimalNat z.natAbs

theorem mem_decimalNat {n : ℕ} {c : UInt8} (h : c ∈ decimalNat n) : 48 ≤ c ∧ c ≤ 57 := by
  have hdigit : ∀ d < 10, 48 ≤ 48 + Nat.toUInt8 d ∧ 48 + Nat.toUInt8 d ≤ 57 := by decide
  rw [decimalNat] at h
  split_ifs at h
  · obtain rfl := List.mem_singleton.mp h
    decide
  · obtain ⟨d, hd, rfl⟩ := List.mem_map.mp h
    exact hdigit d (Nat.digits_lt_base (by decide) (List.mem_reverse.mp hd))

/-- A number is written with a sign and digits. -/
theorem mem_decimal {z : ℤ} {c : UInt8} (h : c ∈ decimal z) : c = 45 ∨ 48 ≤ c ∧ c ≤ 57 := by
  rw [decimal] at h
  split_ifs at h
  · exact (List.mem_cons.mp h).imp_right mem_decimalNat
  · exact Or.inr (mem_decimalNat h)

theorem decimalNat_injective : Function.Injective decimalNat := by
  have hdigit : ∀ d < 10, (48 + Nat.toUInt8 d - 48).toNat = d := by decide
  have hinv : Function.LeftInverse
      (fun b : Bytes => Nat.ofDigits 10 (b.map fun c => (c - 48).toNat).reverse) decimalNat := by
    intro n
    rw [decimalNat]
    split_ifs with hn
    · rw [hn]
      rfl
    · dsimp only
      rw [List.map_map, List.map_reverse, List.reverse_reverse]
      have hmap : (Nat.digits 10 n).map ((fun c : UInt8 => (c - 48).toNat) ∘
          fun d => 48 + d.toUInt8) = Nat.digits 10 n :=
        (List.map_congr_left fun d hd => hdigit d (Nat.digits_lt_base (by decide) hd)).trans
          (List.map_id' _)
      rw [hmap, Nat.ofDigits_digits]
  exact hinv.injective

/-- Different numbers are written differently. -/
theorem decimal_injective : Function.Injective decimal := by
  have hsign {n m : ℕ} : 45 :: decimalNat n ≠ decimalNat m := fun h =>
    absurd (mem_decimalNat (h ▸ List.mem_cons_self)) (by decide)
  intro z z' h
  rw [decimal, decimal] at h
  split_ifs at h with hz hz' hz'
  · have habs := decimalNat_injective (List.cons.inj h).2
    omega
  · exact absurd h hsign
  · exact absurd h.symm hsign
  · have habs := decimalNat_injective h
    omega

theorem length_decimalNat_le {n k : ℕ} (hk : k ≠ 0) (h : n < 10 ^ k) :
    (decimalNat n).length ≤ k := by
  rw [decimalNat]
  split_ifs
  · exact Nat.one_le_iff_ne_zero.mpr hk
  · rw [List.length_map, List.length_reverse]
    exact (Nat.digits_length_le_iff (by decide) n).mpr h

/-- The length of a number that is not negative. -/
theorem length_decimalNat_le_iff {n k : ℕ} (hk : k ≠ 0) :
    (decimalNat n).length ≤ k ↔ n < 10 ^ k := by
  refine ⟨fun h => ?_, length_decimalNat_le hk⟩
  rw [decimalNat] at h
  split_ifs at h with hn
  · rw [hn]
    exact Nat.pow_pos (by decide)
  · rw [List.length_map, List.length_reverse] at h
    exact (Nat.digits_length_le_iff (by decide) n).mp h

/-- The length of a number, with its sign. -/
theorem length_decimal_le_iff {z : ℤ} {k : ℕ} (hk : 1 < k) :
    (decimal z).length ≤ k ↔ -(10 ^ (k - 1) : ℕ) < z ∧ z < (10 ^ k : ℕ) := by
  have hpos : 0 < 10 ^ (k - 1) := Nat.pow_pos (by decide)
  have hpos' : 0 < 10 ^ k := Nat.pow_pos (by decide)
  rw [decimal]
  split_ifs with hz
  · have hdigits := length_decimalNat_le_iff (n := z.natAbs) (Nat.sub_ne_zero_of_lt hk)
    rw [List.length_cons]
    omega
  · rw [length_decimalNat_le_iff (by omega)]
    omega

/-- `make_fifo_name_client`: `snprintf` into an array of the given size. -/
def makeFifoNameClient (pid : Pid) (fifoname_max : ℕ) : Bytes :=
  (fifoPrefix ++ decimal pid.toInt).take (fifoname_max - 1)

/-- An array of 24 characters is long enough for the name. -/
theorem makeFifoNameClient_eq (pid : Pid) {n : ℕ} (hn : 24 ≤ n) :
    makeFifoNameClient pid n = fifoPrefix ++ decimal pid.toInt := by
  have hpid : pid.toInt.natAbs < 10 ^ 10 := by
    have hle := pid.le_toInt
    have hlt := pid.toInt_lt
    omega
  have hdigits := length_decimalNat_le (by decide) hpid
  have hdecimal : (decimal pid.toInt).length ≤ 11 := by
    rw [decimal]
    split_ifs
    · exact Nat.succ_le_succ hdigits
    · exact hdigits.trans (by decide)
  refine List.take_of_length_le ?_
  rw [List.length_append, show fifoPrefix.length = 12 from rfl]
  omega

/-- Different clients have FIFOs with different names. -/
theorem makeFifoNameClient_injective {n : ℕ} (hn : 24 ≤ n) :
    Function.Injective (makeFifoNameClient · n) := by
  intro pid pid' h
  dsimp only at h
  rw [makeFifoNameClient_eq pid hn, makeFifoNameClient_eq pid' hn] at h
  exact Int32.toInt_inj.mp (decimal_injective (List.append_cancel_left h))

/-! ### Messages -/

/-- `struct client_id`. -/
structure ClientId where
  c_id1 : Int64
  c_id2 : Int64
  deriving DecidableEq, Repr

/-- The conversion of `c_id1` to `pid_t`. -/
def ClientId.pid (client : ClientId) : Pid := client.c_id1.toInt32

/-- The bytes of a `struct smi_msg` with room for the data of the server. -/
structure SmiMsg where
  bytes : Bytes
  size : bytes.length = MSG_SIZE
  deriving DecidableEq

/-- The `long` that begins at an offset. -/
def longAt (offset : ℕ) (b : Bytes) : Int64 :=
  (((b.drop offset).take 8).foldr (fun (c : UInt8) n => c.toUInt64 + 256 * n) 0).toInt64

/-- The lowest bytes of a number, in the order of the memory. -/
def leBytes : ℕ → ℕ → Bytes
  | 0, _ => []
  | k + 1, n => n.toUInt8 :: leBytes k (n / 256)

/-- The bytes of a `long`. -/
def longBytes (z : Int64) : Bytes := leBytes 8 z.toUInt64.toNat

/-- `toupper`. -/
def toupper (c : UInt8) : UInt8 := if 97 ≤ c ∧ c ≤ 122 then c - 32 else c

/-- The loop of `main` over the data of a message, up to its `NUL`. -/
def upperData : Bytes → Bytes
  | [] => []
  | c :: cs => if c = nul then c :: cs else toupper c :: upperData cs

@[simp] theorem length_upperData (b : Bytes) : (upperData b).length = b.length := by
  induction b with
  | nil => rfl
  | cons c cs ih =>
    rw [upperData]
    split_ifs
    · rfl
    · rw [List.length_cons, List.length_cons, ih]

theorem longAt_congr {offset : ℕ} {b b' : Bytes} (h : b.take (offset + 8) = b'.take (offset + 8)) :
    longAt offset b = longAt offset b' := by
  have htake (b : Bytes) : (b.drop offset).take 8 = (b.take (offset + 8)).drop offset := by
    rw [List.drop_take, Nat.add_sub_cancel_left]
  rw [longAt, longAt, htake, htake, h]

@[simp] theorem length_leBytes (k n : ℕ) : (leBytes k n).length = k := by
  induction k generalizing n with
  | zero => rfl
  | succ k ih => rw [leBytes, List.length_cons, ih]

@[simp] theorem length_longBytes (z : Int64) : (longBytes z).length = 8 := length_leBytes 8 _

theorem foldr_leBytes (k n : ℕ) :
    (leBytes k n).foldr (fun (c : UInt8) m => c.toUInt64 + 256 * m) 0 =
      UInt64.ofNat (n % 256 ^ k) := by
  induction k generalizing n with
  | zero =>
    rw [pow_zero, Nat.mod_one]
    rfl
  | succ k ih =>
    have hbyte : n.toUInt8.toUInt64 = UInt64.ofNat (n % 256) := by
      refine UInt64.toNat_inj.mp ?_
      simp only [UInt8.toNat_toUInt64, Nat.toUInt8_eq, UInt8.toNat_ofNat', UInt64.toNat_ofNat']
      omega
    rw [leBytes, List.foldr_cons, ih, hbyte, Nat.pow_succ', Nat.mod_mul, UInt64.ofNat_add,
      UInt64.ofNat_mul]
    rfl

/-- A `long` that was written is read again. -/
theorem longAt_longBytes (pre suf : Bytes) (z : Int64) :
    longAt pre.length (pre ++ longBytes z ++ suf) = z := by
  have hlt : z.toUInt64.toNat < 256 ^ 8 := z.toUInt64.toNat_lt
  rw [longAt, List.append_assoc, List.drop_left, List.take_left' (length_longBytes z), longBytes,
    foldr_leBytes, Nat.mod_eq_of_lt hlt, UInt64.ofNat_toNat]
  rfl

namespace SmiMsg

variable (m : SmiMsg)

/-- `smi_client`. -/
def smi_client : ClientId := ⟨longAt 8 m.bytes, longAt 16 m.bytes⟩

/-- `smi_data`. -/
def smi_data : Bytes := m.bytes.drop HEADER_SIZE

/-- What `calloc` gives. -/
def zero : SmiMsg := ⟨List.replicate MSG_SIZE 0, List.length_replicate⟩

/-- Write a pid to `smi_client.c_id1`, as a client does before it sends a message. -/
def setPid (pid : Pid) : SmiMsg where
  bytes := m.bytes.take 8 ++ longBytes pid.toInt64 ++ m.bytes.drop 16
  size := by
    rw [List.length_append, List.length_append, List.length_take, List.length_drop,
      length_longBytes, m.size]
    rfl

/-- Write bytes over the start of the message. -/
def overwrite (b : Bytes) : SmiMsg where
  bytes := b.take MSG_SIZE ++ m.bytes.drop b.length
  size := by
    rw [List.length_append, List.length_take, List.length_drop, m.size]
    omega

/-- Make the letters of the data upper case. The loop leaves the message if its data has no `NUL`;
the result is then `none`. -/
def toUpper : Option SmiMsg :=
  if nul ∈ m.smi_data then
    some ⟨m.bytes.take HEADER_SIZE ++ upperData m.smi_data, by
      rw [List.length_append, length_upperData, smi_data, ← List.length_append,
        List.take_append_drop, m.size]⟩
  else none

/-- What is read as a whole message replaces the message. -/
theorem overwrite_of_complete {b : Bytes} (h : b.length = MSG_SIZE) : m.overwrite b = ⟨b, h⟩ := by
  rw [overwrite, SmiMsg.mk.injEq, List.take_of_length_le h.le,
    List.drop_eq_nil_of_le (by rw [m.size, h]), List.append_nil]

/-- A message has the pid that was written to it. -/
theorem pid_setPid (pid : Pid) : (m.setPid pid).smi_client.pid = pid := by
  have hpre : (m.bytes.take 8).length = 8 := by
    rw [List.length_take, m.size]
    rfl
  have hid : longAt 8 (m.setPid pid).bytes = pid.toInt64 := by
    have h := longAt_longBytes (m.bytes.take 8) (m.bytes.drop 16) pid.toInt64
    rwa [hpre] at h
  rw [smi_client, ClientId.pid, hid, Int32.toInt32_toInt64]

/-- The data are what they were. -/
theorem smi_data_setPid (pid : Pid) : (m.setPid pid).smi_data = m.smi_data := by
  have hlen : (m.bytes.take 8 ++ longBytes pid.toInt64).length = 16 := by
    rw [List.length_append, List.length_take, length_longBytes, m.size]
    rfl
  rw [smi_data, setPid, smi_data, List.drop_append, hlen,
    List.drop_eq_nil_of_le (by rw [hlen]; decide), List.nil_append, List.drop_drop]
  rfl

variable {m}

/-- **The answer has the header of the message.** -/
theorem smi_client_toUpper {m' : SmiMsg} (h : m.toUpper = some m') :
    m'.smi_client = m.smi_client := by
  rw [toUpper] at h
  split_ifs at h
  obtain rfl := Option.some.inj h
  have hheader (k : ℕ) (hk : k ≤ HEADER_SIZE) :
      (m.bytes.take HEADER_SIZE ++ upperData m.smi_data).take k = m.bytes.take k := by
    have hlen : (m.bytes.take HEADER_SIZE).length = HEADER_SIZE := by
      rw [List.length_take, m.size]
      rfl
    rw [List.take_append_of_le_length (hk.trans_eq hlen.symm), List.take_take, min_eq_left hk]
  rw [smi_client, smi_client, longAt_congr (hheader _ (by decide)),
    longAt_congr (hheader _ (by decide))]

/-- The answer has the data of the message in upper case. -/
theorem smi_data_toUpper {m' : SmiMsg} (h : m.toUpper = some m') :
    m'.smi_data = upperData m.smi_data := by
  rw [toUpper] at h
  split_ifs at h
  obtain rfl := Option.some.inj h
  have hlen : (m.bytes.take HEADER_SIZE).length = HEADER_SIZE := by
    rw [List.length_take, m.size]
    rfl
  exact List.drop_left' hlen

end SmiMsg

end UnixStudy.Smi
