import Mathlib.Tactic.Common
import Mathlib.Tactic.Ring

/-!
Byte strings: fixed-width integers in both byte orders, the slice of a string
at an offset, and overwriting a slice.
-/

namespace DirtybirdMiner.Lib.Bytes

/-- `[u8; n]`. -/
abbrev FixedBytes (n : Nat) : Type := { bytes : List UInt8 // bytes.length = n }

section Endian

/-- The number whose little-endian bytes these are. -/
def leValue : List UInt8 → Nat
  | [] => 0
  | b :: bytes => b.toNat + 256 * leValue bytes

/-- The lowest `width` bytes of a number, least significant first. -/
def leBytes : Nat → Nat → List UInt8
  | 0, _ => []
  | width + 1, v => UInt8.ofNat v :: leBytes width (v / 256)

/-- `from_be_bytes`. -/
def beValue (bytes : List UInt8) : Nat := leValue bytes.reverse

/-- `to_be_bytes`. -/
def beBytes (width v : Nat) : List UInt8 := (leBytes width v).reverse

@[simp] theorem leBytes_length (width v : Nat) : (leBytes width v).length = width := by
  induction width generalizing v with
  | zero => rfl
  | succ width ih => simp [leBytes, ih]

@[simp] theorem beBytes_length (width v : Nat) : (beBytes width v).length = width := by
  simp [beBytes]

theorem leValue_lt (bytes : List UInt8) : leValue bytes < 256 ^ bytes.length := by
  induction bytes with
  | nil => simp [leValue]
  | cons b bytes ih =>
      have hb := b.toNat_lt
      rw [leValue, List.length_cons, Nat.pow_succ]
      omega

theorem beValue_lt (bytes : List UInt8) : beValue bytes < 256 ^ bytes.length := by
  simpa [beValue] using leValue_lt bytes.reverse

theorem leValue_leBytes (width v : Nat) : leValue (leBytes width v) = v % 256 ^ width := by
  induction width generalizing v with
  | zero => simp [leBytes, leValue, Nat.mod_one]
  | succ width ih =>
      have hpow : 256 ^ (width + 1) = 256 * 256 ^ width := Nat.pow_succ'
      rw [leBytes, leValue, ih, UInt8.toNat_ofNat', hpow, Nat.mod_mul]

theorem leBytes_leValue (bytes : List UInt8) : leBytes bytes.length (leValue bytes) = bytes := by
  induction bytes with
  | nil => rfl
  | cons b bytes ih =>
      have hb := b.toNat_lt
      rw [List.length_cons, leValue, leBytes]
      congr 1
      · apply UInt8.toNat_inj.mp
        rw [UInt8.toNat_ofNat']
        omega
      · rw [show (b.toNat + 256 * leValue bytes) / 256 = leValue bytes by omega, ih]

theorem beValue_beBytes (width v : Nat) : beValue (beBytes width v) = v % 256 ^ width := by
  rw [beValue, beBytes, List.reverse_reverse, leValue_leBytes]

theorem beBytes_beValue (bytes : List UInt8) : beBytes bytes.length (beValue bytes) = bytes := by
  have h := leBytes_leValue bytes.reverse
  rw [List.length_reverse] at h
  rw [beBytes, beValue, h, List.reverse_reverse]

theorem leValue_inj {s t : List UInt8} (hlen : s.length = t.length)
    (h : leValue s = leValue t) : s = t := by
  rw [← leBytes_leValue s, ← leBytes_leValue t, hlen, h]

/-- A number is determined by as many bytes as it needs. -/
theorem beBytes_inj {width v w : Nat} (hv : v < 256 ^ width) (hw : w < 256 ^ width)
    (h : beBytes width v = beBytes width w) : v = w := by
  have hval := congrArg beValue h
  rwa [beValue_beBytes, beValue_beBytes, Nat.mod_eq_of_lt hv, Nat.mod_eq_of_lt hw] at hval

theorem leValue_append (s t : List UInt8) :
    leValue (s ++ t) = leValue s + 256 ^ s.length * leValue t := by
  induction s with
  | nil => simp [leValue]
  | cons b s ih =>
      rw [List.cons_append, leValue, leValue, ih, List.length_cons, Nat.pow_succ]
      ring

theorem beValue_append (s t : List UInt8) :
    beValue (s ++ t) = beValue s * 256 ^ t.length + beValue t := by
  unfold beValue
  rw [List.reverse_append, leValue_append, List.length_reverse]
  ring

end Endian

section Slices

variable {α : Type}

/-- `bytes[lo..lo + len]`. -/
def slice (bytes : List α) (lo len : Nat) : List α := (bytes.drop lo).take len

/-- `dst[lo..lo + src.len()].copy_from_slice(src)`. -/
def copyAt (dst : List α) (lo : Nat) (src : List α) : List α :=
  dst.take lo ++ src ++ dst.drop (lo + src.length)

theorem slice_length {bytes : List α} {lo len : Nat} (h : lo + len ≤ bytes.length) :
    (slice bytes lo len).length = len := by
  simp [slice]
  omega

theorem copyAt_length {dst src : List α} {lo : Nat} (h : lo + src.length ≤ dst.length) :
    (copyAt dst lo src).length = dst.length := by
  simp [copyAt]
  omega

theorem slice_copyAt_self {dst src : List α} {lo : Nat} (h : lo + src.length ≤ dst.length) :
    slice (copyAt dst lo src) lo src.length = src := by
  have hlen : (dst.take lo).length = lo := by simp; omega
  rw [slice, copyAt, List.append_assoc, List.drop_append_of_le_length (by omega),
    List.drop_eq_nil_of_le (by omega), List.nil_append, List.take_left]

theorem slice_copyAt_before {dst src : List α} {lo a len : Nat}
    (h : lo + src.length ≤ dst.length) (hle : a + len ≤ lo) :
    slice (copyAt dst lo src) a len = slice dst a len := by
  apply List.ext_getElem?
  intro k
  simp only [slice, copyAt, List.getElem?_take, List.getElem?_drop, List.append_assoc]
  split
  · rw [List.getElem?_append_left (by simp; omega), List.getElem?_take, if_pos (by omega)]
  · rfl

theorem slice_copyAt_after {dst src : List α} {lo a len : Nat}
    (h : lo + src.length ≤ dst.length) (hle : lo + src.length ≤ a) :
    slice (copyAt dst lo src) a len = slice dst a len := by
  have htake : (dst.take lo ++ src).length = lo + src.length := by simp; omega
  apply List.ext_getElem?
  intro k
  simp only [slice, copyAt, List.getElem?_take, List.getElem?_drop]
  split
  · rw [List.getElem?_append_right (by omega), htake, List.getElem?_drop]
    congr 1
    omega
  · rfl

/-- A slice of a slice. -/
theorem slice_slice {bytes : List α} {lo len a n : Nat} (h : a + n ≤ len) :
    slice (slice bytes lo len) a n = slice bytes (lo + a) n := by
  apply List.ext_getElem?
  intro k
  simp only [slice, List.getElem?_take, List.getElem?_drop]
  split
  · rw [if_pos (by omega), Nat.add_assoc]
  · rfl

end Slices

end DirtybirdMiner.Lib.Bytes
