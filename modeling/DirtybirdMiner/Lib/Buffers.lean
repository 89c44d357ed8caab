import DirtybirdMiner.Lib.Bytes
import DirtybirdMiner.Lib.Checked

/-!
Buffers: lists that are read and overwritten a slice at a time, `none` where the
slice does not fit.
-/

namespace DirtybirdMiner.Lib.Buffers

open DirtybirdMiner.Lib.Bytes
open DirtybirdMiner.Lib.Checked

variable {α : Type}

def readAt (buf : List α) (lo len : Nat) : Option (List α) :=
  if lo + len ≤ buf.length then some (slice buf lo len) else none

def writeAt (buf : List α) (lo : Nat) (src : List α) : Option (List α) :=
  if lo + src.length ≤ buf.length then some (copyAt buf lo src) else none

/-- `Vec::resize`. -/
def resize (buf : List α) (len : Nat) (v : α) : List α :=
  buf.take len ++ List.replicate (len - buf.length) v

theorem readAt_eq_some {buf : List α} {lo len : Nat} (h : lo + len ≤ buf.length) :
    readAt buf lo len = some (slice buf lo len) := if_pos h

theorem writeAt_eq_some {buf src : List α} {lo : Nat} (h : lo + src.length ≤ buf.length) :
    writeAt buf lo src = some (copyAt buf lo src) := if_pos h

@[simp] theorem resize_length (buf : List α) (len : Nat) (v : α) :
    (resize buf len v).length = len := by
  simp [resize]
  omega

theorem slice_add (buf : List α) (lo a b : Nat) :
    slice buf lo (a + b) = slice buf lo a ++ slice buf (lo + a) b := by
  rw [slice, slice, slice, List.take_add, List.drop_drop]

@[simp] theorem slice_zero (buf : List α) (lo : Nat) : slice buf lo 0 = [] := by
  simp [slice]

theorem take_eq_slice (buf : List α) (len : Nat) : buf.take len = slice buf 0 len := by
  simp [slice]

theorem slice_map {β : Type} (f : α → β) (buf : List α) (lo len : Nat) :
    slice (buf.map f) lo len = (slice buf lo len).map f := by
  rw [slice, slice, List.map_take, List.map_drop]

theorem slice_take {buf : List α} {lo len k : Nat} (h : lo + len ≤ k) :
    slice (buf.take k) lo len = slice buf lo len := by
  rw [slice, slice, List.drop_take, List.take_take, min_eq_left (by omega)]

theorem take_slice {buf : List α} {lo len k : Nat} (h : k ≤ len) :
    (slice buf lo len).take k = slice buf lo k := by
  rw [slice, slice, List.take_take, min_eq_left h]

theorem mem_of_mem_slice {buf : List α} {lo len : Nat} {x : α} (h : x ∈ slice buf lo len) :
    x ∈ buf :=
  List.drop_subset _ _ (List.take_subset _ _ h)

theorem take_copyAt {dst src : List α} {lo : Nat} (h : lo + src.length ≤ dst.length) :
    (copyAt dst lo src).take (lo + src.length) = dst.take lo ++ src := by
  have hlen : (dst.take lo ++ src).length = lo + src.length := by simp; omega
  rw [copyAt, ← hlen, List.take_left]

theorem drop_copyAt {dst src : List α} {lo k : Nat} (h : lo + src.length ≤ dst.length)
    (hk : lo + src.length ≤ k) : (copyAt dst lo src).drop k = dst.drop k := by
  have hlen : (dst.take lo ++ src).length = lo + src.length := by simp; omega
  rw [copyAt, List.drop_append, List.drop_eq_nil_of_le (by omega), List.nil_append, List.drop_drop,
    hlen]
  congr 1
  omega

/-- A slice whose end moves into an overwritten part. -/
theorem take_copyAt_le {dst src : List α} {lo k : Nat} (h : lo + src.length ≤ dst.length)
    (hk : k ≤ src.length) : (copyAt dst lo src).take (lo + k) = dst.take lo ++ src.take k := by
  have hlo : (dst.take lo).length = lo := by simp; omega
  rw [copyAt, List.append_assoc, List.take_append, List.take_of_length_le (by omega), hlo,
    Nat.add_sub_cancel_left, List.take_append_of_le_length hk]

end DirtybirdMiner.Lib.Buffers
