import DirtybirdMiner.Lib.Bytes

/-!
Unsigned LEB128 numbers of 64 bits: groups of seven bits, least significant first,
with the high bit set on all bytes but the last.  The decoder takes any form of at
most ten bytes whose value fits, the shortest or not; the encoder writes the
shortest.
-/

namespace DirtybirdMiner.Lib.Uvarint

section Forms

/-- The number that groups of seven bits stand for. -/
def groupsValue : List UInt8 → Nat
  | [] => 0
  | b :: bytes => b.toNat % 128 + 128 * groupsValue bytes

/-- Bytes that go on, and a last byte; `room` bytes are left of the ten, and the
tenth holds one bit. -/
inductive Groups : Nat → List UInt8 → Prop
  | last {room : Nat} {b : UInt8} (small : b.toNat < 128) (fits : room = 0 → b.toNat ≤ 1) :
      Groups room [b]
  | more {room : Nat} {b : UInt8} {bytes : List UInt8} (high : 128 ≤ b.toNat)
      (groups : Groups room bytes) : Groups (room + 1) (b :: bytes)

/-- A form of a number. -/
def Form (bytes : List UInt8) (v : UInt64) : Prop :=
  Groups 9 bytes ∧ v.toNat = groupsValue bytes

theorem Groups.length_le {room : Nat} {bytes : List UInt8} (h : Groups room bytes) :
    bytes.length ≤ room + 1 := by
  induction h with
  | last => simp
  | more _ _ ih => simpa using ih

theorem groupsValue_lt (bytes : List UInt8) : groupsValue bytes < 128 ^ bytes.length := by
  induction bytes with
  | nil => simp [groupsValue]
  | cons b bytes ih =>
      rw [groupsValue, List.length_cons, pow_succ]
      have := Nat.mod_lt b.toNat (show 128 > 0 by decide)
      omega

/-- Groups fit into 64 bits: the room counts the bits that are left of them. -/
theorem groupsValue_lt_of_groups_room {room : Nat} {bytes : List UInt8} (h : Groups room bytes) :
    groupsValue bytes < 2 ^ (7 * room + 1) := by
  induction h with
  | @last room b small fits =>
      rw [groupsValue, groupsValue, Nat.mod_eq_of_lt small]
      rcases Nat.eq_zero_or_pos room with rfl | hpos
      · have := fits rfl
        omega
      · have : 2 ^ (7 * 1 + 1) ≤ 2 ^ (7 * room + 1) := Nat.pow_le_pow_right (by decide) (by omega)
        omega
  | @more room b bytes high groups ih =>
      have hb := Nat.mod_lt b.toNat (show 128 > 0 by decide)
      rw [groupsValue, show 7 * (room + 1) + 1 = 7 * room + 1 + 7 by ring, pow_add]
      omega

theorem groupsValue_lt_of_groups {bytes : List UInt8} (h : Groups 9 bytes) :
    groupsValue bytes < 2 ^ 64 :=
  groupsValue_lt_of_groups_room h

theorem Form.lt {bytes : List UInt8} {v : UInt64} (h : Form bytes v) :
    v.toNat < 128 ^ bytes.length := by
  rw [h.2]
  exact groupsValue_lt bytes

theorem form_length_ne_zero {bytes : List UInt8} {v : UInt64} (h : Form bytes v) :
    bytes.length ≠ 0 := by
  obtain ⟨hgroups, -⟩ := h
  cases hgroups <;> simp

end Forms

section Decoding

inductive UvarintError where
  | incomplete
  | overflow
deriving DecidableEq

/-- The value and the number of bytes, from the `i`-th byte on. -/
def decodeFrom : Nat → UInt64 → List UInt8 → Except UvarintError (UInt64 × Nat)
  | _, _, [] => .error .incomplete
  | i, x, b :: bytes =>
      if i = 10 then .error .overflow
      else if b < 0x80 then
        if i = 9 ∧ b > 1 then .error .overflow
        else .ok (x ||| b.toUInt64 <<< UInt64.ofNat (7 * i), i + 1)
      else decodeFrom (i + 1) (x ||| (b &&& 0x7f).toUInt64 <<< UInt64.ofNat (7 * i)) bytes

def decode (bytes : List UInt8) : Except UvarintError (UInt64 × Nat) := decodeFrom 0 0 bytes

theorem or_shiftLeft_toNat {x y : UInt64} {s : Nat} (hx : x.toNat < 2 ^ s) (hs : s < 64)
    (hy : y.toNat * 2 ^ s < 2 ^ 64) :
    (x ||| y <<< UInt64.ofNat s).toNat = x.toNat + y.toNat * 2 ^ s := by
  have hshift : (UInt64.ofNat s).toNat % 64 = s := by
    rw [UInt64.toNat_ofNat', Nat.mod_eq_of_lt (show s < 2 ^ 64 by omega), Nat.mod_eq_of_lt hs]
  rw [UInt64.toNat_or, UInt64.toNat_shiftLeft, hshift, Nat.shiftLeft_eq, Nat.mod_eq_of_lt hy,
    Nat.or_comm, ← Nat.shiftLeft_eq, ← Nat.shiftLeft_add_eq_or_of_lt hx, Nat.add_comm]

theorem low_bits (b : UInt8) : (b &&& 0x7f).toUInt64.toNat = b.toNat % 128 := by
  rw [UInt8.toNat_toUInt64, UInt8.toNat_and]
  exact Nat.and_two_pow_sub_one_eq_mod b.toNat 7

theorem decodeFrom_ten (x : UInt64) (bytes : List UInt8) (r : UInt64 × Nat) :
    decodeFrom 10 x bytes ≠ .ok r := by
  cases bytes <;> simp [decodeFrom]

variable {i : Nat} {x v : UInt64}

/-- A group has room where a byte of it was admitted. -/
theorem group_lt {b : Nat} (hi : i ≤ 9) (hb : b < 128) (hlast : i = 9 → b ≤ 1) :
    b * 2 ^ (7 * i) < 2 ^ 64 := by
  rcases Nat.lt_or_ge i 9 with hlt | hge
  · calc b * 2 ^ (7 * i) < 128 * 2 ^ (7 * i) := by
          exact Nat.mul_lt_mul_of_pos_right hb (Nat.two_pow_pos _)
      _ = 2 ^ (7 * i + 7) := by rw [pow_add, Nat.mul_comm]; rfl
      _ ≤ 2 ^ 64 := Nat.pow_le_pow_right (by decide) (by omega)
  · obtain rfl : i = 9 := by omega
    have := hlast rfl
    omega

theorem more_toNat {b : UInt8} (hi : i < 9) (hx : x.toNat < 2 ^ (7 * i)) :
    (x ||| (b &&& 0x7f).toUInt64 <<< UInt64.ofNat (7 * i)).toNat =
      x.toNat + b.toNat % 128 * 2 ^ (7 * i) := by
  rw [or_shiftLeft_toNat hx (by omega), low_bits]
  rw [low_bits]
  exact group_lt (by omega) (Nat.mod_lt _ (by decide)) (by omega)

theorem more_lt {b : Nat} (hx : x.toNat < 2 ^ (7 * i)) :
    x.toNat + b % 128 * 2 ^ (7 * i) < 2 ^ (7 * (i + 1)) := by
  have hb : b % 128 + 1 ≤ 128 := Nat.mod_lt b (by decide)
  calc x.toNat + b % 128 * 2 ^ (7 * i) < (b % 128 + 1) * 2 ^ (7 * i) := by
        rw [Nat.add_mul, Nat.one_mul]
        omega
    _ ≤ 128 * 2 ^ (7 * i) := Nat.mul_le_mul_right _ hb
    _ = 2 ^ (7 * (i + 1)) := by rw [Nat.mul_add, pow_add, Nat.mul_comm]; rfl

theorem last_toNat {b : UInt8} (hi : i ≤ 9) (hx : x.toNat < 2 ^ (7 * i)) (hb : b.toNat < 128)
    (hlast : i = 9 → b.toNat ≤ 1) :
    (x ||| b.toUInt64 <<< UInt64.ofNat (7 * i)).toNat =
      x.toNat + groupsValue [b] * 2 ^ (7 * i) := by
  rw [or_shiftLeft_toNat hx (by omega), UInt8.toNat_toUInt64, groupsValue, groupsValue,
    Nat.mod_eq_of_lt hb, Nat.mul_zero, Nat.add_zero]
  rw [UInt8.toNat_toUInt64]
  exact group_lt hi hb hlast

theorem groupsValue_cons_mul (b : UInt8) (bytes : List UInt8) (i : Nat) :
    groupsValue (b :: bytes) * 2 ^ (7 * i) =
      b.toNat % 128 * 2 ^ (7 * i) + groupsValue bytes * 2 ^ (7 * (i + 1)) := by
  rw [groupsValue, Nat.mul_add 7, pow_add]
  ring

theorem decodeFrom_of_groups {room : Nat} {bytes : List UInt8} (h : Groups room bytes)
    (hroom : i + room = 9) (hx : x.toNat < 2 ^ (7 * i))
    (hv : v.toNat = x.toNat + groupsValue bytes * 2 ^ (7 * i)) (rest : List UInt8) :
    decodeFrom i x (bytes ++ rest) = .ok (v, i + bytes.length) := by
  induction h generalizing i x with
  | @last room b small fits =>
      have hlast : i = 9 → b.toNat ≤ 1 := fun hi => fits (by omega)
      rw [List.cons_append, decodeFrom, if_neg (by omega),
        if_pos (UInt8.lt_iff_toNat_lt.mpr small), if_neg]
      · rw [← last_toNat (by omega) hx small hlast] at hv
        rw [← UInt64.toNat_inj.mp hv]
        rfl
      · rintro ⟨hi, hb⟩
        have := hlast hi
        rw [gt_iff_lt, UInt8.lt_iff_toNat_lt] at hb
        exact absurd hb (not_lt.mpr this)
  | @more room b bytes high groups ih =>
      rw [List.cons_append, decodeFrom, if_neg (by omega),
        if_neg (by rw [UInt8.lt_iff_toNat_lt]; exact not_lt.mpr high)]
      rw [ih (by omega), List.length_cons, Nat.add_right_comm, Nat.add_assoc]
      · rw [more_toNat (by omega) hx]
        exact more_lt hx
      · rw [hv, more_toNat (by omega) hx, groupsValue_cons_mul, Nat.add_assoc]

theorem groups_of_decodeFrom {bytes : List UInt8} {n : Nat} (hi : i ≤ 9)
    (hx : x.toNat < 2 ^ (7 * i)) (h : decodeFrom i x bytes = .ok (v, n)) :
    ∃ groups rest, bytes = groups ++ rest ∧ n = i + groups.length ∧ Groups (9 - i) groups ∧
      v.toNat = x.toNat + groupsValue groups * 2 ^ (7 * i) := by
  induction bytes generalizing i x with
  | nil => cases h
  | cons b bytes ih =>
      rw [decodeFrom, if_neg (by omega)] at h
      split at h
      · rename_i hsmall
        have hb : b.toNat < 128 := UInt8.lt_iff_toNat_lt.mp hsmall
        split at h
        · cases h
        · rename_i hover
          cases h
          have hlast : i = 9 → b.toNat ≤ 1 := by
            intro h9
            by_contra hgt
            exact hover ⟨h9, UInt8.lt_iff_toNat_lt.mpr (not_le.mp hgt)⟩
          exact ⟨[b], bytes, rfl, rfl, .last hb fun hroom => hlast (by omega),
            last_toNat hi hx hb hlast⟩
      · rename_i hlarge
        have hb : 128 ≤ b.toNat := by
          rw [UInt8.lt_iff_toNat_lt, not_lt] at hlarge
          exact hlarge
        rcases Nat.lt_or_ge i 9 with hlt | hge
        · obtain ⟨groups, rest, rfl, rfl, hgroups, hv⟩ := ih (by omega)
            (by rw [more_toNat hlt hx]; exact more_lt hx) h
          refine ⟨b :: groups, rest, rfl, by rw [List.length_cons]; omega, ?_, ?_⟩
          · rw [show 9 - i = 9 - (i + 1) + 1 by omega]
            exact .more hb hgroups
          · rw [hv, more_toNat hlt hx, groupsValue_cons_mul, Nat.add_assoc]
        · -- The tenth byte goes on: whatever follows is too much.
          obtain rfl : i = 9 := by omega
          exact absurd h (decodeFrom_ten _ _ _)

/-- Something is taken. -/
theorem lt_of_decodeFrom {bytes : List UInt8} {r : UInt64 × Nat}
    (h : decodeFrom i x bytes = .ok r) : i < r.2 := by
  induction bytes generalizing i x with
  | nil => cases h
  | cons b bytes ih =>
      rw [decodeFrom] at h
      split at h
      · cases h
      split at h
      · split at h
        · cases h
        · cases h
          exact Nat.lt_succ_self i
      · exact Nat.lt_of_succ_lt (ih h)

theorem decode_of_form {bytes : List UInt8} (h : Form bytes v) (rest : List UInt8) :
    decode (bytes ++ rest) = .ok (v, bytes.length) := by
  have hv : v.toNat = (0 : UInt64).toNat + groupsValue bytes * 2 ^ (7 * 0) := by simp [h.2]
  have := decodeFrom_of_groups h.1 (i := 0) rfl (by decide) hv rest
  rwa [Nat.zero_add] at this

theorem form_of_decode {bytes : List UInt8} {n : Nat} (h : decode bytes = .ok (v, n)) :
    ∃ groups rest, bytes = groups ++ rest ∧ n = groups.length ∧ Form groups v := by
  obtain ⟨groups, rest, hbytes, hn, hgroups, hv⟩ :=
    groups_of_decodeFrom (Nat.zero_le 9) (by decide) h
  exact ⟨groups, rest, hbytes, by omega, hgroups, by simpa using hv⟩

end Decoding

section Encoding

/-- `while x >= 0x80`, at most `budget` times. -/
def encodeFrom : Nat → UInt64 → List UInt8
  | 0, x => [x.toUInt8]
  | budget + 1, x =>
      if x ≥ 0x80 then (x.toUInt8 ||| 0x80) :: encodeFrom budget (x >>> 7) else [x.toUInt8]

/-- The shortest form. -/
def encode (x : UInt64) : List UInt8 := encodeFrom 9 x

theorem toUInt8_low (x : UInt64) : x.toUInt8.toNat % 128 = x.toNat % 128 := by
  rw [UInt64.toNat_toUInt8]
  omega

theorem marked_low (b : UInt8) : (b ||| 0x80).toNat % 128 = b.toNat % 128 := by
  have h : (b.toNat ||| 128) % 2 ^ 7 = b.toNat % 2 ^ 7 ||| 128 % 2 ^ 7 := Nat.or_mod_two_pow
  rw [UInt8.toNat_or]
  exact h.trans (Nat.or_zero _)

theorem marked_high (b : UInt8) : 128 ≤ (b ||| 0x80).toNat := by
  rw [UInt8.toNat_or]
  exact Nat.right_le_or

theorem encodeFrom_form {budget : Nat} {x : UInt64} (h : x.toNat < 2 ^ (7 * budget + 1)) :
    Groups budget (encodeFrom budget x) ∧ groupsValue (encodeFrom budget x) = x.toNat := by
  induction budget generalizing x with
  | zero =>
      have hx : x.toUInt8.toNat = x.toNat := by
        rw [UInt64.toNat_toUInt8]
        omega
      rw [encodeFrom, groupsValue, groupsValue, hx]
      exact ⟨.last (by omega) fun _ => by omega, by omega⟩
  | succ budget ih =>
      rw [encodeFrom]
      split
      · rename_i hlarge
        have hshift : (x >>> 7).toNat = x.toNat / 128 := by
          rw [UInt64.toNat_shiftRight]
          exact Nat.shiftRight_eq_div_pow _ _
        have hroom : x.toNat < 2 ^ (7 * budget + 1) * 128 := by
          rw [show 7 * (budget + 1) + 1 = 7 * budget + 1 + 7 by ring, pow_add] at h
          exact h
        obtain ⟨hgroups, hvalue⟩ := ih (show (x >>> 7).toNat < _ by rw [hshift]; omega)
        refine ⟨.more (marked_high _) hgroups, ?_⟩
        rw [groupsValue, marked_low, toUInt8_low, hvalue, hshift]
        omega
      · rename_i hsmall
        have hx : x.toNat < 128 := by
          rw [ge_iff_le, UInt64.le_iff_toNat_le, not_le] at hsmall
          exact hsmall
        have hbyte : x.toUInt8.toNat = x.toNat := by
          rw [UInt64.toNat_toUInt8]
          omega
        rw [groupsValue, groupsValue, hbyte]
        exact ⟨.last (by omega) (by omega), by omega⟩

theorem encode_form (x : UInt64) : Form (encode x) x := by
  have h := encodeFrom_form (show x.toNat < 2 ^ (7 * 9 + 1) from x.toNat_lt)
  exact ⟨h.1, h.2.symm⟩

theorem decode_encode (x : UInt64) (rest : List UInt8) :
    decode (encode x ++ rest) = .ok (x, (encode x).length) :=
  decode_of_form (encode_form x) rest

theorem encodeFrom_length_le {budget n : Nat} {x : UInt64} (h : x.toNat < 128 ^ (n + 1)) :
    (encodeFrom budget x).length ≤ n + 1 := by
  induction budget generalizing n x with
  | zero => simp [encodeFrom]
  | succ budget ih =>
      rw [encodeFrom]
      split
      · rename_i hlarge
        rw [ge_iff_le, UInt64.le_iff_toNat_le] at hlarge
        have hlarge' : 128 ≤ x.toNat := hlarge
        cases n with
        | zero => omega
        | succ n =>
            rw [List.length_cons]
            refine Nat.succ_le_succ (ih ?_)
            rw [UInt64.toNat_shiftRight]
            change x.toNat >>> 7 < _
            rw [Nat.shiftRight_eq_div_pow]
            rw [pow_succ] at h
            omega
      · simp

/-- Small numbers have short forms. -/
theorem encode_length_le {n : Nat} {x : UInt64} (h : x.toNat < 128 ^ (n + 1)) :
    (encode x).length ≤ n + 1 :=
  encodeFrom_length_le h

theorem shiftRight_toNat (x : UInt64) : (x >>> 7).toNat = x.toNat / 128 := by
  rw [UInt64.toNat_shiftRight]
  exact Nat.shiftRight_eq_div_pow _ _

/-- More budget than the groups need changes nothing. -/
theorem encodeFrom_succ {budget : Nat} {x : UInt64} (h : x.toNat < 2 ^ (7 * budget + 1)) :
    encodeFrom (budget + 1) x = encodeFrom budget x := by
  induction budget generalizing x with
  | zero =>
      have hsmall : ¬x ≥ 0x80 := by
        rw [ge_iff_le, UInt64.le_iff_toNat_le, not_le]
        exact lt_trans h (by decide)
      rw [encodeFrom.eq_2, if_neg hsmall, encodeFrom]
  | succ budget ih =>
      have hshift : (x >>> 7).toNat < 2 ^ (7 * budget + 1) := by
        rw [show 7 * (budget + 1) + 1 = 7 * budget + 1 + 7 by ring, pow_add] at h
        rw [shiftRight_toNat]
        omega
      rw [encodeFrom.eq_2, ih hshift, encodeFrom.eq_2]

/-- The shortest form, one turn of the loop at a time. -/
theorem encode_eq (x : UInt64) :
    encode x = if x ≥ 0x80 then (x.toUInt8 ||| 0x80) :: encode (x >>> 7) else [x.toUInt8] := by
  have hshift : (x >>> 7).toNat < 2 ^ (7 * 8 + 1) := by
    have := x.toNat_lt
    rw [shiftRight_toNat]
    omega
  rw [encode, encodeFrom, encode, encodeFrom_succ hshift]

theorem shiftRight_lt {x : UInt64} (h : x ≥ 0x80) : (x >>> 7).toNat < x.toNat := by
  rw [ge_iff_le, UInt64.le_iff_toNat_le] at h
  have hx : 128 ≤ x.toNat := h
  rw [shiftRight_toNat]
  omega

/-- `while x >= 0x80`, pushing to a vector. -/
def push (out : List UInt8) (x : UInt64) : List UInt8 :=
  if x ≥ 0x80 then push (out ++ [x.toUInt8 ||| 0x80]) (x >>> 7) else out ++ [x.toUInt8]
termination_by x.toNat
decreasing_by exact shiftRight_lt ‹_›

theorem push_eq (out : List UInt8) (x : UInt64) : push out x = out ++ encode x := by
  fun_induction push out x with
  | case1 out x hlarge ih =>
      rw [ih, encode_eq x, if_pos hlarge, List.append_assoc, List.singleton_append]
  | case2 out x hsmall => rw [encode_eq x, if_neg hsmall]

end Encoding

end DirtybirdMiner.Lib.Uvarint
