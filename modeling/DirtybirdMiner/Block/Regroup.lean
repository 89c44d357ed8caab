import DirtybirdMiner.Block.Polymod
import DirtybirdMiner.Lib.Digits

/-!
The regrouping of bits between bytes and the symbols of an address string, `convertbits` of
`block/src/bech32.rs`.  The accumulator keeps all bits and loses the oldest ones at the top of
the word; only the last few count.
-/

namespace DirtybirdMiner.Block.Regroup

open DirtybirdMiner.Lib.Digits
open DirtybirdMiner.Block.Polymod (I64)

inductive Bech32Error where
  | invalidHrp (hrp : List Char)
  | mixedCase
  | separator (pos : Int) (len : Nat)
  | invalidDataChar
  | invalidDataValue (idx : Nat)
  | invalidChecksum
  | invalidDataRange
  | nonZeroPadding
  | illegalZeroPadding
deriving DecidableEq

def Bech32Error.message : Bech32Error → String
  | invalidHrp hrp => "invalid hrp: " ++ String.ofList hrp
  | mixedCase => "mixed case"
  | separator pos len =>
      "separator '1' at invalid position: pos=" ++ toString pos ++ ", len=" ++ toString len
  | invalidDataChar => "invalid character in data part"
  | invalidDataValue idx => "invalid data value: " ++ toString idx
  | invalidChecksum => "invalid checksum"
  | invalidDataRange => "invalid data range"
  | nonZeroPadding => "non-zero padding"
  | illegalZeroPadding => "illegal zero padding"

section Model

/-- `(1 << tobits) - 1`. -/
def maxv (tobits : Nat) : I64 := (1#64 <<< tobits) - 1#64

/-- `while bits >= tobits`, for at most some turns: the groups, and the bits that are left. -/
def emit (tobits : Nat) (acc : I64) : Nat → Nat → List I64 × Nat
  | 0, bits => ([], bits)
  | turns + 1, bits =>
      if bits ≥ tobits then
        let (ret, left) := emit tobits acc turns (bits - tobits)
        ((acc.sshiftRight (bits - tobits) &&& maxv tobits) :: ret, left)
      else ([], bits)

/-- `value < 0 || (value >> frombits) != 0`. -/
def outOfRange (frombits : Nat) (value : I64) : Bool :=
  value.slt 0#64 || value.sshiftRight frombits ≠ 0#64

/-- The loop over the data, from some state on.  Every turn of the inner loop takes a bit. -/
def groups (frombits tobits : Nat) :
    I64 → Nat → List I64 → List I64 → Except Bech32Error (I64 × Nat × List I64)
  | acc, bits, ret, [] => .ok (acc, bits, ret)
  | acc, bits, ret, value :: data =>
      if outOfRange frombits value then .error .invalidDataRange
      else
        let acc := (acc <<< frombits) ||| value
        let (more, left) := emit tobits acc (bits + frombits) (bits + frombits)
        groups frombits tobits acc left (ret ++ more) data

def convertbits (data : List I64) (frombits tobits : Nat) (pad : Bool) :
    Except Bech32Error (List I64) := do
  let (acc, bits, ret) ← groups frombits tobits 0 0 [] data
  if pad then
    if bits > 0 then .ok (ret ++ [(acc <<< (tobits - bits)) &&& maxv tobits]) else .ok ret
  else if bits ≥ frombits then .error .illegalZeroPadding
  else if (acc <<< (tobits - bits)) &&& maxv tobits ≠ 0 then .error .nonZeroPadding
  else .ok ret

end Model

section Words

theorem maxv_toNat {tobits : Nat} (h : tobits < 64) : (maxv tobits).toNat = 2 ^ tobits - 1 := by
  have hone : (1#64 <<< tobits).toNat = 2 ^ tobits := by
    rw [BitVec.toNat_shiftLeft, Nat.shiftLeft_eq]
    change 1 * 2 ^ tobits % 2 ^ 64 = 2 ^ tobits
    rw [Nat.one_mul, Nat.mod_eq_of_lt (Nat.pow_lt_pow_right (by decide) h)]
  have hle : 1#64 ≤ 1#64 <<< tobits := by
    rw [BitVec.le_def, hone]
    exact Nat.one_le_two_pow
  rw [maxv, BitVec.toNat_sub_of_le hle, hone]
  rfl

theorem and_maxv_toNat (a : I64) {tobits : Nat} (h : tobits < 64) :
    (a &&& maxv tobits).toNat = a.toNat % 2 ^ tobits := by
  rw [BitVec.toNat_and, maxv_toNat h, Nat.and_two_pow_sub_one_eq_mod]

/-- The sign does not reach the bits that are taken. -/
theorem sshiftRight_mod (a : I64) {n k : Nat} (h : n + k ≤ 64) :
    (a.sshiftRight n).toNat % 2 ^ k = a.toNat / 2 ^ n % 2 ^ k := by
  apply Nat.eq_of_testBit_eq
  intro i
  rw [Nat.testBit_mod_two_pow, Nat.testBit_mod_two_pow]
  rcases Nat.lt_or_ge i k with hlt | hge
  · rw [BitVec.testBit_toNat, BitVec.getLsbD_sshiftRight, ← Nat.shiftRight_eq_div_pow,
      Nat.testBit_shiftRight, BitVec.testBit_toNat]
    simp [hlt, show i < 64 by omega, show n + i < 64 by omega]
  · simp [Nat.not_lt.mpr hge]

theorem outOfRange_iff (value : I64) {frombits : Nat} (h : frombits < 63) :
    outOfRange frombits value = false ↔ value.toNat < 2 ^ frombits := by
  rw [outOfRange, Bool.or_eq_false_iff]
  rw [BitVec.slt_zero_eq_msb, decide_eq_false_iff_not, not_not]
  constructor
  · rintro ⟨hmsb, hshift⟩
    rw [BitVec.sshiftRight_eq_of_msb_false hmsb] at hshift
    have hzero := congrArg BitVec.toNat hshift
    rw [BitVec.toNat_ushiftRight, Nat.shiftRight_eq_div_pow] at hzero
    exact (Nat.div_eq_zero_iff_lt (Nat.two_pow_pos _)).mp hzero
  · intro hlt
    have hmsb : value.msb = false := by
      rw [BitVec.msb_eq_false_iff_two_mul_lt]
      have : 2 ^ frombits ≤ 2 ^ 62 := Nat.pow_le_pow_right (by decide) (by omega)
      omega
    refine ⟨hmsb, ?_⟩
    rw [BitVec.sshiftRight_eq_of_msb_false hmsb]
    apply BitVec.eq_of_toNat_eq
    rw [BitVec.toNat_ushiftRight, Nat.shiftRight_eq_div_pow, Nat.div_eq_of_lt hlt]
    rfl

/-- The new value stands behind the bits that were left. -/
theorem shift_or_mod (acc value : I64) {bits frombits : Nat} (hvalue : value.toNat < 2 ^ frombits)
    (h : bits + frombits ≤ 64) :
    ((acc <<< frombits) ||| value).toNat % 2 ^ (bits + frombits) =
      acc.toNat % 2 ^ bits * 2 ^ frombits + value.toNat := by
  rw [BitVec.toNat_or, BitVec.toNat_shiftLeft, Nat.or_mod_two_pow,
    Nat.mod_mod_of_dvd _ (Nat.pow_dvd_pow 2 h), Nat.shiftLeft_eq, pow_add,
    Nat.mul_mod_mul_right,
    Nat.mod_eq_of_lt (show value.toNat < 2 ^ bits * 2 ^ frombits from
      lt_of_lt_of_le hvalue (Nat.le_mul_of_pos_left _ (Nat.two_pow_pos _))),
    ← Nat.shiftLeft_eq, ← Nat.shiftLeft_add_eq_or_of_lt hvalue, Nat.shiftLeft_eq]

end Words

section Loops

variable {frombits tobits : Nat}

/-- The groups of the last `bits` bits of the accumulator. -/
theorem emit_spec (acc : I64) (hto : 0 < tobits) (hto' : tobits ≤ 8) {turns bits : Nat}
    (hturns : bits ≤ turns) (hbits : bits ≤ 64) :
    ∃ more left, emit tobits acc turns bits = (more, left) ∧ left < tobits ∧
      bits = tobits * more.length + left ∧ (∀ v ∈ more, v.toNat < 2 ^ tobits) ∧
      acc.toNat % 2 ^ bits = number tobits (more.map BitVec.toNat) * 2 ^ left +
        acc.toNat % 2 ^ left := by
  induction turns generalizing bits with
  | zero =>
      refine ⟨[], bits, rfl, by omega, by simp, by simp, by simp⟩
  | succ turns ih =>
      rw [emit]
      split
      · rename_i hge
        obtain ⟨more, left, heq, hleft, hlength, hsmall, hvalue⟩ :=
          @ih (bits - tobits) (by omega) (by omega)
        rw [heq]
        have hdigit : (acc.sshiftRight (bits - tobits) &&& maxv tobits).toNat =
            acc.toNat / 2 ^ (bits - tobits) % 2 ^ tobits := by
          rw [and_maxv_toNat _ (by omega), sshiftRight_mod _ (by omega)]
        refine ⟨_, left, rfl, hleft, ?_, ?_, ?_⟩
        · rw [List.length_cons, Nat.mul_add, Nat.mul_one]
          omega
        · rw [List.forall_mem_cons]
          refine ⟨?_, hsmall⟩
          rw [hdigit]
          exact Nat.mod_lt _ (Nat.two_pow_pos _)
        · rw [List.map_cons, number_cons, hdigit, List.length_map]
          have hsplit := mod_pow_add acc.toNat tobits (bits - tobits)
          rw [Nat.add_sub_cancel' hge] at hsplit
          rw [hsplit, hvalue, Nat.add_mul, Nat.add_assoc]
          congr 1
          rw [Nat.mul_assoc, ← pow_add, ← hlength]
      · rename_i hlt
        exact ⟨[], bits, rfl, by omega, by simp, by simp, by simp⟩

/-- What the state of the loop stands for. -/
structure Grouped (frombits tobits : Nat) (done : List I64) (acc : I64) (bits : Nat)
    (ret : List I64) : Prop where
  bits_lt : bits < tobits
  length_eq : frombits * done.length = tobits * ret.length + bits
  ret_lt : ∀ v ∈ ret, v.toNat < 2 ^ tobits
  value_eq : number frombits (done.map BitVec.toNat) =
    number tobits (ret.map BitVec.toNat) * 2 ^ bits + acc.toNat % 2 ^ bits

theorem groups_spec (hfrom : frombits ≤ 8) (hto : 0 < tobits) (hto' : tobits ≤ 8)
    {data : List I64} (hdata : ∀ v ∈ data, v.toNat < 2 ^ frombits) {done ret : List I64} {acc : I64}
    {bits : Nat} (h : Grouped frombits tobits done acc bits ret) :
    ∃ acc' bits' ret', groups frombits tobits acc bits ret data = .ok (acc', bits', ret') ∧
      Grouped frombits tobits (done ++ data) acc' bits' ret' := by
  induction data generalizing done acc bits ret with
  | nil => exact ⟨acc, bits, ret, rfl, by rwa [List.append_nil]⟩
  | cons value data ih =>
      rw [List.forall_mem_cons] at hdata
      have hrange := (outOfRange_iff value (show frombits < 63 by omega)).mpr hdata.1
      have hbits := h.bits_lt
      obtain ⟨more, left, hemit, hleft, hlength, hsmall, hvalue⟩ :=
        emit_spec ((acc <<< frombits) ||| value) hto hto' (Nat.le_refl (bits + frombits)) (by omega)
      rw [shift_or_mod acc value hdata.1 (by omega)] at hvalue
      have hnext : Grouped frombits tobits (done ++ [value]) ((acc <<< frombits) ||| value) left
          (ret ++ more) := by
        refine ⟨hleft, ?_, ?_, ?_⟩
        · have := h.length_eq
          rw [List.length_append, List.length_append, List.length_singleton, Nat.mul_add,
            Nat.mul_one, Nat.mul_add]
          omega
        · intro v hv
          rcases List.mem_append.mp hv with hv | hv
          · exact h.ret_lt v hv
          · exact hsmall v hv
        · rw [List.map_append, List.map_singleton, number_concat, h.value_eq, List.map_append,
            number_append, List.length_map, Nat.add_mul, Nat.add_assoc, hvalue, Nat.add_mul,
            Nat.add_assoc]
          congr 1
          rw [Nat.mul_assoc, Nat.mul_assoc, ← pow_add, ← pow_add, hlength]
      obtain ⟨acc', bits', ret', hrun, hgrouped⟩ := ih hdata.2 hnext
      rw [List.append_assoc, List.singleton_append] at hgrouped
      refine ⟨acc', bits', ret', ?_, hgrouped⟩
      rw [groups, if_neg (by rw [hrange]; exact Bool.false_ne_true)]
      dsimp only
      rw [hemit]
      exact hrun

theorem groups_eq_ok (hfrom : frombits ≤ 8) {data : List I64} {acc : I64} {bits : Nat}
    {ret : List I64} {r : I64 × Nat × List I64}
    (h : groups frombits tobits acc bits ret data = .ok r) :
    ∀ v ∈ data, v.toNat < 2 ^ frombits := by
  induction data generalizing acc bits ret with
  | nil => simp
  | cons value data ih =>
      rw [groups] at h
      split at h
      · cases h
      rename_i hrange
      rw [List.forall_mem_cons]
      refine ⟨(outOfRange_iff value (by omega)).mp (by simpa using hrange), ?_⟩
      exact ih h

theorem groups_rejects (hfrom : frombits ≤ 8) {data : List I64}
    (hdata : ∃ v ∈ data, 2 ^ frombits ≤ v.toNat) (acc : I64) (bits : Nat) (ret : List I64) :
    groups frombits tobits acc bits ret data = .error .invalidDataRange := by
  induction data generalizing acc bits ret with
  | nil => simp at hdata
  | cons value data ih =>
      rw [groups]
      split
      · rfl
      · rename_i hrange
        have hvalue : value.toNat < 2 ^ frombits :=
          (outOfRange_iff value (show frombits < 63 by omega)).mp (by simpa using hrange)
        obtain ⟨v, hv, hlarge⟩ := hdata
        rcases List.mem_cons.mp hv with rfl | hv
        · omega
        · exact ih ⟨v, hv, hlarge⟩ _ _ _

theorem grouped_start (hto : 0 < tobits) : Grouped frombits tobits [] 0 0 [] :=
  ⟨hto, by simp, by simp, by simp⟩

end Loops

section Conversions

variable {frombits tobits : Nat}

/-- The bits that are left, moved to the top of a group. -/
theorem padding_toNat (acc : I64) {bits : Nat} (hbits : bits < tobits) (hto : tobits ≤ 8) :
    ((acc <<< (tobits - bits)) &&& maxv tobits).toNat =
      acc.toNat % 2 ^ bits * 2 ^ (tobits - bits) := by
  have hpow : 2 ^ tobits = 2 ^ bits * 2 ^ (tobits - bits) := by
    rw [← pow_add, Nat.add_sub_cancel' hbits.le]
  rw [and_maxv_toNat _ (by omega), BitVec.toNat_shiftLeft,
    Nat.mod_mod_of_dvd _ (Nat.pow_dvd_pow 2 (by omega)), Nat.shiftLeft_eq, hpow,
    Nat.mul_mod_mul_right]

/-- From bytes to symbols: the bits of the bytes, with zeros to fill the last symbol. -/
theorem convertbits_symbols {data : List I64} (hdata : ∀ v ∈ data, v.toNat < 2 ^ 8) :
    ∃ symbols fill, convertbits data 8 5 true = .ok symbols ∧
      (∀ v ∈ symbols, v.toNat < 2 ^ 5) ∧ fill < 5 ∧ 5 * symbols.length = 8 * data.length + fill ∧
      number 5 (symbols.map BitVec.toNat) = number 8 (data.map BitVec.toNat) * 2 ^ fill := by
  obtain ⟨acc, bits, ret, hrun, hgrouped⟩ :=
    @groups_spec _ 5 (by omega) (by omega) (by omega) _ hdata _ _ _ _ (grouped_start (by omega))
  rw [List.nil_append] at hgrouped
  have hbits := hgrouped.bits_lt
  have hlength := hgrouped.length_eq
  have hvalue := hgrouped.value_eq
  have hconvert : convertbits data 8 5 true =
      if bits > 0 then .ok (ret ++ [(acc <<< (5 - bits)) &&& maxv 5]) else .ok ret := by
    rw [convertbits, hrun]
    rfl
  rcases Nat.eq_zero_or_pos bits with hzero | hpos
  · rw [hconvert, if_neg (by omega)]
    refine ⟨ret, 0, rfl, hgrouped.ret_lt, by omega, by omega, ?_⟩
    rw [hvalue, hzero]
    simp [Nat.mod_one]
  · have hpad := padding_toNat acc hbits (by omega)
    rw [hconvert, if_pos hpos]
    refine ⟨_, 5 - bits, rfl, ?_, by omega, ?_, ?_⟩
    · intro v hv
      rcases List.mem_append.mp hv with hv | hv
      · exact hgrouped.ret_lt v hv
      · rw [List.mem_singleton.mp hv, and_maxv_toNat _ (by omega)]
        exact Nat.mod_lt _ (by decide)
    · rw [List.length_append, List.length_singleton]
      omega
    · rw [List.map_append, List.map_singleton, number_concat, hpad, hvalue, Nat.add_mul,
        Nat.mul_assoc, ← pow_add, Nat.add_sub_cancel' hbits.le]

/-- From symbols to bytes: nothing but zeros may be left, and less than a symbol of them. -/
theorem convertbits_bytes {symbols : List I64} (hsymbols : ∀ v ∈ symbols, v.toNat < 2 ^ 5) :
    ∃ acc bits ret, Grouped 5 8 symbols acc bits ret ∧
      convertbits symbols 5 8 false =
        if bits ≥ 5 then .error .illegalZeroPadding
        else if acc.toNat % 2 ^ bits ≠ 0 then .error .nonZeroPadding else .ok ret := by
  obtain ⟨acc, bits, ret, hrun, hgrouped⟩ :=
    @groups_spec _ 8 (by omega) (by omega) (by omega) _ hsymbols _ _ _ _ (grouped_start (by omega))
  rw [List.nil_append] at hgrouped
  refine ⟨acc, bits, ret, hgrouped, ?_⟩
  have hbits := hgrouped.bits_lt
  have hpad := padding_toNat acc hbits (Nat.le_refl 8)
  have hzero : (acc <<< (8 - bits)) &&& maxv 8 = 0 ↔ acc.toNat % 2 ^ bits = 0 := by
    constructor
    · intro h
      rw [h] at hpad
      exact (Nat.mul_eq_zero.mp hpad.symm).resolve_right (Nat.two_pow_pos _).ne'
    · intro h
      apply BitVec.eq_of_toNat_eq
      rw [hpad, h, Nat.zero_mul]
      rfl
  rw [convertbits, hrun]
  change (if bits ≥ 5 then _ else if (acc <<< (8 - bits)) &&& maxv 8 ≠ 0 then _ else _) = _
  simp only [Ne, hzero]

/-- Bytes survive the way to symbols and back. -/
theorem convertbits_roundTrip {data symbols : List I64} (hdata : ∀ v ∈ data, v.toNat < 2 ^ 8)
    (h : convertbits data 8 5 true = .ok symbols) : convertbits symbols 5 8 false = .ok data := by
  obtain ⟨symbols', fill, hsome, hsmall, hfill, hlength, hnumber⟩ := convertbits_symbols hdata
  rw [h] at hsome
  cases hsome
  obtain ⟨acc, bits, ret, hgrouped, hback⟩ := convertbits_bytes hsmall
  have hbits := hgrouped.bits_lt
  have hlen := hgrouped.length_eq
  have hvalue := hgrouped.value_eq
  obtain ⟨rfl, hret⟩ : bits = fill ∧ ret.length = data.length := by omega
  have hrest : acc.toNat % 2 ^ bits = 0 := by
    have hmod := congrArg (· % 2 ^ bits) (hnumber.symm.trans hvalue)
    simpa using hmod.symm
  have hsame : number 8 (ret.map BitVec.toNat) = number 8 (data.map BitVec.toNat) := by
    rw [hnumber, hrest, Nat.add_zero] at hvalue
    exact Nat.eq_of_mul_eq_mul_right (Nat.two_pow_pos bits) hvalue.symm
  have hmap : ret.map BitVec.toNat = data.map BitVec.toNat := by
    refine number_injective (by simpa using hret) ?_ ?_ hsame
    · intro d hd
      obtain ⟨v, hv, rfl⟩ := List.mem_map.mp hd
      exact hgrouped.ret_lt v hv
    · intro d hd
      obtain ⟨v, hv, rfl⟩ := List.mem_map.mp hd
      exact hdata v hv
  have hequal : ret = data := (List.map_inj_right fun _ _ => BitVec.eq_of_toNat_eq).mp hmap
  rw [hback, if_neg (by omega), if_neg (by rw [hrest]; simp), hequal]

/-- What bytes come from symbols: at least one if there was a symbol. -/
theorem convertbits_bytes_ok {symbols bytes : List I64}
    (h : convertbits symbols 5 8 false = .ok bytes) :
    (∀ v ∈ bytes, v.toNat < 2 ^ 8) ∧ (symbols ≠ [] → bytes ≠ []) := by
  have hsymbols : ∀ v ∈ symbols, v.toNat < 2 ^ 5 := by
    cases hrun : groups 5 8 0 0 [] symbols with
    | error e =>
        rw [convertbits, hrun] at h
        cases h
    | ok r => exact groups_eq_ok (by omega) hrun
  obtain ⟨acc, bits, ret, hgrouped, hback⟩ := convertbits_bytes hsymbols
  rw [h] at hback
  split at hback
  · cases hback
  rename_i hbits
  split at hback
  · cases hback
  cases hback
  refine ⟨hgrouped.ret_lt, ?_⟩
  rintro hne rfl
  have hlength := hgrouped.length_eq
  have hpos := List.length_pos_iff.mpr hne
  rw [List.length_nil] at hlength
  omega

/-- What the last whole byte of some symbols leaves. -/
def leftover (symbols : List I64) : Nat :=
  number 5 (symbols.map BitVec.toNat) % 2 ^ (5 * symbols.length % 8)

theorem Grouped.bits_eq {symbols ret : List I64} {acc : I64} {bits : Nat}
    (h : Grouped 5 8 symbols acc bits ret) : bits = 5 * symbols.length % 8 := by
  have hlength := h.length_eq
  have hbits := h.bits_lt
  omega

theorem Grouped.leftover_eq {symbols ret : List I64} {acc : I64} {bits : Nat}
    (h : Grouped 5 8 symbols acc bits ret) : leftover symbols = acc.toNat % 2 ^ bits := by
  rw [leftover, ← h.bits_eq, h.value_eq, Nat.mul_add_mod_self_right, Nat.mod_mod]

theorem convertbits_bytes_iff {symbols : List I64} (hsymbols : ∀ v ∈ symbols, v.toNat < 2 ^ 5) :
    (∃ bytes, convertbits symbols 5 8 false = .ok bytes) ↔
      5 * symbols.length % 8 < 5 ∧ leftover symbols = 0 := by
  obtain ⟨acc, bits, ret, hgrouped, hback⟩ := convertbits_bytes hsymbols
  rw [hback, ← hgrouped.bits_eq, hgrouped.leftover_eq]
  constructor
  · rintro ⟨bytes, h⟩
    split at h
    · cases h
    rename_i hbits
    split at h
    · cases h
    rename_i hrest
    exact ⟨Nat.lt_of_not_le hbits, not_not.mp hrest⟩
  · rintro ⟨hbits, hrest⟩
    refine ⟨ret, ?_⟩
    rw [if_neg (Nat.not_le.mpr hbits), if_neg (not_not.mpr hrest)]

/-- Symbols survive the way to bytes and back. -/
theorem convertbits_back {symbols bytes : List I64} (hsymbols : ∀ v ∈ symbols, v.toNat < 2 ^ 5)
    (h : convertbits symbols 5 8 false = .ok bytes) :
    convertbits bytes 8 5 true = .ok symbols := by
  obtain ⟨hfew, hzero⟩ := (convertbits_bytes_iff hsymbols).mp ⟨bytes, h⟩
  obtain ⟨acc, bits, ret, hgrouped, hback⟩ := convertbits_bytes hsymbols
  rw [← hgrouped.bits_eq] at hfew
  rw [hgrouped.leftover_eq] at hzero
  rw [hback, if_neg (Nat.not_le.mpr hfew), if_neg (not_not.mpr hzero)] at h
  cases h
  obtain ⟨symbols', fill, hsome, hsmall, hfill, hlength, hnumber⟩ :=
    convertbits_symbols hgrouped.ret_lt
  have hlen := hgrouped.length_eq
  have hvalue := hgrouped.value_eq
  rw [hzero, Nat.add_zero] at hvalue
  obtain ⟨rfl, hsame⟩ : bits = fill ∧ symbols'.length = symbols.length := by omega
  have hmap : symbols'.map BitVec.toNat = symbols.map BitVec.toNat := by
    refine number_injective (by simpa using hsame) ?_ ?_ (hnumber.trans hvalue.symm)
    · intro d hd
      obtain ⟨v, hv, rfl⟩ := List.mem_map.mp hd
      exact hsmall v hv
    · intro d hd
      obtain ⟨v, hv, rfl⟩ := List.mem_map.mp hd
      exact hsymbols v hv
  rw [hsome, (List.map_inj_right fun _ _ => BitVec.eq_of_toNat_eq).mp hmap]

theorem convertbits_rejects {data : List I64} (hfrom : frombits ≤ 8)
    (hdata : ∃ v ∈ data, 2 ^ frombits ≤ v.toNat) (pad : Bool) :
    convertbits data frombits tobits pad = .error .invalidDataRange := by
  rw [convertbits, groups_rejects hfrom hdata]
  rfl

/-- The regrouping in both directions.  The values are words as unsigned numbers, so that negative
ones are out of range. -/
theorem regroup_exact :
    (∀ bytes : List I64, (∀ v ∈ bytes, v.toNat < 2 ^ 8) →
      ∃ symbols, convertbits bytes 8 5 true = .ok symbols ∧
        symbols.length = (8 * bytes.length + 4) / 5 ∧ (∀ v ∈ symbols, v.toNat < 2 ^ 5) ∧
        convertbits symbols 5 8 false = .ok bytes) ∧
    (∀ symbols : List I64, (∀ v ∈ symbols, v.toNat < 2 ^ 5) →
      ((∃ bytes, convertbits symbols 5 8 false = .ok bytes) ↔
        5 * symbols.length % 8 < 5 ∧ leftover symbols = 0) ∧
      ∀ bytes, convertbits symbols 5 8 false = .ok bytes →
        (∀ v ∈ bytes, v.toNat < 2 ^ 8) ∧ convertbits bytes 8 5 true = .ok symbols) ∧
    (∀ bytes : List I64, (∃ v ∈ bytes, 2 ^ 8 ≤ v.toNat) →
      convertbits bytes 8 5 true = .error .invalidDataRange) ∧
    ∀ symbols : List I64, (∃ v ∈ symbols, 2 ^ 5 ≤ v.toNat) →
      convertbits symbols 5 8 false = .error .invalidDataRange := by
  refine ⟨?_, ?_, ?_, ?_⟩
  · intro bytes hbytes
    obtain ⟨symbols, fill, hsome, hsmall, hfill, hlength, -⟩ := convertbits_symbols hbytes
    exact ⟨symbols, hsome, by omega, hsmall, convertbits_roundTrip hbytes hsome⟩
  · intro symbols hsymbols
    refine ⟨convertbits_bytes_iff hsymbols, ?_⟩
    intro bytes h
    exact ⟨(convertbits_bytes_ok h).1, convertbits_back hsymbols h⟩
  · intro bytes hbytes
    exact convertbits_rejects (by decide) hbytes true
  · intro symbols hsymbols
    exact convertbits_rejects (by decide) hsymbols false

end Conversions

end DirtybirdMiner.Block.Regroup
