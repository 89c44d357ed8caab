import Mathlib.Data.List.GetD
import Mathlib.Data.List.Nodup
import Mathlib.Order.Basic
import Mathlib.Tactic.Common

/-!
`base64_encode`, from `src/ws.rs`, and the decoder that undoes it.
-/

namespace DirtybirdMiner.Ws.Base64

/-- `ALPHABET`. -/
def alphabet : List Char :=
  "ABCDEFGHIJKLMNOPQRSTUVWXYZabcdefghijklmnopqrstuvwxyz0123456789+/".toList

/-- `ALPHABET[n as usize & 0x3f]`. -/
def symbol (n : UInt32) : Char := alphabet.getD (n.toNat &&& 0x3f) '='

/-- The body of the loop. -/
def encodeChunk (chunk : List UInt8) : List Char :=
  let b0 := (chunk.getD 0 0).toUInt32
  let b1 := (chunk.getD 1 0).toUInt32
  let b2 := (chunk.getD 2 0).toUInt32
  let n := (b0 <<< 16) ||| (b1 <<< 8) ||| b2
  [symbol (n >>> 18), symbol (n >>> 12),
    if chunk.length > 1 then symbol (n >>> 6) else '=',
    if chunk.length > 2 then symbol n else '=']

/-- The loop over `data.chunks(3)`. -/
def base64Encode : List UInt8 → List Char
  | [] => []
  | [b0] => encodeChunk [b0]
  | [b0, b1] => encodeChunk [b0, b1]
  | b0 :: b1 :: b2 :: rest => encodeChunk [b0, b1, b2] ++ base64Encode rest

section Decoding

/-- The symbol of a value. -/
def symbolOf (v : Nat) : Char := alphabet.getD v '='

/-- The value of a symbol. -/
def value (c : Char) : Option Nat := alphabet.idxOf? c

/-- Three bytes from four values. -/
def bytesOf (v0 v1 v2 v3 : Nat) : List UInt8 :=
  [UInt8.ofNat (v0 * 4 + v1 / 16), UInt8.ofNat (v1 % 16 * 16 + v2 / 4),
    UInt8.ofNat (v2 % 4 * 64 + v3)]

/-- Padding stands only at the end, and no bits are set behind the last byte. -/
def base64Decode : List Char → Option (List UInt8)
  | [] => some []
  | c0 :: c1 :: c2 :: c3 :: rest => do
      let v0 ← value c0
      let v1 ← value c1
      if c3 = '=' ∧ rest = [] then
        if c2 = '=' then
          if v1 % 16 = 0 then some ((bytesOf v0 v1 0 0).take 1) else none
        else do
          let v2 ← value c2
          if v2 % 4 = 0 then some ((bytesOf v0 v1 v2 0).take 2) else none
      else do
        let v2 ← value c2
        let v3 ← value c3
        let bytes ← base64Decode rest
        some (bytesOf v0 v1 v2 v3 ++ bytes)
  | _ => none

theorem alphabet_length : alphabet.length = 64 := by decide

theorem alphabet_nodup : alphabet.Nodup := by decide

theorem padding_not_mem : '=' ∉ alphabet := by decide

theorem value_eq_some_iff {c : Char} {v : Nat} : value c = some v ↔ v < 64 ∧ symbolOf v = c := by
  have hentry : ∀ {i : Nat} (hi : i < alphabet.length), symbolOf i = alphabet[i] := fun hi =>
    List.getD_eq_getElem _ _ hi
  refine List.idxOf?_eq_some_iff.trans ⟨?_, ?_⟩
  · rintro ⟨hv, hc, -⟩
    exact ⟨alphabet_length ▸ hv, (hentry hv).trans hc⟩
  · rintro ⟨hv, hc⟩
    have hlt : v < alphabet.length := alphabet_length.symm ▸ hv
    rw [hentry hlt] at hc
    refine ⟨hlt, hc, fun j hj heq => ?_⟩
    exact (Nat.ne_of_lt hj) ((alphabet_nodup.getElem_inj_iff).mp (heq.trans hc.symm))

theorem value_symbolOf {v : Nat} (hv : v < 64) : value (symbolOf v) = some v :=
  value_eq_some_iff.mpr ⟨hv, rfl⟩

theorem symbolOf_ne_padding {v : Nat} (hv : v < 64) : symbolOf v ≠ '=' := by
  intro h
  apply padding_not_mem
  rw [← h, symbolOf, List.getD_eq_getElem _ _ (alphabet_length.symm ▸ hv)]
  exact List.getElem_mem _

theorem symbol_eq (n : UInt32) : symbol n = symbolOf (n.toNat % 64) := by
  rw [symbol, symbolOf, show (0x3f : Nat) = 2 ^ 6 - 1 from rfl, Nat.and_two_pow_sub_one_eq_mod]

/-- The three bytes stand in different places of the number. -/
theorem chunk_toNat (b0 b1 b2 : UInt8) :
    (b0.toUInt32 <<< 16 ||| b1.toUInt32 <<< 8 ||| b2.toUInt32).toNat =
      (b0.toNat * 256 + b1.toNat) * 256 + b2.toNat := by
  have h0 := b0.toNat_lt
  have h1 := b1.toNat_lt
  have h2 : b2.toNat < 2 ^ 8 := b2.toNat_lt
  have hmiddle : b1.toNat * 2 ^ 8 < 2 ^ 16 := by omega
  simp only [UInt32.toNat_or, UInt32.toNat_shiftLeft, UInt8.toNat_toUInt32, UInt32.reduceToNat,
    Nat.reduceMod, Nat.shiftLeft_eq]
  have hhigh : b0.toNat * 2 ^ 16 % 2 ^ 32 = 2 ^ 16 * b0.toNat := by omega
  have hmid : b1.toNat * 2 ^ 8 % 2 ^ 32 = b1.toNat * 2 ^ 8 :=
    Nat.mod_eq_of_lt (Nat.lt_trans hmiddle (Nat.pow_lt_pow_right (by decide) (by decide)))
  rw [hhigh, hmid, ← Nat.two_pow_add_eq_or_of_lt hmiddle, show 2 ^ 16 * b0.toNat + b1.toNat * 2 ^ 8 =
      2 ^ 8 * (b0.toNat * 256 + b1.toNat) by omega, ← Nat.two_pow_add_eq_or_of_lt h2, Nat.mul_comm]

/-- The four values of a chunk. -/
theorem encodeChunk_eq (chunk : List UInt8) :
    encodeChunk chunk =
      [symbolOf ((chunk.getD 0 0).toNat / 4),
        symbolOf ((chunk.getD 0 0).toNat % 4 * 16 + (chunk.getD 1 0).toNat / 16),
        if chunk.length > 1 then
          symbolOf ((chunk.getD 1 0).toNat % 16 * 4 + (chunk.getD 2 0).toNat / 64) else '=',
        if chunk.length > 2 then symbolOf ((chunk.getD 2 0).toNat % 64) else '='] := by
  have h0 := (chunk.getD 0 0).toNat_lt
  have h1 := (chunk.getD 1 0).toNat_lt
  have h2 := (chunk.getD 2 0).toNat_lt
  simp only [encodeChunk, symbol_eq, UInt32.toNat_shiftRight, chunk_toNat, UInt32.reduceToNat,
    Nat.reduceMod, Nat.shiftRight_eq_div_pow]
  generalize (chunk.getD 0 0).toNat = x at h0 ⊢
  generalize (chunk.getD 1 0).toNat = y at h1 ⊢
  generalize (chunk.getD 2 0).toNat = z at h2 ⊢
  rw [show ((x * 256 + y) * 256 + z) / 2 ^ 18 % 64 = x / 4 by omega,
    show ((x * 256 + y) * 256 + z) / 2 ^ 12 % 64 = x % 4 * 16 + y / 16 by omega,
    show ((x * 256 + y) * 256 + z) / 2 ^ 6 % 64 = y % 16 * 4 + z / 64 by omega,
    show ((x * 256 + y) * 256 + z) % 64 = z % 64 by omega]

theorem bytesOf_split (x y z : UInt8) :
    bytesOf (x.toNat / 4) (x.toNat % 4 * 16 + y.toNat / 16) (y.toNat % 16 * 4 + z.toNat / 64)
      (z.toNat % 64) = [x, y, z] := by
  have hx := x.toNat_lt
  have hy := y.toNat_lt
  have hz := z.toNat_lt
  rw [bytesOf, show x.toNat / 4 * 4 + (x.toNat % 4 * 16 + y.toNat / 16) / 16 = x.toNat by omega,
    show (x.toNat % 4 * 16 + y.toNat / 16) % 16 * 16 + (y.toNat % 16 * 4 + z.toNat / 64) / 4 =
      y.toNat by omega,
    show (y.toNat % 16 * 4 + z.toNat / 64) % 4 * 64 + z.toNat % 64 = z.toNat by omega,
    UInt8.ofNat_toNat, UInt8.ofNat_toNat, UInt8.ofNat_toNat]

theorem base64Decode_encode (data : List UInt8) : base64Decode (base64Encode data) = some data := by
  induction data using base64Encode.induct with
  | case1 => rfl
  | case2 x =>
      have hx := x.toNat_lt
      have hsplit := bytesOf_split x 0 0
      simp only [UInt8.toNat_zero, Nat.zero_div, Nat.zero_mod, Nat.zero_mul, Nat.add_zero] at hsplit
      rw [base64Encode, encodeChunk_eq]
      simp only [List.getD_cons_zero, List.getD_cons_succ, List.getD_nil, UInt8.toNat_zero,
        Nat.zero_div, Nat.add_zero, List.length_cons, List.length_nil, base64Decode]
      rw [value_symbolOf (by omega), value_symbolOf (by omega)]
      simp [hsplit]
  | case3 x y =>
      have hx := x.toNat_lt
      have hy := y.toNat_lt
      have hsplit := bytesOf_split x y 0
      simp only [UInt8.toNat_zero, Nat.zero_div, Nat.zero_mod, Nat.add_zero] at hsplit
      rw [base64Encode, encodeChunk_eq]
      simp only [List.getD_cons_zero, List.getD_cons_succ, List.getD_nil, UInt8.toNat_zero,
        Nat.zero_div, Nat.add_zero, List.length_cons, List.length_nil, base64Decode]
      rw [if_pos (show 0 + 1 + 1 > 1 by decide), if_neg (show ¬0 + 1 + 1 > 2 by decide),
        value_symbolOf (by omega), value_symbolOf (by omega), value_symbolOf (by omega)]
      simp [hsplit, symbolOf_ne_padding (show y.toNat % 16 * 4 < 64 by omega)]
  | case4 x y z rest ih =>
      have hx := x.toNat_lt
      have hy := y.toNat_lt
      have hz := z.toNat_lt
      rw [base64Encode, encodeChunk_eq]
      simp only [List.getD_cons_zero, List.getD_cons_succ, List.length_cons, List.length_nil,
        List.cons_append, List.nil_append, base64Decode]
      rw [if_pos (show 0 + 1 + 1 + 1 > 1 by decide), if_pos (show 0 + 1 + 1 + 1 > 2 by decide),
        value_symbolOf (by omega), value_symbolOf (by omega), value_symbolOf (by omega), value_symbolOf (by omega), ih]
      simp [bytesOf_split, symbolOf_ne_padding (show z.toNat % 64 < 64 by omega)]

/-- Four values give three bytes that give them back. -/
theorem split_bytesOf {v0 v1 v2 v3 : Nat} (h0 : v0 < 64) (h1 : v1 < 64) (h2 : v2 < 64)
    (h3 : v3 < 64) :
    ∃ x y z, bytesOf v0 v1 v2 v3 = [x, y, z] ∧ x.toNat / 4 = v0 ∧
      x.toNat % 4 * 16 + y.toNat / 16 = v1 ∧ y.toNat % 16 * 4 + z.toNat / 64 = v2 ∧
      z.toNat % 64 = v3 ∧ x.toNat % 4 * 16 = v1 / 16 * 16 ∧ y.toNat % 16 * 4 = v2 / 4 * 4 := by
  refine ⟨_, _, _, rfl, ?_⟩
  rw [UInt8.toNat_ofNat', UInt8.toNat_ofNat', UInt8.toNat_ofNat']
  omega

theorem base64Encode_decode {s : List Char} {data : List UInt8} (h : base64Decode s = some data) :
    base64Encode data = s := by
  induction s using base64Decode.induct generalizing data with
  | case1 =>
      obtain rfl : [] = data := Option.some.inj h
      rfl
  | case2 c0 c1 c2 c3 rest ih =>
      rw [base64Decode] at h
      obtain ⟨v0, hv0, hrest⟩ := Option.bind_eq_some_iff.mp h
      obtain ⟨v1, hv1, hgroup⟩ := Option.bind_eq_some_iff.mp hrest
      obtain ⟨h0, rfl⟩ := value_eq_some_iff.mp hv0
      obtain ⟨h1, rfl⟩ := value_eq_some_iff.mp hv1
      split at hgroup
      · rename_i hlast
        obtain ⟨rfl, rfl⟩ := hlast
        split at hgroup
        · rename_i hc2
          obtain rfl := hc2
          split at hgroup
          · rename_i hbits
            obtain ⟨x, y, z, hbytes, hx, -, -, -, hxlow, -⟩ :=
              split_bytesOf h0 h1 (show 0 < 64 by decide) (show 0 < 64 by decide)
            rw [hbytes] at hgroup
            obtain rfl : [x] = data := Option.some.inj hgroup
            rw [base64Encode, encodeChunk_eq]
            simp [hx, hxlow, show v1 / 16 * 16 = v1 by omega]
          · cases hgroup
        · obtain ⟨v2, hv2, hpair⟩ := Option.bind_eq_some_iff.mp hgroup
          obtain ⟨h2, rfl⟩ := value_eq_some_iff.mp hv2
          split at hpair
          · rename_i hbits
            obtain ⟨x, y, z, hbytes, hx, hxy, -, -, -, hylow⟩ :=
              split_bytesOf h0 h1 h2 (show 0 < 64 by decide)
            rw [hbytes] at hpair
            obtain rfl : [x, y] = data := Option.some.inj hpair
            rw [base64Encode, encodeChunk_eq]
            simp [hx, hxy, hylow, show v2 / 4 * 4 = v2 by omega]
          · cases hpair
      · obtain ⟨v2, hv2, hthree⟩ := Option.bind_eq_some_iff.mp hgroup
        obtain ⟨v3, hv3, hfour⟩ := Option.bind_eq_some_iff.mp hthree
        obtain ⟨bytes, hbytes, hall⟩ := Option.bind_eq_some_iff.mp hfour
        obtain ⟨h2, rfl⟩ := value_eq_some_iff.mp hv2
        obtain ⟨h3, rfl⟩ := value_eq_some_iff.mp hv3
        obtain ⟨x, y, z, hsplit, hx, hxy, hyz, hz, -, -⟩ := split_bytesOf h0 h1 h2 h3
        rw [hsplit] at hall
        obtain rfl : x :: y :: z :: bytes = data := Option.some.inj hall
        rw [base64Encode, encodeChunk_eq, ih hbytes]
        simp [hx, hxy, hyz, hz]
  | case3 s hnil hcons =>
      rw [base64Decode] at h
      · cases h
      · exact hnil
      · exact hcons

/-- The encodings are exactly the strings that the decoder takes, and each of one list of
bytes; four symbols stand for three bytes, the last of them for what is left. -/
theorem base64_codec (data : List UInt8) (s : List Char) :
    (base64Decode s = some data ↔ s = base64Encode data) ∧
      (base64Encode data).length = (data.length + 2) / 3 * 4 := by
  refine ⟨⟨fun h => (base64Encode_decode h).symm, fun h => h ▸ base64Decode_encode data⟩, ?_⟩
  induction data using base64Encode.induct with
  | case1 => rfl
  | case2 x => simp [base64Encode, encodeChunk]
  | case3 x y => simp [base64Encode, encodeChunk]
  | case4 x y z rest ih =>
      rw [base64Encode, List.length_append, ih, encodeChunk_eq]
      simp only [List.length_cons, List.length_nil]
      omega

end Decoding

end DirtybirdMiner.Ws.Base64
