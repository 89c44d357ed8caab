import DirtybirdMiner.Block.TransactionForms
import DirtybirdMiner.Crypto.Balances

/-!
The copies of the varint codec, from `block/src/varint.rs`, `crypto/src/read.rs`,
`crypto/src/statement.rs` and `crypto/src/elgamal.rs`, loop by loop and with the check of
every shift, and how far they agree.
-/

namespace DirtybirdMiner.Block.Varints

open DirtybirdMiner.Lib
open DirtybirdMiner.Lib.Uvarint (UvarintError)
open DirtybirdMiner.Lib.Readers
open DirtybirdMiner.Crypto.Statements (PointCodec)
open DirtybirdMiner.Crypto.Balances

section Loops

/-- `put_uvarint` of `block/src/varint.rs`. -/
def putUvarint (out : List UInt8) (x : UInt64) : List UInt8 := Uvarint.push out x

/-- `put_uvarint` of `crypto/src/statement.rs`. -/
def statementPutUvarint (out : List UInt8) (x : UInt64) : List UInt8 := Uvarint.push out x

/-- The loop of `read_uvarint` in `block/src/varint.rs`, from the `i`-th byte on. -/
def readUvarintFrom : Nat → UInt64 → Nat → List UInt8 → Option (UInt64 × Nat)
  | _, _, _, [] => some (0, 0)
  | s, x, i, b :: bytes =>
      if i = 10 then some (0, 0)
      else if b < 0x80 then
        if i = 9 ∧ b > 1 then some (0, 0)
        else do
          let part ← shiftLeft b.toUInt64 s
          some (x ||| part, i + 1)
      else do
        let part ← shiftLeft (b &&& 0x7f).toUInt64 s
        readUvarintFrom (s + 7) (x ||| part) (i + 1) bytes

def readUvarint (buf : List UInt8) : Option (UInt64 × Nat) := readUvarintFrom 0 0 0 buf

/-- The loop of `read_uvarint` in `crypto/src/read.rs`: the value and what is left of the
cursor. -/
def cursorUvarintFrom :
    Nat → UInt64 → Nat → List UInt8 → Option (Except String (UInt64 × List UInt8))
  | _, _, _, [] => some (.error "varint: short read")
  | s, x, i, b :: bytes =>
      if i = 10 then some (.error "varint: overflow")
      else if b < 0x80 then
        if i = 9 ∧ b > 1 then some (.error "varint: overflow")
        else do
          let part ← shiftLeft b.toUInt64 s
          some (.ok (x ||| part, bytes))
      else do
        let part ← shiftLeft (b &&& 0x7f).toUInt64 s
        cursorUvarintFrom (s + 7) (x ||| part) (i + 1) bytes

def cursorUvarint (r : List UInt8) : Option (Except String (UInt64 × List UInt8)) :=
  cursorUvarintFrom 0 0 0 r

end Loops

section Agreement

/-- What is taken from the front of some bytes: a value and its number of bytes. -/
abbrev Taken : Type := Option (UInt64 × Nat)

/-- No bytes are taken on an error. -/
def takenByBlock (buf : List UInt8) : Option Taken := do
  let (v, n) ← readUvarint buf
  some (if n = 0 then none else some (v, n))

def takenByCursor (buf : List UInt8) : Option Taken := do
  match ← cursorUvarint buf with
  | .error _ => some none
  | .ok (v, rest) => some (some (v, buf.length - rest.length))

def takenByNonce (buf : List UInt8) : Option Taken := do
  match ← readNonceHeight buf with
  | .error _ => some none
  | .ok (v, n) => some (some (v, n))

/-- The decoders return, without a shift too far, and take the same bytes as the same number;
they take nothing but forms of at most ten bytes. -/
def Agree (buf : List UInt8) : Prop :=
  ∃ taken : Taken, takenByBlock buf = some taken ∧ takenByCursor buf = some taken ∧
    takenByNonce buf = some taken ∧
    ∀ v n, taken = some (v, n) → n ≤ buf.length ∧ Uvarint.Form (buf.take n) v

/-- The number ends within the ten bytes that it may have, or the bytes do. -/
def Bounded (buf : List UInt8) : Prop :=
  (∃ groups rest, buf = groups ++ rest ∧ Uvarint.Groups 9 groups) ∨
    buf.length ≤ 10 ∧ ∀ b ∈ buf, 0x80 ≤ b

/-- What the checked decoder of the library takes. -/
def takenByDecode (buf : List UInt8) : Taken :=
  match Uvarint.decode buf with
  | .error _ => none
  | .ok r => some r

theorem readUvarintFrom_eq (bytes : List UInt8) {i : Nat} (x : UInt64) (hi : i ≤ 10) :
    readUvarintFrom (7 * i) x i bytes =
      some (match Uvarint.decodeFrom i x bytes with
        | .error _ => (0, 0)
        | .ok r => r) := by
  induction bytes generalizing i x with
  | nil => rfl
  | cons b bytes ih =>
      rw [readUvarintFrom, Uvarint.decodeFrom]
      split
      · rfl
      rename_i hten
      have hshift : 7 * i < 64 := by omega
      split
      · split
        · rfl
        · rw [shiftLeft_eq_some hshift]
          rfl
      · rw [shiftLeft_eq_some hshift]
        exact ih _ (i := i + 1) (by omega)

theorem cursorUvarintFrom_eq (bytes : List UInt8) {i : Nat} (x : UInt64) (hi : i ≤ 10) :
    cursorUvarintFrom (7 * i) x i bytes =
      some (match Uvarint.decodeFrom i x bytes with
        | .error .incomplete => .error "varint: short read"
        | .error .overflow => .error "varint: overflow"
        | .ok (v, n) => .ok (v, bytes.drop (n - i))) := by
  induction bytes generalizing i x with
  | nil => rfl
  | cons b bytes ih =>
      rw [cursorUvarintFrom, Uvarint.decodeFrom]
      split
      · rfl
      rename_i hten
      have hshift : 7 * i < 64 := by omega
      split
      · split
        · rfl
        · rw [shiftLeft_eq_some hshift]
          simp
      · rw [shiftLeft_eq_some hshift]
        refine (ih _ (i := i + 1) (by omega)).trans ?_
        cases hdecode : Uvarint.decodeFrom (i + 1)
            (x ||| (b &&& 0x7f).toUInt64 <<< UInt64.ofNat (7 * i)) bytes with
        | error e => cases e <;> rfl
        | ok r =>
            have hn : i + 1 < r.2 := Uvarint.lt_of_decodeFrom hdecode
            dsimp only
            rw [show r.2 - i = r.2 - (i + 1) + 1 by omega, List.drop_succ_cons]

/-- The loop of the block crate computes the function that transactions are read with. -/
theorem readUvarint_eq (buf : List UInt8) :
    readUvarint buf = some (Transactions.readUvarint buf) :=
  readUvarintFrom_eq buf 0 (i := 0) (Nat.zero_le 10)

theorem takenByBlock_eq (buf : List UInt8) : takenByBlock buf = some (takenByDecode buf) := by
  rw [takenByBlock, readUvarint_eq, Transactions.readUvarint, takenByDecode]
  cases hdecode : Uvarint.decode buf with
  | error e => rfl
  | ok r =>
      have hn : 0 < r.2 := Uvarint.lt_of_decodeFrom hdecode
      simp [Nat.ne_of_gt hn]

theorem takenByCursor_eq (buf : List UInt8) : takenByCursor buf = some (takenByDecode buf) := by
  have hloop := cursorUvarintFrom_eq buf 0 (i := 0) (Nat.zero_le 10)
  rw [Nat.mul_zero] at hloop
  rw [takenByCursor, cursorUvarint, hloop, takenByDecode, Uvarint.decode]
  cases hdecode : Uvarint.decodeFrom 0 0 buf with
  | error e => cases e <;> rfl
  | ok r =>
      obtain ⟨groups, rest, hbuf, hn, -⟩ := Uvarint.form_of_decode (v := r.1) (n := r.2) hdecode
      have hle : r.2 ≤ buf.length := by simp [hbuf, hn]
      simp [Nat.sub_sub_self hle]

theorem takenByDecode_form {buf : List UInt8} {v : UInt64} {n : Nat}
    (h : takenByDecode buf = some (v, n)) : n ≤ buf.length ∧ Uvarint.Form (buf.take n) v := by
  unfold takenByDecode at h
  split at h
  · cases h
  · rename_i r hdecode
    cases h
    obtain ⟨groups, rest, rfl, rfl, hform⟩ := Uvarint.form_of_decode hdecode
    rw [List.take_left]
    exact ⟨by simp, hform⟩

theorem not_lt_iff {b : UInt8} : ¬b < 0x80 ↔ 0x80 ≤ b := UInt8.not_lt

/-- The decoders agree on exactly the bounded inputs: the one without a limit goes on where
the others stop. -/
theorem agree_iff (buf : List UInt8) : Agree buf ↔ Bounded buf := by
  have hlimit : Agree buf ↔ takenByNonce buf = some (takenByDecode buf) := by
    constructor
    · rintro ⟨taken, hblock, -, hnonce, -⟩
      rw [takenByBlock_eq] at hblock
      rw [hnonce, hblock]
    · intro hnonce
      exact ⟨_, takenByBlock_eq buf, takenByCursor_eq buf, hnonce,
        fun v n => takenByDecode_form⟩
  rw [hlimit]
  constructor
  · intro hnonce
    cases hdecode : Uvarint.decode buf with
    | ok r =>
        obtain ⟨groups, rest, hbuf, -, hform⟩ :=
          Uvarint.form_of_decode (v := r.1) (n := r.2) hdecode
        exact .inl ⟨groups, rest, hbuf, hform.1⟩
    | error e =>
        rw [takenByDecode, hdecode, takenByNonce] at hnonce
        refine .inr ?_
        cases hread : readNonceHeight buf with
        | none => simp [hread] at hnonce
        | some read =>
            cases read with
            | ok r => simp [hread] at hnonce
            | error e' =>
                obtain ⟨hlen, hhigh⟩ :=
                  high_of_nonceHeightFrom (i := 0) hread (Nat.zero_le 10)
                exact ⟨by omega, fun b hb => not_lt_iff.mp (hhigh b hb)⟩
  · rintro (⟨groups, rest, rfl, hgroups⟩ | ⟨hlen, hhigh⟩)
    · have hlt := Uvarint.groupsValue_lt_of_groups hgroups
      have hform : Uvarint.Form groups (UInt64.ofNat (Uvarint.groupsValue groups)) := by
        refine ⟨hgroups, ?_⟩
        rw [UInt64.toNat_ofNat', Nat.mod_eq_of_lt hlt]
      have hdecode := Uvarint.decode_of_form hform rest
      have hnonce : readNonceHeight (groups ++ rest) = _ :=
        nonceHeightFrom_of_decodeFrom (i := 0) hdecode (Nat.zero_le 10)
      rw [takenByNonce, hnonce, takenByDecode, hdecode]
      rfl
    · have hnonce : readNonceHeight buf = _ :=
        nonceHeightFrom_of_high (fun b hb => not_lt_iff.mpr (hhigh b hb)) (i := 0) (by omega)
      rw [takenByNonce, hnonce, takenByDecode]
      cases hdecode : Uvarint.decode buf with
      | error e => rfl
      | ok r =>
          have hread : readNonceHeight buf = some (.ok r) :=
            nonceHeightFrom_of_decodeFrom (i := 0) (v := r.1) (n := r.2) hdecode (Nat.zero_le 10)
          rw [hread] at hnonce
          cases hnonce

/-- What any of the encoders writes, all three decoders take back. -/
theorem taken_encode (x : UInt64) (rest : List UInt8) :
    takenByBlock (Uvarint.encode x ++ rest) = some (some (x, (Uvarint.encode x).length)) ∧
      takenByCursor (Uvarint.encode x ++ rest) = some (some (x, (Uvarint.encode x).length)) ∧
      takenByNonce (Uvarint.encode x ++ rest) = some (some (x, (Uvarint.encode x).length)) := by
  have hdecode : takenByDecode (Uvarint.encode x ++ rest) =
      some (x, (Uvarint.encode x).length) := by
    rw [takenByDecode, Uvarint.decode_encode]
  refine ⟨?_, ?_, ?_⟩
  · rw [takenByBlock_eq, hdecode]
  · rw [takenByCursor_eq, hdecode]
  · rw [takenByNonce, readNonceHeight_encode]
    rfl

/-- The codecs agree on the bounded inputs and on no others; what the encoders write is
bounded, and all of them write the same. -/
theorem varint_codecs_agree_iff (buf : List UInt8) :
    (Agree buf ↔ Bounded buf) ∧
    ∀ (G : Type) [PointCodec G] (x : UInt64) (rest : List UInt8) (balance : ElGamal G),
      let written := putUvarint [] x
      statementPutUvarint [] x = written ∧
      (NonceBalance.mk x balance).serialize = written ++ balance.serialize ∧
      takenByBlock (written ++ rest) = some (some (x, written.length)) ∧
      takenByCursor (written ++ rest) = some (some (x, written.length)) ∧
      takenByNonce (written ++ rest) = some (some (x, written.length)) := by
  refine ⟨agree_iff buf, ?_⟩
  intro G _ x rest balance
  have hwritten : putUvarint [] x = Uvarint.encode x := by
    rw [putUvarint, Uvarint.push_eq, List.nil_append]
  refine ⟨rfl, rfl, ?_⟩
  rw [hwritten]
  exact taken_encode x rest

/-- Nine bytes that go on and a tenth above one: the number does not fit. -/
def overlongNonce : List UInt8 := List.replicate 9 0x80 ++ [2]

/-- Two of the decoders refuse it, and the third takes it as the number zero. -/
theorem overlongNonce_not_agree :
    takenByBlock overlongNonce = some none ∧ takenByCursor overlongNonce = some none ∧
      takenByNonce overlongNonce = some (some (0, 10)) ∧ ¬Agree overlongNonce := by
  have hblock : takenByBlock overlongNonce = some none := by decide
  have hnonce : takenByNonce overlongNonce = some (some (0, 10)) := by decide
  refine ⟨hblock, by decide, hnonce, ?_⟩
  rintro ⟨taken, htaken, -, htaken', -⟩
  rw [hblock] at htaken
  rw [hnonce, ← htaken] at htaken'
  cases htaken'

/-- One more byte that goes on, and the shift is by seventy bits. -/
example : takenByNonce (List.replicate 10 0x80 ++ [1]) = none := by decide

end Agreement

end DirtybirdMiner.Block.Varints
