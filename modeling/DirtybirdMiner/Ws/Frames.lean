import DirtybirdMiner.Lib.Buffers
import Mathlib

/-!
Websocket frames, from `src/ws.rs`: `parse_frame` and `encode_frame`, and the
frames a peer may put on the wire.  `none` stands for a panic.
-/

namespace DirtybirdMiner.Ws.Frames

open DirtybirdMiner.Lib.Bytes
open DirtybirdMiner.Lib.Buffers

def opcodeContinuation : UInt8 := 0x0

def opcodeText : UInt8 := 0x1

def opcodeBinary : UInt8 := 0x2

def opcodeClose : UInt8 := 0x8

def opcodePing : UInt8 := 0x9

def opcodePong : UInt8 := 0xA

/-- `MAX_FRAME_PAYLOAD`. -/
def maxFramePayload : Nat := 16 * 1024 * 1024

structure RawFrame where
  fin : Bool
  opcode : UInt8
  payload : List UInt8
deriving DecidableEq

inductive WsError where
  | nonzeroRsv
  | frameTooLarge (len : Nat)
  | continuationWithoutStart
  | unknownOpcode (opcode : UInt8)
  | connectionClosed
  /-- An error of the stream itself, handed on. -/
  | stream
deriving DecidableEq

def WsError.message : WsError → String
  | nonzeroRsv => "ws: nonzero RSV bits"
  | frameTooLarge len => "ws: frame too large (" ++ toString len ++ ")"
  | continuationWithoutStart => "ws: continuation without start"
  | unknownOpcode opcode => "ws: unknown opcode " ++ toString opcode
  | connectionClosed => "ws: connection closed"
  | stream => ""

/-- `[u8; 4]`. -/
abbrev MaskKey : Type := { bytes : List UInt8 // bytes.length = 4 }

/-- `payload[i] ^= mask[i % 4]`, for every byte. -/
def applyMask (mask payload : List UInt8) : List UInt8 :=
  payload.mapIdx fun i b => b ^^^ mask.getD (i % 4) 0

/-- The payload length and the offset behind it, `some none` when the buffer ends
before that. -/
def frameLength (buf : List UInt8) (b1 : UInt8) : Option (Option (Nat × Nat)) :=
  let len := (b1 &&& 0x7f).toNat
  if len = 126 then
    if buf.length < 4 then some none
    else do
      let bytes ← readAt buf 2 2
      some (some (beValue bytes, 4))
  else if len = 127 then
    if buf.length < 10 then some none
    else do
      let bytes ← readAt buf 2 8
      some (some (beValue bytes, 10))
  else some (some (len, 2))

/-- The mask, all zero in an unmasked frame, and the offset behind it. -/
def frameMask (buf : List UInt8) (masked : Bool) (off : Nat) :
    Option (Option (List UInt8 × Nat)) :=
  if masked then
    if buf.length < off + 4 then some none
    else do
      let mask ← readAt buf off 4
      some (some (mask, off + 4))
  else some (some (List.replicate 4 0, off))

/-- `Ok(None)` is an incomplete frame; else the frame comes with the number of
bytes it takes. -/
def parseFrame (buf : List UInt8) : Option (Except WsError (Option (RawFrame × Nat))) :=
  if buf.length < 2 then some (.ok none)
  else do
    let b0 ← buf[0]?
    if b0 &&& 0x70 ≠ 0 then some (.error .nonzeroRsv)
    else do
      let b1 ← buf[1]?
      let masked : Bool := b1 &&& 0x80 ≠ 0
      match ← frameLength buf b1 with
      | none => some (.ok none)
      | some (len, off) =>
          if len > maxFramePayload then some (.error (.frameTooLarge len))
          else
            match ← frameMask buf masked off with
            | none => some (.ok none)
            | some (mask, off) =>
                if buf.length < off + len then some (.ok none)
                else do
                  let payload ← readAt buf off len
                  let payload := if masked then applyMask mask payload else payload
                  some (.ok (some ({
                    fin := b0 &&& 0x80 ≠ 0
                    opcode := b0 &&& 0x0f
                    payload := payload }, off + len)))

/-- The second byte and the extended length. -/
def encodeLength (maskBit : UInt8) (len : Nat) : List UInt8 :=
  if len < 126 then [maskBit ||| UInt8.ofNat len]
  else if len ≤ 65535 then (maskBit ||| 126) :: beBytes 2 len
  else (maskBit ||| 127) :: beBytes 8 len

def encodeFrame (opcode : UInt8) (payload : List UInt8) (mask : Option MaskKey) : List UInt8 :=
  (0x80 ||| (opcode &&& 0x0f)) ::
    match mask with
    | some key => encodeLength 0x80 payload.length ++ key.1 ++ applyMask key.1 payload
    | none => encodeLength 0 payload.length ++ payload

section Wire

/-- The three ways to write a payload length; a peer may use a longer one than it
has to. -/
inductive LengthForm where
  | short
  | medium
  | long
deriving DecidableEq

def LengthForm.Fits (len : Nat) : LengthForm → Prop
  | short => len < 126
  | medium => len < 2 ^ 16
  | long => True

instance (len : Nat) (form : LengthForm) : Decidable (form.Fits len) := by
  cases form <;> unfold LengthForm.Fits <;> infer_instance

/-- The seven bits that select the form, and the bytes behind them. -/
def LengthForm.code (len : Nat) : LengthForm → Nat × List UInt8
  | short => (len, [])
  | medium => (126, beBytes 2 len)
  | long => (127, beBytes 8 len)

/-- A frame as a peer puts it on the wire. -/
structure WireFrame where
  fin : Bool
  opcode : UInt8
  payload : List UInt8
  mask : Option MaskKey
  form : LengthForm
  opcode_lt : opcode < 16
  payload_le : payload.length ≤ maxFramePayload
  fits : form.Fits payload.length

def WireFrame.raw (f : WireFrame) : RawFrame where
  fin := f.fin
  opcode := f.opcode
  payload := f.payload

def WireFrame.maskBytes (f : WireFrame) : List UInt8 :=
  match f.mask with
  | some key => key.1
  | none => []

def WireFrame.body (f : WireFrame) : List UInt8 :=
  match f.mask with
  | some key => applyMask key.1 f.payload
  | none => f.payload

def WireFrame.bytes (f : WireFrame) : List UInt8 :=
  ((if f.fin then 0x80 else 0) ||| f.opcode) ::
    ((if f.mask.isSome then 0x80 else 0) ||| UInt8.ofNat (f.form.code f.payload.length).1) ::
      ((f.form.code f.payload.length).2 ++ (f.maskBytes ++ f.body))

@[simp] theorem applyMask_length (mask payload : List UInt8) :
    (applyMask mask payload).length = payload.length := by
  simp [applyMask]

theorem applyMask_applyMask (mask payload : List UInt8) :
    applyMask mask (applyMask mask payload) = payload := by
  apply List.ext_getElem
  · simp
  · intro i h₁ h₂
    simp [applyMask]

@[simp] theorem WireFrame.body_length (f : WireFrame) : f.body.length = f.payload.length := by
  unfold WireFrame.body
  split <;> simp

/-- The first byte, for every flag and opcode. -/
theorem firstByte_spec (fin : Bool) {opcode : UInt8} (h : opcode < 16) :
    let b0 := (if fin then 0x80 else 0) ||| opcode
    b0 &&& 0x70 = 0 ∧ (decide (b0 &&& 0x80 ≠ 0)) = fin ∧ b0 &&& 0x0f = opcode := by
  have hall : ∀ (fin : Bool) (n : Fin 16),
      let b0 : UInt8 := (if fin then 0x80 else 0) ||| UInt8.ofNat n
      b0 &&& 0x70 = 0 ∧ (decide (b0 &&& 0x80 ≠ 0)) = fin ∧ b0 &&& 0x0f = UInt8.ofNat n := by
    decide
  have hlt : opcode.toNat < 16 := UInt8.lt_iff_toNat_lt.mp h
  simpa using hall fin ⟨opcode.toNat, hlt⟩

/-- The second byte, for every flag and seven-bit code. -/
theorem secondByte_spec (masked : Bool) {code : Nat} (h : code < 128) :
    let b1 : UInt8 := (if masked then 0x80 else 0) ||| UInt8.ofNat code
    (decide (b1 &&& 0x80 ≠ 0)) = masked ∧ (b1 &&& 0x7f).toNat = code := by
  have hall : ∀ (masked : Bool) (n : Fin 128),
      let b1 : UInt8 := (if masked then 0x80 else 0) ||| UInt8.ofNat n
      (decide (b1 &&& 0x80 ≠ 0)) = masked ∧ (b1 &&& 0x7f).toNat = n := by
    decide
  exact hall masked ⟨code, h⟩

theorem WireFrame.bytes_length (f : WireFrame) :
    f.bytes.length =
      2 + (f.form.code f.payload.length).2.length + f.maskBytes.length + f.payload.length := by
  simp only [WireFrame.bytes, List.length_cons, List.length_append, f.body_length]
  omega

/-- Reading within the first `k` bytes. -/
theorem readAt_take {total : List UInt8} {k lo len : Nat} (hk : k ≤ total.length)
    (h : lo + len ≤ k) : readAt (total.take k) lo len = some (slice total lo len) := by
  rw [readAt_eq_some (by simp; omega), slice_take h]

/-- The part of a list behind a known beginning. -/
theorem slice_append {front mid back : List UInt8} {lo len : Nat} (hlo : front.length = lo)
    (hlen : mid.length = len) : slice (front ++ (mid ++ back)) lo len = mid := by
  rw [slice, ← hlo, List.drop_left, ← hlen, List.take_left]

section Prefixes

variable (f : WireFrame) (rest : List UInt8) {k : Nat}

/-- The number of bytes of the extended length. -/
private def extended : Nat := (f.form.code f.payload.length).2.length

theorem slice_extended :
    slice (f.bytes ++ rest) 2 (extended f) = (f.form.code f.payload.length).2 := by
  have hsplit : f.bytes ++ rest = [(if f.fin then 0x80 else 0) ||| f.opcode,
      (if f.mask.isSome then 0x80 else 0) ||| UInt8.ofNat (f.form.code f.payload.length).1] ++
      ((f.form.code f.payload.length).2 ++ (f.maskBytes ++ f.body ++ rest)) := by
    simp [WireFrame.bytes]
  rw [hsplit]
  exact slice_append rfl rfl

theorem slice_mask :
    slice (f.bytes ++ rest) (2 + extended f) f.maskBytes.length = f.maskBytes := by
  have hsplit : f.bytes ++ rest = (((if f.fin then 0x80 else 0) ||| f.opcode) ::
      ((if f.mask.isSome then 0x80 else 0) ||| UInt8.ofNat (f.form.code f.payload.length).1) ::
      (f.form.code f.payload.length).2) ++ (f.maskBytes ++ (f.body ++ rest)) := by
    simp [WireFrame.bytes]
  rw [hsplit, slice_append (by simp [extended]; omega) rfl]

theorem slice_body :
    slice (f.bytes ++ rest) (2 + extended f + f.maskBytes.length) f.payload.length = f.body := by
  have hsplit : f.bytes ++ rest = (((if f.fin then 0x80 else 0) ||| f.opcode) ::
      ((if f.mask.isSome then 0x80 else 0) ||| UInt8.ofNat (f.form.code f.payload.length).1) ::
      ((f.form.code f.payload.length).2 ++ f.maskBytes)) ++ (f.body ++ rest) := by
    simp [WireFrame.bytes]
  rw [hsplit, slice_append (by simp [extended]; omega) f.body_length]

theorem code_lt {form : LengthForm} {len : Nat} (hfits : form.Fits len) :
    (form.code len).1 < 128 := by
  cases form with
  | short => exact Nat.lt_trans hfits (by omega)
  | medium => exact (by decide : 126 < 128)
  | long => exact (by decide : 127 < 128)

/-- The length is known as soon as its bytes are there. -/
theorem frameLength_take {total : List UInt8} {form : LengthForm} {len k : Nat} {b1 : UInt8}
    (hk : k ≤ total.length) (hk2 : 2 ≤ k) (hfits : form.Fits len) (hmax : len ≤ maxFramePayload)
    (hext : slice total 2 (form.code len).2.length = (form.code len).2)
    (hb1 : (b1 &&& 0x7f).toNat = (form.code len).1) :
    frameLength (total.take k) b1 =
      some (if k < 2 + (form.code len).2.length then none
        else some (len, 2 + (form.code len).2.length)) := by
  have hlen : (total.take k).length = k := by simp; omega
  cases form with
  | short =>
      have hlt : len < 126 := hfits
      have hcode : (b1 &&& 0x7f).toNat = len := hb1
      change _ = some (if k < 2 then none else some (len, 2))
      simp only [frameLength, hcode]
      rw [if_neg (by omega), if_neg (by omega), if_neg (by omega)]
  | medium =>
      have hlt : len < 256 ^ 2 := hfits
      have hcode : (b1 &&& 0x7f).toNat = 126 := hb1
      simp only [LengthForm.code, beBytes_length] at hext
      change _ = some (if k < 4 then none else some (len, 4))
      simp only [frameLength, hcode, hlen, if_pos]
      split
      · rfl
      · rw [readAt_take hk (by omega), hext, Option.bind_eq_bind, Option.bind_some,
          beValue_beBytes, Nat.mod_eq_of_lt hlt]
  | long =>
      have hlt : len < 256 ^ 8 := by
        rw [maxFramePayload] at hmax
        omega
      have hcode : (b1 &&& 0x7f).toNat = 127 := hb1
      simp only [LengthForm.code, beBytes_length] at hext
      change _ = some (if k < 10 then none else some (len, 10))
      simp only [frameLength, hcode, hlen, if_pos, show ¬(127 = 126) by omega, if_false]
      split
      · rfl
      · rw [readAt_take hk (by omega), hext, Option.bind_eq_bind, Option.bind_some,
          beValue_beBytes, Nat.mod_eq_of_lt hlt]

theorem frameMask_take (hk : k ≤ (f.bytes ++ rest).length) (hk2 : 2 + extended f ≤ k) :
    frameMask ((f.bytes ++ rest).take k) f.mask.isSome (2 + extended f) =
      some (if k < 2 + extended f + f.maskBytes.length then none
        else some (if f.mask.isSome then f.maskBytes else List.replicate 4 0,
          2 + extended f + f.maskBytes.length)) := by
  have hlen : ((f.bytes ++ rest).take k).length = k := by simp at hk ⊢; omega
  have hmask := slice_mask f rest
  unfold frameMask
  cases hkey : f.mask with
  | none =>
      have hnil : f.maskBytes = [] := by simp [WireFrame.maskBytes, hkey]
      simp [hnil, Nat.not_lt.mpr hk2]
  | some key =>
      have hfour : f.maskBytes.length = 4 := by
        rw [WireFrame.maskBytes, hkey]
        exact key.2
      rw [hfour] at hmask ⊢
      simp only [Option.isSome_some, if_true, hlen]
      split
      · rfl
      · rw [readAt_take hk (by omega), hmask]
        rfl

theorem unmask_body : (if f.mask.isSome then
    applyMask (if f.mask.isSome then f.maskBytes else List.replicate 4 0) f.body else f.body) =
      f.payload := by
  unfold WireFrame.maskBytes WireFrame.body
  cases f.mask with
  | none => rfl
  | some key => exact applyMask_applyMask key.1 f.payload

/-- A frame is recognised exactly when all of its bytes are there, whatever comes
behind it. -/
theorem parseFrame_take (hk : k ≤ (f.bytes ++ rest).length) :
    parseFrame ((f.bytes ++ rest).take k) =
      some (.ok (if k < f.bytes.length then none else some (f.raw, f.bytes.length))) := by
  have hlen : ((f.bytes ++ rest).take k).length = k := by simp at hk ⊢; omega
  have htotal : f.bytes.length = 2 + extended f + f.maskBytes.length + f.payload.length :=
    f.bytes_length
  rw [parseFrame, hlen]
  split
  · rw [if_pos (by omega)]
  rename_i hk2
  obtain ⟨b0, hget0, hrsv, hfin, hopcode⟩ : ∃ b0 : UInt8, ((f.bytes ++ rest).take k)[0]? = some b0 ∧
      b0 &&& 0x70 = 0 ∧ (decide (b0 &&& 0x80 ≠ 0)) = f.fin ∧ b0 &&& 0x0f = f.opcode := by
    refine ⟨_, ?_, firstByte_spec f.fin f.opcode_lt⟩
    rw [List.getElem?_take_of_lt (by omega)]
    rfl
  obtain ⟨b1, hget1, hmasked, hcode⟩ : ∃ b1 : UInt8, ((f.bytes ++ rest).take k)[1]? = some b1 ∧
      (decide (b1 &&& 0x80 ≠ 0)) = f.mask.isSome ∧
      (b1 &&& 0x7f).toNat = (f.form.code f.payload.length).1 := by
    refine ⟨_, ?_, secondByte_spec f.mask.isSome (code_lt f.fits)⟩
    rw [List.getElem?_take_of_lt (by omega)]
    rfl
  have hframeLength := frameLength_take hk (Nat.le_of_not_lt hk2) f.fits f.payload_le
    (slice_extended f rest) hcode
  rw [← extended] at hframeLength
  simp only [hget0, hget1, hrsv, hfin, hopcode, hmasked, hframeLength, Option.bind_eq_bind,
    Option.bind_some, ne_eq, not_true_eq_false, if_false]
  by_cases hk3 : k < 2 + extended f
  · simp only [if_pos hk3]
    rw [if_pos (by omega)]
  simp only [if_neg hk3, if_neg (Nat.not_lt.mpr f.payload_le), gt_iff_lt,
    frameMask_take f rest hk (Nat.le_of_not_lt hk3), Option.bind_some]
  by_cases hk4 : k < 2 + extended f + f.maskBytes.length
  · simp only [if_pos hk4]
    rw [if_pos (by omega)]
  simp only [if_neg hk4]
  by_cases hk5 : k < f.bytes.length
  · rw [if_pos (by omega), if_pos hk5]
  · rw [if_neg (by omega), if_neg hk5, readAt_take hk (by omega), slice_body, Option.bind_some,
      unmask_body, ← htotal]
    rfl

end Prefixes

end Wire

section Codec

/-- The form that `encode_frame` selects. -/
def shortestForm (len : Nat) : LengthForm :=
  if len < 126 then .short else if len ≤ 65535 then .medium else .long

theorem shortestForm_fits (len : Nat) : (shortestForm len).Fits len := by
  unfold shortestForm
  split
  · assumption
  split
  · change len < 2 ^ 16
    omega
  · trivial

theorem encodeLength_eq (maskBit : UInt8) (len : Nat) :
    encodeLength maskBit len = (maskBit ||| UInt8.ofNat ((shortestForm len).code len).1) ::
      ((shortestForm len).code len).2 := by
  unfold encodeLength shortestForm
  split
  · rfl
  split <;> rfl

/-- What `encode_frame` puts on the wire. -/
def encodedFrame (opcode : UInt8) (payload : List UInt8) (mask : Option MaskKey)
    (h : payload.length ≤ maxFramePayload) : WireFrame where
  fin := true
  opcode := opcode &&& 0x0f
  payload := payload
  mask := mask
  form := shortestForm payload.length
  opcode_lt := by
    rw [UInt8.lt_iff_toNat_lt, UInt8.toNat_and]
    exact Nat.and_lt_two_pow opcode.toNat (n := 4) (by decide)
  payload_le := h
  fits := shortestForm_fits payload.length

theorem encodedFrame_bytes (opcode : UInt8) (payload : List UInt8) (mask : Option MaskKey)
    (h : payload.length ≤ maxFramePayload) :
    (encodedFrame opcode payload mask h).bytes = encodeFrame opcode payload mask := by
  cases mask <;>
    simp [encodeFrame, encodeLength_eq, encodedFrame, WireFrame.bytes, WireFrame.maskBytes,
      WireFrame.body]

theorem frameLength_returns {buf : List UInt8} (b1 : UInt8) (h : 2 ≤ buf.length) :
    ∃ r, frameLength buf b1 = some r ∧ ∀ len off, r = some (len, off) → off ≤ buf.length := by
  unfold frameLength
  dsimp only
  split
  · split
    · exact ⟨none, rfl, by simp⟩
    · rw [readAt_eq_some (by omega)]
      refine ⟨some (_, 4), rfl, ?_⟩
      rintro len off ⟨⟩
      omega
  · split
    · split
      · exact ⟨none, rfl, by simp⟩
      · rw [readAt_eq_some (by omega)]
        refine ⟨some (_, 10), rfl, ?_⟩
        rintro len off ⟨⟩
        omega
    · refine ⟨some (_, 2), rfl, ?_⟩
      rintro len off ⟨⟩
      exact h

theorem frameMask_returns (buf : List UInt8) (masked : Bool) (off : Nat) :
    ∃ r, frameMask buf masked off = some r := by
  unfold frameMask
  split
  · split
    · exact ⟨none, rfl⟩
    · rw [readAt_eq_some (by omega)]
      exact ⟨_, rfl⟩
  · exact ⟨_, rfl⟩

/-- On any bytes there is an answer, and a frame is made of bytes that are there. -/
theorem parseFrame_returns (buf : List UInt8) :
    ∃ r, parseFrame buf = some r ∧ ∀ frame used, r = .ok (some (frame, used)) →
      used ≤ buf.length := by
  unfold parseFrame
  split
  · exact ⟨.ok none, rfl, by simp⟩
  rename_i hlen
  rw [List.getElem?_eq_getElem (show 0 < buf.length by omega),
    List.getElem?_eq_getElem (show 1 < buf.length by omega)]
  dsimp only [Option.bind_eq_bind, Option.bind_some]
  split
  · exact ⟨.error .nonzeroRsv, rfl, by simp⟩
  obtain ⟨size, hsize, -⟩ := frameLength_returns buf[1] (show 2 ≤ buf.length by omega)
  rw [hsize]
  dsimp only [Option.bind_some]
  rcases size with _ | ⟨len, off⟩
  · exact ⟨.ok none, rfl, by simp⟩
  dsimp only
  split
  · exact ⟨.error _, rfl, by simp⟩
  obtain ⟨key, hkey⟩ := frameMask_returns buf (buf[1] &&& 0x80 ≠ 0) off
  rw [hkey]
  dsimp only [Option.bind_some]
  rcases key with _ | ⟨mask, off'⟩
  · exact ⟨.ok none, rfl, by simp⟩
  dsimp only
  split
  · exact ⟨.ok none, rfl, by simp⟩
  · rename_i hroom
    rw [readAt_eq_some (by omega)]
    refine ⟨_, rfl, ?_⟩
    rintro frame used ⟨⟩
    omega

/-- The frame codec: what is encoded is read back whatever follows, no strict prefix of it
is taken for a frame or an error, and no bytes at all make the parser panic. -/
theorem frame_codec :
    (∀ (opcode : UInt8) (payload : List UInt8) (mask : Option MaskKey),
      payload.length ≤ maxFramePayload →
        (∀ rest, parseFrame (encodeFrame opcode payload mask ++ rest) =
          some (.ok (some ({ fin := true, opcode := opcode &&& 0x0f, payload := payload },
            (encodeFrame opcode payload mask).length)))) ∧
        ∀ k < (encodeFrame opcode payload mask).length,
          parseFrame ((encodeFrame opcode payload mask).take k) = some (.ok none)) ∧
    ∀ buf, ∃ r, parseFrame buf = some r ∧ ∀ frame used, r = .ok (some (frame, used)) →
      used ≤ buf.length := by
  refine ⟨?_, parseFrame_returns⟩
  intro opcode payload mask h
  have hbytes := encodedFrame_bytes opcode payload mask h
  constructor
  · intro rest
    have htake := parseFrame_take (encodedFrame opcode payload mask h) rest (Nat.le_refl _)
    rw [List.take_length, hbytes, if_neg (by simp)] at htake
    exact htake
  · intro k hk
    have htake := parseFrame_take (encodedFrame opcode payload mask h) [] (k := k)
      (by rw [hbytes, List.append_nil]; exact hk.le)
    rwa [hbytes, List.append_nil, if_pos hk] at htake

theorem frame_codec_greeting :
    [104, 105].length ≤ maxFramePayload ∧
      parseFrame (encodeFrame 0x1 [104, 105] (some ⟨[1, 2, 3, 4], rfl⟩) ++ [7]) =
        some (.ok (some ({ fin := true, opcode := 0x1, payload := [104, 105] }, 8))) :=
  ⟨by decide,
    (frame_codec.1 0x1 [104, 105] (some ⟨[1, 2, 3, 4], rfl⟩) (by decide)).1 [7]⟩

end Codec

end DirtybirdMiner.Ws.Frames
