import DirtybirdMiner.Lib.Buffers

/-!
Miniblocks and their 48-byte form, from `block/src/miniblock.rs`.
-/

namespace DirtybirdMiner.Block.MiniBlocks

open DirtybirdMiner.Lib.Bytes
open DirtybirdMiner.Lib.Buffers

/-- `MINIBLOCK_SIZE`. -/
def miniblockSize : Nat := 48

/-- A 48-byte buffer. -/
abbrev Work : Type := { bytes : List UInt8 // bytes.length = miniblockSize }

structure MiniBlock where
  version : UInt8
  highDiff : Bool
  final : Bool
  pastCount : UInt8
  timestamp : UInt16
  height : UInt64
  past : UInt32 × UInt32
  keyHash : List UInt8
  flags : UInt32
  nonce : UInt32 × UInt32 × UInt32
deriving DecidableEq

/-- The texts of the errors, one constructor for each. -/
inductive MiniBlockError where
  | shortBuffer
  | unknownVersion
  | versionNotSupported
  | tooManyTips
  | noTips
  | heightNotPossible
  | tipsCollide
deriving DecidableEq

def MiniBlockError.message : MiniBlockError → String
  | shortBuffer => "miniblock: short buffer"
  | unknownVersion => "miniblock: unknown version"
  | versionNotSupported => "version not supported"
  | tooManyTips => "tips cannot be more than 2"
  | noTips => "miniblock must have tips"
  | heightNotPossible => "miniblock height not possible"
  | tipsCollide => "tips cannot collide"

def sanityCheck (mbl : MiniBlock) : Except MiniBlockError Unit :=
  if mbl.version ≥ 16 then .error .versionNotSupported
  else if mbl.pastCount > 2 then .error .tooManyTips
  else if mbl.pastCount = 0 then .error .noTips
  else if mbl.height ≥ 0xffffffffff then .error .heightNotPossible
  else if mbl.pastCount = 2 ∧ mbl.past.1 = mbl.past.2 then .error .tipsCollide
  else .ok ()

/-- `buf[p]`. -/
def byteAt (buf : List UInt8) (p : Nat) : UInt8 := buf.getD p 0

def u32At (buf : List UInt8) (lo : Nat) : UInt32 := UInt32.ofNat (beValue (slice buf lo 4))

/-- `u64::from_be_bytes(buf[0..8]) & 0x000000ffffffffff`. -/
def heightAt (buf : List UInt8) : UInt64 :=
  UInt64.ofNat (beValue (slice buf 0 8)) &&& 0xffffffffff

/-- The fields as `deserialize` reads them. -/
def readFields (buf : List UInt8) : MiniBlock where
  version := byteAt buf 0 &&& 0x0f
  highDiff := byteAt buf 0 &&& 0x10 > 0
  final := byteAt buf 0 &&& 0x20 > 0
  pastCount := byteAt buf 0 >>> 6
  timestamp := UInt16.ofNat (beValue (slice buf 1 2))
  height := heightAt buf -- the version and timestamp bytes are masked out
  past := (u32At buf 8, u32At buf 12)
  keyHash := slice buf 16 16
  flags := u32At buf 32
  nonce := (u32At buf 36, u32At buf 40, u32At buf 44)

def deserialize (buf : List UInt8) : Except MiniBlockError MiniBlock :=
  if buf.length < miniblockSize then .error .shortBuffer
  else if byteAt buf 0 &&& 0x0f ≠ 1 then .error .unknownVersion
  else do
    sanityCheck (readFields buf)
    .ok (readFields buf)

/-- The part of a buffer in front of the nonce. -/
def header (buf : List UInt8) : List UInt8 := slice buf 0 36

theorem byteAt_eq_of_header {buf buf' : List UInt8} (h : header buf = header buf') {p : Nat}
    (hp : p < 36) : byteAt buf p = byteAt buf' p := by
  have hget := congrArg (fun l => l[p]?) h
  simp only [header, slice, List.drop_zero, List.getElem?_take, if_pos hp] at hget
  rw [byteAt, byteAt, List.getD_eq_getElem?_getD, List.getD_eq_getElem?_getD, hget]

theorem slice_eq_of_header {buf buf' : List UInt8} (h : header buf = header buf') {lo len : Nat}
    (hle : lo + len ≤ 36) : slice buf lo len = slice buf' lo len := by
  have hslice : slice (header buf) lo len = slice (header buf') lo len := by rw [h]
  rwa [header, header, slice_slice (by omega), slice_slice (by omega), Nat.zero_add] at hslice

theorem readFields_of_header {buf buf' : List UInt8} (h : header buf = header buf') :
    readFields buf' = { readFields buf with
      nonce := (u32At buf' 36, u32At buf' 40, u32At buf' 44) } := by
  have hu32 : ∀ lo, lo + 4 ≤ 36 → u32At buf lo = u32At buf' lo := by
    intro lo hlo
    rw [u32At, u32At, slice_eq_of_header h hlo]
  simp only [readFields, byteAt_eq_of_header h (show 0 < 36 by omega), heightAt,
    slice_eq_of_header h (show 0 + 8 ≤ 36 by omega),
    slice_eq_of_header h (show 1 + 2 ≤ 36 by omega),
    slice_eq_of_header h (show 16 + 16 ≤ 36 by omega), hu32 8 (by omega), hu32 12 (by omega),
    hu32 32 (by omega)]

/-- Everything but the nonce is read from the header, the checks included: a
buffer with the same header is accepted too, as the same miniblock with another
nonce. -/
theorem deserialize_of_header {buf buf' : List UInt8} {mbl : MiniBlock}
    (hlen : miniblockSize ≤ buf'.length) (h : header buf = header buf')
    (hok : deserialize buf = .ok mbl) :
    ∃ nonce, deserialize buf' = .ok { mbl with nonce := nonce } := by
  have hbyte := byteAt_eq_of_header h (show 0 < 36 by omega)
  refine ⟨(u32At buf' 36, u32At buf' 40, u32At buf' 44), ?_⟩
  unfold deserialize at hok ⊢
  rw [hbyte] at hok
  rw [if_neg (not_lt.mpr hlen)]
  split at hok
  · cases hok
  split at hok
  · cases hok
  · rename_i hversion
    rw [if_neg hversion, readFields_of_header h]
    cases hsane : sanityCheck (readFields buf) with
    | error e =>
        rw [hsane] at hok
        cases hok
    | ok _ =>
        rw [hsane] at hok
        cases hok
        -- The checks do not look at the nonce.
        have hsane' : ∀ nonce, sanityCheck { readFields buf with nonce := nonce } = .ok () :=
          fun _ => hsane
        rw [hsane']
        rfl

section Serialize

/-- The first byte: the version, the two flags and the number of tips. -/
def versionByte (mbl : MiniBlock) : UInt8 :=
  let b := mbl.version ||| mbl.pastCount <<< 6
  let b := if mbl.highDiff then b ||| 0x10 else b
  if mbl.final then b ||| 0x20 else b

/-- The lower five bytes of the height. -/
def heightBytes (height : UInt64) : List UInt8 := (beBytes 8 height.toNat).drop 3

def serialize (mbl : MiniBlock) : List UInt8 :=
  [versionByte mbl] ++ (beBytes 2 mbl.timestamp.toNat ++ (heightBytes mbl.height ++
    (beBytes 4 mbl.past.1.toNat ++ (beBytes 4 mbl.past.2.toNat ++ (mbl.keyHash ++
    (beBytes 4 mbl.flags.toNat ++ (beBytes 4 mbl.nonce.1.toNat ++
    (beBytes 4 mbl.nonce.2.1.toNat ++ beBytes 4 mbl.nonce.2.2.toNat))))))))

/-- The miniblocks of the current version, with the sixteen bytes of their hash. -/
structure WellFormed (mbl : MiniBlock) : Prop where
  version_eq : mbl.version = 1
  sane : sanityCheck mbl = .ok ()
  keyHash_length : mbl.keyHash.length = 16

theorem heightBytes_eq (height : UInt64) : heightBytes height = beBytes 5 height.toNat := by
  simp [heightBytes, beBytes, leBytes]

theorem heightBytes_length (height : UInt64) : (heightBytes height).length = 5 := by
  simp [heightBytes]

theorem serialize_length {mbl : MiniBlock} (h : mbl.keyHash.length = 16) :
    (serialize mbl).length = miniblockSize := by
  simp [serialize, heightBytes_length, h, miniblockSize]

theorem slice_at {buf : List UInt8} (lo len : Nat) (pre mid post : List UInt8)
    (heq : buf = pre ++ (mid ++ post)) (hlo : pre.length = lo) (hlen : mid.length = len) :
    slice buf lo len = mid := by
  rw [heq, slice, List.drop_left' hlo, List.take_left' hlen]

theorem ofNat_beValue (x : UInt32) : UInt32.ofNat (beValue (beBytes 4 x.toNat)) = x := by
  rw [beValue_beBytes, Nat.mod_eq_of_lt (by have := x.toNat_lt; omega), UInt32.ofNat_toNat]

/-- The height is read back from under the mask. -/
theorem height_of_bytes {pre : List UInt8} {height : UInt64} (hpre : pre.length = 3)
    (h : height.toNat < 2 ^ 40) :
    UInt64.ofNat (beValue (pre ++ heightBytes height)) &&& 0xffffffffff = height := by
  have hlt := beValue_lt pre
  rw [hpre] at hlt
  have hvalue : beValue (pre ++ heightBytes height) = beValue pre * 2 ^ 40 + height.toNat := by
    rw [heightBytes_eq, beValue_append, beValue_beBytes, beBytes_length,
      Nat.mod_eq_of_lt (lt_of_lt_of_eq h (by decide))]
    rfl
  rw [hvalue]
  apply UInt64.toNat_inj.mp
  rw [UInt64.toNat_and, UInt64.toNat_ofNat', Nat.mod_eq_of_lt (by omega)]
  change (_ &&& (2 ^ 40 - 1)) = _
  rw [Nat.and_two_pow_sub_one_eq_mod]
  omega

theorem sanityCheck_ok {mbl : MiniBlock} (h : sanityCheck mbl = .ok ()) :
    (mbl.pastCount = 1 ∨ mbl.pastCount = 2) ∧ mbl.height.toNat < 2 ^ 40 := by
  unfold sanityCheck at h
  split at h
  · cases h
  split at h
  · cases h
  rename_i htips
  split at h
  · cases h
  rename_i hzero
  split at h
  · cases h
  rename_i hheight
  refine ⟨?_, ?_⟩
  · rw [gt_iff_lt, UInt8.lt_iff_toNat_lt, not_lt] at htips
    have hle : mbl.pastCount.toNat ≤ 2 := htips
    have hne : mbl.pastCount.toNat ≠ 0 := fun heq => hzero (UInt8.toNat_inj.mp heq)
    rcases (show mbl.pastCount.toNat = 1 ∨ mbl.pastCount.toNat = 2 by omega) with heq | heq
    · exact .inl (UInt8.toNat_inj.mp heq)
    · exact .inr (UInt8.toNat_inj.mp heq)
  · rw [ge_iff_le, UInt64.le_iff_toNat_le, not_le] at hheight
    have hlt : mbl.height.toNat < 0xffffffffff := hheight
    omega

theorem versionByte_fields {mbl : MiniBlock} (hversion : mbl.version = 1)
    (hpast : mbl.pastCount = 1 ∨ mbl.pastCount = 2) :
    versionByte mbl &&& 0x0f = 1 ∧ (decide (versionByte mbl &&& 0x10 > 0) = mbl.highDiff) ∧
      (decide (versionByte mbl &&& 0x20 > 0) = mbl.final) ∧ versionByte mbl >>> 6 = mbl.pastCount := by
  unfold versionByte
  rw [hversion]
  rcases hpast with hpast | hpast <;> rw [hpast] <;> cases mbl.highDiff <;> cases mbl.final <;>
    decide

theorem byteAt_serialize (mbl : MiniBlock) : byteAt (serialize mbl) 0 = versionByte mbl := rfl

/-- Every field stands at its offset, behind the fields before it. -/
theorem readFields_layout {b : UInt8} {ts h5 p0 p1 kh fl n0 n1 n2 : List UInt8}
    (hts : ts.length = 2) (hh5 : h5.length = 5) (hp0 : p0.length = 4) (hp1 : p1.length = 4)
    (hkh : kh.length = 16) (hfl : fl.length = 4) (hn0 : n0.length = 4) (hn1 : n1.length = 4)
    (hn2 : n2.length = 4) :
    readFields ([b] ++ (ts ++ (h5 ++ (p0 ++ (p1 ++ (kh ++ (fl ++ (n0 ++ (n1 ++ n2))))))))) =
      { version := b &&& 0x0f
        highDiff := b &&& 0x10 > 0
        final := b &&& 0x20 > 0
        pastCount := b >>> 6
        timestamp := UInt16.ofNat (beValue ts)
        height := UInt64.ofNat (beValue ([b] ++ ts ++ h5)) &&& 0xffffffffff
        past := (UInt32.ofNat (beValue p0), UInt32.ofNat (beValue p1))
        keyHash := kh
        flags := UInt32.ofNat (beValue fl)
        nonce := (UInt32.ofNat (beValue n0), UInt32.ofNat (beValue n1),
          UInt32.ofNat (beValue n2)) } := by
  generalize hbuf : [b] ++ (ts ++ (h5 ++ (p0 ++ (p1 ++ (kh ++ (fl ++ (n0 ++ (n1 ++ n2)))))))) = buf
  have hbyte : byteAt buf 0 = b := by
    rw [← hbuf]
    rfl
  unfold readFields u32At heightAt
  rw [hbyte, slice_at 1 2 [b] ts _ hbuf.symm rfl hts,
    slice_at 0 8 [] ([b] ++ ts ++ h5) (p0 ++ (p1 ++ (kh ++ (fl ++ (n0 ++ (n1 ++ n2))))))
      (by simp [← hbuf]) rfl (by simp [hts, hh5]),
    slice_at 8 4 ([b] ++ ts ++ h5) p0 (p1 ++ (kh ++ (fl ++ (n0 ++ (n1 ++ n2)))))
      (by simp [← hbuf]) (by simp [hts, hh5]) hp0,
    slice_at 12 4 ([b] ++ ts ++ h5 ++ p0) p1 (kh ++ (fl ++ (n0 ++ (n1 ++ n2))))
      (by simp [← hbuf]) (by simp [hts, hh5, hp0]) hp1,
    slice_at 16 16 ([b] ++ ts ++ h5 ++ p0 ++ p1) kh (fl ++ (n0 ++ (n1 ++ n2)))
      (by simp [← hbuf]) (by simp [hts, hh5, hp0, hp1]) hkh,
    slice_at 32 4 ([b] ++ ts ++ h5 ++ p0 ++ p1 ++ kh) fl (n0 ++ (n1 ++ n2))
      (by simp [← hbuf]) (by simp [hts, hh5, hp0, hp1, hkh]) hfl,
    slice_at 36 4 ([b] ++ ts ++ h5 ++ p0 ++ p1 ++ kh ++ fl) n0 (n1 ++ n2)
      (by simp [← hbuf]) (by simp [hts, hh5, hp0, hp1, hkh, hfl]) hn0,
    slice_at 40 4 ([b] ++ ts ++ h5 ++ p0 ++ p1 ++ kh ++ fl ++ n0) n1 n2
      (by simp [← hbuf]) (by simp [hts, hh5, hp0, hp1, hkh, hfl, hn0]) hn1,
    slice_at 44 4 ([b] ++ ts ++ h5 ++ p0 ++ p1 ++ kh ++ fl ++ n0 ++ n1) n2 []
      (by simp [← hbuf]) (by simp [hts, hh5, hp0, hp1, hkh, hfl, hn0, hn1]) hn2]

theorem readFields_serialize {mbl : MiniBlock} (h : WellFormed mbl) :
    readFields (serialize mbl) = mbl := by
  obtain ⟨hpast, hheight⟩ := sanityCheck_ok h.sane
  obtain ⟨hversion, hhigh, hfinal, hcount⟩ := versionByte_fields h.version_eq hpast
  have htimestamp : UInt16.ofNat (beValue (beBytes 2 mbl.timestamp.toNat)) = mbl.timestamp := by
    rw [beValue_beBytes, Nat.mod_eq_of_lt (by have := mbl.timestamp.toNat_lt; omega),
      UInt16.ofNat_toNat]
  rw [serialize, readFields_layout (beBytes_length _ _) (heightBytes_length _) (beBytes_length _ _)
    (beBytes_length _ _) h.keyHash_length (beBytes_length _ _) (beBytes_length _ _)
    (beBytes_length _ _) (beBytes_length _ _), hversion, hhigh, hfinal, hcount, htimestamp,
    height_of_bytes (by simp) hheight, ← h.version_eq]
  simp only [ofNat_beValue]

/-- Decoding undoes encoding. -/
theorem deserialize_serialize {mbl : MiniBlock} (h : WellFormed mbl) :
    deserialize (serialize mbl) = .ok mbl := by
  obtain ⟨hpast, -⟩ := sanityCheck_ok h.sane
  have hversion := (versionByte_fields h.version_eq hpast).1
  rw [deserialize, if_neg (by rw [serialize_length h.keyHash_length]; exact lt_irrefl _),
    byteAt_serialize, if_neg (not_not.mpr hversion), readFields_serialize h, h.sane]
  rfl

end Serialize

section Accepted

/-- No bit of the first byte is lost. -/
theorem versionByte_readFields {buf : List UInt8} : versionByte (readFields buf) = byteAt buf 0 := by
  have hbits : ∀ n < 256, (let b : UInt8 := UInt8.ofNat n
      let v : UInt8 := (b &&& (0x0f : UInt8)) ||| (b >>> (6 : UInt8)) <<< (6 : UInt8)
      let v : UInt8 := if b &&& 0x10 > 0 then v ||| 0x10 else v
      if b &&& 0x20 > 0 then v ||| 0x20 else v) = UInt8.ofNat n := by
    decide +kernel
  have h := hbits (byteAt buf 0).toNat (byteAt buf 0).toNat_lt
  rw [UInt8.ofNat_toNat] at h
  simpa [versionByte, readFields] using h

theorem beBytes_u32At {buf : List UInt8} {lo : Nat} (h : lo + 4 ≤ buf.length) :
    beBytes 4 (u32At buf lo).toNat = slice buf lo 4 := by
  have hlen := slice_length h
  have hlt := beValue_lt (slice buf lo 4)
  rw [hlen] at hlt
  rw [u32At, UInt32.toNat_ofNat', Nat.mod_eq_of_lt (lt_of_lt_of_eq hlt (by decide))]
  conv_rhs => rw [← beBytes_beValue (slice buf lo 4), hlen]

theorem beBytes_timestamp {buf : List UInt8} (h : 3 ≤ buf.length) :
    beBytes 2 (readFields buf).timestamp.toNat = slice buf 1 2 := by
  have hlen : (slice buf 1 2).length = 2 := slice_length h
  have hlt := beValue_lt (slice buf 1 2)
  rw [hlen] at hlt
  change beBytes 2 (UInt16.ofNat (beValue (slice buf 1 2))).toNat = _
  rw [UInt16.toNat_ofNat', Nat.mod_eq_of_lt (lt_of_lt_of_eq hlt (by decide))]
  conv_rhs => rw [← beBytes_beValue (slice buf 1 2), hlen]

/-- The height is the five bytes behind the timestamp. -/
theorem heightAt_toNat {buf : List UInt8} (h : 8 ≤ buf.length) :
    (heightAt buf).toNat = beValue (slice buf 3 5) := by
  have hlow : (slice buf 3 5).length = 5 := slice_length (by omega)
  have hlt := beValue_lt (slice buf 3 5)
  have hhigh := beValue_lt (slice buf 0 3)
  rw [hlow] at hlt
  rw [slice_length (show 0 + 3 ≤ buf.length by omega)] at hhigh
  have hvalue : beValue (slice buf 0 8) = beValue (slice buf 0 3) * 2 ^ 40 +
      beValue (slice buf 3 5) := by
    rw [slice_add buf 0 3 5, beValue_append, hlow]
    rfl
  rw [heightAt, UInt64.toNat_and, UInt64.toNat_ofNat', hvalue, Nat.mod_eq_of_lt (by omega)]
  change (_ &&& (2 ^ 40 - 1)) = _
  rw [Nat.and_two_pow_sub_one_eq_mod]
  omega

theorem heightBytes_heightAt {buf : List UInt8} (h : 8 ≤ buf.length) :
    heightBytes (heightAt buf) = slice buf 3 5 := by
  have hlow : (slice buf 3 5).length = 5 := slice_length (by omega)
  rw [heightBytes_eq, heightAt_toNat h]
  conv_rhs => rw [← beBytes_beValue (slice buf 3 5), hlow]

/-- The fields lie side by side. -/
theorem take_layout {buf : List UInt8} (h : miniblockSize ≤ buf.length) :
    buf.take miniblockSize = [byteAt buf 0] ++ (slice buf 1 2 ++ (slice buf 3 5 ++
      (slice buf 8 4 ++ (slice buf 12 4 ++ (slice buf 16 16 ++ (slice buf 32 4 ++
      (slice buf 36 4 ++ (slice buf 40 4 ++ slice buf 44 4)))))))) := by
  have hfirst : [byteAt buf 0] = slice buf 0 1 := by
    cases buf with
    | nil => simp [miniblockSize] at h
    | cons b buf => rfl
  rw [hfirst, take_eq_slice]
  simp only [← slice_add buf 40 4 4, ← slice_add buf 36 4 (4 + 4), ← slice_add buf 32 4 (4 + (4 + 4)),
    ← slice_add buf 16 16 (4 + (4 + (4 + 4))), ← slice_add buf 12 4 (16 + (4 + (4 + (4 + 4)))),
    ← slice_add buf 8 4 (4 + (16 + (4 + (4 + (4 + 4))))),
    ← slice_add buf 3 5 (4 + (4 + (16 + (4 + (4 + (4 + 4)))))),
    ← slice_add buf 1 2 (5 + (4 + (4 + (16 + (4 + (4 + (4 + 4))))))),
    ← slice_add buf 0 1 (2 + (5 + (4 + (4 + (16 + (4 + (4 + (4 + 4)))))))), Nat.reduceAdd]
  rfl

theorem serialize_readFields {buf : List UInt8} (h : miniblockSize ≤ buf.length) :
    serialize (readFields buf) = buf.take miniblockSize := by
  have hlen : 48 ≤ buf.length := h
  rw [take_layout h, serialize, versionByte_readFields, beBytes_timestamp (by omega)]
  change _ ++ (_ ++ (heightBytes (heightAt buf) ++ (beBytes 4 (u32At buf 8).toNat ++
    (beBytes 4 (u32At buf 12).toNat ++ (_ ++ (beBytes 4 (u32At buf 32).toNat ++
    (beBytes 4 (u32At buf 36).toNat ++ (beBytes 4 (u32At buf 40).toNat ++
    beBytes 4 (u32At buf 44).toNat)))))))) = _
  rw [heightBytes_heightAt (by omega)]
  simp only [beBytes_u32At (show 8 + 4 ≤ buf.length by omega),
    beBytes_u32At (show 12 + 4 ≤ buf.length by omega),
    beBytes_u32At (show 32 + 4 ≤ buf.length by omega),
    beBytes_u32At (show 36 + 4 ≤ buf.length by omega),
    beBytes_u32At (show 40 + 4 ≤ buf.length by omega),
    beBytes_u32At (show 44 + 4 ≤ buf.length by omega)]
  rfl

theorem deserialize_eq_ok {buf : List UInt8} {mbl : MiniBlock} (h : deserialize buf = .ok mbl) :
    miniblockSize ≤ buf.length ∧ mbl = readFields buf := by
  unfold deserialize at h
  split at h
  · cases h
  rename_i hlen
  split at h
  · cases h
  cases hsane : sanityCheck (readFields buf) with
  | error e =>
      rw [hsane] at h
      cases h
  | ok _ =>
      rw [hsane] at h
      cases h
      exact ⟨Nat.le_of_not_lt hlen, rfl⟩

/-- Encoding gives back the bytes that were accepted. -/
theorem serialize_of_deserialize {buf : List UInt8} {mbl : MiniBlock}
    (h : deserialize buf = .ok mbl) : serialize mbl = buf.take miniblockSize := by
  obtain ⟨hlen, rfl⟩ := deserialize_eq_ok h
  exact serialize_readFields hlen

end Accepted

end DirtybirdMiner.Block.MiniBlocks
