import DirtybirdMiner.Args.Canonical
import DirtybirdMiner.Block.Bech32
import DirtybirdMiner.Bn256.Points

/-!
Addresses, from `block/src/address.rs`: base, integrated and proof addresses, written as
strings and read back.  `none` is a panic.
-/

namespace DirtybirdMiner.Block.Addresses

open DirtybirdMiner.Lib.Casing
open DirtybirdMiner.Lib.Bytes
open DirtybirdMiner.Block.Polymod (I64)
open DirtybirdMiner.Block.Regroup
open DirtybirdMiner.Block.Bech32
open DirtybirdMiner.Bn256.Points
open DirtybirdMiner.Bn256.Affine
open DirtybirdMiner.Args.Arguments
open DirtybirdMiner.Args.Encoding
open DirtybirdMiner.Args.RoundTrip
open DirtybirdMiner.Args.Canonical

section Model

/-- `ADDRESS_VERSION`. -/
def addressVersion : I64 := 1

inductive AddressError where
  | bech32 (e : Bech32Error)
  | invalidHrp (hrp : List Char)
  | invalidVersion (version : I64)
  | invalidLength (len : Nat)
  | point (message : String)
  | arguments (message : String)
deriving DecidableEq

def AddressError.message : AddressError → String
  | bech32 e => "bech32: " ++ e.message
  | invalidHrp hrp => "invalid hrp: " ++ String.ofList hrp
  | invalidVersion version => "invalid address version: " ++ toString version.toInt
  | invalidLength len => "invalid address length: " ++ toString len
  | point m => "point decode: " ++ m
  | arguments m => "arguments: " ++ m

structure Address where
  mainnet : Bool
  proof : Bool
  publicKey : G1
  arguments : List Argument
deriving DecidableEq

def dero : List Char := ['d', 'e', 'r', 'o']

def deto : List Char := ['d', 'e', 't', 'o']

def deroi : List Char := ['d', 'e', 'r', 'o', 'i']

def detoi : List Char := ['d', 'e', 't', 'o', 'i']

def deroproof : List Char := ['d', 'e', 'r', 'o', 'p', 'r', 'o', 'o', 'f']

/-- `b as i64`. -/
def wide (b : UInt8) : I64 := BitVec.ofNat 64 b.toNat

/-- `b as u8`. -/
def narrow (v : I64) : UInt8 := UInt8.ofNat v.toNat

/-- `Arguments::unmarshal_binary`. -/
def unmarshalBinary (data : List UInt8) : Option (Except String (List Argument)) := do
  match ← unmarshalBinaryExact data with
  | .error _ => some (.error "SCDATA: invalid arguments payload")
  | .ok args => some (.ok args)

namespace Address

def fromPublicKey (publicKey : G1) : Address :=
  { mainnet := true, proof := false, publicKey, arguments := [] }

/-- The human-readable part: the suffix for arguments first, then the override. -/
def hrp (a : Address) : List Char :=
  let hrp := if a.mainnet then dero else deto
  let hrp := if a.arguments = [] then hrp else hrp ++ ['i']
  if a.proof then deroproof else hrp

/-- `data_bytes` behind the version. -/
def payload (a : Address) : List UInt8 :=
  a.publicKey.compress.1 ++ if a.arguments = [] then [] else marshalBinary a.arguments

variable (cm : CaseMapping)

def toString (a : Address) : Except AddressError (List Char) := do
  let dataInts ← (convertbits (addressVersion :: a.payload.map wide) 8 5 true).mapError .bech32
  (encode cm a.hrp dataInts).mapError .bech32

/-- The part of `from_string` behind the version. -/
def fromPayload (hrp : List Char) (resbytes : List UInt8) : Option (Except AddressError Address) :=
  if resbytes.length < 33 then some (.error (.invalidLength resbytes.length))
  else
    match G1.decompress (resbytes.take 33) with
    | .error e => some (.error (.point e))
    | .ok publicKey =>
        let mainnet := !(hrp = deto || hrp = detoi)
        let proof := hrp = deroproof
        if resbytes.length = 33 ∧ (hrp = dero ∨ hrp = deto) then
          some (.ok { mainnet, proof, publicKey, arguments := [] })
        else if hrp = deroi ∨ hrp = detoi ∨ hrp = deroproof then do
          match ← unmarshalBinary (resbytes.drop 33) with
          | .error e => some (.error (.arguments e))
          | .ok arguments => some (.ok { mainnet, proof, publicKey, arguments })
        else some (.error (.invalidLength resbytes.length))

def fromString (s : List Char) : Option (Except AddressError Address) := do
  match ← decode cm s with
  | .error e => some (.error (.bech32 e))
  | .ok (hrp, data) =>
      if hrp ∉ [dero, deroi, deto, detoi, deroproof] then some (.error (.invalidHrp hrp))
      else if data = [] then some (.error (.invalidLength 0))
      else
        match convertbits data 5 8 false with
        | .error e => some (.error (.bech32 e))
        | .ok res => do
            let version ← res[0]?
            if version ≠ addressVersion then some (.error (.invalidVersion version))
            else fromPayload hrp (res.tail.map narrow)

def baseAddress (a : Address) : Address := { a with arguments := [] }

end Address

end Model

section Panics

theorem unmarshalBinary_isSome (data : List UInt8) : (unmarshalBinary data).isSome := by
  obtain ⟨r, hr⟩ := Option.isSome_iff_exists.mp (Args.Extents.unmarshalBinaryExact_isSome data)
  cases r <;> simp [unmarshalBinary, hr]

theorem fromPayload_isSome (hrp : List Char) (resbytes : List UInt8) :
    (Address.fromPayload hrp resbytes).isSome := by
  obtain ⟨r, hr⟩ := Option.isSome_iff_exists.mp (unmarshalBinary_isSome (resbytes.drop 33))
  unfold Address.fromPayload
  split
  · rfl
  split
  · rfl
  dsimp only
  split
  · rfl
  split
  · rw [hr]
    cases r <;> rfl
  · rfl

theorem fromString_isSome (cm : CaseMapping) (s : List Char) :
    (Address.fromString cm s).isSome := by
  obtain ⟨r, hr⟩ := Option.isSome_iff_exists.mp (decode_isSome cm s)
  unfold Address.fromString
  rw [hr]
  cases r with
  | error e => rfl
  | ok r =>
      obtain ⟨hrp, data⟩ := r
      simp only [Option.bind_eq_bind, Option.bind_some]
      split
      · rfl
      split
      · rfl
      rename_i hne
      split
      · rfl
      rename_i res hres
      obtain ⟨v, rest, rfl⟩ := List.exists_cons_of_ne_nil ((convertbits_bytes_ok hres).2 hne)
      simp only [List.getElem?_cons_zero, Option.bind_some]
      split
      · rfl
      · exact fromPayload_isSome _ _

end Panics

section Reading

variable (cm : CaseMapping)

theorem wide_toNat (b : UInt8) : (wide b).toNat = b.toNat := by
  have hb := b.toNat_lt
  rw [wide, BitVec.toNat_ofNat, Nat.mod_eq_of_lt (by omega)]

theorem narrow_wide (b : UInt8) : narrow (wide b) = b := by
  rw [narrow, wide_toNat, UInt8.ofNat_toNat]

theorem map_narrow_wide (bytes : List UInt8) : (bytes.map wide).map narrow = bytes := by
  rw [List.map_map]
  conv_rhs => rw [← List.map_id bytes]
  exact List.map_congr_left fun b _ => narrow_wide b

/-- The symbols of a payload. -/
theorem convertbits_payload (bytes : List UInt8) :
    ∃ symbols, convertbits (addressVersion :: bytes.map wide) 8 5 true = .ok symbols ∧
      Symbols symbols ∧ symbols ≠ [] ∧
      convertbits symbols 5 8 false = .ok (addressVersion :: bytes.map wide) := by
  have hbytes : ∀ v ∈ addressVersion :: bytes.map wide, v.toNat < 2 ^ 8 := by
    intro v hv
    rcases List.mem_cons.mp hv with rfl | hv
    · decide
    · obtain ⟨b, -, rfl⟩ := List.mem_map.mp hv
      rw [wide_toNat]
      exact b.toNat_lt
  obtain ⟨symbols, fill, hrun, hsymbols, -, hlength, -⟩ := convertbits_symbols hbytes
  refine ⟨symbols, hrun, hsymbols, ?_, convertbits_roundTrip hbytes hrun⟩
  rintro rfl
  rw [List.length_nil, List.length_cons] at hlength
  omega

theorem hrp_mem (a : Address) : a.hrp ∈ [dero, deroi, deto, detoi, deroproof] := by
  unfold Address.hrp
  dsimp only
  cases a.proof <;> cases a.mainnet <;> by_cases h : a.arguments = [] <;>
    simp [h, dero, deroi, deto, detoi, deroproof]

theorem goodHrp {hrp : List Char} (h : hrp ∈ [dero, deroi, deto, detoi, deroproof]) :
    GoodHrp hrp ∧ hrp.map lowerChar = hrp := by
  simp only [List.mem_cons, List.not_mem_nil, or_false] at h
  rcases h with rfl | rfl | rfl | rfl | rfl
  · exact ⟨⟨by decide, badHrp_eq_false.mp (by decide)⟩, by decide⟩
  · exact ⟨⟨by decide, badHrp_eq_false.mp (by decide)⟩, by decide⟩
  · exact ⟨⟨by decide, badHrp_eq_false.mp (by decide)⟩, by decide⟩
  · exact ⟨⟨by decide, badHrp_eq_false.mp (by decide)⟩, by decide⟩
  · exact ⟨⟨by decide, badHrp_eq_false.mp (by decide)⟩, by decide⟩

/-- An address is written, and the string and its upper case are read as the payload. -/
theorem fromString_of_toString (a : Address) :
    ∃ s rest, a.toString cm = .ok s ∧ '1' ∉ rest ∧ s = a.hrp ++ '1' :: rest ∧
      Address.fromString cm s = Address.fromPayload a.hrp a.payload ∧
      Address.fromString cm (cm.upper s) = Address.fromPayload a.hrp a.payload := by
  obtain ⟨symbols, hrun, hsymbols, hne, hback⟩ := convertbits_payload a.payload
  obtain ⟨hhrp, hlower⟩ := goodHrp (hrp_mem a)
  rw [← cm.lower_ascii hhrp.ascii] at hlower
  have hread : ∀ {s}, decode cm s = some (.ok (a.hrp, symbols)) →
      Address.fromString cm s = Address.fromPayload a.hrp a.payload := by
    intro s hs
    unfold Address.fromString
    simp only [hs, Option.bind_eq_bind, Option.bind_some, hback, List.getElem?_cons_zero]
    rw [if_neg (not_not.mpr (hrp_mem a)), if_neg hne, if_neg (not_not.mpr rfl), List.tail_cons,
      map_narrow_wide]
  obtain ⟨hlow, hup⟩ := decode_body cm hhrp hlower hsymbols
  refine ⟨body a.hrp symbols, _, ?_, ?_, rfl, hread hlow, hread hup⟩
  · unfold Address.toString
    rw [hrun]
    change (encode cm a.hrp symbols).mapError _ = _
    rw [encode_lower cm hhrp hlower hsymbols]
    rfl
  · exact one_notMem_text (hsymbols.append (createChecksum_symbols _ _))

end Reading

section RoundTrip

variable (cm : CaseMapping) {a : Address} {P : AffinePoint}

theorem payload_length (a : Address) :
    a.payload.length = 33 + (if a.arguments = [] then [] else marshalBinary a.arguments).length := by
  rw [Address.payload, List.length_append, a.publicKey.compress.2]

/-- The key in front of a payload. -/
theorem decompress_payload (hkey : a.publicKey = .affine P) :
    G1.decompress (a.payload.take 33) = .ok a.publicKey := by
  rw [Address.payload, List.take_left' a.publicKey.compress.2, hkey, G1.compress_affine]
  exact G1.decompress_compressed P

theorem fromPayload_base (hkey : a.publicKey = .affine P) (hargs : a.arguments = [])
    (hproof : a.proof = false) : Address.fromPayload a.hrp a.payload = some (.ok a) := by
  have hlength : a.payload.length = 33 := by
    rw [payload_length, if_pos hargs]
    rfl
  unfold Address.fromPayload
  rw [if_neg (by omega), decompress_payload hkey]
  obtain ⟨mainnet, proof, publicKey, arguments⟩ := a
  dsimp only at hargs hproof
  subst hargs hproof
  cases mainnet with
  | false => simp [hlength, Address.hrp, dero, deto, detoi, deroproof]
  | true => simp [hlength, Address.hrp, dero, deto, detoi, deroproof]

theorem fromPayload_integrated {r : List Argument} (hkey : a.publicKey = .affine P)
    (hargs : a.arguments ≠ []) (hflags : a.proof = false ∨ a.mainnet = true)
    (hread : unmarshalBinaryExact (marshalBinary a.arguments) = some (.ok r)) :
    Address.fromPayload a.hrp a.payload = some (.ok { a with arguments := r }) := by
  have hlength := payload_length a
  have hdrop : a.payload.drop 33 = marshalBinary a.arguments := by
    rw [Address.payload, List.drop_left' a.publicKey.compress.2, if_neg hargs]
  have hunmarshal : unmarshalBinary (a.payload.drop 33) = some (.ok r) := by
    rw [unmarshalBinary, hdrop, hread]
    rfl
  unfold Address.fromPayload
  rw [if_neg (by omega), decompress_payload hkey, hunmarshal]
  obtain ⟨mainnet, proof, publicKey, arguments⟩ := a
  dsimp only at hargs hflags
  cases proof with
  | true =>
      obtain rfl : mainnet = true := hflags.resolve_left (by decide)
      simp [Address.hrp, dero, deto, deroi, detoi, deroproof]
  | false =>
      cases mainnet with
      | false => simp [Address.hrp, hargs, dero, deto, deroi, detoi, deroproof]
      | true => simp [Address.hrp, hargs, dero, deto, deroi, detoi, deroproof]

/-- The prefix of an address string. -/
def expectedPrefix : (mainnet proof integrated : Bool) → List Char
  | true, false, false => dero
  | false, false, false => deto
  | true, false, true => deroi
  | false, false, true => detoi
  | _, true, _ => deroproof

theorem hrp_eq (a : Address) : a.hrp = expectedPrefix a.mainnet a.proof (a.arguments ≠ []) := by
  obtain ⟨mainnet, proof, publicKey, arguments⟩ := a
  cases arguments with
  | nil => cases mainnet <;> cases proof <;> rfl
  | cons arg arguments => cases mainnet <;> cases proof <;> rfl

/-- An address whose key is a point and whose arguments survive their encoding is written with
the prefix of its flags and read back, from the string and from its upper case. -/
theorem address_roundTrip (a : Address) (hkey : a.publicKey ≠ .infinity)
    (hargs : a.arguments = [] ∨
      unmarshalBinaryExact (marshalBinary a.arguments) = some (.ok a.arguments))
    (hflags : a.proof = false ∨ (a.proof = true ∧ a.mainnet = true ∧ a.arguments ≠ [])) :
    ∃ s, a.toString cm = .ok s ∧
      (∃ rest, '1' ∉ rest ∧
        s = expectedPrefix a.mainnet a.proof (a.arguments ≠ []) ++ '1' :: rest) ∧
      Address.fromString cm s = some (.ok a) ∧ Address.fromString cm (cm.upper s) = some (.ok a) := by
  obtain ⟨P, hP⟩ : ∃ P, a.publicKey = .affine P := by
    cases hpoint : a.publicKey with
    | infinity => exact absurd hpoint hkey
    | affine P => exact ⟨P, rfl⟩
  have hpayload : Address.fromPayload a.hrp a.payload = some (.ok a) := by
    by_cases hnil : a.arguments = []
    · refine fromPayload_base hP hnil (hflags.resolve_right ?_)
      rintro ⟨-, -, hne⟩
      exact hne hnil
    · exact fromPayload_integrated hP hnil (hflags.imp_right fun h => h.2.1)
        (hargs.resolve_left hnil)
  obtain ⟨s, rest, hs, hrest, hform, hlow, hup⟩ := fromString_of_toString cm a
  rw [hpayload] at hlow hup
  rw [hrp_eq] at hform
  exact ⟨s, hs, ⟨rest, hrest, hform⟩, hlow, hup⟩

/-- A proof address with an amount, under the name `V`. -/
def amountProof : Address :=
  { mainnet := true, proof := true, publicKey := .affine generatorPoint,
    arguments := [⟨⟨[0x56], by decide⟩, .uint64 100000⟩] }

theorem address_roundTrip_amountProof :
    ∃ s rest, amountProof.toString plainMapping = .ok s ∧ s = deroproof ++ '1' :: rest ∧
      Address.fromString plainMapping s = some (.ok amountProof) := by
  obtain ⟨s, hs, ⟨rest, -, hform⟩, hlow, -⟩ := address_roundTrip plainMapping amountProof
    (by decide) (.inr (by decide +kernel)) (.inr (by decide))
  exact ⟨s, rest, hs, hform, hlow⟩

end RoundTrip

section Accepted

variable (cm : CaseMapping) {a : Address}

/-- What is read has a point for its key, and arguments that were read. -/
structure FromText (a : Address) : Prop where
  key : ∃ P, a.publicKey = .affine P
  proof_mainnet : a.proof = true → a.mainnet = true
  arguments : a.arguments = [] ∨ ∃ data, unmarshalBinaryExact data = some (.ok a.arguments)

theorem unmarshalBinary_eq_ok {data : List UInt8} {args : List Argument}
    (h : unmarshalBinary data = some (.ok args)) :
    unmarshalBinaryExact data = some (.ok args) := by
  unfold unmarshalBinary at h
  cases hread : unmarshalBinaryExact data with
  | none => simp [hread] at h
  | some r =>
      cases r with
      | error e => simp [hread] at h
      | ok args' =>
          simpa [hread] using h

theorem fromPayload_eq_ok {hrp : List Char} {resbytes : List UInt8}
    (h : Address.fromPayload hrp resbytes = some (.ok a)) : FromText a := by
  unfold Address.fromPayload at h
  split at h
  · cases h
  split at h
  · cases h
  rename_i publicKey hkey
  have hpoint := (G1.decompress_eq_ok hkey).2
  have hflags : (decide (hrp = deroproof) = true) →
      (!(decide (hrp = deto) || decide (hrp = detoi))) = true := by
    intro hproof
    rw [of_decide_eq_true hproof]
    decide
  dsimp only at h
  split at h
  · cases h
    exact ⟨hpoint, hflags, .inl rfl⟩
  split at h
  · cases hread : unmarshalBinary (resbytes.drop 33) with
    | none => simp [hread] at h
    | some r =>
        rw [hread] at h
        cases r with
        | error e => cases h
        | ok arguments =>
            cases h
            exact ⟨hpoint, hflags, .inr ⟨_, unmarshalBinary_eq_ok hread⟩⟩
  · cases h

theorem fromString_eq_ok {s : List Char} (h : Address.fromString cm s = some (.ok a)) :
    FromText a := by
  unfold Address.fromString at h
  obtain ⟨r, hr⟩ := Option.isSome_iff_exists.mp (decode_isSome cm s)
  rw [hr] at h
  cases r with
  | error e => cases h
  | ok r =>
      obtain ⟨hrp, data⟩ := r
      simp only [Option.bind_eq_bind, Option.bind_some] at h
      split at h
      · cases h
      split at h
      · cases h
      split at h
      · cases h
      rename_i res hres
      cases hversion : res[0]? with
      | none => simp [hversion] at h
      | some version =>
          simp only [hversion, Option.bind_some] at h
          split at h
          · cases h
          · exact fromPayload_eq_ok h

/-- What is read is written again; unless it is a proof without arguments, the new string is read
as the same address with its arguments normalized. -/
theorem fromText_normalized (h : FromText a) (hvalues : ∀ arg ∈ a.arguments, Settled arg.value)
    (hproof : a.proof = true → a.arguments ≠ [])
    (hsize : (marshalBinary a.arguments).length < 2 ^ 63) :
    Address.fromPayload a.hrp a.payload =
      some (.ok { a with arguments := normalized a.arguments }) := by
  obtain ⟨P, hP⟩ := h.key
  by_cases hnil : a.arguments = []
  · have hsame : ({ a with arguments := normalized a.arguments } : Address) = a := by
      obtain ⟨mainnet, proof, publicKey, arguments⟩ := a
      dsimp only at hnil
      rw [hnil]
      rfl
    rw [hsame]
    refine fromPayload_base hP hnil ?_
    rw [← Bool.not_eq_true]
    exact fun hp => hproof hp hnil
  · obtain ⟨data, hdata⟩ := h.arguments.resolve_left hnil
    refine fromPayload_integrated hP hnil ?_
      (unmarshal_accepted (unmarshalBinaryExact_accepted hdata) hvalues hsize)
    cases hp : a.proof with
    | false => exact .inl rfl
    | true => exact .inr (h.proof_mainnet hp)

/-- An accepted address can be written.  If its arguments are settled and it is no proof without
arguments, the string is read as the same address with its arguments normalized, which they are
already if their names differ and their values are canonical.  Without its arguments it is
written and read as well, unless it is a proof.  A byte vector has fewer than `2 ^ 63` bytes. -/
theorem address_normalisation (s : List Char) (a : Address)
    (h : Address.fromString cm s = some (.ok a)) :
    (∃ t, a.toString cm = .ok t ∧
      ((∀ arg ∈ a.arguments, Settled arg.value) → (a.proof = true → a.arguments ≠ []) →
        (marshalBinary a.arguments).length < 2 ^ 63 →
          Address.fromString cm t =
            some (.ok { a with arguments := normalized a.arguments }))) ∧
      (normalized a.arguments).Perm (a.arguments.map canonicalArg) ∧
      ((a.arguments.map Argument.name).Nodup → (∀ arg ∈ a.arguments, canonicalArg arg = arg) →
        normalized a.arguments = a.arguments) ∧
      (a.proof = false → ∃ t, a.baseAddress.toString cm = .ok t ∧
        Address.fromString cm t = some (.ok { a with arguments := [] })) := by
  have htext := fromString_eq_ok cm h
  refine ⟨?_, List.perm_insertionSort _ _, ?_, ?_⟩
  · obtain ⟨t, -, ht, -, -, hread, -⟩ := fromString_of_toString cm a
    refine ⟨t, ht, ?_⟩
    intro hvalues hproof hsize
    rw [hread]
    exact fromText_normalized htext hvalues hproof hsize
  · intro hnames hvalues
    rcases htext.arguments with hnil | ⟨data, hdata⟩
    · rw [hnil]
      rfl
    · exact normalized_eq hdata hnames hvalues
  · intro hproof
    obtain ⟨P, hP⟩ := htext.key
    obtain ⟨t, -, ht, -, -, hread, -⟩ := fromString_of_toString cm a.baseAddress
    have hbase : Address.fromPayload a.baseAddress.hrp a.baseAddress.payload =
        some (.ok a.baseAddress) := fromPayload_base hP rfl hproof
    exact ⟨t, ht, hread.trans hbase⟩

/-- An integrated address of the generator with a time, under the name `a`. -/
def timedAddress : List Char :=
  "deroi1qyqqqqqqqqqqqqqqqqqqqqqqqqqqqqqqqqqqqqqqqqqqqqqqqqqqzq9pvfs4fsg9uv0a7k".toList

/-- What it is read as. -/
def timed : Address :=
  { mainnet := true, proof := false, publicKey := .affine generatorPoint,
    arguments := [⟨⟨[0x61], by decide⟩, .time 5⟩] }

theorem address_normalisation_timed :
    Address.fromString plainMapping timedAddress = some (.ok timed) ∧
      ∃ t, timed.toString plainMapping = .ok t ∧
        Address.fromString plainMapping t = some (.ok timed) := by
  have haccepted : Address.fromString plainMapping timedAddress = some (.ok timed) := by
    decide +kernel
  obtain ⟨⟨t, ht, hread⟩, -, hsame, -⟩ :=
    address_normalisation plainMapping timedAddress timed haccepted
  have hnormal := hread (by decide) (by decide) (by decide)
  rw [hsame (by decide) (by decide)] at hnormal
  exact ⟨haccepted, t, ht, hnormal⟩

/-- An integrated address of the generator with a time that is not a number. -/
def nanTimeAddress : List Char :=
  "deroi1qyqqqqqqqqqqqqqqqqqqqqqqqqqqqqqqqqqqqqqqqqqqqqqqqqqqzq9pvfs4fs0e0cqqe6efws".toList

/-- What it is read as: the zero time, which is written as null. -/
def nanTimed : Address :=
  { mainnet := true, proof := false, publicKey := .affine generatorPoint,
    arguments := [⟨⟨[0x61], by decide⟩, .time Args.Encoding.goZeroTimeUnix⟩] }

/-- Whether an address survives normalisation. -/
def survives (a : Address) : Bool :=
  match a.toString cm with
  | .error _ => false
  | .ok t =>
      match Address.fromString cm t with
      | some (.ok b) => b = a
      | _ => false

theorem nanTimeAddress_not_survives :
    Address.fromString plainMapping nanTimeAddress = some (.ok nanTimed) ∧
      ¬∃ t b, nanTimed.toString plainMapping = .ok t ∧
        Address.fromString plainMapping t = some (.ok b) ∧ b = nanTimed := by
  have hlost : survives plainMapping nanTimed = false := by decide +kernel
  refine ⟨by decide +kernel, ?_⟩
  rintro ⟨t, b, ht, hb, rfl⟩
  simp [survives, ht, hb] at hlost

end Accepted

section Encodings

variable (cm : CaseMapping)

/-- A decoded string is an encoding up to ASCII case, except for the Kelvin sign, which is taken
for a `K`; and neither decoding nor reading an address panics. -/
theorem decode_only_encodings (s : List Char) :
    (OnlyEncoding cm s ↔ ¬KelvinForm cm s) ∧ decode cm s ≠ none ∧ Address.fromString cm s ≠ none :=
  ⟨onlyEncoding_iff cm s, Option.isSome_iff_ne_none.mp (decode_isSome cm s),
    Option.isSome_iff_ne_none.mp (fromString_isSome cm s)⟩

/-- The upper case of an address with Kelvin signs for its `K`. -/
def kelvinAddress : List Char :=
  "DERO1QYPW4NALJ2U5Q9WFKZEAJQW6UDLVDRM5M6N7GJZVWM2ST2K7FTTUQQGWTMNDV".toList.map
    fun c => if c = 'K' then kelvin else c

theorem kelvinAddress_not_onlyEncoding : ¬OnlyEncoding plainMapping kelvinAddress := by
  have hok : (decode plainMapping kelvinAddress).map Except.isOk = some true := by
    decide +kernel
  have hkelvin : kelvin ∈ kelvinAddress := by decide +kernel
  obtain ⟨r, hdecode, hr⟩ := Option.map_eq_some_iff.mp hok
  cases r with
  | error e => cases hr
  | ok r => exact not_onlyEncoding plainMapping hdecode hkelvin

end Encodings

end DirtybirdMiner.Block.Addresses
