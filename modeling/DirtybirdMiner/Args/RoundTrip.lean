import DirtybirdMiner.Args.Decoding
import DirtybirdMiner.Lib.Stable

/-!
Decoding undoes encoding.  The encoder writes one entry for every key, in the
order of the encoded keys; the decoder reads entries in any order and sorts them
by name.
-/

namespace DirtybirdMiner.Args.RoundTrip

open DirtybirdMiner.Lib
open DirtybirdMiner.Lib.Bytes
open DirtybirdMiner.Lib.Floats
open DirtybirdMiner.Lib.Stable
open DirtybirdMiner.Lib.Utf8
open DirtybirdMiner.Bn256.Prime
open DirtybirdMiner.Bn256.Affine
open DirtybirdMiner.Args.Encoding
open DirtybirdMiner.Args.Validator
open DirtybirdMiner.Args.Parser
open DirtybirdMiner.Args.Arguments
open DirtybirdMiner.Args.WellFormed
open DirtybirdMiner.Args.Extents
open DirtybirdMiner.Args.Decoding

section Frames

/-- The encoded key and value of an argument. -/
def encArg (arg : Argument) : List UInt8 := encText arg.key ++ encValue arg.value

/-- What stands before and behind the entries of a map: a head with their number,
of any width, or the marks of a map without a length. -/
inductive MapFrame (n : Nat) : List UInt8 → List UInt8 → Prop
  | definite {ai : Nat} (fits : Fits ai n) : MapFrame n (headBytes 5 ai n) []
  | indefinite : MapFrame n [0xbf] [0xff]

variable {args : List Argument} {header trailer : List UInt8}

/-- Where an entry starts behind a header of some length. -/
def startOf (base : Nat) (args : List Argument) (i : Nat) : Nat :=
  base + ((args.take i).flatMap encArg).length

theorem startOf_succ (base : Nat) {i : Nat} (hi : i < args.length) :
    startOf base args (i + 1) = startOf base args i + (encArg args[i]).length := by
  rw [startOf, startOf, List.take_succ_eq_append_getElem hi, List.flatMap_append,
    List.length_append, List.flatMap_singleton, Nat.add_assoc]

theorem at_entry (header trailer : List UInt8) {i : Nat} (hi : i < args.length) :
    At (header ++ args.flatMap encArg ++ trailer) (startOf header.length args i)
      (encArg args[i]) := by
  refine ⟨(args.drop (i + 1)).flatMap encArg ++ trailer, ?_⟩
  have hsplit : args.flatMap encArg = (args.take i).flatMap encArg ++
      (encArg args[i] ++ (args.drop (i + 1)).flatMap encArg) := by
    conv_lhs => rw [← List.take_append_drop i args, List.drop_eq_getElem_cons hi]
    rw [List.flatMap_append, List.flatMap_cons]
  rw [hsplit, startOf, ← List.length_append]
  simp only [List.append_assoc]
  rw [← List.append_assoc header, List.drop_left]

/-- The key of an entry, and what its value is read as. -/
def keyAt (args : List Argument) (i : Nat) : Text := (args[i]?).elim ⟨[], Utf8.valid_nil⟩ Argument.key

def valueAt (args : List Argument) (i : Nat) : Cval :=
  (args[i]?).elim .nil fun arg => cvalOf arg.value

theorem rows_of_args (header trailer : List UInt8)
    (htimes : ∀ arg ∈ args, arg.value ≠ .time goZeroTimeUnix)
    (hshort : (header ++ args.flatMap encArg ++ trailer).length < 2 ^ 63) :
    Rows (header ++ args.flatMap encArg ++ trailer) args.length (startOf header.length args)
      (fun i => startOf header.length args i + (encText (keyAt args i)).length)
      (keyAt args) (valueAt args) := by
  have hkeyAt : ∀ {i}, (hi : i < args.length) → keyAt args i = args[i].key := by
    intro i hi
    simp [keyAt, hi]
  have hvalueAt : ∀ {i}, (hi : i < args.length) → valueAt args i = cvalOf args[i].value := by
    intro i hi
    simp [valueAt, hi]
  constructor
  · intro i hi
    rw [hkeyAt hi]
    have hat := (at_entry header trailer hi).left
    exact (decodes_text hat (encText_short hat hshort)).lift
  · intro i hi fuel slot
    rw [hkeyAt hi]
    have hat := (at_entry header trailer hi).left
    exact parseKey_of_at hat (encText_short hat hshort) (fuel + 1) slot
  · intro i hi
    rw [hkeyAt hi, hvalueAt hi, startOf_succ _ hi, encArg, List.length_append, ← Nat.add_assoc]
    exact decodes_value (at_entry header trailer hi).right hshort
      (htimes _ (List.getElem_mem hi))

/-- The decoded map has the entries in the order of the data. -/
theorem localmap_of_frame (hframe : MapFrame args.length header trailer)
    (hkeys : (args.map Argument.key).Nodup) (hcount : args.length ≤ maxMapPairs)
    (htimes : ∀ arg ∈ args, arg.value ≠ .time goZeroTimeUnix)
    (hshort : (header ++ args.flatMap encArg ++ trailer).length < 2 ^ 63) :
    cborUnmarshalLocalmap (header ++ args.flatMap encArg ++ trailer) =
      some (.ok (args.map fun arg => (arg.key, cvalOf arg.value))) := by
  have hrows := rows_of_args header trailer htimes hshort
  have hentries : (List.range args.length).map (fun i => (keyAt args i, valueAt args i)) =
      args.map fun arg => (arg.key, cvalOf arg.value) := by
    apply List.ext_getElem
    · simp
    · intro i hi hi'
      simp only [List.length_map] at hi'
      simp [keyAt, valueAt, hi']
  have hnodup : ((args.map fun arg => (arg.key, cvalOf arg.value)).map Prod.fst).Nodup := by
    rw [List.map_map]
    exact hkeys
  have hstart : startOf header.length args 0 = header.length := by simp [startOf]
  have hend : startOf header.length args args.length =
      (header ++ args.flatMap encArg).length := by simp [startOf]
  rw [← Entries.insertAll_of_nodup hnodup, ← hentries]
  cases hframe with
  | @definite ai fits =>
      have hat : At (headBytes 5 ai args.length ++ args.flatMap encArg ++ []) 0
          (headBytes 5 ai args.length) := ⟨args.flatMap encArg ++ [], by simp⟩
      have head := head_of_at hat (by omega) fits
      rw [Nat.zero_add, ← hstart] at head
      exact hrows.localmap head (.inl fits.lt) (.inl ⟨by have := fits.lt; omega, rfl, rfl⟩) hcount
  | indefinite =>
      have head : Head ([0xbf] ++ args.flatMap encArg ++ [0xff]) 0 5 31 31
          (startOf ([0xbf] : List UInt8).length args 0) :=
        ⟨⟨0xbf, by simp, rfl, rfl⟩, rfl, hstart, by rw [hstart]; simp⟩
      have hbreak : At ([0xbf] ++ args.flatMap encArg ++ [0xff])
          (startOf ([0xbf] : List UInt8).length args args.length) [0xff] :=
        ⟨[], by rw [hend, List.drop_left, List.append_nil]⟩
      exact hrows.localmap head (.inr rfl) (.inr ⟨rfl, hbreak.head, rfl⟩) hcount

end Frames

section Entries

/-- What a value is after a round trip. -/
def canonicalValue : ArgValue → ArgValue
  | .float64 f => .float64 (canonicalFloat f)
  | v => v

def canonicalArg (arg : Argument) : Argument := { arg with value := canonicalValue arg.value }

/-- Values that the decoder accepts as they are: no zero time, and addresses that
are read back as themselves. -/
def Survives : ArgValue → Prop
  | .address a => decodeAddressGo a.1 = .ok a
  | .time secs => secs ≠ goZeroTimeUnix
  | _ => True

theorem copyInto_self {n : Nat} (b : FixedBytes n) : copyInto n b.1 = b := by
  apply Subtype.ext
  simp [copyInto, b.2]

theorem convert_cvalOf {v : ArgValue} (hv : Survives v) :
    convert v.typeChar (cvalOf v) = some (.ok (canonicalValue v)) := by
  cases v with
  | uint64 u => rfl
  | int64 i =>
      simp only [cvalOf, intCval]
      split_ifs with hsign
      · change some (Except.ok (ArgValue.int64 (UInt64.ofNat i.toInt.toNat).toInt64)) = _
        rw [toInt64_of_nonneg hsign]
        rfl
      · rfl
  | str s => rfl
  | hash h => simp [convert, cvalOf, ArgValue.typeChar, canonicalValue, copyInto_self]
  | address a =>
      have ha : decodeAddressGo a.1 = .ok a := hv
      simp [convert, cvalOf, ArgValue.typeChar, canonicalValue, ha, Except.map]
  | float64 f => rfl
  | time secs => rfl

theorem typeChar_mem (v : ArgValue) : v.typeChar ∈ typeChars := by
  cases v <;> simp [ArgValue.typeChar, typeChars]

theorem readEntry_key {arg : Argument} (hname : arg.name.bytes ≠ []) (hv : Survives arg.value) :
    readEntry arg.key (cvalOf arg.value) = some (.ok (canonicalArg arg)) := by
  have hlast : arg.key.bytes.getLast? = some arg.value.typeChar := by simp [Argument.key]
  have hlen : ¬arg.key.bytes.length < 2 := by
    have := List.length_pos_iff.mpr hname
    simp [Argument.key]
    omega
  have hkeyName : keyName arg.key = some arg.name := by
    rw [keyName, show arg.key.bytes.dropLast = arg.name.bytes by simp [Argument.key],
      fromUtf8_bytes]
  rw [readEntry, if_neg hlen, hlast, Option.bind_eq_bind, Option.bind_some,
    if_neg (by simp [typeChar_mem]), convert_cvalOf hv]
  simp [hkeyName, canonicalArg]

theorem readEntries_args {args : List Argument} (hnames : ∀ arg ∈ args, arg.name.bytes ≠ [])
    (hvalues : ∀ arg ∈ args, Survives arg.value) :
    readEntries (args.map fun arg => (arg.key, cvalOf arg.value)) =
      some (.ok (args.map canonicalArg)) := by
  induction args with
  | nil => rfl
  | cons arg args ih =>
      rw [List.forall_mem_cons] at hnames hvalues
      simp [readEntries, readEntry_key hnames.1 hvalues.1, ih hnames.2 hvalues.2]

variable {args : List Argument} {header trailer : List UInt8}

/-- Entries in any order are read back, sorted by name. -/
theorem unmarshal_of_frame (hframe : MapFrame args.length header trailer)
    (hkeys : (args.map Argument.key).Nodup) (hcount : args.length ≤ maxMapPairs)
    (hnames : ∀ arg ∈ args, arg.name.bytes ≠ []) (hvalues : ∀ arg ∈ args, Survives arg.value)
    (hshort : (header ++ args.flatMap encArg ++ trailer).length < 2 ^ 63) :
    unmarshalBinaryExact (header ++ args.flatMap encArg ++ trailer) =
      some (.ok (sortByName (args.map canonicalArg))) := by
  have htimes : ∀ arg ∈ args, arg.value ≠ .time goZeroTimeUnix := by
    intro arg harg heq
    have hv := hvalues arg harg
    rw [heq] at hv
    exact hv rfl
  rw [unmarshalBinaryExact, localmap_of_frame hframe hkeys hcount htimes hshort]
  simp [readEntries_args hnames hvalues]

end Entries

section Order

/-- What the key of an argument consists of. -/
def ident (arg : Argument) : Text × UInt8 := (arg.name, arg.value.typeChar)

theorem key_eq_iff {x y : Argument} : x.key = y.key ↔ ident x = ident y := by
  constructor
  · intro h
    have hbytes := congrArg Text.bytes h
    obtain ⟨hname, hchar⟩ := List.append_inj' hbytes rfl
    exact Prod.ext (Text.ext hname) (List.cons.inj hchar).1
  · intro h
    have hname : x.name = y.name := congrArg Prod.fst h
    have hchar : x.value.typeChar = y.value.typeChar := congrArg Prod.snd h
    apply Text.ext
    simp only [Argument.key, hname, hchar]

/-- The first byte of a head tells its length. -/
theorem encHead_eq_headBytes (major n : Nat) :
    ∃ ai, ai < 28 ∧ encHead major n = headBytes major ai n := by
  unfold encHead
  split_ifs with h24
  · exact ⟨n, by omega, by rw [headBytes, width_of_lt h24]; rfl⟩
  · exact ⟨24, by omega, rfl⟩
  · exact ⟨25, by omega, rfl⟩
  · exact ⟨26, by omega, rfl⟩
  · exact ⟨27, by omega, rfl⟩

theorem encText_injective : Function.Injective encText := by
  intro s t h
  obtain ⟨ai, hai, hs⟩ := encHead_eq_headBytes 3 s.bytes.length
  obtain ⟨ai', hai', ht⟩ := encHead_eq_headBytes 3 t.bytes.length
  rw [encText, encText, hs, ht] at h
  have hbyte : UInt8.ofNat (32 * 3 + ai) = UInt8.ofNat (32 * 3 + ai') := (List.cons.inj h).1
  have hsame : ai = ai' := by
    have htoNat := congrArg UInt8.toNat hbyte
    rw [UInt8.toNat_ofNat', UInt8.toNat_ofNat'] at htoNat
    omega
  subst hsame
  exact Text.ext (List.append_inj h (by simp)).2

/-- For arguments of one name the order of the encoded keys is that of the types. -/
theorem encText_key_le {x y : Argument} (hname : x.name = y.name) :
    encText x.key ≤ encText y.key ↔ x.value.typeChar ≤ y.value.typeChar := by
  have hsplit : ∀ arg : Argument, encText arg.key =
      (encHead 3 (arg.name.bytes.length + 1) ++ arg.name.bytes) ++ [arg.value.typeChar] := by
    intro arg
    simp [encText, Argument.key]
  rw [hsplit x, hsplit y, hname]
  constructor
  · intro h
    by_contra hgt
    refine h (List.append_left_lt ?_)
    exact List.cons_lt_cons_iff.mpr (.inl (UInt8.not_le.mp hgt))
  · intro h
    refine List.append_left_le (List.cons_le_cons_iff.mpr ?_)
    rcases UInt8.lt_or_eq_of_le h with hlt | heq
    · exact .inl hlt
    · exact .inr ⟨heq, List.le_refl _⟩

/-- The order of the decoded arguments: by name, then by type. -/
def nameThenType (x y : Argument) : Prop :=
  x.name.bytes < y.name.bytes ∨
    (x.name.bytes = y.name.bytes ∧ x.value.typeChar ≤ y.value.typeChar)

instance : DecidableRel nameThenType := fun _ _ => inferInstanceAs (Decidable (_ ∨ _))

instance : Std.Total nameThenType where
  total x y := by
    unfold nameThenType
    rcases Std.lt_trichotomy x.name.bytes y.name.bytes with h | h | h
    · exact .inl (.inl h)
    · rcases UInt8.le_total x.value.typeChar y.value.typeChar with hc | hc
      · exact .inl (.inr ⟨h, hc⟩)
      · exact .inr (.inr ⟨h.symm, hc⟩)
    · exact .inr (.inl h)

instance : IsTrans Argument nameThenType where
  trans x y z hxy hyz := by
    unfold nameThenType at *
    rcases hxy with hxy | ⟨hxy, hcxy⟩
    · rcases hyz with hyz | ⟨hyz, -⟩
      · exact .inl (List.lt_trans hxy hyz)
      · exact .inl (hyz ▸ hxy)
    · rcases hyz with hyz | ⟨hyz, hcyz⟩
      · exact .inl (hxy ▸ hyz)
      · exact .inr ⟨hxy.trans hyz, UInt8.le_trans hcxy hcyz⟩

theorem ident_eq_of_nameThenType {x y : Argument} (hxy : nameThenType x y)
    (hyx : nameThenType y x) : ident x = ident y := by
  rcases hxy with hlt | ⟨heq, hle⟩
  · rcases hyx with hlt' | ⟨heq', -⟩
    · exact absurd (List.lt_trans hlt hlt') (List.lt_irrefl _)
    · rw [heq'] at hlt
      exact absurd hlt (List.lt_irrefl _)
  · rcases hyx with hlt' | ⟨-, hle'⟩
    · rw [heq] at hlt'
      exact absurd hlt' (List.lt_irrefl _)
    · exact Prod.ext (Text.ext heq) (UInt8.le_antisymm hle hle')

/-- The order of the entries in a canonical map. -/
def byKey (x y : Argument) : Prop := encText x.key ≤ encText y.key

instance : DecidableRel byKey := fun x y => inferInstanceAs (Decidable (encText x.key ≤ encText y.key))

instance : Std.Total byKey where
  total x y := List.le_total (encText x.key) (encText y.key)

instance : IsTrans Argument byKey where
  trans _ _ _ hxy hyz := List.le_trans hxy hyz

theorem ident_eq_of_byKey {x y : Argument} (hxy : byKey x y) (hyx : byKey y x) :
    ident x = ident y :=
  key_eq_iff.mp (encText_injective (List.le_antisymm hxy hyx))

/-- On entries in canonical order the stable sort by name is the sort by name and
type. -/
theorem sortByName_eq {args : List Argument} (h : args.Pairwise byKey) :
    sortByName args = args.insertionSort nameThenType := by
  refine insertionSort_congr _ _ (h.imp ?_)
  intro x y hxy
  unfold nameThenType
  constructor
  · intro hle
    rcases Std.lt_trichotomy x.name.bytes y.name.bytes with hlt | heq | hgt
    · exact .inl hlt
    · exact .inr ⟨heq, (encText_key_le (Text.ext heq)).mp hxy⟩
    · exact absurd hgt hle
  · rintro (hlt | ⟨heq, -⟩)
    · exact List.le_of_lt hlt
    · rw [heq]
      exact List.le_refl _

end Order

section Canonical

/-- Only the last argument of every name and type. -/
def keepLast : List Argument → List Argument
  | [] => []
  | arg :: args =>
      if ident arg ∈ args.map ident then keepLast args else arg :: keepLast args

/-- Without repetitions, by name and type. -/
def dedupSorted (args : List Argument) : List Argument :=
  (keepLast args).insertionSort nameThenType

/-- The arguments under their keys. -/
def keyed (args : List Argument) : List (Text × Argument) := args.map fun arg => (arg.key, arg)

theorem keepLast_eq (args : List Argument) :
    keepLast args = (Entries.lastOfEach (keyed args)).map Prod.snd := by
  induction args with
  | nil => rfl
  | cons arg args ih =>
      have hmem : ident arg ∈ args.map ident ↔ arg.key ∈ (keyed args).map Prod.fst := by
        simp only [keyed, List.map_map, List.mem_map, Function.comp_apply]
        constructor
        · rintro ⟨y, hy, heq⟩
          exact ⟨y, hy, key_eq_iff.mpr heq⟩
        · rintro ⟨y, hy, heq⟩
          exact ⟨y, hy, key_eq_iff.mp heq⟩
      rw [keyed, List.map_cons, keepLast, Entries.lastOfEach, ← keyed]
      by_cases h : ident arg ∈ args.map ident
      · rw [if_pos h, if_pos (hmem.mp h), ih]
      · rw [if_neg h, if_neg (fun h' => h (hmem.mpr h')), List.map_cons, ih]

theorem keepLast_sublist (args : List Argument) : (keepLast args).Sublist args := by
  have h := (Entries.lastOfEach_sublist (keyed args)).map Prod.snd
  rw [← keepLast_eq] at h
  simpa [keyed, Function.comp_def] using h

/-- The arguments that the encoder keeps, in canonical order. -/
def document (args : List Argument) : List Argument := (keepLast args).insertionSort byKey

theorem document_perm (args : List Argument) : (document args).Perm (keepLast args) :=
  List.perm_insertionSort _ _

theorem document_pairwise (args : List Argument) : (document args).Pairwise byKey :=
  List.pairwise_insertionSort _ _

theorem mem_of_mem_document {args : List Argument} {arg : Argument} (h : arg ∈ document args) :
    arg ∈ args :=
  (keepLast_sublist args).subset ((document_perm args).mem_iff.mp h)

theorem keepLast_idents_nodup (args : List Argument) : ((keepLast args).map ident).Nodup := by
  induction args with
  | nil => exact List.nodup_nil
  | cons arg args ih =>
      rw [keepLast]
      split_ifs with hmem
      · exact ih
      · rw [List.map_cons, List.nodup_cons]
        exact ⟨fun h => hmem (((keepLast_sublist args).map ident).subset h), ih⟩

/-- There are as many arguments left as there are names with a type. -/
theorem keepLast_idents (args : List Argument) : (keepLast args).map ident = (args.map ident).dedup := by
  induction args with
  | nil => rfl
  | cons arg args ih =>
      rw [keepLast, List.map_cons]
      split_ifs with hmem
      · rw [ih, List.dedup_cons_of_mem hmem]
      · rw [List.map_cons, ih, List.dedup_cons_of_notMem hmem]

theorem keepLast_of_nodup {args : List Argument} (h : (args.map ident).Nodup) :
    keepLast args = args := by
  induction args with
  | nil => rfl
  | cons arg args ih =>
      rw [List.map_cons, List.nodup_cons] at h
      rw [keepLast, if_neg h.1, ih h.2]

theorem keys_nodup_iff {args : List Argument} :
    (args.map Argument.key).Nodup ↔ (args.map ident).Nodup := by
  simp only [List.Nodup, List.pairwise_map]
  exact List.Pairwise.iff fun x y => not_congr key_eq_iff

theorem eq_of_ident {args : List Argument} (h : (args.map ident).Nodup) {x y : Argument}
    (hx : x ∈ args) (hy : y ∈ args) (heq : ident x = ident y) : x = y :=
  List.inj_on_of_nodup_map h hx hy heq

/-- The canonical order does not depend on the order of the arguments. -/
theorem document_of_perm {args args' : List Argument} (h : (keepLast args).Perm (keepLast args')) :
    document args = document args' := by
  refine insertionSort_perm byKey ?_ h
  intro x hx y hy hxy hyx
  exact eq_of_ident (keepLast_idents_nodup args) hx hy (ident_eq_of_byKey hxy hyx)

theorem marshalPairs_eq (args : List Argument) :
    marshalPairs args = (document args).map fun arg => (encText arg.key, encValue arg.value) := by
  have hkeyed : (args.map fun arg => (encText arg.key, encValue arg.value)) =
      (keyed args).map fun p => (encText p.1, encValue p.2.value) := by
    simp [keyed]
  have hfst : ∀ p ∈ Entries.insertAll [] (keyed args), p.1 = p.2.key := by
    intro p hp
    have hmem := (Entries.lastOfEach_sublist _).subset ((Entries.insertAll_perm _).mem_iff.mp hp)
    obtain ⟨arg, -, rfl⟩ := List.mem_map.mp hmem
    rfl
  have hmap : ((Entries.insertAll [] (keyed args)).map fun p => (encText p.1, encValue p.2.value)) =
      ((Entries.insertAll [] (keyed args)).map Prod.snd).map
        fun arg => (encText arg.key, encValue arg.value) := by
    rw [List.map_map]
    apply List.map_congr_left
    intro p hp
    rw [hfst p hp]
    rfl
  have hperm : ((Entries.insertAll [] (keyed args)).map Prod.snd).Perm (keepLast args) := by
    rw [keepLast_eq]
    exact (Entries.insertAll_perm _).map Prod.snd
  have hsort : document args =
      ((Entries.insertAll [] (keyed args)).map Prod.snd).insertionSort byKey := by
    refine (insertionSort_perm byKey ?_ hperm.symm)
    intro x hx y hy hxy hyx
    exact eq_of_ident (keepLast_idents_nodup args) hx hy (ident_eq_of_byKey hxy hyx)
  have hinsert := Entries.insertAll_map encText_injective
    (fun arg : Argument => encValue arg.value) (keyed args)
  rw [marshalPairs, hkeyed, hinsert, hmap, hsort]
  exact (List.map_insertionSort byKey (fun a b => a.1 ≤ b.1)
    (fun arg : Argument => (encText arg.key, encValue arg.value)) _ fun x _ y _ => Iff.rfl).symm

theorem marshalBinary_eq (args : List Argument) :
    marshalBinary args = encHead 5 (document args).length ++ (document args).flatMap encArg := by
  rw [marshalBinary, marshalPairs_eq, List.length_map, encPairs, List.flatMap_map]
  rfl

theorem marshalBinary_of_perm {args args' : List Argument}
    (h : (keepLast args).Perm (keepLast args')) : marshalBinary args = marshalBinary args' := by
  rw [marshalBinary_eq, marshalBinary_eq, document_of_perm h]

@[simp] theorem canonicalValue_typeChar (v : ArgValue) :
    (canonicalValue v).typeChar = v.typeChar := by
  cases v <;> rfl

@[simp] theorem canonicalArg_key (arg : Argument) : (canonicalArg arg).key = arg.key := by
  simp [canonicalArg, Argument.key]

@[simp] theorem canonicalArg_ident (arg : Argument) : ident (canonicalArg arg) = ident arg := by
  simp [canonicalArg, ident]

theorem encFloat_canonicalFloat (f : UInt64) : encFloat (canonicalFloat f) = encFloat f := by
  unfold canonicalFloat
  split_ifs with hnan
  · rw [encFloat, encFloat, if_pos hnan, if_pos (by decide +kernel)]
  · rfl

theorem encArg_canonicalArg (arg : Argument) : encArg (canonicalArg arg) = encArg arg := by
  rw [encArg, encArg, canonicalArg_key]
  congr 1
  rw [canonicalArg]
  cases arg.value with
  | float64 f => exact encFloat_canonicalFloat f
  | _ => rfl

/-- What the encoder writes is read back. -/
theorem unmarshal_marshalBinary {args : List Argument}
    (hnames : ∀ arg ∈ args, arg.name.bytes ≠ []) (hcount : (keepLast args).length ≤ maxMapPairs)
    (hvalues : ∀ arg ∈ args, Survives arg.value)
    (hshort : (marshalBinary args).length < 2 ^ 63) :
    unmarshalBinaryExact (marshalBinary args) =
      some (.ok (((document args).map canonicalArg).insertionSort nameThenType)) := by
  have hlength : (document args).length ≤ maxMapPairs := by
    rwa [(document_perm args).length_eq]
  have hcount' : (document args).length ≤ 131072 := hlength
  obtain ⟨ai, hfits, hhead⟩ := encHead_eq 5 (n := (document args).length) (by omega)
  have hkeys : ((document args).map Argument.key).Nodup := by
    rw [keys_nodup_iff, ((document_perm args).map ident).nodup_iff]
    exact keepLast_idents_nodup args
  have hsorted : ((document args).map canonicalArg).Pairwise byKey := by
    rw [List.pairwise_map]
    refine (document_pairwise args).imp fun {x y} hxy => ?_
    rw [byKey, canonicalArg_key, canonicalArg_key]
    exact hxy
  rw [marshalBinary_eq, hhead, ← List.append_nil (headBytes _ _ _ ++ _)] at hshort ⊢
  rw [unmarshal_of_frame (.definite hfits) hkeys hlength
    (fun arg harg => hnames arg (mem_of_mem_document harg))
    (fun arg harg => hvalues arg (mem_of_mem_document harg)) hshort, sortByName_eq hsorted]

end Canonical

section Statement

/-- The values of the round trip: no floats, no zero time, and addresses that are
compressed points. -/
def Portable : ArgValue → Prop
  | .address a => ∃ P : AffinePoint, a = P.compressed
  | .float64 _ => False
  | .time secs => secs ≠ goZeroTimeUnix
  | _ => True

theorem decodeAddressGo_compressed (P : AffinePoint) :
    decodeAddressGo P.compressed.1 = .ok P.compressed := by
  have hbeta : P.y * P.y % fieldPrime = (P.x * P.x * P.x + 3) % fieldPrime % fieldPrime := by
    rw [Nat.mod_mod, P.onCurve]
  have hroot := modSqrt_square P.y_lt hbeta
  have hsquare : modSqrt ((P.x * P.x * P.x + 3) % fieldPrime) *
      modSqrt ((P.x * P.x * P.x + 3) % fieldPrime) % fieldPrime =
      (P.x * P.x * P.x + 3) % fieldPrime := by
    rw [square_of_root hroot, P.onCurve]
  have hflag : P.compressed.1.getD 32 0 = rootFlag P.y := by
    simp [AffinePoint.compressed, List.getD]
  have htake : P.compressed.1.take 32 = beBytes 32 P.x := by
    rw [AffinePoint.compressed, List.take_left' (beBytes_length 32 P.x)]
  unfold decodeAddressGo
  simp only [copyInto_self, beValue_compressed, hflag, chooseRoot_rootFlag P.y_lt hroot]
  rw [if_neg (by rw [hsquare]; simp), if_neg (by simpa using ⟨P.x_lt, P.y_lt⟩)]
  simp only [htake]
  rfl

theorem Portable.survives {v : ArgValue} (h : Portable v) : Survives v := by
  cases v with
  | address a =>
      obtain ⟨P, rfl⟩ := h
      exact decodeAddressGo_compressed P
  | float64 f => exact h.elim
  | time secs => exact h
  | _ => trivial

theorem Portable.canonical {arg : Argument} (h : Portable arg.value) : canonicalArg arg = arg := by
  obtain ⟨name, value⟩ := arg
  cases value with
  | float64 f => exact h.elim
  | _ => rfl

variable {a : List Argument}

theorem map_canonicalArg {args : List Argument} (h : ∀ arg ∈ args, Portable arg.value) :
    args.map canonicalArg = args := by
  conv_rhs => rw [← List.map_id args]
  exact List.map_congr_left fun arg harg => (h arg harg).canonical

theorem unmarshal_dedupSorted (hnames : ∀ arg ∈ a, arg.name.bytes ≠ [])
    (hcount : (keepLast a).length ≤ maxMapPairs) (hvalues : ∀ arg ∈ a, Portable arg.value)
    (hsize : (marshalBinary a).length < 2 ^ 63) :
    unmarshalBinaryExact (marshalBinary a) = some (.ok (dedupSorted a)) := by
  rw [unmarshal_marshalBinary hnames hcount (fun arg harg => (hvalues arg harg).survives) hsize,
    map_canonicalArg fun arg harg => hvalues arg (mem_of_mem_document harg)]
  congr 2
  refine (insertionSort_perm nameThenType ?_ (document_perm a).symm).symm
  intro x hx y hy hxy hyx
  exact eq_of_ident (keepLast_idents_nodup a) hx hy (ident_eq_of_nameThenType hxy hyx)

/-- The keys of the canonical map rise. -/
theorem marshalPairs_keys (a : List Argument) :
    ((marshalPairs a).map Prod.fst).Pairwise (· < ·) := by
  have hnodup : ((document a).map Argument.key).Nodup := by
    rw [keys_nodup_iff, ((document_perm a).map ident).nodup_iff]
    exact keepLast_idents_nodup a
  rw [marshalPairs_eq, List.map_map, List.pairwise_map]
  rw [List.Nodup, List.pairwise_map] at hnodup
  refine (document_pairwise a).imp₂ ?_ hnodup
  intro x y hle hne
  exact Std.lt_of_le_of_ne hle fun heq => hne (encText_injective heq)

/-- A map with the same entries in another order is read as the same arguments. -/
theorem unmarshal_reordered {pairs : List (List UInt8 × List UInt8)} {header trailer : List UInt8}
    (hnames : ∀ arg ∈ a, arg.name.bytes ≠ []) (hcount : (keepLast a).length ≤ maxMapPairs)
    (hvalues : ∀ arg ∈ a, Portable arg.value) (hpairs : pairs.Perm (marshalPairs a))
    (hframe : MapFrame pairs.length header trailer)
    (hsize : (header ++ encPairs pairs ++ trailer).length < 2 ^ 63) :
    ∃ r, unmarshalBinaryExact (header ++ encPairs pairs ++ trailer) = some (.ok r) ∧
      marshalBinary r = marshalBinary a := by
  rw [marshalPairs_eq] at hpairs
  obtain ⟨args, hargs, rfl⟩ := exists_perm_of_map_perm _ hpairs.symm
  have hmem : ∀ arg ∈ args, arg ∈ a := fun arg harg =>
    mem_of_mem_document (hargs.mem_iff.mpr harg)
  have hkeep : args.Perm (keepLast a) := hargs.symm.trans (document_perm a)
  have hidents : (args.map ident).Nodup := by
    rw [(hkeep.map ident).nodup_iff]
    exact keepLast_idents_nodup a
  have hencoded : encPairs (args.map fun arg => (encText arg.key, encValue arg.value)) =
      args.flatMap encArg := by
    rw [encPairs, List.flatMap_map]
    rfl
  rw [hencoded] at hsize ⊢
  rw [List.length_map] at hframe
  refine ⟨sortByName args, ?_, ?_⟩
  · rw [unmarshal_of_frame hframe (keys_nodup_iff.mpr hidents) (by rwa [hkeep.length_eq])
      (fun arg harg => hnames arg (hmem arg harg))
      (fun arg harg => (hvalues arg (hmem arg harg)).survives) hsize,
      map_canonicalArg fun arg harg => hvalues arg (hmem arg harg)]
  · have hsorted : (sortByName args).Perm args := List.perm_insertionSort _ _
    apply marshalBinary_of_perm
    rw [keepLast_of_nodup ((hsorted.map ident).nodup_iff.mpr hidents)]
    exact hsorted.trans hkeep

/-- Decoding undoes encoding, up to the order and the repetitions; the keys of the
canonical map rise; and the encoding does not depend on the order, neither of the
arguments nor of the entries of a map that is decoded and encoded again.  A byte
vector has fewer than `2 ^ 63` bytes. -/
theorem marshalBinary_roundTrip (a : List Argument) (hnames : ∀ arg ∈ a, arg.name.bytes ≠ [])
    (hcount : (a.map ident).dedup.length ≤ 131072) (hvalues : ∀ arg ∈ a, Portable arg.value)
    (hsize : (marshalBinary a).length < 2 ^ 63) :
    unmarshalBinaryExact (marshalBinary a) = some (.ok (dedupSorted a)) ∧
      ((marshalPairs a).map Prod.fst).Pairwise (· < ·) ∧
      ((a.map ident).Nodup → ∀ b, b.Perm a → marshalBinary b = marshalBinary a) ∧
      ∀ pairs header trailer, pairs.Perm (marshalPairs a) → MapFrame pairs.length header trailer →
        (header ++ encPairs pairs ++ trailer).length < 2 ^ 63 →
        ∃ r, unmarshalBinaryExact (header ++ encPairs pairs ++ trailer) = some (.ok r) ∧
          marshalBinary r = marshalBinary a := by
  have hkept : (keepLast a).length ≤ maxMapPairs := by
    rw [← List.length_map (f := ident), keepLast_idents]
    exact hcount
  refine ⟨unmarshal_dedupSorted hnames hkept hvalues hsize, marshalPairs_keys a, ?_, ?_⟩
  · intro hnodup b hb
    apply marshalBinary_of_perm
    rw [keepLast_of_nodup hnodup, keepLast_of_nodup ((hb.map ident).nodup_iff.mpr hnodup)]
    exact hb
  · intro pairs header trailer hpairs hframe hsize'
    exact unmarshal_reordered hnames hkept hvalues hpairs hframe hsize'

/-- The generator of the curve. -/
def generatorPoint : AffinePoint := ⟨1, 2, by decide, by decide, by decide⟩

/-- One name twice, with an address and with a negative number. -/
def transferCall : List Argument :=
  [⟨⟨[116, 111], by decide⟩, .address generatorPoint.compressed⟩,
    ⟨⟨[116, 111], by decide⟩, .int64 (-300)⟩]

theorem marshalBinary_roundTrip_transferCall :
    unmarshalBinaryExact (marshalBinary transferCall) = some (.ok (dedupSorted transferCall)) := by
  refine (marshalBinary_roundTrip transferCall (by decide) (by decide) ?_ (by decide +kernel)).1
  intro arg harg
  simp only [transferCall, List.mem_cons, List.not_mem_nil, or_false] at harg
  rcases harg with rfl | rfl
  · exact ⟨generatorPoint, rfl⟩
  · trivial

end Statement

end DirtybirdMiner.Args.RoundTrip
