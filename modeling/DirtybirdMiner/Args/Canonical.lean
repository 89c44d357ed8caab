import DirtybirdMiner.Args.RoundTrip

/-!
What the decoder accepts survives a second pass: the arguments it returns have
keys of their own and values that are encoded and read back, apart from the zero
time and the address of all zeros.
-/

namespace DirtybirdMiner.Args.Canonical

open DirtybirdMiner.Lib
open DirtybirdMiner.Lib.Bytes
open DirtybirdMiner.Lib.Programs
open DirtybirdMiner.Lib.Programs.Prog
open DirtybirdMiner.Lib.Utf8
open DirtybirdMiner.Bn256.Prime
open DirtybirdMiner.Bn256.Affine
open DirtybirdMiner.Args.Encoding
open DirtybirdMiner.Args.Validator
open DirtybirdMiner.Args.Parser
open DirtybirdMiner.Args.Arguments
open DirtybirdMiner.Args.WellFormed
open DirtybirdMiner.Args.Extents
open DirtybirdMiner.Args.RoundTrip

section Maps

variable {data : List UInt8} {α : Type} {goType : String}

theorem rejectPositive_fails : Fails (rejectPositive data goType : Reader α) :=
  .after fun _ => fails_fail _

theorem rejectNegative_fails : Fails (rejectNegative data goType : Reader α) := by
  refine .after fun head => ?_
  dsimp only
  split
  · exact fails_fail _
  · exact fails_fail _

theorem rejectBytes_fails : Fails (rejectBytes data goType : Reader α) :=
  .after fun _ => fails_fail _

theorem rejectSkipped_fails {cborType : String} :
    Fails (rejectSkipped data cborType goType : Reader α) :=
  .after fun _ => fails_fail _

theorem rejectPositiveBignum_fails : Fails (rejectPositiveBignum data goType : Reader α) :=
  .after fun _ => fails_fail _

theorem rejectNegativeBignum_fails : Fails (rejectNegativeBignum data goType : Reader α) :=
  .after fun _ => fails_fail _

theorem parseTopToMap_orderly {fuel o e s : Nat} {m : List (Text × Cval)} (h : Item data o e)
    (hfuel : e ≤ o + fuel) (hm : parseTopToMap data fuel o = some (.ok m, s)) : Orderly m := by
  induction fuel generalizing o e with
  | zero => cases hm
  | succ fuel ih =>
      obtain ⟨o', hstrip, ho, hitem⟩ := stripSelfDescribed_of_item h
      rw [parseTopToMap, bind_ok hstrip] at hm
      replace hm := bind_eq_ok hm
      obtain ⟨_, s', hcheck, hm⟩ := hm
      obtain ⟨_, _, hcheck', hsame, -⟩ := checkBuiltinTag_ends hitem
      rw [hcheck] at hcheck'
      cases hcheck'
      obtain ⟨rfl, -⟩ := hsame rfl
      cases id hitem with
      | atom head major definite =>
          rw [bind_ok head.nextMajor] at hm
          rcases major with rfl | rfl | rfl
          · exact absurd hm (rejectPositive_fails _ _ _)
          · exact absurd hm (rejectNegative_fails _ _ _)
          · simp only [show ¬(7 = 0) by decide, show ¬(7 = 1) by decide, show ¬(7 = 2) by decide,
              show ¬(7 = 3) by decide, show ¬(7 = 4) by decide, show ¬(7 = 5) by decide,
              show ¬(7 = 6) by decide, if_false, bind_ok head.getHead] at hm
            split at hm
            · cases hm
              exact ⟨List.nodup_nil, Nat.zero_le _⟩
            · cases hm
      | chunk major chunk =>
          obtain ⟨ai, val, stop, head, -⟩ := id chunk
          rw [bind_ok head.nextMajor] at hm
          rcases major with rfl | rfl
          · exact absurd hm (rejectBytes_fails _ _ _)
          · exact absurd hm (Fails.after (fun _ => fails_fail _) _ _ _)
      | chunks head major =>
          rw [bind_ok head.nextMajor] at hm
          rcases major with rfl | rfl
          · exact absurd hm (rejectBytes_fails _ _ _)
          · exact absurd hm (Fails.after (fun _ => fails_fail _) _ _ _)
      | array head =>
          rw [bind_ok head.nextMajor] at hm
          exact absurd hm (rejectSkipped_fails _ _ _)
      | map head hitems closed few =>
          rw [bind_ok head.nextMajor] at hm
          obtain ⟨_, _, heq, -, horderly⟩ :=
            parseMapToLocalmap_endsAt head hitems closed few (show e ≤ s' + 1 + fuel by omega)
          change parseMapToLocalmap data fuel s' = some (.ok m, s) at hm
          rw [hm] at heq
          cases heq
          exact horderly m rfl
      | @tag _ _ num _ _ head content =>
          rw [bind_ok head.nextMajor] at hm
          simp only [show ¬(6 = 0) by decide, show ¬(6 = 1) by decide, show ¬(6 = 2) by decide,
            show ¬(6 = 3) by decide, show ¬(6 = 4) by decide, show ¬(6 = 5) by decide, if_false,
            if_true, bind_ok head.getHead] at hm
          have hlt := head.lt
          split at hm
          · exact absurd hm (rejectPositiveBignum_fails _ _ _)
          · split at hm
            · exact absurd hm (rejectNegativeBignum_fails _ _ _)
            · exact ih content (by omega) hm

/-- The decoded map has keys of their own, and no more of them than are allowed. -/
theorem cborUnmarshalLocalmap_orderly {localmap : List (Text × Cval)}
    (h : cborUnmarshalLocalmap data = some (.ok localmap)) : Orderly localmap := by
  unfold cborUnmarshalLocalmap at h
  split at h
  · cases h
  · split at h
    · cases h
    · cases h
    · rename_i d e hvalid
      rw [Option.map_eq_some_iff] at h
      obtain ⟨⟨r, s⟩, hparse, rfl⟩ := h
      have hitem := validInternal_item hvalid
      have hle := hitem.le
      exact parseTopToMap_orderly hitem (by omega) hparse

end Maps

section Entries

/-- The address that a point with too large a coordinate is read as. -/
theorem zeroAddress_length : (List.replicate 33 (0 : UInt8)).length = 33 := rfl

def zeroAddress : FixedBytes 33 := ⟨List.replicate 33 0, zeroAddress_length⟩

/-- An address is read as zeros or as the compressed form of a point. -/
theorem decodeAddressGo_eq_ok {b : List UInt8} {a : FixedBytes 33}
    (h : decodeAddressGo b = .ok a) :
    a = zeroAddress ∨ ∃ P : AffinePoint, a = P.compressed := by
  have htake := beBytes_beValue ((copyInto 33 b).1.take 32)
  rw [List.length_take, (copyInto 33 b).2, Nat.min_eq_left (by omega)] at htake
  unfold decodeAddressGo at h
  dsimp only at h
  split at h
  · cases h
  rename_i hsquare
  split at h
  · cases h
    exact .inl rfl
  rename_i hlarge
  rw [not_or, not_le, not_le] at hlarge
  obtain ⟨P, hx, hy⟩ := exists_of_root hlarge.1 hlarge.2
    (Nat.add_sub_of_le (modSqrt_lt _).le) (not_not.mp hsquare)
  cases h
  refine .inr ⟨P, Subtype.ext ?_⟩
  simp only [AffinePoint.compressed, rootFlag, hx, hy, htake]

/-- A decoded value other than the two that do not survive. -/
def Settled (v : ArgValue) : Prop := v ≠ .time goZeroTimeUnix ∧ v ≠ .address zeroAddress

instance : DecidablePred Settled := fun _ => inferInstanceAs (Decidable (_ ∧ _))

/-- Where the address of an argument came from. -/
def Read : ArgValue → Prop
  | .address a => ∃ b, decodeAddressGo b = .ok a
  | _ => True

theorem Read.survives {v : ArgValue} (h : Read v) (hv : Settled v) : Survives v := by
  cases v with
  | address a =>
      obtain ⟨b, hb⟩ := h
      rcases decodeAddressGo_eq_ok hb with rfl | ⟨P, rfl⟩
      · exact absurd rfl hv.2
      · exact decodeAddressGo_compressed P
  | time secs => exact fun hzero => hv.1 (by rw [hzero])
  | _ => trivial

theorem convert_eq_ok {tchar : UInt8} {v : Cval} {value : ArgValue}
    (h : convert tchar v = some (.ok value)) : value.typeChar = tchar ∧ Read value := by
  unfold convert at h
  split at h
  · rename_i htype
    subst htype
    cases v with
    | i64 i =>
        cases h
        exact ⟨rfl, trivial⟩
    | u64 u =>
        cases h
        exact ⟨rfl, trivial⟩
    | _ => cases h
  split at h
  · rename_i htype
    subst htype
    cases v with
    | u64 u =>
        cases h
        exact ⟨rfl, trivial⟩
    | _ => cases h
  split at h
  · rename_i htype
    subst htype
    cases v with
    | f64 f =>
        cases h
        exact ⟨rfl, trivial⟩
    | _ => cases h
  split at h
  · rename_i htype
    subst htype
    cases v with
    | bytes b =>
        cases h
        exact ⟨rfl, trivial⟩
    | _ => cases h
  split at h
  · rename_i htype
    subst htype
    cases v with
    | bytes b =>
        dsimp only at h
        cases hb : decodeAddressGo b with
        | error m =>
            rw [hb] at h
            cases h
        | ok a =>
            rw [hb] at h
            cases h
            exact ⟨rfl, b, hb⟩
    | _ => cases h
  split at h
  · rename_i htype
    subst htype
    cases v with
    | text t =>
        cases h
        exact ⟨rfl, trivial⟩
    | _ => cases h
  split at h
  · rename_i htype
    subst htype
    cases v with
    | time t =>
        cases h
        exact ⟨rfl, trivial⟩
    | _ => cases h
  · cases h

/-- An entry is read under its key. -/
theorem readEntry_eq_ok {k : Text} {v : Cval} {arg : Argument}
    (h : readEntry k v = some (.ok arg)) :
    arg.key = k ∧ arg.name.bytes ≠ [] ∧ Read arg.value := by
  unfold readEntry at h
  split at h
  · cases h
  rename_i hlen
  cases hlast : k.bytes.getLast? with
  | none =>
      rw [hlast] at h
      cases h
  | some tchar =>
      rw [hlast, Option.bind_eq_bind, Option.bind_some] at h
      split at h
      · cases h
      rename_i htype
      rw [not_not] at htype
      split at h
      · cases herr : rpcTypeErr k tchar v <;> simp [herr] at h
      · cases h
      · rename_i value hvalue
        obtain ⟨name, hname, hbytes⟩ := keyName_of_ascii hlast (typeChars_ascii tchar htype)
        rw [hname] at h
        cases h
        obtain ⟨rfl, hread⟩ := convert_eq_ok hvalue
        have hsplit := List.dropLast_append_getLast? _ hlast
        rw [← hbytes] at hsplit
        refine ⟨Text.ext hsplit, ?_, hread⟩
        intro hnil
        rw [show name.bytes = [] from hnil] at hsplit
        have hone := congrArg List.length hsplit
        rw [List.nil_append, List.length_singleton] at hone
        omega

theorem readEntries_eq_ok {localmap : List (Text × Cval)} {args : List Argument}
    (h : readEntries localmap = some (.ok args)) :
    args.map Argument.key = localmap.map Prod.fst ∧
      ∀ arg ∈ args, arg.name.bytes ≠ [] ∧ Read arg.value := by
  induction localmap generalizing args with
  | nil =>
      cases h
      simp
  | cons entry localmap ih =>
      obtain ⟨r, hr⟩ := Option.isSome_iff_exists.mp (readEntry_isSome entry.1 entry.2)
      obtain ⟨rs, hrs⟩ := Option.isSome_iff_exists.mp (readEntries_isSome localmap)
      simp only [readEntries, hr, hrs, Option.bind_eq_bind, Option.bind_some] at h
      cases r with
      | error m => cases h
      | ok arg =>
          cases rs with
          | error m => cases h
          | ok rest =>
              cases h
              obtain ⟨hkey, hname, hread⟩ := readEntry_eq_ok hr
              obtain ⟨hkeys, hrest⟩ := ih hrs
              rw [List.map_cons, hkey, hkeys, List.map_cons]
              exact ⟨rfl, List.forall_mem_cons.mpr ⟨⟨hname, hread⟩, hrest⟩⟩

end Entries

/-- What is accepted. -/
structure Accepted (a : List Argument) : Prop where
  idents : (a.map ident).Nodup
  few : a.length ≤ maxMapPairs
  named : ∀ arg ∈ a, arg.name.bytes ≠ []
  read : ∀ arg ∈ a, Read arg.value

theorem unmarshalBinaryExact_accepted {data : List UInt8} {a : List Argument}
    (h : unmarshalBinaryExact data = some (.ok a)) : Accepted a := by
  obtain ⟨r, hr⟩ := Option.isSome_iff_exists.mp (cborUnmarshalLocalmap_isSome data)
  cases r with
  | error m => simp [unmarshalBinaryExact, hr] at h
  | ok localmap =>
      obtain ⟨rs, hrs⟩ := Option.isSome_iff_exists.mp (readEntries_isSome localmap)
      cases rs with
      | error m => simp [unmarshalBinaryExact, hr, hrs] at h
      | ok args =>
          simp only [unmarshalBinaryExact, hr, hrs, Option.bind_eq_bind, Option.bind_some,
            Option.some.injEq, Except.ok.injEq] at h
          subst h
          obtain ⟨hkeys, hargs⟩ := readEntries_eq_ok hrs
          have horderly := cborUnmarshalLocalmap_orderly hr
          have hperm : (sortByName args).Perm args := List.perm_insertionSort _ _
          have hlength := congrArg List.length hkeys
          rw [List.length_map, List.length_map] at hlength
          refine ⟨?_, ?_, ?_, ?_⟩
          · rw [(hperm.map ident).nodup_iff, ← keys_nodup_iff, hkeys]
            exact horderly.nodup
          · rw [hperm.length_eq, hlength]
            exact horderly.few
          · exact fun arg harg => (hargs arg (hperm.mem_iff.mp harg)).1
          · exact fun arg harg => (hargs arg (hperm.mem_iff.mp harg)).2

/-- What is accepted is in the order of the names. -/
theorem unmarshalBinaryExact_sorted {data : List UInt8} {a : List Argument}
    (h : unmarshalBinaryExact data = some (.ok a)) :
    a.Pairwise fun x y => x.name.bytes ≤ y.name.bytes := by
  obtain ⟨r, hr⟩ := Option.isSome_iff_exists.mp (cborUnmarshalLocalmap_isSome data)
  cases r with
  | error m => simp [unmarshalBinaryExact, hr] at h
  | ok localmap =>
      obtain ⟨rs, hrs⟩ := Option.isSome_iff_exists.mp (readEntries_isSome localmap)
      cases rs with
      | error m => simp [unmarshalBinaryExact, hr, hrs] at h
      | ok args =>
          simp only [unmarshalBinaryExact, hr, hrs, Option.bind_eq_bind, Option.bind_some,
            Option.some.injEq, Except.ok.injEq] at h
          subst h
          have htotal : Std.Total fun x y : Argument => x.name.bytes ≤ y.name.bytes :=
            ⟨fun x y => List.le_total _ _⟩
          have htrans : IsTrans Argument fun x y => x.name.bytes ≤ y.name.bytes :=
            ⟨fun x y z => List.le_trans⟩
          exact List.pairwise_insertionSort _ args

/-- The canonical values are encoded like the values. -/
theorem marshalBinary_canonical (a : List Argument) :
    marshalBinary (((document a).map canonicalArg).insertionSort nameThenType) =
      marshalBinary a := by
  have hperm : (((document a).map canonicalArg).insertionSort nameThenType).Perm
      ((document a).map canonicalArg) := List.perm_insertionSort _ _
  have hidents : ((document a).map canonicalArg).map ident = (document a).map ident := by
    rw [List.map_map]
    exact List.map_congr_left fun arg _ => by simp [ident, canonicalArg]
  have hnodup : (((document a).map canonicalArg).map ident).Nodup := by
    rw [hidents, ((document_perm a).map ident).nodup_iff]
    exact keepLast_idents_nodup a
  have hsorted : ((document a).map canonicalArg).Pairwise byKey := by
    rw [List.pairwise_map]
    refine (document_pairwise a).imp ?_
    intro x y hxy
    unfold byKey
    rwa [canonicalArg_key, canonicalArg_key]
  have hdocument : document (((document a).map canonicalArg).insertionSort nameThenType) =
      (document a).map canonicalArg := by
    have hkept : (keepLast (((document a).map canonicalArg).insertionSort nameThenType)).Perm
        (keepLast ((document a).map canonicalArg)) := by
      rw [keepLast_of_nodup hnodup, keepLast_of_nodup ((hperm.map ident).nodup_iff.mpr hnodup)]
      exact hperm
    rw [document_of_perm hkept]
    unfold document at hsorted hnodup ⊢
    rw [keepLast_of_nodup hnodup, hsorted.insertionSort_eq]
  have hencoded : ((document a).map canonicalArg).flatMap encArg = (document a).flatMap encArg := by
    rw [List.flatMap_map]
    exact congrArg (List.flatMap · (document a)) (funext encArg_canonicalArg)
  rw [marshalBinary_eq, marshalBinary_eq, hdocument, List.length_map, hencoded]

/-- The arguments with canonical values, by name and type. -/
def normalized (a : List Argument) : List Argument :=
  (a.map canonicalArg).insertionSort nameThenType

/-- A second pass reads the arguments in their normalized form. -/
theorem unmarshal_accepted {a : List Argument} (h : Accepted a)
    (hvalues : ∀ arg ∈ a, Settled arg.value) (hsize : (marshalBinary a).length < 2 ^ 63) :
    unmarshalBinaryExact (marshalBinary a) = some (.ok (normalized a)) := by
  have hkeep := keepLast_of_nodup h.idents
  have hidents : (a.map canonicalArg).map ident = a.map ident := by
    rw [List.map_map]
    exact List.map_congr_left fun arg _ => by simp [ident, canonicalArg]
  have hperm : (a.map canonicalArg).Perm ((document a).map canonicalArg) := by
    have hdocument := document_perm a
    rw [hkeep] at hdocument
    exact hdocument.symm.map _
  rw [unmarshal_marshalBinary h.named (by rw [hkeep]; exact h.few)
    (fun arg harg => (h.read arg harg).survives (hvalues arg harg)) hsize, normalized]
  congr 2
  refine (Stable.insertionSort_perm nameThenType ?_ hperm).symm
  intro x hx y hy hxy hyx
  exact eq_of_ident (hidents ▸ h.idents) hx hy (ident_eq_of_nameThenType hxy hyx)

/-- Arguments with different names and canonical values are normalized when they are read. -/
theorem normalized_eq {data : List UInt8} {a : List Argument}
    (h : unmarshalBinaryExact data = some (.ok a)) (hnames : (a.map Argument.name).Nodup)
    (hvalues : ∀ arg ∈ a, canonicalArg arg = arg) : normalized a = a := by
  have hmap : a.map canonicalArg = a := by
    conv_rhs => rw [← List.map_id a]
    exact List.map_congr_left hvalues
  rw [normalized, hmap]
  apply List.Pairwise.insertionSort_eq
  rw [List.Nodup, List.pairwise_map] at hnames
  refine (unmarshalBinaryExact_sorted h).imp₂ ?_ hnames
  intro x y hle hne
  exact .inl (Std.lt_of_le_of_ne hle fun heq => hne (Text.ext heq))

/-- A second pass accepts the canonical form and leaves it as it is. -/
theorem remarshal {data : List UInt8} {a : List Argument}
    (h : unmarshalBinaryExact data = some (.ok a)) (hvalues : ∀ arg ∈ a, Settled arg.value)
    (hsize : (marshalBinary a).length < 2 ^ 63) :
    ∃ r, unmarshalBinaryExact (marshalBinary a) = some (.ok r) ∧
      marshalBinary r = marshalBinary a := by
  have haccepted := unmarshalBinaryExact_accepted h
  have hkeep := keepLast_of_nodup haccepted.idents
  refine ⟨_, unmarshal_marshalBinary haccepted.named (by rw [hkeep]; exact haccepted.few)
    (fun arg harg => (haccepted.read arg harg).survives (hvalues arg harg)) hsize, ?_⟩
  exact marshalBinary_canonical a

end DirtybirdMiner.Args.Canonical
