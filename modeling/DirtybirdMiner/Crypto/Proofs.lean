import DirtybirdMiner.Crypto.Statements

/-!
The transfer proof and its inner-product part as data, with their byte forms, from
`crypto/src/proof.rs` and `crypto/src/inner_product.rs`.
-/

namespace DirtybirdMiner.Crypto.Proofs

open DirtybirdMiner.Lib
open DirtybirdMiner.Lib.Bytes
open DirtybirdMiner.Lib.Programs
open DirtybirdMiner.Lib.Programs.Prog
open DirtybirdMiner.Lib.Readers
open DirtybirdMiner.Crypto.Statements

structure InnerProduct (G : Type) where
  a : Nat
  b : Nat
  ls : List G
  rs : List G
deriving DecidableEq

structure Proof (G : Type) where
  ba : G
  bs : G
  a : G
  b : G
  clnG : List G
  crnG : List G
  c0G : List G
  dG : List G
  y0G : List G
  gG : List G
  cXG : List G
  yXG : List G
  u : G
  f : List Nat
  zA : Nat
  t1 : G
  t2 : G
  that : Nat
  mu : Nat
  c : Nat
  sSk : Nat
  sR : Nat
  sB : Nat
  sTau : Nat
  ip : InnerProduct G
deriving DecidableEq

/-- What one turn of the loop over the ring power reads and writes. -/
structure Turn (G : Type) where
  cln : G
  crn : G
  c0 : G
  d : G
  y0 : G
  g : G
  cX : G
  yX : G

section Functions

variable {G : Type} [PointCodec G]

def InnerProduct.serialize (ip : InnerProduct G) : Option (List UInt8) := do
  let rounds ← (List.range ip.ls.length).mapM fun i => do
    let l ← ip.ls[i]?
    let r ← ip.rs[i]?
    some ((compress l).1 ++ (compress r).1)
  some (to32Be ip.a ++ (to32Be ip.b ++ rounds.flatten))

/-- One round of the inner product. -/
def takeRound : Reader String (G × G) := do
  let l ← takeG1 G
  let r ← takeG1 G
  pure (l, r)

def InnerProduct.deserialize : Reader String (InnerProduct G) := do
  let a ← takeScalar
  let b ← takeScalar
  let rounds ← collect takeRound 7
  pure { a, b, ls := rounds.map Prod.fst, rs := rounds.map Prod.snd }

/-- The points of one turn; an index out of range is a panic. -/
def Proof.turn (p : Proof G) (i : Nat) : Option (Turn G) := do
  let cln ← p.clnG[i]?
  let crn ← p.crnG[i]?
  let c0 ← p.c0G[i]?
  let d ← p.dG[i]?
  let y0 ← p.y0G[i]?
  let g ← p.gG[i]?
  let cX ← p.cXG[i]?
  let yX ← p.yXG[i]?
  some { cln, crn, c0, d, y0, g, cX, yX }

def Turn.bytes (t : Turn G) : List UInt8 :=
  (compress t.cln).1 ++ ((compress t.crn).1 ++ ((compress t.c0).1 ++ ((compress t.d).1 ++
    ((compress t.y0).1 ++ ((compress t.g).1 ++ ((compress t.cX).1 ++ (compress t.yX).1))))))

def Proof.serialize (p : Proof G) : Option (List UInt8) := do
  let turns ← (List.range p.clnG.length).mapM p.turn
  let ip ← p.ip.serialize
  some ((compress p.ba).1 ++ ((compress p.bs).1 ++ ((compress p.a).1 ++ ((compress p.b).1 ++
    (turns.flatMap Turn.bytes ++ ((compress p.u).1 ++ (p.f.flatMap to32Be ++ (to32Be p.zA ++
    ((compress p.t1).1 ++ ((compress p.t2).1 ++ (to32Be p.that ++ (to32Be p.mu ++
    (to32Be p.c ++ (to32Be p.sSk ++ (to32Be p.sR ++ (to32Be p.sB ++ (to32Be p.sTau ++
    ip)))))))))))))))))

def takeTurn : Reader String (Turn G) := do
  let cln ← takeG1 G
  let crn ← takeG1 G
  let c0 ← takeG1 G
  let d ← takeG1 G
  let y0 ← takeG1 G
  let g ← takeG1 G
  let cX ← takeG1 G
  let yX ← takeG1 G
  pure { cln, crn, c0, d, y0, g, cX, yX }

/-- The eight vectors of points, and then the vector of scalars, are allocated
with the length that is read. -/
def Proof.deserialize (length : Nat) : Reader String (Proof G) := do
  let ba ← takeG1 G
  let bs ← takeG1 G
  let a ← takeG1 G
  let b ← takeG1 G
  withCapacity 128 length
  let turns ← collect takeTurn length
  let u ← takeG1 G
  withCapacity 24 (length * 2)
  let f ← collect takeScalar (length * 2)
  let zA ← takeScalar
  let t1 ← takeG1 G
  let t2 ← takeG1 G
  let that ← takeScalar
  let mu ← takeScalar
  let c ← takeScalar
  let sSk ← takeScalar
  let sR ← takeScalar
  let sB ← takeScalar
  let sTau ← takeScalar
  let ip ← InnerProduct.deserialize
  pure
    { ba, bs, a, b
      clnG := turns.map Turn.cln
      crnG := turns.map Turn.crn
      c0G := turns.map Turn.c0
      dG := turns.map Turn.d
      y0G := turns.map Turn.y0
      gG := turns.map Turn.g
      cXG := turns.map Turn.cX
      yXG := turns.map Turn.yX
      u, f, zA, t1, t2, that, mu, c, sSk, sR, sB, sTau, ip }

end Functions

section Forms

variable {G : Type} [PointCodec G]

inductive RoundForm : List UInt8 → G × G → Prop
  | mk {lBytes rBytes : List UInt8} {l r : G} (lForm : PointForm lBytes l)
      (rForm : PointForm rBytes r) : RoundForm (lBytes ++ rBytes) (l, r)

inductive InnerProductForm : List UInt8 → InnerProduct G → Prop
  | mk {aBytes bBytes rowBytes : List UInt8} {a b : Nat} {rounds : List (G × G)}
      (aForm : ScalarForm aBytes a) (bForm : ScalarForm bBytes b)
      (rowForm : Row RoundForm rowBytes rounds) (rowLength : rounds.length = 7) :
      InnerProductForm (aBytes ++ (bBytes ++ rowBytes))
        { a, b, ls := rounds.map Prod.fst, rs := rounds.map Prod.snd }

inductive TurnForm : List UInt8 → Turn G → Prop
  | mk {clnB crnB c0B dB y0B gB cXB yXB : List UInt8} {t : Turn G} (cln : PointForm clnB t.cln)
      (crn : PointForm crnB t.crn) (c0 : PointForm c0B t.c0) (d : PointForm dB t.d)
      (y0 : PointForm y0B t.y0) (g : PointForm gB t.g) (cX : PointForm cXB t.cX)
      (yX : PointForm yXB t.yX) :
      TurnForm (clnB ++ (crnB ++ (c0B ++ (dB ++ (y0B ++ (gB ++ (cXB ++ yXB))))))) t

/-- The bytes of a proof for a ring of `2 ^ m` members. -/
inductive ProofForm (m : Nat) : List UInt8 → Proof G → Prop
  | mk {baB bsB aB bB turnsB uB fB zAB t1B t2B thatB muB cB sSkB sRB sBB sTauB ipB : List UInt8}
      {ba bs a b u t1 t2 : G} {f : List Nat} {zA that mu c sSk sR sB sTau : Nat}
      {turns : List (Turn G)} {ip : InnerProduct G}
      (baForm : PointForm baB ba) (bsForm : PointForm bsB bs) (aForm : PointForm aB a)
      (bForm : PointForm bB b) (turnsForm : Row TurnForm turnsB turns)
      (turnsLength : turns.length = m) (uForm : PointForm uB u) (fForm : Row ScalarForm fB f)
      (fLength : f.length = m * 2) (zAForm : ScalarForm zAB zA) (t1Form : PointForm t1B t1)
      (t2Form : PointForm t2B t2) (thatForm : ScalarForm thatB that) (muForm : ScalarForm muB mu)
      (cForm : ScalarForm cB c) (sSkForm : ScalarForm sSkB sSk) (sRForm : ScalarForm sRB sR)
      (sBForm : ScalarForm sBB sB) (sTauForm : ScalarForm sTauB sTau)
      (ipForm : InnerProductForm ipB ip) :
      ProofForm m (baB ++ (bsB ++ (aB ++ (bB ++ (turnsB ++ (uB ++ (fB ++ (zAB ++ (t1B ++ (t2B ++
        (thatB ++ (muB ++ (cB ++ (sSkB ++ (sRB ++ (sBB ++ (sTauB ++ ipB)))))))))))))))))
        { ba, bs, a, b
          clnG := turns.map Turn.cln
          crnG := turns.map Turn.crn
          c0G := turns.map Turn.c0
          dG := turns.map Turn.d
          y0G := turns.map Turn.y0
          gG := turns.map Turn.g
          cXG := turns.map Turn.cX
          yXG := turns.map Turn.yX
          u, f, zA, t1, t2, that, mu, c, sSk, sR, sB, sTau, ip }

theorem takeRound_parses : Parses takeRound (RoundForm (G := G)) := by
  refine takeG1_parses.bind fun _ l hl => ?_
  refine takeG1_parses.bind fun _ r hr => parses_pure ?_
  rw [List.append_nil]
  exact .mk hl hr

theorem takeRound_reads {bytes : List UInt8} {r : G × G} (h : RoundForm bytes r) :
    Reads takeRound bytes r := by
  cases h with
  | mk lForm rForm => exact (takeG1_reads lForm).bind ((takeG1_reads rForm).last (reads_pure _))

theorem innerProduct_parses : Parses InnerProduct.deserialize (InnerProductForm (G := G)) := by
  refine takeScalar_parses.bind fun _ a ha => ?_
  refine takeScalar_parses.bind fun _ b hb => ?_
  refine (parses_collect takeRound_parses 7).bind fun _ rounds hrounds => parses_pure ?_
  rw [List.append_nil]
  exact .mk ha hb hrounds.2 hrounds.1

theorem innerProduct_reads {bytes : List UInt8} {ip : InnerProduct G}
    (h : InnerProductForm bytes ip) : Reads InnerProduct.deserialize bytes ip := by
  cases h with
  | mk aForm bForm rowForm rowLength =>
      refine (takeScalar_reads aForm).bind ((takeScalar_reads bForm).bind ?_)
      refine Reads.last ?_ (reads_pure _)
      rw [← rowLength]
      exact rowForm.reads fun _ _ => takeRound_reads

theorem takeTurn_parses : Parses takeTurn (TurnForm (G := G)) := by
  refine takeG1_parses.bind fun _ cln hcln => ?_
  refine takeG1_parses.bind fun _ crn hcrn => ?_
  refine takeG1_parses.bind fun _ c0 hc0 => ?_
  refine takeG1_parses.bind fun _ d hd => ?_
  refine takeG1_parses.bind fun _ y0 hy0 => ?_
  refine takeG1_parses.bind fun _ g hg => ?_
  refine takeG1_parses.bind fun _ cX hcX => ?_
  refine takeG1_parses.bind fun _ yX hyX => parses_pure ?_
  rw [List.append_nil]
  exact .mk hcln hcrn hc0 hd hy0 hg hcX hyX

theorem takeTurn_reads {bytes : List UInt8} {t : Turn G} (h : TurnForm bytes t) :
    Reads takeTurn bytes t := by
  cases h with
  | mk cln crn c0 d y0 g cX yX =>
      refine (takeG1_reads cln).bind ((takeG1_reads crn).bind ((takeG1_reads c0).bind ?_))
      refine (takeG1_reads d).bind ((takeG1_reads y0).bind ((takeG1_reads g).bind ?_))
      exact (takeG1_reads cX).bind ((takeG1_reads yX).last (reads_pure _))

theorem proof_parses {m : Nat} (hm : m < 2 ^ 32) :
    Parses (Proof.deserialize m) (ProofForm (G := G) m) := by
  refine takeG1_parses.bind fun _ ba hba => ?_
  refine takeG1_parses.bind fun _ bs hbs => ?_
  refine takeG1_parses.bind fun _ a ha => ?_
  refine takeG1_parses.bind fun _ b hb => ?_
  refine (parses_withCapacity (by omega)).bind fun _ _ hnil => ?_
  subst hnil
  refine (parses_collect takeTurn_parses m).bind fun _ turns hturns => ?_
  refine takeG1_parses.bind fun _ u hu => ?_
  refine (parses_withCapacity (by omega)).bind fun _ _ hnil => ?_
  subst hnil
  refine (parses_collect takeScalar_parses _).bind fun _ f hf => ?_
  refine takeScalar_parses.bind fun _ zA hzA => ?_
  refine takeG1_parses.bind fun _ t1 ht1 => ?_
  refine takeG1_parses.bind fun _ t2 ht2 => ?_
  refine takeScalar_parses.bind fun _ that hthat => ?_
  refine takeScalar_parses.bind fun _ mu hmu => ?_
  refine takeScalar_parses.bind fun _ c hc => ?_
  refine takeScalar_parses.bind fun _ sSk hsSk => ?_
  refine takeScalar_parses.bind fun _ sR hsR => ?_
  refine takeScalar_parses.bind fun _ sB hsB => ?_
  refine takeScalar_parses.bind fun _ sTau hsTau => ?_
  refine innerProduct_parses.bind fun _ ip hip => parses_pure ?_
  simp only [List.nil_append, List.append_nil]
  exact .mk hba hbs ha hb hturns.2 hturns.1 hu hf.2 hf.1 hzA ht1 ht2 hthat hmu hc hsSk hsR hsB
    hsTau hip

theorem proof_reads {m : Nat} {bytes : List UInt8} {p : Proof G} (hm : m < 2 ^ 32)
    (h : ProofForm m bytes p) : Reads (Proof.deserialize m) bytes p := by
  cases h with
  | mk ba bs a b turns turnsLength u f fLength zA t1 t2 that mu c sSk sR sB sTau ip =>
      refine (takeG1_reads ba).bind ((takeG1_reads bs).bind ((takeG1_reads a).bind ?_))
      refine (takeG1_reads b).bind ((reads_withCapacity (by omega)).skip ?_)
      have hturns := turns.reads fun _ _ => takeTurn_reads
      rw [turnsLength] at hturns
      refine hturns.bind ((takeG1_reads u).bind ((reads_withCapacity (by omega)).skip ?_))
      have hf := f.reads fun _ _ => takeScalar_reads
      rw [fLength] at hf
      refine hf.bind ((takeScalar_reads zA).bind ((takeG1_reads t1).bind ?_))
      refine (takeG1_reads t2).bind ((takeScalar_reads that).bind ((takeScalar_reads mu).bind ?_))
      refine (takeScalar_reads c).bind ((takeScalar_reads sSk).bind ?_)
      refine (takeScalar_reads sR).bind ((takeScalar_reads sB).bind ?_)
      exact (takeScalar_reads sTau).bind ((innerProduct_reads ip).last (reads_pure _))

end Forms

section WellFormed

variable {G : Type}

def Turn.points (t : Turn G) : List G := [t.cln, t.crn, t.c0, t.d, t.y0, t.g, t.cX, t.yX]

/-- All points of a proof. -/
def Proof.points (p : Proof G) : List G :=
  [p.ba, p.bs, p.a, p.b, p.u, p.t1, p.t2] ++ p.clnG ++ p.crnG ++ p.c0G ++ p.dG ++ p.y0G ++ p.gG ++
    p.cXG ++ p.yXG ++ p.ip.ls ++ p.ip.rs

/-- All scalars of a proof. -/
def Proof.scalars (p : Proof G) : List Nat :=
  p.f ++ [p.zA, p.that, p.mu, p.c, p.sSk, p.sR, p.sB, p.sTau, p.ip.a, p.ip.b]

/-- A proof for a ring of `2 ^ m` members, with seven rounds of the inner product. -/
structure Proof.WellFormed (good : G → Prop) (m : Nat) (p : Proof G) : Prop where
  clnG_length : p.clnG.length = m
  crnG_length : p.crnG.length = m
  c0G_length : p.c0G.length = m
  dG_length : p.dG.length = m
  y0G_length : p.y0G.length = m
  gG_length : p.gG.length = m
  cXG_length : p.cXG.length = m
  yXG_length : p.yXG.length = m
  f_length : p.f.length = m * 2
  ls_length : p.ip.ls.length = 7
  rs_length : p.ip.rs.length = 7
  points_good : ∀ g ∈ p.points, good g
  scalars_lt : ∀ x ∈ p.scalars, x < 2 ^ 256

variable {good : G → Prop}

/-- The turns of a proof whose vectors have one length. -/
theorem Proof.WellFormed.turns {m : Nat} {p : Proof G} (h : p.WellFormed good m) :
    ∃ turns : List (Turn G), turns.length = m ∧
      (p.clnG = turns.map Turn.cln ∧ p.crnG = turns.map Turn.crn ∧ p.c0G = turns.map Turn.c0 ∧
        p.dG = turns.map Turn.d ∧ p.y0G = turns.map Turn.y0 ∧ p.gG = turns.map Turn.g ∧
        p.cXG = turns.map Turn.cX ∧ p.yXG = turns.map Turn.yX) ∧
      (List.range m).mapM p.turn = some turns := by
  obtain ⟨rfl, h1, h2, h3, h4, h5, h6, h7, -⟩ := h
  let turns : List (Turn G) := List.ofFn fun i : Fin p.clnG.length =>
    { cln := p.clnG[i], crn := p.crnG[i], c0 := p.c0G[i], d := p.dG[i], y0 := p.y0G[i]
      g := p.gG[i], cX := p.cXG[i], yX := p.yXG[i] }
  have hlength : turns.length = p.clnG.length := List.length_ofFn
  have hmap : ∀ {l : List G} (hl : l.length = p.clnG.length) (proj : Turn G → G),
      (∀ i (hi : i < turns.length) (hi' : i < l.length), proj turns[i] = l[i]) →
      l = turns.map proj := by
    intro l hl proj hproj
    apply List.ext_getElem
    · simp [hl, hlength]
    · intro i hi hi'
      rw [List.getElem_map, hproj i (by simpa using hi') hi]
  refine ⟨turns, hlength, ⟨hmap rfl _ ?_, hmap h1 _ ?_, hmap h2 _ ?_, hmap h3 _ ?_, hmap h4 _ ?_,
    hmap h5 _ ?_, hmap h6 _ ?_, hmap h7 _ ?_⟩, ?_⟩
  iterate 8
    · intro i hi hi'
      simp [turns]
  · rw [← hlength]
    apply Checked.mapM_range
    intro i hi
    have hi' : i < p.clnG.length := hlength ▸ hi
    simp [Proof.turn, turns, h1, h2, h3, h4, h5, h6, h7, hi']

variable [PointCodec G] (hgood : ∀ g, good g → PointForm (compress g).1 g)

include hgood

theorem turn_form {t : Turn G} (h : ∀ g ∈ t.points, good g) : TurnForm t.bytes t := by
  simp only [Turn.points, List.forall_mem_cons] at h
  obtain ⟨cln, crn, c0, d, y0, g, cX, yX, -⟩ := h
  exact .mk (hgood _ cln) (hgood _ crn) (hgood _ c0) (hgood _ d) (hgood _ y0) (hgood _ g)
    (hgood _ cX) (hgood _ yX)

theorem innerProduct_form {ip : InnerProduct G} (ha : ip.a < 2 ^ 256) (hb : ip.b < 2 ^ 256)
    (hls : ip.ls.length = 7) (hrs : ip.rs.length = 7) (hpoints : ∀ g ∈ ip.ls ++ ip.rs, good g) :
    ∃ bytes, ip.serialize = some bytes ∧ InnerProductForm bytes ip := by
  obtain ⟨a, b, ls, rs⟩ := ip
  dsimp only at hls hrs hpoints
  let rounds := ls.zip rs
  have hlength : rounds.length = 7 := by simp [rounds, hls, hrs]
  have hfst : rounds.map Prod.fst = ls := List.map_fst_zip (by omega)
  have hsnd : rounds.map Prod.snd = rs := List.map_snd_zip (by omega)
  let write : G × G → List UInt8 := fun r => (compress r.1).1 ++ (compress r.2).1
  have hrounds : (List.range ls.length).mapM (fun i => do
      let l ← ls[i]?
      let r ← rs[i]?
      some ((compress l).1 ++ (compress r).1)) = some (rounds.map write) := by
    rw [hls, ← hlength, ← List.length_map write]
    apply Checked.mapM_range
    intro i hi
    simp only [List.length_map, hlength] at hi
    simp [rounds, write, hls, hrs, hi]
  refine ⟨to32Be a ++ (to32Be b ++ (rounds.map write).flatten), ?_, ?_⟩
  · rw [InnerProduct.serialize, hrounds]
    rfl
  · rw [List.forall_mem_append] at hpoints
    have hrow : Row RoundForm (rounds.flatMap write) rounds := by
      refine row_of_good fun r hr => ?_
      obtain ⟨l, r⟩ := r
      exact .mk (hgood l (hpoints.1 l (List.of_mem_zip hr).1))
        (hgood r (hpoints.2 r (List.of_mem_zip hr).2))
    have hform := InnerProductForm.mk (to32Be_form ha) (to32Be_form hb) hrow hlength
    rwa [hfst, hsnd, List.flatMap_def] at hform

/-- A well-formed proof is written in its form. -/
theorem Proof.WellFormed.serialize_form {m : Nat} {p : Proof G} (h : p.WellFormed good m) :
    ∃ bytes, p.serialize = some bytes ∧ ProofForm m bytes p := by
  have hpoints := h.points_good
  have hscalars := h.scalars_lt
  obtain ⟨turns, hlength, ⟨hcln, hcrn, hc0, hd, hy0, hg, hcX, hyX⟩, hturns⟩ := h.turns
  simp only [Proof.points, Proof.scalars, List.mem_append, List.mem_cons, List.not_mem_nil,
    or_false] at hpoints hscalars
  obtain ⟨ipB, hip, hipForm⟩ := innerProduct_form hgood (hscalars p.ip.a (by simp))
    (hscalars p.ip.b (by simp)) h.ls_length h.rs_length (by
      intro g hg
      rw [List.mem_append] at hg
      exact hpoints g (by tauto))
  have hrow : Row TurnForm (turns.flatMap Turn.bytes) turns := by
    refine row_of_good fun t ht => turn_form hgood ?_
    have hmem : ∀ {l : List G} {proj : Turn G → G}, l = turns.map proj → proj t ∈ l := by
      rintro _ proj rfl
      exact List.mem_map_of_mem ht
    simp only [Turn.points, List.forall_mem_cons]
    exact ⟨hpoints _ (by simp [hmem hcln]), hpoints _ (by simp [hmem hcrn]),
      hpoints _ (by simp [hmem hc0]), hpoints _ (by simp [hmem hd]), hpoints _ (by simp [hmem hy0]),
      hpoints _ (by simp [hmem hg]), hpoints _ (by simp [hmem hcX]),
      hpoints _ (by simp [hmem hyX]), by simp⟩
  obtain ⟨ba, bs, a, b, clnG, crnG, c0G, dG, y0G, gG, cXG, yXG, u, f, zA, t1, t2, that, mu, c, sSk,
    sR, sB, sTau, ip⟩ := p
  dsimp only at hcln hcrn hc0 hd hy0 hg hcX hyX
  subst hcln hcrn hc0 hd hy0 hg hcX hyX
  refine ⟨_, ?_, ProofForm.mk (hgood _ (hpoints ba ?_)) (hgood _ (hpoints bs ?_))
    (hgood _ (hpoints a ?_)) (hgood _ (hpoints b ?_)) hrow hlength (hgood _ (hpoints u ?_))
    (row_of_good fun x hx => to32Be_form (hscalars x (.inl hx))) h.f_length
    (to32Be_form (hscalars zA ?_)) (hgood _ (hpoints t1 ?_)) (hgood _ (hpoints t2 ?_))
    (to32Be_form (hscalars that ?_)) (to32Be_form (hscalars mu ?_)) (to32Be_form (hscalars c ?_))
    (to32Be_form (hscalars sSk ?_)) (to32Be_form (hscalars sR ?_)) (to32Be_form (hscalars sB ?_))
    (to32Be_form (hscalars sTau ?_)) hipForm⟩
  · simp only [Proof.serialize, List.length_map, hlength, hturns, hip, Option.bind_eq_bind,
      Option.bind_some]
  all_goals simp

omit hgood

theorem TurnForm.points_good (hform : ∀ bytes g, PointForm bytes g → good g) {bytes : List UInt8}
    {t : Turn G} (h : TurnForm bytes t) : ∀ g ∈ t.points, good g := by
  cases h with
  | mk cln crn c0 d y0 g cX yX =>
      simp only [Turn.points, List.forall_mem_cons]
      exact ⟨hform _ _ cln, hform _ _ crn, hform _ _ c0, hform _ _ d, hform _ _ y0, hform _ _ g,
        hform _ _ cX, hform _ _ yX, by simp⟩

theorem RoundForm.points_good (hform : ∀ bytes g, PointForm bytes g → good g) {bytes : List UInt8}
    {r : G × G} (h : RoundForm bytes r) : good r.1 ∧ good r.2 := by
  cases h with
  | mk lForm rForm => exact ⟨hform _ _ lForm, hform _ _ rForm⟩

/-- What is read is a well-formed proof. -/
theorem ProofForm.wellFormed (hform : ∀ bytes g, PointForm bytes g → good g) {m : Nat}
    {bytes : List UInt8} {p : Proof G} (h : ProofForm m bytes p) : p.WellFormed good m := by
  cases h with
  | mk ba bs a b turns turnsLength u f fLength zA t1 t2 that mu c sSk sR sB sTau ip =>
      cases ip with
      | mk ipA ipB rounds roundsLength =>
          have hturns := turns.forall fun _ _ => TurnForm.points_good hform
          have hrounds := rounds.forall fun _ _ => RoundForm.points_good hform
          have hf := f.forall fun _ _ h => h.lt
          simp only [Turn.points, List.forall_mem_cons] at hturns
          refine ⟨by simpa, by simpa, by simpa, by simpa, by simpa, by simpa, by simpa, by simpa,
            fLength, by simpa, by simpa, ?_, ?_⟩
          · simp only [Proof.points, List.forall_mem_append, List.forall_mem_cons,
              List.forall_mem_map]
            refine ⟨⟨⟨⟨⟨⟨⟨⟨⟨⟨⟨hform _ _ ba, hform _ _ bs, hform _ _ a, hform _ _ b, hform _ _ u,
              hform _ _ t1, hform _ _ t2, by simp⟩, ?_⟩, ?_⟩, ?_⟩, ?_⟩, ?_⟩, ?_⟩, ?_⟩, ?_⟩, ?_⟩, ?_⟩
            · exact fun t ht => (hturns t ht).1
            · exact fun t ht => (hturns t ht).2.1
            · exact fun t ht => (hturns t ht).2.2.1
            · exact fun t ht => (hturns t ht).2.2.2.1
            · exact fun t ht => (hturns t ht).2.2.2.2.1
            · exact fun t ht => (hturns t ht).2.2.2.2.2.1
            · exact fun t ht => (hturns t ht).2.2.2.2.2.2.1
            · exact fun t ht => (hturns t ht).2.2.2.2.2.2.2.1
            · exact fun r hr => (hrounds r hr).1
            · exact fun r hr => (hrounds r hr).2
          · simp only [Proof.scalars, List.forall_mem_append, List.forall_mem_cons]
            exact ⟨hf, zA.lt, that.lt, mu.lt, c.lt, sSk.lt, sR.lt, sB.lt, sTau.lt, ipA.lt, ipB.lt,
              by simp⟩

end WellFormed

end DirtybirdMiner.Crypto.Proofs
