import DirtybirdMiner.Lib.Bytes
import DirtybirdMiner.Lib.Programs

/-!
Readers: programs over the bytes that are left of a buffer.  A format is a
relation between byte strings and values.  A reader parses a format when it never
panics and every value it returns stands for the bytes it took; it reads some
bytes when it takes exactly these, whatever comes behind them.
-/

namespace DirtybirdMiner.Lib.Readers

open DirtybirdMiner.Lib.Bytes
open DirtybirdMiner.Lib.Programs
open DirtybirdMiner.Lib.Programs.Prog

abbrev Reader (ε α : Type) : Type := Prog (List UInt8) ε α

variable {ε α β : Type}

/-- The next bytes, or an error when there are fewer. -/
def takeOr (e : ε) (n : Nat) : Reader ε (FixedBytes n) := fun s =>
  if h : n ≤ s.length then some (.ok ⟨s.take n, by simp [h]⟩, s.drop n) else some (.error e, s)

/-- `for _ in 0..n`, pushing what is read to a vector. -/
def collect (p : Reader ε α) : Nat → Reader ε (List α)
  | 0 => pure []
  | n + 1 => do
      let a ← p
      let as ← collect p n
      pure (a :: as)

/-- `Vec::with_capacity` for elements of some size: a capacity of more than
`isize::MAX` bytes is a panic. -/
def withCapacity (size count : Nat) : Reader ε Unit :=
  if count * size < 2 ^ 63 then pure () else crash

/-- A part that is there only under a condition. -/
def optionally (c : Prop) [Decidable c] (p : Reader ε α) (a : α) : Reader ε α :=
  if c then p else pure a

section Reads

/-- The reader takes exactly these bytes and returns the value. -/
def Reads (p : Reader ε α) (bytes : List UInt8) (a : α) : Prop :=
  ∀ rest, p (bytes ++ rest) = some (.ok a, rest)

theorem reads_pure (a : α) : Reads (pure a : Reader ε α) [] a := fun _ => rfl

theorem Reads.bind {p : Reader ε α} {f : α → Reader ε β} {bytes bytes' : List UInt8} {a : α}
    {b : β} (h : Reads p bytes a) (h' : Reads (f a) bytes' b) :
    Reads (p >>= f) (bytes ++ bytes') b := by
  intro rest
  rw [List.append_assoc, bind_ok (h _)]
  exact h' rest

/-- What comes last needs no empty rest. -/
theorem Reads.last {p : Reader ε α} {f : α → Reader ε β} {bytes : List UInt8} {a : α} {b : β}
    (h : Reads p bytes a) (h' : Reads (f a) [] b) : Reads (p >>= f) bytes b := by
  have := h.bind h'
  rwa [List.append_nil] at this

/-- What comes first needs no bytes. -/
theorem Reads.skip {p : Reader ε α} {f : α → Reader ε β} {bytes : List UInt8} {a : α} {b : β}
    (h : Reads p [] a) (h' : Reads (f a) bytes b) : Reads (p >>= f) bytes b :=
  h.bind h'

theorem reads_takeOr (e : ε) {n : Nat} (b : FixedBytes n) : Reads (takeOr e n) b.1 b := by
  intro rest
  have hn : n ≤ (b.1 ++ rest).length := by simp [b.2]
  have htake : (b.1 ++ rest).take n = b.1 := List.take_left' b.2
  have hdrop : (b.1 ++ rest).drop n = rest := List.drop_left' b.2
  simp only [takeOr, dif_pos hn, htake, hdrop]

theorem reads_collect {p : Reader ε α} {form : α → List UInt8} {as : List α}
    (h : ∀ a ∈ as, Reads p (form a) a) : Reads (collect p as.length) (as.flatMap form) as := by
  induction as with
  | nil => exact reads_pure []
  | cons a as ih =>
      rw [List.forall_mem_cons] at h
      exact h.1.bind ((ih h.2).last (reads_pure _))

theorem reads_withCapacity {size count : Nat} (h : count * size < 2 ^ 63) :
    Reads (withCapacity size count : Reader ε Unit) [] () := by
  rw [withCapacity, if_pos h]
  exact reads_pure ()

end Reads

section Parses

/-- The reader does not panic, and what it returns has the form of the bytes that
it took. -/
def Parses (p : Reader ε α) (form : List UInt8 → α → Prop) : Prop :=
  ∀ s, Ends p s fun r s' => ∀ a, r = .ok a → ∃ bytes, s = bytes ++ s' ∧ form bytes a

variable {form : List UInt8 → α → Prop} {form' : List UInt8 → β → Prop}

theorem parses_pure {a : α} (h : form [] a) : Parses (pure a : Reader ε α) form := by
  intro s
  refine .of_eq rfl ?_
  rintro _ ⟨⟩
  exact ⟨[], rfl, h⟩

theorem parses_fail (e : ε) : Parses (fail e : Reader ε α) form := by
  intro s
  refine .of_eq rfl ?_
  rintro _ ⟨⟩

/-- The first part takes bytes, and the rest has to complete them to the form. -/
theorem Parses.bind {p : Reader ε α} {f : α → Reader ε β} (h : Parses p form)
    (hf : ∀ bytes a, form bytes a → Parses (f a) fun bytes' b => form' (bytes ++ bytes') b) :
    Parses (p >>= f) form' := by
  intro s
  refine (h s).bind ?_ ?_
  · intro a s' hform
    obtain ⟨bytes, rfl, hbytes⟩ := hform a rfl
    refine (hf bytes a hbytes s').mono ?_
    intro r s'' hr b hb
    obtain ⟨bytes', rfl, hbytes'⟩ := hr b hb
    exact ⟨bytes ++ bytes', (List.append_assoc _ _ _).symm, hbytes'⟩
  · rintro e s' - _ ⟨⟩

theorem Parses.mono {p : Reader ε α} {form form' : List UInt8 → α → Prop} (h : Parses p form)
    (himp : ∀ bytes a, form bytes a → form' bytes a) : Parses p form' := by
  intro s
  refine (h s).mono ?_
  intro r s' hr a ha
  obtain ⟨bytes, hs, hform⟩ := hr a ha
  exact ⟨bytes, hs, himp bytes a hform⟩

theorem Parses.ne_none {p : Reader ε α} (h : Parses p form) (s : List UInt8) : p s ≠ none := by
  obtain ⟨r, s', heq, -⟩ := h s
  rw [heq]
  exact Option.some_ne_none _

/-- Behind a part that does not panic, a panic comes after a form of this part. -/
theorem Parses.bind_eq_none {p : Reader ε α} {f : α → Reader ε β} {s : List UInt8}
    (h : Parses p form) (hreads : ∀ bytes a, form bytes a → Reads p bytes a) :
    (p >>= f) s = none ↔ ∃ bytes a rest, s = bytes ++ rest ∧ form bytes a ∧ f a rest = none := by
  rw [Prog.bind_eq_none]
  constructor
  · rintro (hnone | ⟨a, rest, heq, hf⟩)
    · exact absurd hnone (h.ne_none s)
    · obtain ⟨r, s', heq', hform⟩ := h s
      rw [heq] at heq'
      cases heq'
      obtain ⟨bytes, rfl, hbytes⟩ := hform a rfl
      exact ⟨bytes, a, rest, rfl, hbytes, hf⟩
  · rintro ⟨bytes, a, rest, rfl, hform, hf⟩
    exact .inr ⟨a, rest, hreads bytes a hform rest, hf⟩

theorem parses_takeOr (e : ε) (n : Nat) : Parses (takeOr e n) fun bytes a => bytes = a.1 := by
  intro s
  by_cases hn : n ≤ s.length
  · refine .of_eq (show takeOr e n s = _ from dif_pos hn) ?_
    rintro _ ⟨⟩
    exact ⟨s.take n, (List.take_append_drop n s).symm, rfl⟩
  · refine .of_eq (show takeOr e n s = _ from dif_neg hn) ?_
    rintro _ ⟨⟩

theorem parses_withCapacity {size count : Nat} (h : count * size < 2 ^ 63) :
    Parses (withCapacity size count : Reader ε Unit) fun bytes _ => bytes = [] := by
  rw [withCapacity, if_pos h]
  exact parses_pure rfl

/-- The forms of a row of values, one behind the other. -/
inductive Row (form : List UInt8 → α → Prop) : List UInt8 → List α → Prop
  | nil : Row form [] []
  | cons {bytes row : List UInt8} {a : α} {as : List α} (head : form bytes a)
      (tail : Row form row as) : Row form (bytes ++ row) (a :: as)

theorem Row.forall {bytes : List UInt8} {as : List α} (h : Row form bytes as) {good : α → Prop}
    (himp : ∀ bytes a, form bytes a → good a) : ∀ a ∈ as, good a := by
  induction h with
  | nil => simp
  | cons head _ ih => exact List.forall_mem_cons.mpr ⟨himp _ _ head, ih⟩

/-- Every value in a form of its own. -/
theorem row_of_good {write : α → List UInt8} {as : List α} (h : ∀ a ∈ as, form (write a) a) :
    Row form (as.flatMap write) as := by
  induction as with
  | nil => exact .nil
  | cons a as ih =>
      rw [List.forall_mem_cons] at h
      exact .cons h.1 (ih h.2)

theorem parses_collect {p : Reader ε α} (h : Parses p form) (n : Nat) :
    Parses (collect p n) fun bytes as => as.length = n ∧ Row form bytes as := by
  induction n with
  | zero => exact parses_pure ⟨rfl, .nil⟩
  | succ n ih =>
      refine h.bind fun bytes a ha => ?_
      refine ih.bind fun row as has => ?_
      refine parses_pure ⟨by rw [List.length_cons, has.1], ?_⟩
      rw [List.append_nil]
      exact .cons ha has.2

theorem Row.reads {p : Reader ε α} {bytes : List UInt8} {as : List α} (h : Row form bytes as)
    (hp : ∀ bytes a, form bytes a → Reads p bytes a) : Reads (collect p as.length) bytes as := by
  induction h with
  | nil => exact reads_pure []
  | cons head _ ih => exact (hp _ _ head).bind (ih.last (reads_pure _))

/-- The form of a part that is there only under a condition. -/
def Optionally (c : Prop) (form : List UInt8 → α → Prop) (a : α) (bytes : List UInt8) (b : α) :
    Prop :=
  (c ∧ form bytes b) ∨ (¬c ∧ bytes = [] ∧ b = a)

theorem optionally_ite {c : Prop} [Decidable c] {a b : α} {bytes : List UInt8}
    (hform : c → form bytes b) (hdefault : ¬c → b = a) :
    Optionally c form a (if c then bytes else []) b := by
  split
  · rename_i hc
    exact .inl ⟨hc, hform hc⟩
  · rename_i hc
    exact .inr ⟨hc, rfl, hdefault hc⟩

theorem Optionally.absent {c : Prop} {a b : α} {bytes : List UInt8}
    (h : Optionally c form a bytes b) (hc : ¬c) : b = a := by
  rcases h with ⟨hpresent, -⟩ | ⟨-, -, hb⟩
  · exact absurd hpresent hc
  · exact hb

theorem Optionally.present {c : Prop} {a b : α} {bytes : List UInt8}
    (h : Optionally c form a bytes b) (hc : c) : form bytes b := by
  rcases h with ⟨-, hform⟩ | ⟨habsent, -⟩
  · exact hform
  · exact absurd hc habsent

theorem parses_optionally {c : Prop} [Decidable c] {p : Reader ε α} (h : Parses p form) (a : α) :
    Parses (optionally c p a) (Optionally c form a) := by
  unfold optionally
  split
  · rename_i hc
    exact h.mono fun _ _ hform => .inl ⟨hc, hform⟩
  · rename_i hc
    exact parses_pure (.inr ⟨hc, rfl, rfl⟩)

theorem Optionally.reads {c : Prop} [Decidable c] {p : Reader ε α} {a b : α}
    {bytes : List UInt8} (h : Optionally c form a bytes b)
    (hp : ∀ bytes b, form bytes b → Reads p bytes b) : Reads (optionally c p a) bytes b := by
  unfold optionally
  rcases h with ⟨hc, hform⟩ | ⟨hc, rfl, rfl⟩
  · rw [if_pos hc]
    exact hp _ _ hform
  · rw [if_neg hc]
    exact reads_pure _

end Parses

end DirtybirdMiner.Lib.Readers
