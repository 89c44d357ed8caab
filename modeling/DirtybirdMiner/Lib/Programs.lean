import DirtybirdMiner.Lib.Checked

/-!
Programs over a state that return a value, return an error, or panic (`none`).
The state survives an error, so that a caller that handles it goes on from where
the program stopped.  `Ends` is total correctness: no panic, and a condition on
the result and the final state, whether the result is a value or an error.
-/

namespace DirtybirdMiner.Lib.Programs

/-- A program over the states `σ` with errors `ε` and values `α`. -/
def Prog (σ ε α : Type) : Type := σ → Option (Except ε α × σ)

namespace Prog

variable {σ ε α β : Type}

instance : Monad (Prog σ ε) where
  pure a := fun s => some (.ok a, s)
  bind p f := fun s =>
    match p s with
    | none => none
    | some (.error e, s') => some (.error e, s')
    | some (.ok a, s') => f a s'

/-- `return Err(e)`. -/
def fail (e : ε) : Prog σ ε α := fun s => some (.error e, s)

/-- A panic, or a loop that has used up its budget. -/
def crash : Prog σ ε α := fun _ => none

def get : Prog σ ε σ := fun s => some (.ok s, s)

def set (s : σ) : Prog σ ε Unit := fun _ => some (.ok (), s)

/-- A value that has to be there. -/
def demand : Option α → Prog σ ε α
  | none => crash
  | some a => pure a

/-- A result that is already known. -/
def ofExcept : Except ε α → Prog σ ε α
  | .error e => fail e
  | .ok a => pure a

/-- The result as a value, an error included. -/
def attempt (p : Prog σ ε α) : Prog σ ε (Except ε α) := fun s =>
  match p s with
  | none => none
  | some (r, s') => some (.ok r, s')

/-- `for _ in 0..count`, with local variables. -/
def times (body : β → Prog σ ε β) : Nat → β → Prog σ ε β
  | 0, b => pure b
  | count + 1, b => do
      let b ← body b
      times body count b

/-- `loop`, with local variables and a budget of iterations; the body breaks
with a value. -/
def loop (body : β → Prog σ ε (β ⊕ α)) : Nat → β → Prog σ ε α
  | 0, _ => crash
  | budget + 1, b => do
      match ← body b with
      | .inl b => loop body budget b
      | .inr a => pure a

@[simp] theorem pure_apply (a : α) (s : σ) : (pure a : Prog σ ε α) s = some (.ok a, s) := rfl

@[simp] theorem fail_apply (e : ε) (s : σ) : (fail e : Prog σ ε α) s = some (.error e, s) := rfl

@[simp] theorem get_apply (s : σ) : (get : Prog σ ε σ) s = some (.ok s, s) := rfl

@[simp] theorem set_apply (s s' : σ) : (set s : Prog σ ε Unit) s' = some (.ok (), s) := rfl

@[simp] theorem demand_some (a : α) : (demand (some a) : Prog σ ε α) = pure a := rfl

@[simp] theorem ofExcept_ok (a : α) : (ofExcept (.ok a) : Prog σ ε α) = pure a := rfl

@[simp] theorem ofExcept_error (e : ε) : (ofExcept (.error e) : Prog σ ε α) = fail e := rfl

theorem bind_ok {p : Prog σ ε α} {f : α → Prog σ ε β} {s t : σ} {a : α}
    (h : p s = some (.ok a, t)) : (p >>= f) s = f a t := by
  simp [bind, h]

theorem bind_error {p : Prog σ ε α} {f : α → Prog σ ε β} {s s' : σ} {e : ε}
    (h : p s = some (.error e, s')) : (p >>= f) s = some (.error e, s') := by
  simp [bind, h]

@[simp] theorem pure_bind (a : α) (f : α → Prog σ ε β) : (pure a : Prog σ ε α) >>= f = f a := rfl

@[simp] theorem get_bind_apply (f : σ → Prog σ ε β) (s : σ) :
    ((get : Prog σ ε σ) >>= f) s = f s s := rfl

@[simp] theorem set_bind_apply (f : Unit → Prog σ ε β) (s s' : σ) :
    ((set s' : Prog σ ε Unit) >>= f) s = f () s' := rfl

@[simp] theorem fail_bind (e : ε) (f : α → Prog σ ε β) : (fail e : Prog σ ε α) >>= f = fail e := rfl

theorem attempt_of_eq {p : Prog σ ε α} {s s' : σ} {r : Except ε α} (h : p s = some (r, s')) :
    p.attempt s = some (.ok r, s') := by
  simp [attempt, h]

theorem bind_assoc {γ : Type} (p : Prog σ ε α) (f : α → Prog σ ε β) (g : β → Prog σ ε γ) :
    (p >>= f) >>= g = p >>= fun a => f a >>= g := by
  funext s
  simp only [bind]
  split <;> rename_i h
  · split at h <;> simp_all
  · split at h <;> simp_all
  · split at h <;> simp_all

/-- What a sequence did: it stopped at the first error or went through. -/
theorem bind_eq_some {p : Prog σ ε α} {f : α → Prog σ ε β} {s : σ} {r : Except ε β × σ}
    (h : (p >>= f) s = some r) :
    (∃ e s', p s = some (.error e, s') ∧ r = (.error e, s')) ∨
      ∃ a s', p s = some (.ok a, s') ∧ f a s' = some r := by
  simp only [bind] at h
  split at h
  · cases h
  · rename_i e s' hp
    exact .inl ⟨e, s', hp, by simpa using h.symm⟩
  · rename_i a s' hp
    exact .inr ⟨a, s', hp, h⟩

theorem bind_eq_ok {p : Prog σ ε α} {f : α → Prog σ ε β} {s s'' : σ} {b : β}
    (h : (p >>= f) s = some (.ok b, s'')) :
    ∃ a s', p s = some (.ok a, s') ∧ f a s' = some (.ok b, s'') := by
  rcases bind_eq_some h with ⟨e, s', _, hr⟩ | h
  · cases hr
  · exact h

/-- A sequence panics in its first part or behind it. -/
theorem bind_eq_none {p : Prog σ ε α} {f : α → Prog σ ε β} {s : σ} :
    (p >>= f) s = none ↔ p s = none ∨ ∃ a s', p s = some (.ok a, s') ∧ f a s' = none := by
  simp only [bind]
  split
  · rename_i h
    simp [h]
  · rename_i h
    simp [h]
  · rename_i a s' h
    rw [h]
    constructor
    · exact fun hf => .inr ⟨a, s', rfl, hf⟩
    · rintro (hnone | ⟨_, _, heq, hf⟩)
      · cases hnone
      · cases heq
        exact hf

/-- A program that never returns a value. -/
def Fails (p : Prog σ ε α) : Prop := ∀ s a s', p s ≠ some (.ok a, s')

theorem fails_fail (e : ε) : Fails (fail e : Prog σ ε α) := by
  intro s a s' h
  cases h

theorem Fails.after {p : Prog σ ε α} {f : α → Prog σ ε β} (hf : ∀ a, Fails (f a)) :
    Fails (p >>= f) := by
  intro s b s'' h
  obtain ⟨a, s', -, hb⟩ := bind_eq_ok h
  exact hf a s' b s'' hb

/-- The turns of a loop that broke. -/
theorem loop_eq_ok {body : β → Prog σ ε (β ⊕ α)} {budget : Nat} {b : β} {s s' : σ} {a : α}
    (h : loop body budget b s = some (.ok a, s')) :
    ∃ (n : Nat) (locals : Nat → β) (states : Nat → σ), locals 0 = b ∧ states 0 = s ∧
      (∀ i < n, body (locals i) (states i) = some (.ok (.inl (locals (i + 1))), states (i + 1))) ∧
      body (locals n) (states n) = some (.ok (.inr a), s') := by
  induction budget generalizing b s with
  | zero => cases h
  | succ budget ih =>
      rw [loop] at h
      obtain ⟨turn, s₁, hturn, h⟩ := bind_eq_ok h
      cases turn with
      | inr a' =>
          cases h
          exact ⟨0, fun _ => b, fun _ => s, rfl, rfl, by simp, hturn⟩
      | inl b₁ =>
          obtain ⟨n, locals, states, hb, hs, hstep, hlast⟩ := ih h
          refine ⟨n + 1, fun i => i.casesOn b locals, fun i => i.casesOn s states, rfl, rfl,
            ?_, hlast⟩
          intro i hi
          cases i with
          | zero =>
              change body b s = some (.ok (.inl (locals 0)), states 0)
              rw [hb, hs]
              exact hturn
          | succ i => exact hstep i (by omega)

/-- A loop whose turns are known by the locals and states before them, with the turn
that breaks. -/
theorem loop_of_turns {body : β → Prog σ ε (β ⊕ α)} {n budget : Nat} {l : Nat → β}
    {t : Nat → σ} {a : α} {z : σ}
    (hstep : ∀ i < n,
      body (l i) (t i) = some (.ok (.inl (l (i + 1))), t (i + 1)))
    (hlast : body (l n) (t n) = some (.ok (.inr a), z)) (hbudget : n < budget) :
    loop body budget (l 0) (t 0) = some (.ok a, z) := by
  induction budget generalizing n l t with
  | zero => omega
  | succ budget ih =>
      rw [loop]
      cases n with
      | zero =>
          rw [bind_ok hlast]
          rfl
      | succ n =>
          rw [bind_ok (hstep 0 (by omega))]
          exact ih (l := fun i => l (i + 1)) (t := fun i => t (i + 1))
            (fun i hi => hstep (i + 1) (by omega)) hlast (by omega)

/-- A counted loop whose turns are known. -/
theorem times_of_turns {body : β → Prog σ ε β} {n : Nat} {l : Nat → β} {t : Nat → σ}
    (hstep : ∀ i < n, body (l i) (t i) = some (.ok (l (i + 1)), t (i + 1))) :
    times body n (l 0) (t 0) = some (.ok (l n), t n) := by
  induction n generalizing l t with
  | zero => rfl
  | succ n ih =>
      rw [times, bind_ok (hstep 0 (by omega))]
      exact ih (l := fun i => l (i + 1)) (t := fun i => t (i + 1))
        fun i hi => hstep (i + 1) (by omega)

/-- The turns of a counted loop that went through. -/
theorem times_eq_ok {body : β → Prog σ ε β} {n : Nat} {b b' : β} {s s' : σ}
    (h : times body n b s = some (.ok b', s')) :
    ∃ (locals : Nat → β) (states : Nat → σ), locals 0 = b ∧ states 0 = s ∧
      (∀ i < n, body (locals i) (states i) = some (.ok (locals (i + 1)), states (i + 1))) ∧
      locals n = b' ∧ states n = s' := by
  induction n generalizing b s with
  | zero =>
      cases h
      exact ⟨fun _ => b', fun _ => s', rfl, rfl, by simp, rfl, rfl⟩
  | succ n ih =>
      rw [times] at h
      obtain ⟨b₁, s₁, hturn, h⟩ := bind_eq_ok h
      obtain ⟨locals, states, hb, hs, hstep, hb', hs'⟩ := ih h
      refine ⟨fun i => i.casesOn b locals, fun i => i.casesOn s states, rfl, rfl, ?_, hb', hs'⟩
      intro i hi
      cases i with
      | zero =>
          change body b s = some (.ok (locals 0), states 0)
          rw [hb, hs]
          exact hturn
      | succ i => exact hstep i (by omega)

@[simp] theorem bind_pure (p : Prog σ ε α) : p >>= pure = p := by
  funext s
  simp only [bind, pure]
  split <;> simp_all

theorem times_add (body : β → Prog σ ε β) (m n : Nat) (b : β) :
    times body (m + n) b = times body m b >>= times body n := by
  induction m generalizing b with
  | zero => simp [times]
  | succ m ih =>
      rw [Nat.succ_add, times, times, bind_assoc]
      exact congrArg _ (funext ih)

theorem times_times (body : β → Prog σ ε β) (m n : Nat) (b : β) :
    times (times body m) n b = times body (n * m) b := by
  induction n generalizing b with
  | zero => simp [times]
  | succ n ih =>
      rw [Nat.succ_mul, Nat.add_comm (n * m), times_add body m, times]
      exact congrArg _ (funext ih)

end Prog

section Ends

variable {σ ε α β : Type}

/-- The program does not panic, and its result and final state are as described. -/
def Ends (p : Prog σ ε α) (s : σ) (post : Except ε α → σ → Prop) : Prop :=
  ∃ r s', p s = some (r, s') ∧ post r s'

theorem Ends.of_eq {p : Prog σ ε α} {s s' : σ} {post : Except ε α → σ → Prop} {r : Except ε α}
    (h : p s = some (r, s')) (hpost : post r s') : Ends p s post :=
  ⟨r, s', h, hpost⟩

theorem Ends.mono {p : Prog σ ε α} {s : σ} {post post' : Except ε α → σ → Prop}
    (h : Ends p s post) (himp : ∀ r s', post r s' → post' r s') : Ends p s post' := by
  obtain ⟨r, s', hp, hpost⟩ := h
  exact ⟨r, s', hp, himp r s' hpost⟩

theorem Ends.withEq {p : Prog σ ε α} {s : σ} {post : Except ε α → σ → Prop} (h : Ends p s post) :
    Ends p s fun r s' => p s = some (r, s') := by
  obtain ⟨r, s', hp, -⟩ := h
  exact ⟨r, s', hp, hp⟩

theorem Ends.bind {p : Prog σ ε α} {f : α → Prog σ ε β} {s : σ} {m : Except ε α → σ → Prop}
    {post : Except ε β → σ → Prop} (h : Ends p s m)
    (hok : ∀ a s', m (.ok a) s' → Ends (f a) s' post)
    (herror : ∀ e s', m (.error e) s' → post (.error e) s') : Ends (p >>= f) s post := by
  obtain ⟨r, s', hp, hmid⟩ := h
  cases r with
  | error e => exact ⟨.error e, s', Prog.bind_error hp, herror e s' hmid⟩
  | ok a =>
      obtain ⟨r, s'', hf, hpost⟩ := hok a s' hmid
      exact ⟨r, s'', by rw [Prog.bind_ok hp, hf], hpost⟩

/-- A first part whose outcome is known. -/
theorem Ends.after {p : Prog σ ε α} {f : α → Prog σ ε β} {s s' : σ} {a : α}
    {post : Except ε β → σ → Prop} (hp : p s = some (.ok a, s')) (h : Ends (f a) s' post) :
    Ends (p >>= f) s post := by
  obtain ⟨r, s'', hf, hpost⟩ := h
  exact ⟨r, s'', by rw [Prog.bind_ok hp, hf], hpost⟩

/-- A sequence ends when its second part ends wherever the first part may. -/
theorem Ends.bind_of_eq {p : Prog σ ε α} {f : α → Prog σ ε β} {s : σ}
    {mid : Except ε α → σ → Prop} {post : Except ε β → σ → Prop} (h : Ends p s mid)
    (hok : ∀ a s', p s = some (.ok a, s') → Ends (f a) s' post)
    (herror : ∀ e s', p s = some (.error e, s') → post (.error e) s') : Ends (p >>= f) s post :=
  h.withEq.bind hok herror

theorem Ends.attempt {p : Prog σ ε α} {s : σ} {post : Except ε α → σ → Prop} (h : Ends p s post) :
    Ends p.attempt s fun r s' => ∃ r', r = .ok r' ∧ post r' s' := by
  obtain ⟨r, s', hp, hpost⟩ := h
  exact ⟨.ok r, s', Prog.attempt_of_eq hp, r, rfl, hpost⟩

/-- A loop ends when every turn keeps an invariant and makes a measure smaller. -/
theorem Ends.loop {body : β → Prog σ ε (β ⊕ α)} {I : β → σ → Prop} {m : β → σ → Nat}
    {post : Except ε α → σ → Prop}
    (hbody : ∀ b s, I b s → Ends (body b) s fun r s' =>
      (∀ b', r = .ok (.inl b') → I b' s' ∧ m b' s' < m b s) ∧
      (∀ a, r = .ok (.inr a) → post (.ok a) s') ∧ ∀ e, r = .error e → post (.error e) s')
    {budget : Nat} {b : β} {s : σ} (hinv : I b s) (hbudget : m b s < budget) :
    Ends (Prog.loop body budget b) s post := by
  induction budget generalizing b s with
  | zero => omega
  | succ budget ih =>
      refine (hbody b s hinv).bind ?_ fun e s' h => h.2.2 e rfl
      intro turn s' h
      cases turn with
      | inl b' =>
          obtain ⟨hinv', hless⟩ := h.1 b' rfl
          exact ih hinv' (by omega)
      | inr a => exact .of_eq rfl (h.2.1 a rfl)

/-- A counted loop ends when every turn does, with an invariant that counts them. -/
theorem Ends.times {body : β → Prog σ ε β} {n : Nat} {I : Nat → β → σ → Prop}
    {post : Except ε β → σ → Prop}
    (hbody : ∀ i < n, ∀ b s, I i b s → Ends (body b) s fun r s' =>
      (∀ b', r = .ok b' → I (i + 1) b' s') ∧ ∀ e, r = .error e → post (.error e) s')
    (hlast : ∀ b s, I n b s → post (.ok b) s) {b : β} {s : σ} (hinv : I 0 b s) :
    Ends (Prog.times body n b) s post := by
  induction n generalizing b s I with
  | zero => exact .of_eq rfl (hlast b s hinv)
  | succ n ih =>
      refine (hbody 0 (by omega) b s hinv).bind ?_ fun e s' h => h.2 e rfl
      intro b' s' h
      exact ih (I := fun i => I (i + 1)) (fun i hi => hbody (i + 1) (by omega)) hlast (h.1 b' rfl)

end Ends

end DirtybirdMiner.Lib.Programs
