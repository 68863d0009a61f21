-- The ways a piece of code ends: with a value, in a stop of the machine, or
-- not at all within the turns it was given. One combinator stands for every
-- loop with a `break` or a `return`, one for every loop that counts.
import Mathlib

namespace Program

inductive Outcome (ε α : Type) where
  | ok (value : α)
  | stop (why : ε)
  | spin
deriving DecidableEq, Repr

variable {ε α β σ : Type}

namespace Outcome

protected def bind (x : Outcome ε α) (f : α → Outcome ε β) : Outcome ε β :=
  match x with
  | ok a => f a
  | stop e => stop e
  | spin => spin

instance : Monad (Outcome ε) where
  pure := ok
  bind := Outcome.bind

@[simp] theorem pure_eq (a : α) : (pure a : Outcome ε α) = ok a := rfl

@[simp] theorem bind_ok (a : α) (f : α → Outcome ε β) : (ok a >>= f) = f a := rfl

@[simp] theorem bind_stop (e : ε) (f : α → Outcome ε β) : (stop e >>= f) = stop e := rfl

@[simp] theorem bind_spin (f : α → Outcome ε β) : ((spin : Outcome ε α) >>= f) = spin := rfl

/-- A sequence returns when both halves do. -/
theorem bind_eq_ok {x : Outcome ε α} {f : α → Outcome ε β} {b : β} :
    (x >>= f) = ok b ↔ ∃ a, x = ok a ∧ f a = ok b := by
  cases x <;> simp

/-- It stops when one of them does. -/
theorem bind_eq_stop {x : Outcome ε α} {f : α → Outcome ε β} {e : ε} :
    (x >>= f) = stop e ↔ x = stop e ∨ ∃ a, x = ok a ∧ f a = stop e := by
  cases x <;> simp

theorem bind_assoc {γ : Type} (x : Outcome ε α) (f : α → Outcome ε β) (g : β → Outcome ε γ) :
    (x >>= f >>= g) = (x >>= fun a => f a >>= g) := by
  cases x <;> rfl

/-- The code returns, with a value that `P` holds of. -/
def Yields (x : Outcome ε α) (P : α → Prop) : Prop := ∃ a, x = ok a ∧ P a

instance (x : Outcome ε α) (P : α → Prop) [DecidablePred P] : Decidable (x.Yields P) :=
  match x with
  | ok a => decidable_of_iff (P a) ⟨fun h => ⟨a, rfl, h⟩, fun ⟨_, h, hp⟩ => by cases h; exact hp⟩
  | stop _ => isFalse fun ⟨_, h, _⟩ => by cases h
  | spin => isFalse fun ⟨_, h, _⟩ => by cases h

/-- The code returns a value that `P` holds of, or stops in a way that `R`
allows. -/
def Meets (x : Outcome ε α) (R : ε → Prop) (P : α → Prop) : Prop :=
  (∃ e, x = stop e ∧ R e) ∨ x.Yields P

variable {R R' : ε → Prop} {P : α → Prop} {Q : β → Prop}

theorem Meets.ok {a : α} (h : P a) : (ok a : Outcome ε α).Meets R P := Or.inr ⟨a, rfl, h⟩

theorem Meets.stop {e : ε} (h : R e) : (stop e : Outcome ε α).Meets R P := Or.inl ⟨e, rfl, h⟩

theorem Meets.bind {x : Outcome ε α} {f : α → Outcome ε β} (hx : x.Meets R P)
    (hf : ∀ a, P a → (f a).Meets R Q) : (x >>= f).Meets R Q := by
  rcases hx with ⟨e, rfl, he⟩ | ⟨a, rfl, ha⟩
  · exact Meets.stop he
  · exact hf a ha

theorem Meets.mono {x : Outcome ε α} {P' : α → Prop} (hx : x.Meets R P) (hR : ∀ e, R e → R' e)
    (hP : ∀ a, P a → P' a) : x.Meets R' P' := by
  rcases hx with ⟨e, rfl, he⟩ | ⟨a, rfl, ha⟩
  · exact Meets.stop (hR e he)
  · exact Meets.ok (hP a ha)

/-- No stop and no endless loop where `R` holds of no stop. -/
theorem Meets.yields {x : Outcome ε α} (hx : x.Meets R P) (h : ∀ e, x = .stop e → ¬ R e) :
    x.Yields P := by
  rcases hx with ⟨e, he, hr⟩ | hy
  · exact absurd hr (h e he)
  · exact hy

/-- What is known of the values that are returned. -/
theorem Meets.of_ok {x : Outcome ε α} {P' : α → Prop} (hx : x.Meets R P)
    (h : ∀ a, x = .ok a → P' a) : x.Meets R P' := by
  rcases hx with ⟨e, he, hr⟩ | ⟨a, ha, -⟩
  · exact Or.inl ⟨e, he, hr⟩
  · exact Or.inr ⟨a, ha, h a ha⟩

/-- What is known of a value. -/
theorem Meets.of_value {x : Outcome ε α} {a : α} (hx : x.Meets R P) (h : x = .ok a) : P a := by
  subst h
  rcases hx with ⟨e, he, -⟩ | ⟨b, hb, hp⟩
  · cases he
  · cases hb
    exact hp

/-- What is known of a stop. -/
theorem Meets.of_stop {x : Outcome ε α} {e : ε} (hx : x.Meets R P) (h : x = .stop e) : R e := by
  subst h
  rcases hx with ⟨e', he, hr⟩ | ⟨a, ha, -⟩
  · cases he
    exact hr
  · cases ha

/-- The outcome, a stop with the state it leaves. -/
def leaving (x : Outcome ε α) (s : σ) : Outcome (ε × σ) α :=
  match x with
  | ok a => ok a
  | stop e => stop (e, s)
  | spin => spin

/-- The outcome, a stop without the state it leaves. -/
def forgetting (x : Outcome (ε × σ) α) : Outcome ε α :=
  match x with
  | ok a => ok a
  | stop e => stop e.1
  | spin => spin

@[simp] theorem leaving_ok (a : α) (s : σ) : (ok a : Outcome ε α).leaving s = ok a := rfl

@[simp] theorem forgetting_ok (a : α) : (ok a : Outcome (ε × σ) α).forgetting = ok a := rfl

@[simp] theorem forgetting_leaving (x : Outcome ε α) (s : σ) : (x.leaving s).forgetting = x := by
  cases x <;> rfl

@[simp] theorem forgetting_bind (x : Outcome (ε × σ) α) (f : α → Outcome (ε × σ) β) :
    (x >>= f).forgetting = x.forgetting >>= fun a => (f a).forgetting := by
  cases x <;> rfl

/-- The outcome, its stop as one of the stops of a larger program. -/
def lift {ε' : Type} (f : ε → ε') (x : Outcome ε α) : Outcome ε' α :=
  match x with
  | ok a => ok a
  | stop e => stop (f e)
  | spin => spin

@[simp] theorem lift_ok {ε' : Type} (f : ε → ε') (a : α) : (ok a : Outcome ε α).lift f = ok a := rfl

/-- Go on when `c` holds, and stop otherwise. -/
def ensure (c : Prop) [Decidable c] (why : ε) : Outcome ε Unit :=
  if c then ok () else stop why

@[simp] theorem ensure_eq_ok {c : Prop} [Decidable c] {why : ε} {u : Unit} :
    ensure c why = ok u ↔ c := by
  by_cases h : c <;> simp [ensure, h]

theorem ensure_meets (c : Prop) [Decidable c] {why : ε} (h : R why) :
    (ensure c why).Meets R fun _ => True := by
  unfold ensure
  split
  · exact Meets.ok trivial
  · exact Meets.stop h

end Outcome

open Outcome

/-! ## Loops that a turn can leave -/

/-- What one turn of a loop decides. -/
inductive Turn (σ β : Type) where
  | next (s : σ)
  | leave (b : β)
deriving DecidableEq, Repr

/-- A loop with at most `fuel` turns. A loop that needs more turns than it
has spins, so a result never depends on the fuel, see `loop_mono`. -/
def loop (body : σ → Outcome ε (Turn σ β)) : Nat → σ → Outcome ε β
  | 0, _ => spin
  | fuel + 1, s =>
    match body s with
    | ok (.next s') => loop body fuel s'
    | ok (.leave b) => ok b
    | stop e => stop e
    | spin => spin

variable {body : σ → Outcome ε (Turn σ β)}

@[simp] theorem loop_zero (s : σ) : loop body 0 s = spin := rfl

theorem loop_next {fuel : Nat} {s s' : σ} (h : body s = ok (.next s')) :
    loop body (fuel + 1) s = loop body fuel s' := by
  simp [loop, h]

theorem loop_leave {fuel : Nat} {s : σ} {b : β} (h : body s = ok (.leave b)) :
    loop body (fuel + 1) s = ok b := by
  simp [loop, h]

/-- What a first turn can do. -/
theorem loop_succ (body : σ → Outcome ε (Turn σ β)) (fuel : Nat) (s : σ) :
    (∃ s', body s = ok (.next s') ∧ loop body (fuel + 1) s = loop body fuel s') ∨
    (∃ b, body s = ok (.leave b) ∧ loop body (fuel + 1) s = ok b) ∨
    (∃ e, body s = stop e ∧ loop body (fuel + 1) s = stop e) ∨
    (body s = spin ∧ loop body (fuel + 1) s = spin) := by
  rcases h : body s with (s' | b) | e | _ <;> simp [loop, h]

/-- More fuel keeps a result. -/
theorem loop_mono {n m : Nat} {s : σ} (hnm : n ≤ m) (h : loop body n s ≠ spin) :
    loop body m s = loop body n s := by
  induction n generalizing m s with
  | zero => simp at h
  | succ n ih =>
    obtain ⟨m, rfl⟩ : ∃ k, m = k + 1 := ⟨m - 1, by omega⟩
    rcases loop_succ body n s with ⟨s', hb, hl⟩ | ⟨b, hb, hl⟩ | ⟨e, hb, hl⟩ | ⟨hb, hl⟩
    · rw [hl] at h
      rw [hl, loop_next hb, ih (by omega) h]
    · rw [hl, loop_leave hb]
    · rw [hl]; simp [loop, hb]
    · exact absurd hl h

/-- A loop whose stops carry a state, without that state. -/
theorem loop_forgetting {τ : Type} (body : σ → Outcome (ε × τ) (Turn σ β)) (fuel : Nat) (s : σ) :
    (loop body fuel s).forgetting = loop (fun s => (body s).forgetting) fuel s := by
  induction fuel generalizing s with
  | zero => rfl
  | succ fuel ih =>
    rcases h : body s with (s' | b) | e | _ <;> simp [loop, h, forgetting]
    exact ih s'

/-- The invariant rule: what every turn keeps holds where the loop is left. -/
theorem loop_inv {I : σ → Prop} {Q : β → Prop}
    (hnext : ∀ s s', I s → body s = ok (.next s') → I s')
    (hleave : ∀ s b, I s → body s = ok (.leave b) → Q b)
    {fuel : Nat} {s : σ} {b : β} (hs : I s) (h : loop body fuel s = ok b) : Q b := by
  induction fuel generalizing s with
  | zero => simp at h
  | succ fuel ih =>
    rcases loop_succ body fuel s with ⟨s', hb, hl⟩ | ⟨b', hb, hl⟩ | ⟨e, hb, hl⟩ | ⟨hb, hl⟩
    · exact ih (hnext s s' hs hb) (hl ▸ h)
    · rw [hl] at h
      cases h
      exact hleave s b hs hb
    · simp [hl] at h
    · simp [hl] at h

/-- A loop stops as its turns do. -/
theorem loop_stop {R : ε → Prop} (hturn : ∀ s e, body s = stop e → R e) {fuel : Nat} {s : σ} {e : ε}
    (h : loop body fuel s = stop e) : R e := by
  induction fuel generalizing s with
  | zero => simp at h
  | succ fuel ih =>
    rcases loop_succ body fuel s with ⟨s', hb, hl⟩ | ⟨b, hb, hl⟩ | ⟨e', hb, hl⟩ | ⟨hb, hl⟩
    · exact ih (hl ▸ h)
    · simp [hl] at h
    · rw [hl] at h
      cases h
      exact hturn s e hb
    · simp [hl] at h

/-- The rule for a result: turns that never stop and make a measure smaller
leave the loop. -/
theorem loop_ok {I : σ → Prop} (μ : σ → Nat)
    (hturn : ∀ s, I s → (∃ s', body s = ok (.next s') ∧ I s' ∧ μ s' < μ s) ∨
      ∃ b, body s = ok (.leave b))
    {fuel : Nat} {s : σ} (hs : I s) (hf : μ s < fuel) : ∃ b, loop body fuel s = ok b := by
  induction fuel generalizing s with
  | zero => omega
  | succ fuel ih =>
    rcases hturn s hs with ⟨s', hb, hi, hm⟩ | ⟨b, hb⟩
    · rw [loop_next hb]
      exact ih hi (by omega)
    · exact ⟨b, loop_leave hb⟩

/-- The same rule with stops that `R` allows. -/
theorem loop_meets {R : ε → Prop} {I : σ → Prop} {Q : β → Prop} (μ : σ → Nat)
    (hturn : ∀ s, I s → (body s).Meets R fun
      | .next s' => I s' ∧ μ s' < μ s
      | .leave b => Q b)
    {fuel : Nat} {s : σ} (hs : I s) (hf : μ s < fuel) : (loop body fuel s).Meets R Q := by
  induction fuel generalizing s with
  | zero => omega
  | succ fuel ih =>
    rcases hturn s hs with ⟨e, hb, he⟩ | ⟨s' | b, hb, ht⟩
    · exact Or.inl ⟨e, by simp [loop, hb], he⟩
    · rw [loop_next hb]
      exact ih ht.1 (by omega)
    · rw [loop_leave hb]
      exact Meets.ok ht

/-- Turns that are known one by one can be skipped. -/
theorem loop_skip (body : σ → Outcome ε (Turn σ β)) (f : Nat → σ) (k : Nat) (fuel : Nat)
    (h : ∀ i < k, body (f i) = ok (.next (f (i + 1)))) :
    loop body (fuel + k) (f 0) = loop body fuel (f k) := by
  induction k generalizing fuel with
  | zero => rfl
  | succ k ih =>
    rw [show fuel + (k + 1) = (fuel + 1) + k by omega, ih _ (fun i hi => h i (by omega)),
      loop_next (h k (by omega))]

/-! ## Loops that count -/

/-- `for (i = 0; i < n; i++)` over a state. -/
def forRange (n : Nat) (body : Nat → σ → Outcome ε σ) (s : σ) : Outcome ε σ :=
  match n with
  | 0 => ok s
  | n + 1 => forRange n body s >>= body n

/-- The invariant rule of a loop that counts. -/
theorem forRange_inv {body : Nat → σ → Outcome ε σ} (I : Nat → σ → Prop) {n : Nat} {s s' : σ}
    (hstep : ∀ i t t', i < n → I i t → body i t = ok t' → I (i + 1) t')
    (hs : I 0 s) (h : forRange n body s = ok s') : I n s' := by
  induction n generalizing s' with
  | zero =>
    cases h
    exact hs
  | succ n ih =>
    obtain ⟨t, ht, hb⟩ := bind_eq_ok.mp h
    exact hstep n t s' (by omega) (ih (fun i t t' hi => hstep i t t' (by omega)) ht) hb

/-- A loop that counts returns when every turn does. -/
theorem forRange_ok {body : Nat → σ → Outcome ε σ} (I : Nat → σ → Prop) {n : Nat} {s : σ}
    (hstep : ∀ i t, i < n → I i t → ∃ t', body i t = ok t' ∧ I (i + 1) t')
    (hs : I 0 s) : ∃ s', forRange n body s = ok s' ∧ I n s' := by
  induction n with
  | zero => exact ⟨s, rfl, hs⟩
  | succ n ih =>
    obtain ⟨t, ht, hi⟩ := ih (fun i t hi => hstep i t (by omega))
    obtain ⟨t', ht', hi'⟩ := hstep n t (by omega) hi
    exact ⟨t', by simp [forRange, ht, ht'], hi'⟩

/-- The same rule with stops that `R` allows. -/
theorem forRange_meets {body : Nat → σ → Outcome ε σ} {R : ε → Prop} (I : Nat → σ → Prop) {n : Nat}
    {s : σ} (hstep : ∀ i t, i < n → I i t → (body i t).Meets R (I (i + 1))) (hs : I 0 s) :
    (forRange n body s).Meets R (I n) := by
  induction n with
  | zero => exact Meets.ok hs
  | succ n ih =>
    exact (ih fun i t hi => hstep i t (by omega)).bind fun t ht => hstep n t (by omega) ht

/-- A loop that counts, from its first turn on. -/
theorem forRange_succ_left (n : Nat) (body : Nat → σ → Outcome ε σ) (s : σ) :
    forRange (n + 1) body s = body 0 s >>= forRange n fun i => body (i + 1) := by
  induction n with
  | zero => cases h : body 0 s <;> simp [forRange, h]
  | succ n ih => rw [forRange, ih, bind_assoc]; rfl

/-! ## Loops that step through addresses -/

/-- `for (; a < limit; a += step)` over a state. -/
def forStep {w : Nat} (step limit : BitVec w) (body : BitVec w → σ → Outcome ε σ) (fuel : Nat)
    (a : BitVec w) (s : σ) : Outcome ε σ :=
  loop (fun (a, s) =>
    if a < limit then do
      let s ← body a s
      ok (.next (a + step, s))
    else ok (.leave s)) fuel (a, s)

/-- The invariant rule of a loop that steps through addresses. -/
theorem forStep_inv {w : Nat} {step limit a : BitVec w} {body : BitVec w → σ → Outcome ε σ}
    {fuel : Nat} {s s' : σ} (I : σ → Prop) (hstep : ∀ a t t', I t → body a t = ok t' → I t')
    (hs : I s) (h : forStep step limit body fuel a s = ok s') : I s' := by
  refine loop_inv (I := fun t : BitVec w × σ => I t.2) (Q := I) ?_ ?_ hs h
  · rintro ⟨a, t⟩ t' ht hturn
    dsimp only at hturn
    split at hturn
    · obtain ⟨u, hu, hr⟩ := bind_eq_ok.mp hturn
      cases hr
      exact hstep a t u ht hu
    · cases hturn
  · rintro ⟨a, t⟩ b ht hturn
    dsimp only at hturn
    split at hturn
    · obtain ⟨u, _, hr⟩ := bind_eq_ok.mp hturn
      cases hr
    · cases hturn
      exact ht

/-- Where the steps up to the limit do not wrap, the loop counts them. -/
theorem forStep_eq {w : Nat} {step limit a : BitVec w} (body : BitVec w → σ → Outcome ε σ)
    {n fuel : Nat} (hfuel : n < fuel) (hwrap : a.toNat + n * step.toNat < 2 ^ w)
    (hbelow : ∀ i < n, a.toNat + i * step.toNat < limit.toNat)
    (hlimit : limit.toNat ≤ a.toNat + n * step.toNat) (s : σ) :
    forStep step limit body fuel a s =
      forRange n (fun i => body (a + BitVec.ofNat w i * step)) s := by
  induction n generalizing a s fuel with
  | zero =>
    obtain ⟨fuel, rfl⟩ : ∃ k, fuel = k + 1 := ⟨fuel - 1, by omega⟩
    have hnot : ¬ a < limit := by
      rw [BitVec.lt_def]
      omega
    exact loop_leave (by simp only [if_neg hnot])
  | succ n ih =>
    obtain ⟨fuel, rfl⟩ : ∃ k, fuel = k + 1 := ⟨fuel - 1, by omega⟩
    have hlt : a < limit := by
      have := hbelow 0 (Nat.succ_pos n)
      rw [BitVec.lt_def]
      omega
    rw [forRange_succ_left]
    simp only [BitVec.zero_mul, BitVec.add_zero]
    have hmul : ∀ i, (i + 1) * step.toNat = step.toNat + i * step.toNat := fun i => by ring
    rw [hmul] at hwrap hlimit
    have hnext : (a + step).toNat = a.toNat + step.toNat := by
      rw [BitVec.toNat_add, Nat.mod_eq_of_lt (by omega)]
    cases hb : body a s with
    | ok t =>
      have hturn : ∀ i, a + step + BitVec.ofNat w i * step = a + BitVec.ofNat w (i + 1) * step := by
        intro i
        rw [BitVec.ofNat_add, BitVec.add_mul, BitVec.one_mul, BitVec.add_assoc,
          BitVec.add_comm step]
      have hfirst : (if a < limit then do
            let t ← body a s
            ok (Turn.next (a + step, t))
          else ok (.leave s)) = ok (.next (a + step, t)) := by
        rw [if_pos hlt, hb, bind_ok]
      rw [forStep, loop_next hfirst, bind_ok]
      simp only [← hturn]
      refine ih (by omega) (by omega) (fun i hi => ?_) (by omega) t
      have := hbelow (i + 1) (by omega)
      rw [hmul] at this
      omega
    | stop e => simp [forStep, loop, hlt, hb]
    | spin => simp [forStep, loop, hlt, hb]

end Program
