import Mathlib

/-!
# Programs with state and faults

Kernel code is modelled in the monad `StateT σ (Except ε)`: it reads and changes a state, and it
may stop with a fault.  `wp x Q E s` says what running `x` from `s` leads to: to `Q`, if it returns,
and to a fault in `E` otherwise.  A specification that allows no fault has `E = fun _ => False`,
abbreviated `Returns`.

The rules below take a program apart along its `do` block.  They are equivalences where possible,
so that `simp` can use them; `wp.mono` and `wp.bind` are the rules with which the specification of
a callee is used.
-/

namespace Xv6

variable {σ ε α β : Type}

/-- The weakest precondition of `x` for the postcondition `Q` and the faults `E`. -/
def wp (x : StateT σ (Except ε) α) (Q : α → σ → Prop) (E : ε → Prop) (s : σ) : Prop :=
  match x s with
  | .ok (a, s') => Q a s'
  | .error e => E e

/-- The program returns, in a state and with a result that meet `Q`. -/
abbrev Returns (x : StateT σ (Except ε) α) (Q : α → σ → Prop) (s : σ) : Prop :=
  wp x Q (fun _ => False) s

variable {Q Q' : α → σ → Prop} {E E' : ε → Prop} {s : σ}

variable {x y : StateT σ (Except ε) α} {s' : σ} {c : Prop}

lemma wp_of_eq_ok {a : α} (h : x s = .ok (a, s')) (hq : Q a s') : wp x Q E s := by
  rw [wp, h]
  exact hq

lemma wp.mono (h : wp x Q E s) (hq : ∀ a s', Q a s' → Q' a s')
    (he : ∀ e, E e → E' e) : wp x Q' E' s := by
  unfold wp at h ⊢
  split at h
  · exact hq _ _ h
  · exact he _ h

lemma wp.imp (h : wp x Q E s) (hq : ∀ a s', Q a s' → Q' a s') :
    wp x Q' E s := h.mono hq fun _ => id

/-- Two specifications of one program. -/
lemma wp.and (h : wp x Q E s) (h' : wp x Q' E' s) :
    wp x (fun a s' => Q a s' ∧ Q' a s') (fun e => E e ∧ E' e) s := by
  unfold wp at h h' ⊢
  generalize x s = r at h h' ⊢
  rcases r with e | ⟨a, s'⟩ <;> exact ⟨h, h'⟩

lemma wp_trivial (x : StateT σ (Except ε) α) : wp x (fun _ _ => True) (fun _ => True) s := by
  unfold wp
  split <;> trivial

lemma wp.of_eq_ok {a : α} (h : wp x Q E s) (hx : x s = .ok (a, s')) : Q a s' := by
  rw [wp, hx] at h
  exact h

lemma wp.of_eq_error {e : ε} (h : wp x Q E s) (hx : x s = .error e) : E e := by
  rw [wp, hx] at h
  exact h

lemma bind_eq_ok {x : Except ε α} {f : α → Except ε β} {b : β} :
    x.bind f = .ok b ↔ ∃ a, x = .ok a ∧ f a = .ok b := by
  cases x <;> simp [Except.bind]

lemma Returns.exists_eq (h : Returns x Q s) :
    ∃ a s', x s = .ok (a, s') ∧ Q a s' := by
  unfold Returns wp at h
  split at h
  · exact ⟨_, _, ‹_›, h⟩
  · exact h.elim

/-- A program that returns meets what is known of it whenever it does. -/
lemma Returns.and (h : Returns x Q s) (h' : wp x Q' (fun _ => True) s) :
    Returns x (fun a s' => Q a s' ∧ Q' a s') s :=
  (wp.and h h').mono (fun _ _ => id) fun _ he => he.1

/-- A program that returns does so in one way. -/
lemma Returns.with_run (h : Returns x Q s) :
    Returns x (fun a s' => Q a s' ∧ x s = .ok (a, s')) s := by
  obtain ⟨a, s', hx, hQ⟩ := h.exists_eq
  exact wp_of_eq_ok hx ⟨hQ, hx⟩

/-! ## The rules -/

@[simp] lemma wp_pure (a : α) : wp (pure a : StateT σ (Except ε) α) Q E s ↔ Q a s := Iff.rfl

@[simp] lemma wp_bind (x : StateT σ (Except ε) α) (f : α → StateT σ (Except ε) β)
    {Q : β → σ → Prop} :
    wp (x >>= f) Q E s ↔ wp x (fun a s' => wp (f a) Q E s') E s := by
  have hrun : (x >>= f) s = match x s with
      | .ok (a, s') => f a s'
      | .error e => .error e := by
    change (x s >>= fun p => f p.1 p.2) = _
    cases x s <;> rfl
  unfold wp
  rw [hrun]
  cases x s <;> rfl

/-- Use the specification of the first program of a sequence. -/
lemma wp.bind {f : α → StateT σ (Except ε) β} {P : α → σ → Prop}
    {Q : β → σ → Prop} (h : wp x P E s) (hf : ∀ a s', P a s' → wp (f a) Q E s') :
    wp (x >>= f) Q E s := (wp_bind x f).mpr (h.imp hf)

/-- A callee that cannot fault does not need the caller's faults. -/
lemma Returns.wp (h : Returns x Q s) : Xv6.wp x Q E s :=
  h.mono (fun _ _ => id) fun _ => False.elim

@[simp] lemma wp_map (x : StateT σ (Except ε) α) (f : α → β) {Q : β → σ → Prop} :
    wp (f <$> x) Q E s ↔ wp x (fun a s' => Q (f a) s') E s := by
  rw [← bind_pure_comp, wp_bind]
  rfl

@[simp] lemma wp_get {Q : σ → σ → Prop} :
    wp (get : StateT σ (Except ε) σ) Q E s ↔ Q s s := Iff.rfl

@[simp] lemma wp_set {Q : PUnit → σ → Prop} (s' : σ) :
    wp (set s' : StateT σ (Except ε) PUnit) Q E s ↔ Q ⟨⟩ s' := Iff.rfl

@[simp] lemma wp_modify {Q : PUnit → σ → Prop} (f : σ → σ) :
    wp (modify f : StateT σ (Except ε) PUnit) Q E s ↔ Q ⟨⟩ (f s) := Iff.rfl

@[simp] lemma wp_throw (e : ε) : wp (throw e : StateT σ (Except ε) α) Q E s ↔ E e := Iff.rfl

lemma wp_ite [Decidable c] :
    wp (if c then x else y) Q E s ↔ (c → wp x Q E s) ∧ (¬c → wp y Q E s) := by
  by_cases hc : c <;> simp [hc]

lemma wp_ite_pos [Decidable c] (hc : c) :
    wp (if c then x else y) Q E s ↔ wp x Q E s := by rw [if_pos hc]

lemma wp_ite_neg [Decidable c] (hc : ¬c) :
    wp (if c then x else y) Q E s ↔ wp y Q E s := by rw [if_neg hc]

end Xv6
