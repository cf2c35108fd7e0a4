import Mathlib

/-!
# Runs of a labelled transition system

A system is a partial step function `step : σ → α → Option σ` on states and labels; a run is a
list of labels.  `run_invariant` is the induction behind every safety proof, and `StepsOk` names
the runs all of whose steps meet a condition on the state before the step and its label.
-/

namespace Xv6

variable {σ α : Type*} {step : σ → α → Option σ}

/-- The state a run ends in, if all of its steps are enabled. -/
def run (step : σ → α → Option σ) : σ → List α → Option σ
  | s, [] => some s
  | s, a :: as => (step s a).bind fun s' => run step s' as

@[simp] lemma run_nil (s : σ) : run step s [] = some s := rfl

lemma run_cons_eq_some {s s' : σ} {a : α} {as : List α} :
    run step s (a :: as) = some s' ↔ ∃ t, step s a = some t ∧ run step t as = some s' := by
  simp [run, Option.bind_eq_some_iff]

lemma run_append_eq_some {s s' : σ} {as bs : List α} :
    run step s (as ++ bs) = some s' ↔
      ∃ t, run step s as = some t ∧ run step t bs = some s' := by
  induction as generalizing s with
  | nil => simp
  | cons a as ih =>
    simp only [List.cons_append, run_cons_eq_some, ih]
    constructor
    · rintro ⟨t, ht, u, hu, hs⟩
      exact ⟨u, ⟨t, ht, hu⟩, hs⟩
    · rintro ⟨u, ⟨t, ht, hu⟩, hs⟩
      exact ⟨t, ht, u, hu, hs⟩

/-- The state a run ends in, as a value that can be computed with; the start if some step is not
enabled. -/
def after (step : σ → α → Option σ) (s : σ) (as : List α) : σ := (run step s as).getD s

lemma run_eq_some_after (step : σ → α → Option σ) (s : σ) (as : List α) (h : (run step s as).isSome) :
    run step s as = some (after step s as) := by
  obtain ⟨t, ht⟩ := Option.isSome_iff_exists.mp h
  rw [after, ht, Option.getD_some]

lemma step_eq_some_after (step : σ → α → Option σ) (s : σ) (a : α) (h : (run step s [a]).isSome) :
    step s a = some (after step s [a]) := by
  obtain ⟨t, ht, hnil⟩ := run_cons_eq_some.mp (run_eq_some_after step s [a] h)
  exact ht.trans hnil

/-- All steps of a run meet the condition `ok`. -/
def StepsOk (step : σ → α → Option σ) (ok : σ → α → Prop) : σ → List α → Prop
  | _, [] => True
  | s, a :: as => ok s a ∧ ∀ s', step s a = some s' → StepsOk step ok s' as

lemma StepsOk.cons {ok : σ → α → Prop} {s t : σ} {a : α} {as : List α}
    (hstep : step s a = some t) (ha : ok s a) (h : StepsOk step ok t as) :
    StepsOk step ok s (a :: as) := by
  refine ⟨ha, fun s' hs' => ?_⟩
  obtain rfl : t = s' := Option.some.inj (hstep.symm.trans hs')
  exact h

/-- Whether a run meets a decidable condition can be computed along the run. -/
instance StepsOk.decidable {ok : σ → α → Prop} [∀ s a, Decidable (ok s a)] :
    ∀ (s : σ) (as : List α), Decidable (StepsOk step ok s as)
  | _, [] => isTrue trivial
  | s, a :: as =>
    match h : step s a with
    | none => decidable_of_iff (ok s a) (by simp [StepsOk, h])
    | some t =>
      have : Decidable (StepsOk step ok t as) := StepsOk.decidable t as
      decidable_of_iff (ok s a ∧ StepsOk step ok t as) (by simp [StepsOk, h])

/-- A run that can be taken, all of whose steps meet `ok`, and that ends in a state with `P`. -/
def RunsTo (step : σ → α → Option σ) (ok : σ → α → Prop) (P : σ → Prop) : σ → List α → Prop
  | s, [] => P s
  | s, a :: as => ok s a ∧ ∃ t, step s a = some t ∧ RunsTo step ok P t as

instance RunsTo.decidable {ok : σ → α → Prop} {P : σ → Prop} [∀ s a, Decidable (ok s a)]
    [DecidablePred P] : ∀ (s : σ) (as : List α), Decidable (RunsTo step ok P s as)
  | s, [] => inferInstanceAs (Decidable (P s))
  | s, a :: as =>
    match h : step s a with
    | none => isFalse (by simp [RunsTo, h])
    | some t =>
      have : Decidable (RunsTo step ok P t as) := RunsTo.decidable t as
      decidable_of_iff (ok s a ∧ RunsTo step ok P t as) (by simp [RunsTo, h])

/-- One computation along the run settles all three. -/
lemma RunsTo.exists_run {ok : σ → α → Prop} {P : σ → Prop} {s : σ} {as : List α}
    (h : RunsTo step ok P s as) : ∃ t, run step s as = some t ∧ StepsOk step ok s as ∧ P t := by
  induction as generalizing s with
  | nil => exact ⟨s, rfl, trivial, h⟩
  | cons a as ih =>
    obtain ⟨hok, t, ht, hrest⟩ := h
    obtain ⟨u, hrun, hsteps, hu⟩ := ih hrest
    exact ⟨u, run_cons_eq_some.mpr ⟨t, ht, hrun⟩, .cons ht hok hsteps, hu⟩

lemma StepsOk.of_mem {p : α → Prop} {s : σ} {as : List α} (h : ∀ a ∈ as, p a) :
    StepsOk step (fun _ a => p a) s as := by
  induction as generalizing s with
  | nil => trivial
  | cons a as ih =>
    exact ⟨h a List.mem_cons_self, fun t _ => ih fun b hb => h b (List.mem_cons_of_mem _ hb)⟩

lemma StepsOk.imp {ok ok' : σ → α → Prop} {s : σ} {as : List α} (h : StepsOk step ok s as)
    (himp : ∀ s a, ok s a → ok' s a) : StepsOk step ok' s as := by
  induction as generalizing s with
  | nil => trivial
  | cons a as ih => exact ⟨himp s a h.1, fun t ht => ih (h.2 t ht)⟩

/-- A run meets two conditions if it meets each of them. -/
lemma StepsOk.and {ok ok' : σ → α → Prop} {s : σ} {as : List α} (h : StepsOk step ok s as)
    (h' : StepsOk step ok' s as) : StepsOk step (fun s a => ok s a ∧ ok' s a) s as := by
  induction as generalizing s with
  | nil => trivial
  | cons a as ih => exact ⟨⟨h.1, h'.1⟩, fun t ht => ih (h.2 t ht) (h'.2 t ht)⟩

/-- A property that steps under a condition preserve holds after every run that meets it. -/
theorem run_invariant_of_stepsOk {ok : σ → α → Prop} {I : σ → Prop}
    (hstep : ∀ s a s', I s → ok s a → step s a = some s' → I s')
    {s s' : σ} {as : List α} (hs : I s) (hok : StepsOk step ok s as)
    (hrun : run step s as = some s') : I s' := by
  induction as generalizing s with
  | nil =>
    obtain rfl : s = s' := Option.some.inj hrun
    exact hs
  | cons a as ih =>
    obtain ⟨t, ht, hrun⟩ := run_cons_eq_some.mp hrun
    exact ih (hstep s a t hs hok.1 ht) (hok.2 t ht) hrun

/-- A property that every step preserves holds after every run. -/
theorem run_invariant {I : σ → Prop} (hstep : ∀ s a s', I s → step s a = some s' → I s')
    {s s' : σ} {as : List α} (hs : I s) (hrun : run step s as = some s') : I s' :=
  run_invariant_of_stepsOk (fun s a s' hs (_ : True) => hstep s a s' hs) hs
    (.of_mem fun _ _ => trivial) hrun

/-- A property that the steps with the labels of a list preserve holds after a run over it. -/
theorem run_invariant_of_mem {I : σ → Prop} {as : List α}
    (hstep : ∀ s, ∀ a ∈ as, ∀ s', I s → step s a = some s' → I s')
    {s s' : σ} (hs : I s) (hrun : run step s as = some s') : I s' :=
  run_invariant_of_stepsOk (fun s a s' hs (ha : a ∈ as) => hstep s a ha s' hs) hs
    (.of_mem fun _ ha => ha) hrun

/-- A system that another one simulates step by step is simulated in every run. -/
theorem run_simulation {τ : Type*} {step' : τ → α → Option τ} {R : σ → τ → Prop} {ok : α → Prop}
    (hstep : ∀ s b a s', R s b → ok a → step s a = some s' → ∃ b', step' b a = some b' ∧ R s' b')
    {s s' : σ} {b : τ} {as : List α} (h : R s b) (hok : ∀ a ∈ as, ok a)
    (hrun : run step s as = some s') : ∃ b', run step' b as = some b' ∧ R s' b' := by
  induction as generalizing s b with
  | nil => exact ⟨b, rfl, Option.some.inj hrun ▸ h⟩
  | cons a as ih =>
    obtain ⟨t, ht, hrest⟩ := run_cons_eq_some.mp hrun
    obtain ⟨b₁, hb₁, h₁⟩ := hstep s b a t h (hok a List.mem_cons_self) ht
    obtain ⟨b₂, hb₂, h₂⟩ := ih h₁ (fun x hx => hok x (List.mem_cons_of_mem _ hx)) hrest
    exact ⟨b₂, run_cons_eq_some.mpr ⟨b₁, hb₁, hb₂⟩, h₂⟩

/-- A step often changes one component of a family.  What the new component has in common with the
old one is as before in every component. -/
lemma proj_update {ι β γ : Type*} [DecidableEq ι] (f : β → γ) {g : ι → β} {i : ι} {x : β}
    (hx : f x = f (g i)) (j : ι) : f (Function.update g i x j) = f (g j) :=
  (Function.forall_update_iff g fun j y => f y = f (g j)).mpr ⟨hx, fun _ _ => rfl⟩ j

/-- What a search through a table finds. -/
lemma find_range {n i : ℕ} {c : ℕ → Bool} (h : (List.range n).find? c = some i) :
    i < n ∧ c i = true :=
  ⟨List.mem_range.mp (List.mem_of_find?_eq_some h), List.find?_some h⟩

end Xv6
