import Mathlib

/-!
# Rings

A circular doubly linked list through a head node, as two functions `next` and `prev`.  `IsRing`
says which list of nodes the pointers stand for; taking a node out and putting one in at the front
are equations on that list, and walking along the pointers from the head is a search in it.
-/

namespace Xv6

open Function List

variable {α : Type*}

/-- The pointers lead from `h` through the nodes of `l` back to `h`, and back. -/
structure IsRing (next prev : α → α) (h : α) (l : List α) : Prop where
  nodup : (h :: l).Nodup
  links : (h :: (l ++ [h])).IsChain fun a b => next a = b ∧ prev b = a

namespace IsRing

variable {next prev next' prev' : α → α} {h x : α} {l l₁ l₂ : List α}

/-- Read backwards, the ring is a ring. -/
lemma reverse (hr : IsRing next prev h l) : IsRing prev next h l.reverse := by
  refine ⟨by simpa using hr.nodup, ?_⟩
  have hrev : (h :: (l.reverse ++ [h])) = (h :: (l ++ [h])).reverse := by simp
  rw [hrev, isChain_reverse]
  exact hr.links.imp fun a b hab => hab.symm

section

variable (hr : IsRing next prev h (l₁ ++ x :: l₂))
include hr

lemma notMem : x ∉ h :: l₁ ∧ x ∉ l₂ ++ [h] := by
  have hnodup := hr.nodup
  rw [← cons_append, nodup_append] at hnodup
  obtain ⟨-, hn, hd⟩ := hnodup
  refine ⟨fun hmem => hd x hmem x mem_cons_self rfl, fun hmem => ?_⟩
  rcases mem_append.mp hmem with hmem | hmem
  · exact (nodup_cons.mp hn).1 hmem
  · exact hd h mem_cons_self x mem_cons_self (mem_singleton.mp hmem).symm

/-- The nodes before and behind a node. -/
lemma next_prev : ∃ A a b B, h :: l₁ = A ++ [a] ∧ l₂ ++ [h] = b :: B ∧ prev x = a ∧ next x = b := by
  obtain ⟨A, a, hA⟩ : ∃ A a, h :: l₁ = A ++ [a] := by
    rcases eq_nil_or_concat (h :: l₁) with hnil | ⟨A, a, hA⟩
    · exact absurd hnil (by simp)
    · exact ⟨A, a, by simpa using hA⟩
  obtain ⟨b, B, hB⟩ : ∃ b B, l₂ ++ [h] = b :: B := by
    cases l₂ with
    | nil => exact ⟨h, [], rfl⟩
    | cons b B => exact ⟨b, B ++ [h], rfl⟩
  have hlinks := hr.links
  rw [append_assoc, cons_append, hB, ← cons_append, hA, append_assoc,
    singleton_append, isChain_append_cons_cons, isChain_cons_cons] at hlinks
  exact ⟨A, a, b, B, hA, hB, hlinks.2.1.2, hlinks.2.2.1.1⟩

lemma next_ne : next x ≠ x := by
  obtain ⟨-, -, b, B, -, hB, -, hb⟩ := hr.next_prev
  intro heq
  refine hr.notMem.2 ?_
  rw [hB, ← hb, heq]
  exact mem_cons_self

end

variable [DecidableEq α]

/-- Taking a node out. -/
lemma unlink (hr : IsRing next prev h (l₁ ++ x :: l₂)) :
    IsRing (update next (prev x) (next x)) (update prev (next x) (prev x)) h
      (l₁ ++ l₂) := by
  obtain ⟨A, a, b, B, hA, hB, ha, hb⟩ := hr.next_prev
  have hlinks := hr.links
  rw [append_assoc, cons_append, hB, ← cons_append, hA, append_assoc,
    singleton_append, isChain_append_cons_cons, isChain_cons_cons] at hlinks
  obtain ⟨hfirst, hax, hxb, hrest⟩ := hlinks
  have hnodup := hr.nodup
  obtain ⟨hx₁, hx₂⟩ := hr.notMem
  rw [hA] at hx₁
  rw [hB] at hx₂
  -- A link that touches neither changed pointer stays: its ends are not `x`.
  have hkeep : ∀ {c : List α}, x ∉ c → c.IsChain (fun a b => next a = b ∧ prev b = a) →
      c.IsChain fun u v => update next (prev x) (next x) u = v ∧
        update prev (next x) (prev x) v = u := by
    intro c hc hchain
    refine hchain.imp_of_mem_imp fun u v hu hv huv => ⟨?_, ?_⟩
    · rw [update_of_ne, huv.1]
      rintro rfl
      rw [ha, hax.1] at huv
      exact hc (huv.1 ▸ hv)
    · rw [update_of_ne, huv.2]
      rintro rfl
      rw [hb, hxb.2] at huv
      exact hc (huv.2 ▸ hu)
  refine ⟨?_, ?_⟩
  · rw [← cons_append]
    rw [← cons_append] at hnodup
    exact hnodup.sublist (Sublist.append_left (sublist_cons_self x l₂) _)
  · rw [append_assoc, hB, ← cons_append, hA, append_assoc, singleton_append,
      isChain_append_cons_cons]
    refine ⟨hkeep hx₁ hfirst, ⟨?_, ?_⟩, hkeep hx₂ hrest⟩
    · rw [ha, hb, update_self]
    · rw [ha, hb, update_self]

/-- Putting a node in behind the head. -/
lemma push (hr : IsRing next prev h l) (hx : x ∉ h :: l) :
    IsRing (update (update next x (next h)) h x)
      (update (update prev x h) (next h) x) h (x :: l) := by
  obtain ⟨b, B, hB⟩ : ∃ b B, l ++ [h] = b :: B := by
    cases l with
    | nil => exact ⟨h, [], rfl⟩
    | cons b B => exact ⟨b, B ++ [h], rfl⟩
  have hlinks := hr.links
  rw [hB, isChain_cons_cons] at hlinks
  obtain ⟨⟨hnh, hpb⟩, hrest⟩ := hlinks
  have hxh : x ≠ h := fun heq => hx (heq ▸ mem_cons_self)
  have hxB : x ∉ b :: B := by
    rw [← hB]
    simpa [or_comm] using hx
  have hnd : (b :: B).Nodup := by
    rw [← hB]
    exact nodup_append_comm.mp hr.nodup
  have hxb : x ≠ b := fun heq => hxB (heq ▸ mem_cons_self)
  refine ⟨?_, ?_⟩
  · refine nodup_cons.mpr ⟨?_, nodup_cons.mpr ⟨fun hm => hx (mem_cons_of_mem _ hm),
      (nodup_cons.mp hr.nodup).2⟩⟩
    rw [mem_cons, not_or]
    exact ⟨hxh.symm, (nodup_cons.mp hr.nodup).1⟩
  · rw [cons_append, hB, isChain_cons_cons, isChain_cons_cons, hnh]
    refine ⟨⟨update_self .., ?_⟩, ⟨?_, update_self ..⟩,
      hrest.imp_of_mem_tail_imp fun u v hu hv huv => ⟨?_, ?_⟩⟩
    · rw [update_of_ne hxb, update_self]
    · rw [update_of_ne hxh, update_self]
    · -- The head has no successor in the rest of the ring.
      have huh : u ≠ h := by
        rintro rfl
        rw [hnh] at huv
        exact (nodup_cons.mp hnd).1 (huv.1 ▸ hv)
      have hux : u ≠ x := fun heq => hxB (heq ▸ hu)
      rw [update_of_ne huh, update_of_ne hux, huv.1]
    · have hvb : v ≠ b := fun heq => (nodup_cons.mp hnd).1 (heq ▸ hv)
      have hvx : v ≠ x := fun heq => hxB (heq ▸ mem_of_mem_tail hv)
      rw [update_of_ne hvb, update_of_ne hvx, huv.2]

end IsRing

/-! ## Walks -/

section Walk

variable [DecidableEq α]

/-- Follow `step` from a node, at most `n` nodes far and not beyond `stop`, to the first node that
meets `p`. -/
def ringWalk (step : α → α) (stop : α) (p : α → Bool) : ℕ → α → Option α
  | 0, _ => none
  | n + 1, a => if a = stop then none else if p a then some a else ringWalk step stop p n (step a)

variable {next prev : α → α} {h : α} {l : List α}

lemma ringWalk_of_isChain {p : α → Bool} {n : ℕ} {a : α}
    (hl : (a :: (l ++ [h])).IsChain fun a b => next a = b ∧ prev b = a) (hh : h ∉ l)
    (hn : l.length < n) : ringWalk next h p n (next a) = l.find? p := by
  induction l generalizing a n with
  | nil =>
    obtain ⟨n, rfl⟩ : ∃ m, n = m + 1 := ⟨n - 1, by simp at hn; omega⟩
    rw [nil_append, isChain_cons_cons] at hl
    rw [ringWalk, if_pos hl.1.1, List.find?_nil]
  | cons b l ih =>
    obtain ⟨n, rfl⟩ : ∃ m, n = m + 1 := ⟨n - 1, by simp at hn; omega⟩
    rw [cons_append, isChain_cons_cons] at hl
    rw [mem_cons, not_or] at hh
    rw [ringWalk, hl.1.1, if_neg (Ne.symm hh.1), List.find?_cons]
    by_cases hp : p b = true
    · simp [hp]
    · rw [if_neg hp, ih hl.2 hh.2 (by simpa using hn)]
      simp [hp]

/-- Walking forward from the head finds the first node of the ring that meets `p`. -/
lemma IsRing.ringWalk_next (hr : IsRing next prev h l) (p : α → Bool) {n : ℕ} (hn : l.length < n) :
    ringWalk next h p n (next h) = l.find? p :=
  ringWalk_of_isChain hr.links (nodup_cons.mp hr.nodup).1 hn

/-- Walking backward from the head finds the last one. -/
lemma IsRing.ringWalk_prev (hr : IsRing next prev h l) (p : α → Bool) {n : ℕ} (hn : l.length < n) :
    ringWalk prev h p n (prev h) = l.reverse.find? p :=
  hr.reverse.ringWalk_next p (by simpa using hn)

end Walk

end Xv6
