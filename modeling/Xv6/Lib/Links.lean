import Mathlib

/-!
# Singly linked lists

A singly linked list is a successor function `next` on nodes: `Linked next l e` says that the
pointers lead from node to node of `l` and from the last one to `e`.  A circular list is a list
linked to its own head; it may be entered at any of its nodes (`Linked.rotate`), and each of its
nodes has one predecessor (`Linked.pred_unique`).
-/

namespace Xv6

variable {α : Type*}

/-- Following `next` from the head of `l` visits `l` and ends at `e`. -/
def Linked (next : α → α) : List α → α → Prop
  | [], _ => True
  | x :: xs, e => next x = xs.headD e ∧ Linked next xs e

variable {next next' : α → α} {l xs ys : List α} {x y e d : α}

@[simp] lemma linked_nil : Linked next [] e := trivial

@[simp] lemma linked_cons : Linked next (x :: xs) e ↔ next x = xs.headD e ∧ Linked next xs e :=
  Iff.rfl

lemma headD_append (xs ys : List α) (e : α) : (xs ++ ys).headD e = xs.headD (ys.headD e) := by
  cases xs <;> rfl

/-- The links of a concatenation are those of its parts, the first part leading to the second. -/
lemma linked_append : Linked next (xs ++ ys) e ↔
    Linked next xs (ys.headD e) ∧ Linked next ys e := by
  induction xs with
  | nil => simp
  | cons x xs ih => simp only [List.cons_append, linked_cons, headD_append, ih, and_assoc]

/-- The links depend on the pointers of the nodes only. -/
lemma Linked.congr (h : Linked next l e) (hn : ∀ a ∈ l, next' a = next a) : Linked next' l e := by
  induction l with
  | nil => trivial
  | cons a l ih =>
    refine ⟨(hn a List.mem_cons_self).trans h.1, ih h.2 fun b hb => hn b ?_⟩
    exact List.mem_cons_of_mem _ hb

/-- A circular list may be entered at any node. -/
lemma Linked.rotate (h : Linked next (xs ++ ys) ((xs ++ ys).headD d)) :
    Linked next (ys ++ xs) ((ys ++ xs).headD d) := by
  cases xs with
  | nil => simpa using h
  | cons x xs =>
    cases ys with
    | nil => simpa using h
    | cons y ys =>
      obtain ⟨hx, hy⟩ := linked_append.mp h
      exact linked_append.mpr ⟨hy, hx⟩

/-- In a list without repetitions that leads back to its head, a node other than the head has one
predecessor. -/
lemma Linked.pred_unique (xs ys : List α)
    (h : Linked next (xs ++ x :: y :: ys) ((xs ++ [x]).headD e))
    (hnd : (xs ++ x :: y :: ys).Nodup) {z : α} (hz : z ∈ xs ++ x :: y :: ys)
    (hzy : next z = y) : z = x := by
  obtain ⟨as, bs, hsplit⟩ := List.append_of_mem hz
  rw [hsplit] at h hnd
  have hnext : bs.headD ((xs ++ [x]).headD e) = y := (linked_append.mp h).2.1.symm.trans hzy
  cases bs with
  | nil =>
    -- the end of the list is its head, which is not `y`
    exfalso
    have hmem : y ∈ xs ++ [x] := by
      rw [← hnext]
      cases xs <;> simp
    rw [← hsplit] at hnd
    have hd := (List.nodup_append.mp (show ((xs ++ [x]) ++ y :: ys).Nodup by simpa using hnd)).2.2
    exact hd y hmem y List.mem_cons_self rfl
  | cons b bs =>
    obtain rfl : b = y := hnext
    -- both `z` and `x` stand just before the one occurrence of `b`
    have h₁ : (as ++ [z]) ++ b :: bs = (xs ++ [x]) ++ b :: ys := by simpa using hsplit.symm
    have hnd' : ((as ++ [z]) ++ b :: bs).Nodup := by simpa using hnd
    have hb₁ : b ∉ as ++ [z] := fun hb =>
      (List.nodup_append.mp hnd').2.2 b hb b List.mem_cons_self rfl
    have hb₂ : b ∉ bs := (List.nodup_cons.mp (List.nodup_append.mp hnd').2.1).1
    obtain ⟨heq, -, -⟩ := (List.append_cons_inj_of_notMem hb₁ hb₂).mp h₁
    simpa using congrArg List.getLast? heq

end Xv6
