import Xv6.Fs.Dir

/-!
# Paths

`skipelem` takes a path apart into its elements: what is between the slashes, cut off after `DIRSIZ`
characters.  `namex` follows the elements through the directories; `resolve` and `resolveParent` say
where they lead in an image.
-/

namespace Xv6

open List

/-- The elements of a path, which are not empty. -/
def components (path : List Byte) : List (List Byte) := (path.splitOn slash).filter (· ≠ [])

/-- The elements of a path, as names in directories. -/
def elements (path : List Byte) : List (List Byte) := (components path).map (·.take DIRSIZ)

/-- The characters of a C string. -/
def NoNul (path : List Byte) : Prop := ∀ c ∈ path, c ≠ 0

instance : DecidablePred NoNul := fun path => inferInstanceAs (Decidable (∀ c ∈ path, c ≠ 0))

section Split

variable {path cs : List Byte} {c : Byte}

lemma components_nil : components [] = [] := by
  simp [components, splitOn_eq_splitOnP, splitOnP_nil]

lemma components_slash (path : List Byte) : components (slash :: path) = components path := by
  simp [components, splitOn_eq_splitOnP, splitOnP_cons_eq_if_modifyHead]

/-- Slashes at the start do not count. -/
lemma components_dropWhile (path : List Byte) :
    components (path.dropWhile (· = slash)) = components path := by
  induction path with
  | nil => rfl
  | cons c cs ih =>
    by_cases hc : c = slash
    · rw [dropWhile_cons_of_pos (by simpa using hc), ih, hc, components_slash]
    · rw [dropWhile_cons_of_neg (by simpa using hc)]

lemma components_append {s rest : List Byte} (hne : s ≠ []) (hno : ∀ x ∈ s, x ≠ slash)
    (hrest : ∀ x ∈ rest.head?, x = slash) : components (s ++ rest) = s :: components rest := by
  have hno' : ∀ x ∈ s, (x == slash) = false := fun x hx => by simpa using hno x hx
  cases rest with
  | nil =>
    rw [append_nil, components_nil, components, splitOn_eq_splitOnP,
      splitOnP_eq_singleton hno']
    simp [hne]
  | cons x xs =>
    obtain rfl : x = slash := hrest x rfl
    rw [components_slash, components, splitOn_eq_splitOnP,
      splitOnP_append_cons_of_forall_mem hno' slash (by simp)]
    simp [hne, components, splitOn_eq_splitOnP]

/-- The first element ends at the next slash. -/
lemma components_cons (hc : c ≠ slash) (cs : List Byte) : components (c :: cs) =
    (c :: cs).takeWhile (· ≠ slash) :: components ((c :: cs).dropWhile (· ≠ slash)) := by
  conv_lhs => rw [← takeWhile_append_dropWhile (p := (· ≠ slash)) (l := c :: cs)]
  refine components_append ?_ (fun x hx => by simpa using mem_takeWhile_imp hx) fun x hx => ?_
  · rw [takeWhile_cons_of_pos (by simpa using hc)]
    exact cons_ne_nil _ _
  · have hhead := List.head?_dropWhile_not (fun x => decide (x ≠ slash)) (c :: cs)
    rw [Option.mem_def.mp hx] at hhead
    simpa using hhead

end Split

/-- A string in memory, cut off after `n` characters. -/
lemma cstring_eq_take {f : Bytes} {l : List Byte} (n o : ℕ) (hno : NoNul l)
    (hf : ∀ i < l.length, i < n → f (o + i) = l.getD i 0) (hend : l.length < n → f (o + l.length) = 0) :
    cstring f o n = l.take n := by
  induction l generalizing n o with
  | nil =>
    cases n with
    | zero => rfl
    | succ n =>
      have h0 : f o = 0 := hend (Nat.succ_pos n)
      rw [cstring_succ, if_neg (not_not.mpr h0), take_nil]
  | cons c cs ih =>
    cases n with
    | zero => rfl
    | succ n =>
      have h0 : f o = c := hf 0 (Nat.succ_pos _) (Nat.succ_pos n)
      have hc : f o ≠ 0 := h0 ▸ hno c mem_cons_self
      rw [cstring_succ, if_pos hc, take_succ_cons, h0]
      congr 1
      refine ih n (o + 1) (fun x hx => hno x (mem_cons_of_mem _ hx)) (fun i hi hin => ?_)
        fun hlen => ?_
      · have := hf (i + 1) (Nat.succ_lt_succ hi) (Nat.succ_lt_succ hin)
        rwa [← Nat.add_assoc, Nat.add_right_comm] at this
      · have := hend (Nat.succ_lt_succ hlen)
        rwa [length_cons, ← Nat.add_assoc, Nat.add_right_comm] at this

/-- The name that `skipelem` leaves. -/
lemma cname_skipelem {s : List Byte} (name : Bytes) (hno : NoNul s) :
    cname (if s.length ≥ DIRSIZ then name.blit 0 (cbytes s) 0 DIRSIZ
      else Function.update (name.blit 0 (cbytes s) 0 s.length) s.length 0) = s.take DIRSIZ := by
  refine cstring_eq_take DIRSIZ 0 hno (fun i hi hin => ?_) fun hlen => ?_
  · rw [Nat.zero_add]
    split
    · rw [Bytes.blit_of_mem (by omega), Nat.zero_add, Nat.sub_zero]
      rfl
    · rw [Function.update_of_ne (by omega), Bytes.blit_of_mem (by omega), Nat.zero_add, Nat.sub_zero]
      rfl
  · rw [if_neg (by omega), Nat.zero_add, Function.update_self]

/-- What `skipelem` does to a path: nothing if there are no elements, and otherwise it takes the first
one. -/
lemma skipelem_spec {path : List Byte} (name : Bytes) (hno : NoNul path) :
    match skipelem path name with
    | none => elements path = []
    | some (rest, name') => elements path = cname name' :: elements rest ∧
        (rest = [] ↔ elements rest = []) ∧ rest.length < path.length ∧ NoNul rest := by
  have hdrop := components_dropWhile path
  have hsub : (path.dropWhile (· = slash)).Sublist path := dropWhile_sublist _
  have hhead := List.head?_dropWhile_not (fun x => decide (x = slash)) path
  unfold skipelem
  cases hpath : path.dropWhile (· = slash) with
  | nil =>
    dsimp only
    rw [elements, ← hdrop, hpath, components_nil, map_nil]
  | cons c cs =>
    rw [hpath] at hdrop hsub hhead
    have hc : c ≠ slash := by simpa using hhead
    have hcomp := components_cons hc cs
    have htake : NoNul ((c :: cs).takeWhile (· ≠ slash)) := fun x hx =>
      hno x (hsub.subset ((takeWhile_sublist _).subset hx))
    have hrest : ((c :: cs).dropWhile (· ≠ slash)).length ≤ cs.length := by
      rw [dropWhile_cons_of_pos (by simpa using hc)]
      exact (dropWhile_sublist _).length_le
    have hrest' := (dropWhile_sublist (l := (c :: cs).dropWhile (· ≠ slash)) (· = slash)).length_le
    have hlen := hsub.length_le
    rw [length_cons] at hlen
    dsimp only
    refine ⟨?_, ?_, by omega, fun x hx => ?_⟩
    · rw [cname_skipelem name htake, elements, ← hdrop, hcomp, map_cons, elements,
        components_dropWhile]
    · have hhead' := List.head?_dropWhile_not (fun x => decide (x = slash))
        ((c :: cs).dropWhile (· ≠ slash))
      generalize ((c :: cs).dropWhile (· ≠ slash)).dropWhile (· = slash) = rest at hhead' ⊢
      cases rest with
      | nil => exact iff_of_true rfl (by rw [elements, components_nil, map_nil])
      | cons d ds =>
        have hd : d ≠ slash := by simpa using hhead'
        refine iff_of_false (cons_ne_nil _ _) ?_
        rw [elements, components_cons hd _, map_cons]
        exact cons_ne_nil _ _
    · refine hno x (hsub.subset ?_)
      exact (dropWhile_sublist _).subset ((dropWhile_sublist _).subset hx)

/-- `skipelem` over and over: each name, and the rest of the path after it. -/
def skipelems : ℕ → List Byte → Bytes → List (Bytes × List Byte)
  | 0, _, _ => []
  | n + 1, path, name =>
    match skipelem path name with
    | none => []
    | some (rest, name') => (name', rest) :: skipelems n rest name'

/-- The names are the elements of the path, and the rest is empty at the last one. -/
lemma skipelems_spec (n : ℕ) {path : List Byte} (name : Bytes) (hno : NoNul path)
    (hn : path.length < n) : (skipelems n path name).map (fun e => cname e.1) = elements path ∧
      ∀ i (hi : i < (skipelems n path name).length),
        (skipelems n path name)[i].2 = [] ↔ i + 1 = (skipelems n path name).length := by
  induction n generalizing path name with
  | zero => omega
  | succ n ih =>
    have hspec := skipelem_spec name hno
    rw [skipelems]
    cases hskip : skipelem path name with
    | none =>
      rw [hskip] at hspec
      exact ⟨hspec.symm, fun i hi => absurd hi (Nat.not_lt_zero i)⟩
    | some e =>
      obtain ⟨rest, name'⟩ := e
      rw [hskip] at hspec
      obtain ⟨helem, hempty, hlen, hno'⟩ := hspec
      obtain ⟨ih₁, ih₂⟩ := ih name' hno' (by omega)
      refine ⟨by rw [map_cons, ih₁, helem], fun i hi => ?_⟩
      cases i with
      | zero =>
        have hzero : (skipelems n rest name').length = 0 ↔ elements rest = [] := by
          rw [← ih₁, map_eq_nil_iff, length_eq_zero_iff]
        simp only [getElem_cons_zero, length_cons, hempty, ← hzero]
        omega
      | succ i =>
        have := ih₂ i (by simpa using hi)
        simp only [getElem_cons_succ, length_cons, this]
        omega

end Xv6
