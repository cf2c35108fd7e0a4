import Xv6.Vm.Basic

/-!
# When memory runs out

The functions of `kernel/vm.c` fail for lack of memory only if a call of `kalloc` has found none.
`Honest ok x m` says so of `x` run from `m`: if no call has been denied by the end, then none had
been before, and the result is `ok`.
-/

namespace Xv6

variable {α β : Type}

/-- Unless `kalloc` finds no memory on the way, the result of `x` is `ok`. -/
def Honest (ok : α → Prop) (x : MemM α) (m : Mem) : Prop :=
  wp x (fun r m' => m'.denied = false → m.denied = false ∧ ok r) (fun _ => True) m

namespace Honest

variable {ok ok' : α → Prop} {m : Mem}

variable {x : MemM α} {f : β → MemM α}

lemma imp (h : Honest ok x m) (hok : ∀ a, ok a → ok' a) : Honest ok' x m :=
  wp.imp h fun a _ ha hd => ⟨(ha hd).1, hok a (ha hd).2⟩

lemma of_pure {a : α} (h : m.denied = false → ok a) : Honest ok (pure a) m :=
  fun hd => ⟨hd, h hd⟩

lemma of_throw (e : String) : Honest ok (throw e >>= f) m := by
  rw [Honest, wp_bind]
  trivial

lemma of_fault (e : String) : Honest ok (throw e) m := trivial

lemma of_modify {f : Mem → Mem} (h : (f m).denied = m.denied) :
    Honest (fun _ => True) (modify f) m :=
  fun hd => ⟨h ▸ hd, trivial⟩

lemma bind {x : MemM β} {P : β → Prop} (h : Honest P x m)
    (hf : ∀ b m', (m'.denied = false → P b) → Honest ok (f b) m') : Honest ok (x >>= f) m :=
  wp.bind h fun b m' hb => wp.imp (hf b m' fun hd => (hb hd).2) fun _ _ ha hd =>
    ⟨(hb (ha hd).1).1, (ha hd).2⟩

lemma ite {c : Prop} [Decidable c] {y : MemM α} (hx : c → Honest ok x m)
    (hy : ¬c → Honest ok y m) : Honest ok (if c then x else y) m := by
  split
  · exact hx ‹_›
  · exact hy ‹_›

/-- Once memory has run out nothing more is promised. -/
lemma of_denied (h : Honest (fun _ => True) x m) (hd : m.denied = true) :
    Honest ok x m :=
  wp.imp h fun _ _ ha hd' => absurd ((ha hd').1) (by simp [hd])

end Honest

/-- What asks for no memory. -/
abbrev Free (x : MemM α) (m : Mem) : Prop := Honest (fun _ => True) x m

variable {m : Mem}

lemma Honest.free {ok : α → Prop} {x : MemM α} (h : Honest ok x m) : Free x m :=
  h.imp fun _ _ => trivial

/-- A step that asks for no memory. -/
lemma Free.bind {ok : α → Prop} {x : MemM β} {f : β → MemM α} (h : Free x m)
    (hf : ∀ b m', Honest ok (f b) m') : Honest ok (x >>= f) m :=
  Honest.bind h fun b m' _ => hf b m'

lemma pure_free {a : α} : Free (pure a) m := Honest.of_pure fun _ => trivial

/-- A failure, where memory must have run out. -/
lemma denied_of_not {ok : Prop} (h : m.denied = false → ok) (hok : ¬ok) :
    m.denied = true := by
  by_contra hd
  exact hok (h (by simpa using hd))

section

variable {m : Mem} {pt va i : ℕ} {pte : Pte}

lemma memset_free {pa : ℕ} {c : Byte} : Free (memset pa c) m := .of_modify rfl

lemma getPte_free : Free (getPte pt i) m := fun hd => ⟨hd, trivial⟩

lemma setPte_free : Free (setPte pt i pte) m := .of_modify rfl

lemma kfree_free [Layout] {pa : ℕ} : Free (kfree pa) m := by
  rw [kfree]
  dsimp only
  exact .ite (fun _ => .of_throw _) fun _ => Free.bind memset_free fun _ _ => .of_modify rfl

lemma kalloc_honest : Honest (· ≠ 0) kalloc m := by
  unfold Honest kalloc
  simp only [wp_bind, wp_get, wp_set]
  refine wp_ite.mpr ⟨fun hf hd => ?_, fun hf => ?_⟩
  · simp [hf] at hd
  · rw [Bool.not_eq_true] at hf
    by_cases hr : m.freelist = 0
    · rw [if_neg (by simpa using hr)]
      intro hd
      simp [hr] at hd
    · rw [if_pos hr]
      simp only [memset, wp_bind, wp_modify, wp_pure]
      intro hd
      have hd' : m.denied = false := by simpa [Mem.write, hf, hr] using hd
      exact ⟨hd', hr⟩

end

/-- If the result of `x` is `ok`, then `kalloc` has always found memory on the way. -/
def Served (ok : α → Prop) (x : MemM α) (m : Mem) : Prop :=
  wp x (fun r m' => ok r → m'.denied = m.denied) (fun _ => True) m

/-- The result of `x` is not `ok`. -/
abbrev Fails (ok : α → Prop) (x : MemM α) (m : Mem) : Prop :=
  wp x (fun r _ => ¬ok r) (fun _ => True) m

namespace Served

variable {ok : α → Prop} {m : Mem}

lemma of_pure {a : α} : Served ok (pure a) m := fun _ => rfl

variable {f : β → MemM α} {x : MemM β}

lemma of_throw (e : String) : Served ok (throw e >>= f) m := by
  rw [Served, wp_bind]
  trivial

lemma of_modify {ok : Unit → Prop} {f : Mem → Mem} (h : (f m).denied = m.denied) :
    Served ok (modify f) m := fun _ => h

lemma bind {P : β → Prop} (h : Served P x m)
    (hf : ∀ b m', P b → Served ok (f b) m') (hno : ∀ b m', ¬P b → Fails ok (f b) m') :
    Served ok (x >>= f) m :=
  wp.bind h fun b m' hb => by
    by_cases hP : P b
    · exact wp.imp (hf b m' hP) fun _ _ ha hok => (ha hok).trans (hb hP)
    · exact wp.imp (hno b m' hP) fun _ _ hbad hok => absurd hok hbad

/-- A step that cannot fail. -/
lemma step (h : Served (fun _ => True) x m)
    (hf : ∀ b m', Served ok (f b) m') : Served ok (x >>= f) m :=
  bind h (fun b m' _ => hf b m') fun _ _ hno => absurd trivial hno

lemma ite {c : Prop} [Decidable c] {x y : MemM α} (hx : c → Served ok x m)
    (hy : ¬c → Served ok y m) : Served ok (if c then x else y) m := by
  split
  · exact hx ‹_›
  · exact hy ‹_›

end Served

section

variable {m : Mem} {pt i : ℕ} {pte : Pte}

lemma memset_served {ok : Unit → Prop} {pa : ℕ} {c : Byte} : Served ok (memset pa c) m :=
  .of_modify rfl

lemma getPte_served {ok : Pte → Prop} : Served ok (getPte pt i) m := fun _ => rfl

lemma setPte_served {ok : Unit → Prop} : Served ok (setPte pt i pte) m := .of_modify rfl

lemma kalloc_served : Served (· ≠ 0) kalloc m := by
  unfold Served kalloc
  simp only [wp_bind, wp_get, wp_set]
  refine wp_ite.mpr ⟨fun _ hne => absurd rfl hne, fun hf => ?_⟩
  rw [Bool.not_eq_true] at hf
  by_cases hr : m.freelist = 0
  · rw [if_neg (by simpa using hr)]
    exact fun hne => absurd hr hne
  · rw [if_pos hr]
    simp only [memset, wp_bind, wp_modify, wp_pure]
    intro _
    simp [Mem.write, hf, hr]

end

-- from here on only the rules above are used: no program is run by unfolding
attribute [local irreducible] Honest Served

/-! ## Tables -/

section

variable {m : Mem} {pt va : ℕ}

variable {level n a pa : ℕ}

lemma walkLevel_honest {alloc : Bool} :
    Honest (fun r => alloc = true → r ≠ none) (walkLevel pt va level alloc) m := by
  unfold walkLevel
  refine Free.bind getPte_free fun pte m => .ite
    (fun _ => .of_pure fun _ _ => Option.some_ne_none _)
    fun _ => .ite (fun ha => .of_pure fun _ halloc => ?_) fun _ => ?_
  · simp [halloc] at ha
  · refine Honest.bind kalloc_honest fun page m hp => .ite (fun h0 => ?_) fun _ => ?_
    · exact .of_pure fun hd => absurd h0 (hp hd)
    · refine Free.bind memset_free fun _ _ => Free.bind setPte_free fun _ _ => ?_
      exact .of_pure fun _ _ => Option.some_ne_none _

lemma walk_honest {alloc : Bool} :
    Honest (fun r => alloc = true → r ≠ none) (walk pt va alloc) m := by
  unfold walk
  dsimp only
  refine .ite (fun _ => .of_throw _) fun _ => Honest.bind walkLevel_honest fun r m hr => ?_
  cases r with
  | none => exact .of_pure fun hd halloc => absurd rfl (hr hd halloc)
  | some pt' =>
    refine Honest.bind walkLevel_honest fun r m hr => ?_
    cases r with
    | none => exact .of_pure fun hd halloc => absurd rfl (hr hd halloc)
    | some pt'' => exact .of_pure fun _ _ => Option.some_ne_none _

lemma mappagesLoop_honest {perm : Pte} :
    Honest (· = 0) (mappagesLoop pt perm n a pa) m := by
  induction n generalizing a pa m with
  | zero => exact .of_pure fun _ => rfl
  | succ n ih =>
    rw [mappagesLoop]
    refine Honest.bind walk_honest fun r m hr => ?_
    cases r with
    | none => exact .of_pure fun hd => absurd rfl (hr hd rfl)
    | some p =>
      exact Free.bind getPte_free fun _ _ => .ite (fun _ => .of_throw _) fun _ =>
        Free.bind setPte_free fun _ _ => ih

lemma mappages_honest {size : ℕ} {perm : Pte} :
    Honest (· = 0) (mappages pt va size pa perm) m := by
  unfold mappages
  dsimp only
  exact .ite (fun _ => .of_throw _) fun _ => .ite (fun _ => .of_throw _) fun _ =>
    .ite (fun _ => .of_throw _) fun _ => mappagesLoop_honest

lemma walkLevel_served {alloc : Bool} :
    Served (· ≠ none) (walkLevel pt va level alloc) m := by
  unfold walkLevel
  refine Served.step getPte_served fun pte m => .ite (fun _ => .of_pure) fun _ =>
    .ite (fun _ => .of_pure) fun _ => Served.bind kalloc_served (fun page m _ => ?_) fun page m h0 => ?_
  · exact .ite (fun _ => .of_pure) fun _ => Served.step memset_served fun _ _ =>
      Served.step setPte_served fun _ _ => .of_pure
  · rw [if_pos (not_not.mp h0)]
    exact not_not.mpr rfl

lemma walk_served {alloc : Bool} : Served (· ≠ none) (walk pt va alloc) m := by
  unfold walk
  dsimp only
  refine .ite (fun _ => .of_throw _) fun _ => Served.bind walkLevel_served (fun r m hr => ?_) fun r m hr => ?_
  · obtain ⟨pt', rfl⟩ := Option.ne_none_iff_exists'.mp hr
    refine Served.bind walkLevel_served (fun r m hr => ?_) fun r m hr => ?_
    · obtain ⟨pt'', rfl⟩ := Option.ne_none_iff_exists'.mp hr
      exact .of_pure
    · rw [not_not.mp hr]
      exact not_not.mpr rfl
  · rw [not_not.mp hr]
    exact not_not.mpr rfl

lemma mappagesLoop_served {perm : Pte} :
    Served (· = 0) (mappagesLoop pt perm n a pa) m := by
  induction n generalizing a pa m with
  | zero => exact .of_pure
  | succ n ih =>
    rw [mappagesLoop]
    refine Served.bind walk_served (fun r m hr => ?_) fun r m hr => ?_
    · obtain ⟨p, rfl⟩ := Option.ne_none_iff_exists'.mp hr
      exact Served.step getPte_served fun _ _ => .ite (fun _ => .of_throw _) fun _ =>
        Served.step setPte_served fun _ _ => ih
    · rw [not_not.mp hr]
      exact show ¬(-1 : ℤ) = 0 by decide

lemma mappages_served {size : ℕ} {perm : Pte} :
    Served (· = 0) (mappages pt va size pa perm) m := by
  unfold mappages
  dsimp only
  exact .ite (fun _ => .of_throw _) fun _ => .ite (fun _ => .of_throw _) fun _ =>
    .ite (fun _ => .of_throw _) fun _ => mappagesLoop_served

lemma ismapped_free : Free (ismapped pt va) m := by
  unfold ismapped
  refine Free.bind (Honest.free walk_honest) fun r m => ?_
  cases r with
  | none => exact pure_free
  | some p => exact Free.bind getPte_free fun _ _ => pure_free

lemma walkaddr_free : Free (walkaddr pt va) m := by
  unfold walkaddr
  refine .ite (fun _ => pure_free) fun _ => Free.bind (Honest.free walk_honest) fun r m => ?_
  cases r with
  | none => exact pure_free
  | some p =>
    exact Free.bind getPte_free fun _ _ => .ite (fun _ => pure_free)
      fun _ => .ite (fun _ => pure_free) fun _ => pure_free

end

/-! ## User memory -/

section

variable [Layout] {m : Mem} {pt va oldsz newsz psz : ℕ}

variable {doFree : Bool} {a n : ℕ} {xperm : Pte}

lemma uvmunmapPage_free : Free (uvmunmapPage pt doFree a) m := by
  unfold uvmunmapPage
  refine Free.bind (Honest.free walk_honest) fun r m => ?_
  cases r with
  | none => exact pure_free
  | some p =>
    refine Free.bind getPte_free fun _ _ => .ite (fun _ => pure_free) fun _ => .ite (fun _ => ?_)
      fun _ => setPte_free
    exact Free.bind kfree_free fun _ _ => setPte_free

lemma uvmunmap_free : Free (uvmunmap pt a n doFree) m := by
  have hloop : ∀ n {a : ℕ} {m : Mem}, Free (uvmunmapLoop pt doFree n a) m := by
    intro n
    induction n with
    | zero => exact pure_free
    | succ n ih => exact Free.bind uvmunmapPage_free fun _ _ => ih
  unfold uvmunmap
  exact .ite (fun _ => .of_throw _) fun _ => hloop n

lemma uvmdealloc_free : Free (uvmdealloc pt oldsz newsz) m := by
  unfold uvmdealloc
  exact .ite (fun _ => pure_free) fun _ => .ite
    (fun _ => Free.bind uvmunmap_free fun _ _ => pure_free) fun _ => pure_free

lemma uvmallocLoop_honest :
    Honest (· = newsz) (uvmallocLoop pt oldsz newsz xperm n a) m := by
  induction n generalizing a m with
  | zero => exact .of_pure fun _ => rfl
  | succ n ih =>
    rw [uvmallocLoop]
    refine Honest.bind kalloc_honest fun mem m hm => .ite (fun h0 => ?_) fun _ => ?_
    · exact .of_denied (Free.bind uvmdealloc_free fun _ _ => pure_free)
        (denied_of_not hm (not_not.mpr h0))
    · refine Free.bind memset_free fun _ m => Honest.bind mappages_honest fun r m hr =>
        .ite (fun hne => ?_) fun _ => ih
      refine .of_denied (Free.bind kfree_free fun _ _ => ?_) (denied_of_not hr hne)
      exact Free.bind uvmdealloc_free fun _ _ => pure_free

lemma uvmalloc_honest :
    Honest (fun r => oldsz ≤ newsz → r = newsz) (uvmalloc pt oldsz newsz xperm) m := by
  unfold uvmalloc
  refine .ite (fun h => .of_pure fun _ h' => absurd h (by omega)) fun _ => ?_
  exact Honest.imp uvmallocLoop_honest fun _ hr _ => hr

lemma uvmallocLoop_served :
    Served (· ≠ 0) (uvmallocLoop pt oldsz newsz xperm n a) m := by
  induction n generalizing a m with
  | zero => exact .of_pure
  | succ n ih =>
    -- what is left after a failure returns 0
    have hzero : ∀ m, Fails (· ≠ 0) (do
        let _ ← uvmdealloc pt a oldsz
        return 0) m := by
      intro m
      rw [Fails, wp_bind]
      exact (wp_trivial _).imp fun _ _ _ => not_not.mpr rfl
    rw [uvmallocLoop]
    refine Served.bind kalloc_served (fun mem m hm => ?_) fun mem m h0 => ?_
    · rw [if_neg hm]
      refine Served.step memset_served fun _ m => Served.bind mappages_served (fun r m hr => ?_)
        fun r m hr => ?_
      · rw [if_neg (not_not.mpr hr)]
        exact ih
      · rw [if_pos hr, Fails, wp_bind]
        exact (wp_trivial _).imp fun _ m _ => hzero m
    · rw [if_pos (not_not.mp h0)]
      exact hzero m

lemma uvmalloc_served :
    Served (· ≠ 0) (uvmalloc pt oldsz newsz xperm) m := by
  unfold uvmalloc
  exact .ite (fun _ => .of_pure) fun _ => uvmallocLoop_served

lemma vmfault_free : Free (vmfault pt psz va) m := by
  unfold vmfault
  refine .ite (fun _ => pure_free) fun _ => Free.bind ismapped_free fun r m =>
    .ite (fun _ => pure_free) fun _ => Free.bind (Honest.free kalloc_honest) fun _ _ =>
    .ite (fun _ => pure_free) fun _ => Free.bind memset_free fun _ _ =>
    Free.bind (Honest.free mappages_honest) fun _ _ => .ite (fun _ => ?_) fun _ => pure_free
  exact Free.bind kfree_free fun _ _ => pure_free

/-! ## Page tables -/

lemma freewalk_free (depth : ℕ) {pt : ℕ} {m : Mem} : Free (freewalk depth pt) m := by
  induction depth generalizing pt m with
  | zero => exact .of_fault _
  | succ depth ih =>
    have hloop : ∀ n {i : ℕ} {m : Mem}, Free (freewalkLoop (freewalk depth) pt n i) m := by
      intro n
      induction n with
      | zero => exact pure_free
      | succ n ihn =>
        exact Free.bind getPte_free fun _ _ => .ite
          (fun _ => Free.bind ih fun _ _ => Free.bind setPte_free fun _ _ => ihn)
          fun _ => .ite (fun _ => .of_throw _) fun _ => ihn
    exact Free.bind (hloop 512) fun _ _ => kfree_free

lemma uvmfree_free {sz : ℕ} : Free (uvmfree pt sz) m := by
  unfold uvmfree
  exact .ite (fun _ => Free.bind uvmunmap_free fun _ _ => freewalk_free 3) fun _ => freewalk_free 3

lemma procFreepagetable_free {sz : ℕ} : Free (procFreepagetable pt sz) m :=
  Free.bind uvmunmap_free fun _ _ => Free.bind uvmunmap_free fun _ _ => uvmfree_free

lemma procPagetable_honest {tf : ℕ} : Honest (· ≠ 0) (procPagetable tf) m := by
  have hcreate : Honest (· ≠ 0) uvmcreate m := by
    unfold uvmcreate
    exact Honest.bind kalloc_honest fun _ _ hpt => .ite (fun h0 => .of_pure fun hd => absurd h0 (hpt hd))
      fun hne => Free.bind memset_free fun _ _ => .of_pure fun _ => hne
  unfold procPagetable
  refine Honest.bind hcreate fun pt m hpt => .ite (fun h0 => .of_pure fun hd => absurd h0 (hpt hd))
    fun hne => Honest.bind mappages_honest fun r m hr => .ite (fun hneg => ?_)
    fun _ => Honest.bind mappages_honest fun r m hr => .ite (fun hneg => ?_) fun _ => .of_pure fun _ => hne
  · exact .of_denied (Free.bind uvmfree_free fun _ _ => pure_free) (denied_of_not hr (by omega))
  · refine .of_denied (Free.bind uvmunmap_free fun _ _ => ?_) (denied_of_not hr (by omega))
    exact Free.bind uvmfree_free fun _ _ => pure_free

lemma uvmcopy_honest {old new sz : ℕ} : Honest (· = 0) (uvmcopy old new sz) m := by
  have hloop : ∀ n {i : ℕ} {m : Mem}, Honest (· = none) (uvmcopyLoop old new n i) m := by
    intro n
    induction n with
    | zero => exact .of_pure fun _ => rfl
    | succ n ih =>
      intro i m
      rw [uvmcopyLoop]
      refine Free.bind (Honest.free walk_honest) fun r m => ?_
      cases r with
      | none => exact ih
      | some p =>
        refine Free.bind getPte_free fun pte m => .ite (fun _ => ih) fun _ =>
          Honest.bind kalloc_honest fun mem m hm =>
            .ite (fun h0 => .of_pure fun hd => absurd h0 (hm hd)) fun _ =>
              Free.bind (.of_modify rfl) fun _ m => Honest.bind mappages_honest fun r m hr =>
                .ite (fun hne => ?_) fun _ => ih
        exact .of_denied (Free.bind kfree_free fun _ _ => pure_free) (denied_of_not hr hne)
  unfold uvmcopy
  refine Honest.bind (hloop _) fun r m hr => ?_
  cases r with
  | none => exact .of_pure fun _ => rfl
  | some i =>
    exact .of_denied (Free.bind uvmunmap_free fun _ _ => pure_free) (denied_of_not hr (by simp))

lemma userPage_free : Free (userPage pt psz va) m := by
  unfold userPage
  exact Free.bind walkaddr_free fun _ _ => .ite (fun _ => vmfault_free) fun _ => pure_free

end

end Xv6
