import Xv6.Virtio.Inv

/-!
# The two rings

How each action moves a request: a caller puts it into the avail ring, the device takes it from
there and, when it has completed it, puts it into the used ring, and a handler takes it from there.
No ring is ever full, since the requests on their way have distinct first descriptors.
-/

namespace Xv6

namespace Virtio

open Function List

lemma NUM_dvd : NUM ∣ 2 ^ 16 := by decide

/-- A counter moves on by one. -/
lemma ofNat_succ_add (i : BitVec 16) (n : ℕ) :
    i + BitVec.ofNat 16 (n + 1) = i + 1 + BitVec.ofNat 16 n := by
  rw [BitVec.ofNat_add, BitVec.add_assoc, BitVec.add_comm (1 : BitVec 16)]
  rfl

namespace Pc

variable {l : Pc} {r : Req}

lemma head_mem_held (h : l.waiting = some r) : r.idx.i0 ∈ l.held := by
  cases l with
  | wTest | wPrepare | wUnlock | wSleep | wAcquire =>
    cases h
    simp
  | _ => cases h

lemma buf_of_waiting (h : l.waiting = some r) : l.buf = some r.b := by
  cases l with
  | wTest | wPrepare | wUnlock | wSleep | wAcquire =>
    cases h
    simp
  | _ => cases h

/-- What a waiting caller has written. -/
lemma Here.of_waiting {x : Disk} (hw : l.waiting = some r) (h : l.Here x) :
    x.Formatted r.idx ∧ (x.info r.idx.i0).b = some r.b ∧ x.ticket r.idx.i0 = r.n ∧ r.n < x.nsub := by
  cases l with
  | wTest | wPrepare | wUnlock | wSleep | wAcquire =>
    cases hw
    exact h
  | _ => cases hw

lemma waiting_of_mid (h : l.mid = true) : l.waiting = none ∧ l.holds = true := by
  cases l with
  | iWake | iNext => exact ⟨rfl, rfl⟩
  | _ => cases h

end Pc

namespace Rings

variable {x x' : Disk} {pcs pcs' : ℕ → Pc} {A U : List ℕ} {k t : ℕ} {l' : Pc}

/-- The requests on their way have distinct first descriptors, and so have those that are not. -/
lemma length_lt (h : Rings x pcs A U k) (hd : Descs x pcs) {l : List ℕ}
    (hnodup : (l ++ (A ++ x.dev.pending ++ U)).Nodup) (hl : ∀ i ∈ l, i < NUM) :
    l.length + (A.length + x.dev.pending.length + U.length) ≤ NUM := by
  have hsub : l ++ (A ++ x.dev.pending ++ U) ⊆ range NUM := by
    intro i hi
    rw [mem_range]
    rcases mem_append.mp hi with hi | hi
    · exact hl i hi
    · obtain ⟨t, r, hw, rfl⟩ := h.owner i hi
      exact (hd.used t _ (Pc.head_mem_held hw)).1
  have hle := (subperm_of_subset hnodup hsub).length_le
  simpa [length_append, Nat.add_assoc] using hle

variable {i u : ℕ} {r : Req}

/-- A caller that does not wait has descriptors that are in no ring. -/
lemma notMem (h : Rings x pcs A U k) (hd : Descs x pcs) (hi : i ∈ (pcs t).held)
    (ht : (pcs t).waiting = none) : i ∉ A ++ x.dev.pending ++ U := by
  intro hmem
  obtain ⟨u, r, hw, rfl⟩ := h.owner i hmem
  obtain rfl := hd.disj t u _ hi (Pc.head_mem_held hw)
  rw [ht] at hw
  exact absurd hw (by simp)

/-- Two callers that wait for the same head are one. -/
lemma owner_unique (hd : Descs x pcs) {v : ℕ} {r' : Req} (hu : (pcs u).waiting = some r)
    (hv : (pcs v).waiting = some r') (heq : r.idx.i0 = r'.idx.i0) : u = v ∧ r = r' := by
  have huv : u = v := hd.disj u v r.idx.i0 (Pc.head_mem_held hu) (heq ▸ Pc.head_mem_held hv)
  refine ⟨huv, ?_⟩
  rw [huv, hv] at hu
  exact (Option.some.inj hu).symm

section

variable (h : Rings x pcs A U k)
include h

/-- An action that does not touch the rings. -/
lemma frame (havail : Holds NUM x'.avail.ring x.dev.idx A)
    (havailIdx : x'.avail.idx = x.avail.idx) (hused : x'.used = x.used)
    (husedIdx : x'.usedIdx = x.usedIdx) (hdev : x'.dev = x.dev)
    (hstatus : ∀ id ∈ U, (x'.info id).status = (x.info id).status)
    (hticket : x'.ticket = x.ticket) (hcompleted : x'.completed = x.completed)
    (hbuf : ∀ t r, (pcs t).waiting = some r → (x'.buf r.b).disk = (x.buf r.b).disk)
    (hpc : pcs t = l) (hwait : l'.waiting = l.waiting) (hmid : l'.mid = l.mid)
    (hread : l' = .iRead → U ≠ []) : Rings x' (update pcs t l') A U k := by
  subst hpc
  have hw : ∀ u, (update pcs t l' u).waiting = (pcs u).waiting := proj_update Pc.waiting hwait
  have hm : ∀ u, (update pcs t l' u).mid = (pcs u).mid := proj_update Pc.mid hmid
  refine ⟨by rw [hdev]; exact havail, by rw [havailIdx, hdev]; exact h.availIdx,
    by rw [hused, husedIdx]; exact h.used, by rw [hused, husedIdx]; exact h.usedIdx,
    by rw [hdev]; exact h.nodup, fun id hid => ?_, fun id hid => ?_, fun u r hur => ?_, ?_,
    fun u hu => ?_⟩
  · rw [hdev] at hid
    obtain ⟨u, r, hur, hr⟩ := h.owner id hid
    exact ⟨u, r, by rw [hw]; exact hur, hr⟩
  · rw [hstatus id hid, hticket, hcompleted]
    exact h.status id hid
  · rw [hw] at hur
    rw [hdev, hcompleted, hbuf u r hur]
    exact h.flag u r hur
  · simp only [hm]
    exact h.mid
  · by_cases hut : u = t
    · rw [hut, update_self] at hu
      exact hread hu
    · rw [update_of_ne hut] at hu
      exact h.reading u hu

/-- Nobody is in the middle of an entry while another thread holds the lock. -/
lemma mid_eq_zero (halone : ∀ u, (pcs u).holds = true → u = t)
    (ht : (pcs t).mid = false) : k = 0 ∧ ∀ u, (pcs u).mid = false := by
  have hno : ∀ u, (pcs u).mid = false := by
    intro u
    by_contra hu
    rw [Bool.not_eq_false] at hu
    obtain rfl := halone u (Pc.waiting_of_mid hu).2
    rw [ht] at hu
    exact absurd hu (by simp)
  refine ⟨?_, hno⟩
  rcases h.mid.2 with ⟨hk, -⟩ | ⟨-, u, hu⟩
  · exact hk
  · rw [hno u] at hu
    exact absurd hu (by simp)

/-- A slot of the avail ring is only overwritten when the device has taken its entry. -/
lemma room (hd : Descs x pcs) (hi : i ∈ (pcs t).held)
    (ht : (pcs t).waiting = none) : A.length < NUM := by
  have hle := h.length_lt hd (l := [i])
    (nodup_cons.mpr ⟨h.notMem hd hi ht, h.nodup⟩)
    (fun j hj => by
      rw [mem_singleton] at hj
      exact hj ▸ (hd.used t i hi).1)
  rw [length_singleton] at hle
  omega

/-- A request is submitted. -/
lemma submit (hd : Descs x pcs) {b : ℕ} {c : Idx}
    (ht : pcs t = .rIdx b c) (hhere : (pcs t).Here x) :
    Rings (x.submit c.i0) (update pcs t (.wTest ⟨b, c, x.nsub⟩)) (A ++ [c.i0]) U k := by
  have hheld : c.i0 ∈ (pcs t).held := by simp [ht]
  have hwait : (pcs t).waiting = none := by simp [ht]
  have hnot := h.notMem hd hheld hwait
  rw [ht] at hhere
  obtain ⟨-, -, hdisk, hring⟩ := hhere
  have hperm : (A ++ [c.i0] ++ x.dev.pending ++ U).Perm (c.i0 :: (A ++ x.dev.pending ++ U)) := by
    simp
  have hmem : ∀ j V, j ∈ A ++ [c.i0] ++ x.dev.pending ++ V ↔ j = c.i0 ∨ j ∈ A ++ x.dev.pending ++ V := by
    intro j V
    simp only [mem_append, mem_singleton]
    tauto
  have hold : ∀ {u : ℕ}, u ≠ t →
      update pcs t (.wTest ⟨b, c, x.nsub⟩) u = pcs u :=
    fun hu => update_of_ne hu ..
  refine ⟨?_, ?_, h.used, h.usedIdx, hperm.nodup_iff.mpr (nodup_cons.mpr ⟨hnot, h.nodup⟩),
    fun id hid => ?_, fun id hid => ?_, fun u r hur => ?_, ⟨h.mid.1, ?_⟩, fun u hu => ?_⟩
  · refine h.avail.snoc NUM_dvd ?_
    rw [← h.availIdx]
    exact hring
  · change x.avail.idx + 1 = x.dev.idx + _
    rw [h.availIdx, length_append, length_singleton, ofNat_succ_add, BitVec.add_assoc,
      BitVec.add_assoc, BitVec.add_comm 1]
  · rcases (hmem id U).mp hid with rfl | hid
    · exact ⟨t, ⟨b, c, x.nsub⟩, by rw [update_self]; rfl, rfl⟩
    · obtain ⟨u, r, hur, hr⟩ := h.owner id hid
      have hut : u ≠ t := by
        rintro rfl
        rw [hwait] at hur
        exact absurd hur (by simp)
      exact ⟨u, r, by rw [hold hut]; exact hur, hr⟩
  · have hne : id ≠ c.i0 := by
      rintro rfl
      exact hnot (mem_append_right _ hid)
    change (x.info id).status = 0 ∧ update x.ticket c.i0 x.nsub id ∈ x.completed
    rw [update_of_ne hne]
    exact h.status id hid
  · by_cases hut : u = t
    · subst hut
      rw [update_self] at hur
      obtain rfl : ⟨b, c, x.nsub⟩ = r := Option.some.inj hur
      exact Or.inl ⟨hdisk, (hmem _ _).mpr (Or.inl rfl)⟩
    · rw [hold hut] at hur
      have hne : r.idx.i0 ≠ c.i0 := fun he =>
        hut (hd.disj u t c.i0 (he ▸ Pc.head_mem_held hur) hheld)
      rcases h.flag u r hur with ⟨hone, hin⟩ | ⟨hzero, hn, hout⟩
      · exact Or.inl ⟨hone, (hmem _ _).mpr (Or.inr hin)⟩
      · exact Or.inr ⟨hzero, hn, fun hin => ((hmem _ _).mp hin).elim hne hout⟩
  · refine h.mid.2.imp (fun ⟨hk, hno⟩ => ⟨hk, fun u => ?_⟩) fun ⟨hk, u, hu⟩ => ⟨hk, u, ?_⟩
    · by_cases hut : u = t
      · rw [hut, update_self]
        rfl
      · rw [hold hut]
        exact hno u
    · have hut : u ≠ t := by
        rintro rfl
        simp [ht] at hu
      rw [hold hut]
      exact hu
  · have hut : u ≠ t := by
      rintro rfl
      rw [update_self] at hu
      exact absurd hu (by simp)
    rw [hold hut] at hu
    exact h.reading u hu

/-- A caller whose flag is clear stops waiting. -/
lemma leave (l' : Pc) (ht : (pcs t).waiting = some r) (hmid : k = 0 ∧ ∀ u, (pcs u).mid = false)
    (hflag : (x.buf r.b).disk ≠ 1) (hwait : l'.waiting = none) (hmid' : l'.mid = false)
    (hread : l' ≠ .iRead) :
    Rings x (update pcs t l') A U k ∧ r.n ∈ x.completed := by
  obtain ⟨rfl, hno⟩ := hmid
  obtain ⟨-, hn, hout⟩ := (h.flag t r ht).resolve_left fun hin => hflag hin.1
  rw [drop_zero] at hout
  refine ⟨⟨h.avail, h.availIdx, h.used, h.usedIdx, h.nodup, fun id hid => ?_, h.status,
    fun u r' hur => ?_, ⟨h.mid.1, Or.inl ⟨rfl, fun u => ?_⟩⟩, fun u hu => ?_⟩, hn⟩
  · obtain ⟨u, r', hur, hr⟩ := h.owner id hid
    have hut : u ≠ t := by
      rintro rfl
      obtain rfl := Option.some.inj (ht.symm.trans hur)
      exact hout (hr ▸ hid)
    exact ⟨u, r', by rw [update_of_ne hut]; exact hur, hr⟩
  · have hut : u ≠ t := by
      rintro rfl
      rw [update_self, hwait] at hur
      exact absurd hur (by simp)
    rw [update_of_ne hut] at hur
    exact h.flag u r' hur
  · by_cases hut : u = t
    · rw [hut, update_self]
      exact hmid'
    · rw [update_of_ne hut]
      exact hno u
  · have hut : u ≠ t := by
      rintro rfl
      rw [update_self] at hu
      exact hread hu
    rw [update_of_ne hut] at hu
    exact h.reading u hu

/-- The entry that a handler reads belongs to a caller that waits. -/
lemma usedId (hU : U ≠ []) :
    ∃ V u r, U = x.usedId :: V ∧ (pcs u).waiting = some r ∧ r.idx.i0 = x.usedId := by
  obtain ⟨id, V, rfl⟩ := exists_cons_of_ne_nil hU
  have hid : x.usedId = id := (h.used.cons NUM_dvd).1
  obtain ⟨u, r, hur, hr⟩ := h.owner id (by simp)
  exact ⟨V, u, r, by rw [hid], hur, by rw [hid]; exact hr⟩

end

/-- A handler clears the flag of the buffer whose request has completed. -/
lemma read (h : Rings x pcs A U 0) (hd : Descs x pcs) (hb : Bufs x pcs)
    (hwait : (pcs u).waiting = some r) (hr : r.idx.i0 = x.usedId) (hn : x.ticket x.usedId = r.n)
    (hU : U ≠ []) (ht : (pcs t).waiting = none) :
    Rings (x.setDisk r.b 0) (update pcs t (.iWake r.b)) A U 1 := by
  obtain ⟨V, -, -, hV, -⟩ := h.usedId hU
  have hmem : x.usedId ∈ U := by rw [hV]; exact mem_cons_self
  have hdrop : U.drop 1 = V := by rw [hV]; rfl
  have hdrop' : ∀ id, id ≠ x.usedId →
      (id ∈ A ++ x.dev.pending ++ U.drop 1 ↔ id ∈ A ++ x.dev.pending ++ U.drop 0) := by
    intro id hid
    rw [hdrop, drop_zero, hV]
    simp [hid]
  have hout : x.usedId ∉ A ++ x.dev.pending ++ U.drop 1 := by
    have hnodup := h.nodup
    rw [hV] at hnodup
    rw [hdrop]
    exact (nodup_middle.mp hnodup).notMem
  have hold : ∀ {v : ℕ}, v ≠ t → update pcs t (.iWake r.b) v = pcs v :=
    fun hv => update_of_ne hv ..
  have hwaits : ∀ {v : ℕ} {r' : Req}, (update pcs t (.iWake r.b) v).waiting = some r' →
      v ≠ t ∧ (pcs v).waiting = some r' := by
    intro v r' hv
    have hvt : v ≠ t := by
      rintro rfl
      rw [update_self] at hv
      exact absurd hv (by simp)
    rw [hold hvt] at hv
    exact ⟨hvt, hv⟩
  refine ⟨h.avail, h.availIdx, h.used, h.usedIdx, h.nodup, fun id hid => ?_, h.status,
    fun v r' hv => ?_, ⟨?_, Or.inr ⟨rfl, t, by rw [update_self]; rfl⟩⟩, fun v hv => ?_⟩
  · obtain ⟨v, r', hv, hr'⟩ := h.owner id hid
    have hvt : v ≠ t := by
      rintro rfl
      rw [ht] at hv
      exact absurd hv (by simp)
    exact ⟨v, r', by rw [hold hvt]; exact hv, hr'⟩
  · obtain ⟨-, hv⟩ := hwaits hv
    by_cases hhead : r'.idx.i0 = x.usedId
    · obtain ⟨-, rfl⟩ := owner_unique hd hv hwait (hhead.trans hr.symm)
      refine Or.inr ⟨?_, ?_, hhead ▸ hout⟩
      · change (update x.buf r'.b _ r'.b).disk = 0
        rw [update_self]
      · change r'.n ∈ x.completed
        rw [← hn]
        exact (h.status _ hmem).2
    · have hbne : r'.b ≠ r.b := fun hbb => by
        obtain rfl := hb.unique v u r.b (hbb ▸ Pc.buf_of_waiting hv) (Pc.buf_of_waiting hwait)
        obtain rfl := Option.some.inj (hv.symm.trans hwait)
        exact hhead hr
      change ((update x.buf r.b _ r'.b).disk = 1 ∧ _) ∨
        ((update x.buf r.b _ r'.b).disk = 0 ∧ r'.n ∈ x.completed ∧ _)
      rw [update_of_ne hbne]
      have hiff := hdrop' r'.idx.i0 hhead
      refine (h.flag v r' hv).imp (fun ⟨h₁, h₂⟩ => ⟨h₁, hiff.mpr h₂⟩) ?_
      rintro ⟨h₁, h₂, h₃⟩
      exact ⟨h₁, h₂, fun hin => h₃ (hiff.mp hin)⟩
  · rw [hV]
    simp
  · have hvt : v ≠ t := by
      rintro rfl
      rw [update_self] at hv
      exact absurd hv (by simp)
    rw [hold hvt] at hv
    exact h.reading v hv

/-- A handler is through with an entry. -/
lemma next (h : Rings x pcs A U k) (ht : pcs t = .iNext)
    (halone : ∀ u, (pcs u).holds = true → u = t) :
    Rings { x with usedIdx := x.usedIdx + 1 } (update pcs t .iTest) A U.tail 0 := by
  have hmid : (pcs t).mid = true := by rw [ht]; rfl
  obtain ⟨rfl, -⟩ : k = 1 ∧ _ := h.mid.2.resolve_left fun ⟨_, hno⟩ => by
    rw [hno t] at hmid
    exact absurd hmid (by simp)
  obtain ⟨id, V, rfl⟩ : ∃ id V, U = id :: V := by
    cases U with
    | nil => exact absurd h.mid.1 (by simp)
    | cons id V => exact ⟨id, V, rfl⟩
  have hold : ∀ {v : ℕ}, v ≠ t → update pcs t .iTest v = pcs v :=
    fun hv => update_of_ne hv ..
  have hsub : ∀ j, j ∈ A ++ x.dev.pending ++ V → j ∈ A ++ x.dev.pending ++ id :: V := by
    intro j hj
    simp only [mem_append, mem_cons] at hj ⊢
    tauto
  refine ⟨h.avail, h.availIdx, (h.used.cons NUM_dvd).2, ?_, ?_, fun j hj => ?_,
    fun j hj => h.status j (mem_cons_of_mem _ hj), fun v r hv => ?_,
    ⟨Nat.zero_le _, Or.inl ⟨rfl, fun v => ?_⟩⟩, fun v hv => ?_⟩
  · change x.used.idx = x.usedIdx + 1 + _
    rw [h.usedIdx, length_cons, ofNat_succ_add]
    rfl
  · exact (nodup_middle.mp h.nodup).of_cons
  · obtain ⟨v, r, hv, hr⟩ := h.owner j (hsub j hj)
    have hvt : v ≠ t := by
      rintro rfl
      rw [ht] at hv
      exact absurd hv (by simp)
    exact ⟨v, r, by rw [hold hvt]; exact hv, hr⟩
  · have hvt : v ≠ t := by
      rintro rfl
      rw [update_self] at hv
      exact absurd hv (by simp)
    rw [hold hvt] at hv
    exact h.flag v r hv
  · by_cases hvt : v = t
    · rw [hvt, update_self]
      rfl
    · rw [hold hvt]
      by_contra hm
      exact hvt (halone v (Pc.waiting_of_mid (by simpa using hm)).2)
  · exfalso
    by_cases hvt : v = t
    · rw [hvt, update_self] at hv
      exact absurd hv (by simp)
    · rw [hold hvt] at hv
      exact hvt (halone v (by rw [hv]; rfl))

/-- The device takes a request. -/
lemma consume (h : Rings x pcs A U k) (hne : x.dev.idx ≠ x.avail.idx) :
    Rings x.consume pcs A.tail U k := by
  obtain ⟨id, B, rfl⟩ : ∃ id B, A = id :: B := by
    cases A with
    | nil =>
      have := h.availIdx
      simp only [length_nil, BitVec.add_zero] at this
      exact absurd this.symm hne
    | cons id B => exact ⟨id, B, rfl⟩
  obtain ⟨hid, hB⟩ := h.avail.cons NUM_dvd
  have hmem : ∀ j V, j ∈ B ++ (x.dev.pending ++ [id]) ++ V ↔ j ∈ id :: B ++ x.dev.pending ++ V := by
    intro j V
    simp only [mem_append, mem_cons, not_mem_nil, or_false]
    tauto
  have hperm : (B ++ (x.dev.pending ++ [id]) ++ U).Perm (id :: B ++ x.dev.pending ++ U) := by
    have hmove : (B ++ x.dev.pending ++ id :: U).Perm (id :: (B ++ x.dev.pending ++ U)) :=
      perm_middle
    simpa using hmove
  have hpend : x.consume.dev.pending = x.dev.pending ++ [id] := by
    rw [← hid]
    rfl
  refine ⟨hB, ?_, h.used, h.usedIdx, ?_, fun j hj => ?_, h.status, fun v r hv => ?_, h.mid,
    h.reading⟩
  · change x.avail.idx = x.dev.idx + 1 + _
    rw [h.availIdx, length_cons, ofNat_succ_add]
    rfl
  · rw [hpend]
    exact hperm.nodup_iff.mpr h.nodup
  · rw [hpend, tail_cons, hmem] at hj
    exact h.owner j hj
  · rw [hpend, tail_cons, hmem]
    exact h.flag v r hv

/-- The device completes a request. -/
lemma complete (h : Rings x pcs A U k) (hd : Descs x pcs) (hhere : ∀ t, (pcs t).Here x) {id : ℕ}
    (hid : id ∈ x.dev.pending) : Rings (x.complete id) pcs A (U ++ [id]) k := by
  obtain ⟨u, r, hwait, rfl⟩ := h.owner id (by simp [hid])
  obtain ⟨⟨hlinked, haddr⟩, -⟩ := (hhere u).of_waiting hwait
  have hstatus : x.writeStatus r.idx.i0 =
      { x with
        info := update x.info r.idx.i0 { x.info r.idx.i0 with status := 0 } } := by
    rw [Disk.writeStatus, hlinked.2.1, hlinked.2.2.2.1, haddr]
  have hcomplete : x.complete r.idx.i0 =
      { x with
        info := update x.info r.idx.i0 { x.info r.idx.i0 with status := 0 }
        used :=
          { idx := x.used.idx + 1
            ring := update x.used.ring (x.used.idx.toNat % NUM) r.idx.i0 }
        dev := { x.dev with pending := x.dev.pending.erase r.idx.i0 }
        completed := x.completed ++ [x.ticket r.idx.i0] } := by
    rw [Disk.complete, hstatus]
  have hroom : U.length < NUM := by
    have hle := h.length_lt hd (l := []) h.nodup (by simp)
    have hpos : 0 < x.dev.pending.length := length_pos_of_mem hid
    rw [length_nil] at hle
    omega
  have hpp : x.dev.pending.Perm (r.idx.i0 :: x.dev.pending.erase r.idx.i0) :=
    perm_cons_erase hid
  have hmem : ∀ j V, j ∈ A ++ x.dev.pending.erase r.idx.i0 ++ (V ++ [r.idx.i0]) ↔
      j ∈ A ++ x.dev.pending ++ V := by
    intro j V
    simp only [mem_append, hpp.mem_iff, mem_cons, not_mem_nil, or_false]
    tauto
  have hperm : (A ++ x.dev.pending.erase r.idx.i0 ++ (U ++ [r.idx.i0])).Perm
      (A ++ x.dev.pending ++ U) := by
    have h₁ : (A ++ x.dev.pending ++ U).Perm
        (A ++ (r.idx.i0 :: x.dev.pending.erase r.idx.i0) ++ U) :=
      (hpp.append_left A).append_right U
    refine Perm.trans ?_ h₁.symm
    have h₂ : (A ++ r.idx.i0 :: (x.dev.pending.erase r.idx.i0 ++ U)).Perm
        (r.idx.i0 :: (A ++ (x.dev.pending.erase r.idx.i0 ++ U))) := perm_middle
    have h₃ := perm_append_singleton r.idx.i0 (A ++ x.dev.pending.erase r.idx.i0 ++ U)
    simpa using h₃.trans (by simpa using h₂.symm)
  rw [hcomplete]
  refine ⟨h.avail, h.availIdx, ?_, ?_, hperm.nodup_iff.mpr h.nodup, fun j hj => ?_,
    fun j hj => ?_, fun v r' hv => ?_, ?_, fun v hv => by simp⟩
  · dsimp only
    rw [h.usedIdx]
    exact h.used.push NUM_dvd hroom _
  · dsimp only
    rw [h.usedIdx, length_append, length_singleton, ofNat_succ_add, BitVec.add_assoc,
      BitVec.add_assoc, BitVec.add_comm 1]
  · exact h.owner j ((hmem j U).mp hj)
  · dsimp only
    rcases mem_append.mp hj with hj | hj
    · obtain ⟨h₁, h₂⟩ := h.status j hj
      refine ⟨?_, mem_append_left _ h₂⟩
      by_cases hj' : j = r.idx.i0
      · rw [hj', update_self]
      · rw [update_of_ne hj']
        exact h₁
    · rw [mem_singleton] at hj
      subst hj
      exact ⟨by rw [update_self], by simp⟩
  · dsimp only
    rw [drop_append_of_le_length h.mid.1, hmem]
    refine (h.flag v r' hv).imp id ?_
    rintro ⟨h₁, h₂, h₃⟩
    exact ⟨h₁, mem_append_left _ h₂, h₃⟩
  · refine ⟨?_, h.mid.2⟩
    have := h.mid.1
    rw [length_append]
    omega

end Rings

end Virtio

end Xv6
