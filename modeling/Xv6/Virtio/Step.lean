import Xv6.Virtio.Rings

/-!
# Every action keeps the invariant

One case for each action of the callers, the handlers and the device, and the consequence that none
of the `panic`s of the driver is reached.
-/

namespace Xv6

namespace Virtio

open Function List

variable {c : Idx} {i : ℕ}

/-- The links of a chain from `i` on lead to the rest of the chain. -/
lemma Disk.Linked.from_cases {x : Disk} (hnodup : c.list.Nodup)
    (hi : i ∈ c.list) (h : x.Linked (c.from i)) :
    (c.from i = [i] ∧ (x.desc i).flags &&& VRING_DESC_F_NEXT = 0) ∨
    ((x.desc i).flags &&& VRING_DESC_F_NEXT ≠ 0 ∧ (x.desc i).next ∈ c.list ∧
      c.from i = i :: c.from (x.desc i).next ∧ x.Linked (c.from (x.desc i).next)) := by
  obtain ⟨i0, i1, i2⟩ := c
  simp only [Idx.list, nodup_cons, mem_cons, not_mem_nil, or_false, not_or,
    not_false_eq_true, nodup_nil, and_true] at hnodup hi
  obtain ⟨⟨h01, h02⟩, h12⟩ := hnodup
  have from0 : Idx.from ⟨i0, i1, i2⟩ i0 = [i0, i1, i2] := by simp [Idx.from]
  have from1 : Idx.from ⟨i0, i1, i2⟩ i1 = [i1, i2] := by simp [Idx.from, h01]
  have from2 : Idx.from ⟨i0, i1, i2⟩ i2 = [i2] := by simp [Idx.from, h02, h12]
  rcases hi with rfl | rfl | rfl
  · rw [from0] at h ⊢
    refine Or.inr ⟨h.1, ?_⟩
    rw [h.2.1, from1]
    exact ⟨by simp, rfl, h.2.2⟩
  · rw [from1] at h ⊢
    refine Or.inr ⟨h.1, ?_⟩
    rw [h.2.1, from2]
    exact ⟨by simp, rfl, h.2.2⟩
  · rw [from2] at h ⊢
    exact Or.inl ⟨rfl, h⟩

/-- `format` writes a chain. -/
lemma Disk.format_formatted (x : Disk) (b : ℕ) (write : Bool) (h : c.list.Nodup) :
    (x.format b write c).Formatted c := by
  simp only [Idx.list, nodup_cons, mem_cons, not_mem_nil, or_false, not_or,
    not_false_eq_true, nodup_nil, and_true] at h
  obtain ⟨⟨h01, h02⟩, h12⟩ := h
  have h0 : (x.format b write c).desc c.i0 =
      { addr := .op c.i0, len := 16, flags := VRING_DESC_F_NEXT, next := c.i1 } := by
    simp [Disk.format, h01, h02]
  have h1 : (x.format b write c).desc c.i1 =
      { addr := .data b, len := BSIZE
        flags := (if write then 0 else VRING_DESC_F_WRITE) ||| VRING_DESC_F_NEXT
        next := c.i2 } := by
    simp [Disk.format, h12]
  have h2 : (x.format b write c).desc c.i2 =
      { addr := .status c.i0, len := 1, flags := VRING_DESC_F_WRITE, next := 0 } := by
    simp [Disk.format]
  refine ⟨⟨?_, ?_, ?_, ?_, ?_⟩, ?_⟩
  · rw [h0]
    dsimp only
    decide
  · rw [h0]
  · rw [h1]
    dsimp only
    cases write <;> decide
  · rw [h1]
  · rw [Disk.Linked, h2]
    dsimp only
    decide
  · rw [h2]

/-- `format` writes to the descriptors of the chain only. -/
lemma Disk.format_of_notMem (x : Disk) (b : ℕ) (write : Bool) (h : i ∉ c.list) :
    (x.format b write c).desc i = x.desc i ∧ (x.format b write c).info i = x.info i := by
  simp only [Idx.list, mem_cons, not_mem_nil, or_false, not_or] at h
  obtain ⟨h0, h1, h2⟩ := h
  simp [Disk.format, h0, h1, h2]

lemma Disk.format_info_b (x : Disk) (b : ℕ) (write : Bool) (c : Idx) (i : ℕ) :
    ((x.format b write c).info i).b = (x.info i).b := by
  by_cases hi : i = c.i0
  · simp [Disk.format, hi]
  · simp [Disk.format, hi]

lemma Disk.complete_fields (x : Disk) (id : ℕ) :
    (x.complete id).desc = x.desc ∧ (x.complete id).free = x.free ∧
      (x.complete id).buf = x.buf ∧ (x.complete id).avail = x.avail ∧
      (x.complete id).ticket = x.ticket ∧ (x.complete id).locked = x.locked ∧
      (x.complete id).nsub = x.nsub ∧ (x.complete id).completed = x.completed ++ [x.ticket id] ∧
      ∀ i, ((x.complete id).info i).b = (x.info i).b := by
  have hw : ∃ info, x.writeStatus id = { x with info := info } ∧
      ∀ i, (info i).b = (x.info i).b := by
    rw [Disk.writeStatus]
    split
    case h_1 j _ =>
      refine ⟨_, rfl, fun i => ?_⟩
      by_cases hi : i = j
      · rw [hi, update_self]
      · rw [update_of_ne hi]
    case h_2 => exact ⟨x.info, rfl, fun _ => rfl⟩
  obtain ⟨info, hw, hinfo⟩ := hw
  rw [Disk.complete, hw]
  exact ⟨rfl, rfl, rfl, rfl, rfl, rfl, rfl, rfl, hinfo⟩

namespace Inv

variable {x x' : Disk} {pcs : ℕ → Pc} {t : ℕ} {l l' : Pc}

/-- What the others have written stands if thread `t` keeps to its descriptors, and to the lock where
it changes buffers or the avail ring. -/
lemma here_update (h : Inv x pcs) (hself : l'.Here x')
    (hdesc : ∀ i, i ∉ (pcs t).held → x'.desc i = x.desc i)
    (hinfo : ∀ i, i ∉ (pcs t).held → (x'.info i).b = (x.info i).b)
    (hticket : ∀ i, i ∉ (pcs t).held → x'.ticket i = x.ticket i)
    (hcompleted : ∀ n ∈ x.completed, n ∈ x'.completed) (hnsub : x.nsub ≤ x'.nsub)
    (hlock : (∀ u, (pcs u).holds = true → u = t) ∨ (x'.buf = x.buf ∧ x'.avail = x.avail)) (u : ℕ) :
    (update pcs t l' u).Here x' := by
  by_cases hu : u = t
  · rw [hu, update_self]
    exact hself
  · rw [update_of_ne hu]
    have hnot : ∀ i ∈ (pcs u).held, i ∉ (pcs t).held :=
      fun i hi ht => hu (h.descs.disj u t i hi ht)
    refine (h.here u).congr (fun i hi => hdesc i (hnot i hi)) (fun i hi => hinfo i (hnot i hi))
      (fun i hi => hticket i (hnot i hi)) hcompleted hnsub fun hh => ?_
    rcases hlock with halone | heq
    · exact absurd (halone u hh) hu
    · exact heq

/-- An action that changes nothing but the position and which buffers are locked. -/
lemma lock (h : Inv x pcs) (hpc : pcs t = l) {f : ℕ → Bool}
    (hbufs : Bufs { x with locked := f } (update pcs t l')) (hheld : l'.held = l.held)
    (hwait : l'.waiting = l.waiting) (hmid : l'.mid = l.mid) (hself : l'.Here { x with locked := f })
    (hread : l' = .iRead → ∀ A U k, Rings x pcs A U k → U ≠ []) :
    Inv { x with locked := f } (update pcs t l') := by
  refine ⟨h.descs.keep hpc hheld rfl, hbufs, ?_, h.fresh, ?_⟩
  · exact h.here_update hself (fun _ _ => rfl) (fun _ _ => rfl) (fun _ _ => rfl) (fun _ => id) (Nat.le_refl _)
      (Or.inr ⟨rfl, rfl⟩)
  · obtain ⟨A, U, k, hr⟩ := h.rings
    exact ⟨A, U, k, hr.frame hr.avail rfl rfl rfl rfl (fun _ _ => rfl) rfl rfl (fun _ _ _ => rfl)
      hpc hwait hmid fun hl => hread hl A U k hr⟩

/-- An action that changes nothing but the position. -/
lemma goto (h : Inv x pcs) (hpc : pcs t = l) (hheld : l'.held = l.held) (hbuf : l'.buf = l.buf)
    (hwait : l'.waiting = l.waiting) (hmid : l'.mid = l.mid) (hself : l'.Here x)
    (hread : l' = .iRead → ∀ A U k, Rings x pcs A U k → U ≠ []) :
    Inv x (update pcs t l') :=
  h.lock hpc (h.bufs.keep hpc hbuf rfl) hheld hwait hmid hself hread

/-- The actions on the table of descriptors. -/
lemma descAction (h : Inv x pcs) (hd : Descs x' (update pcs t l')) (hpc : pcs t = l)
    (hbuf : l'.buf = l.buf) (hwait : l.waiting = none) (hwait' : l'.waiting = none)
    (hmid : l.mid = false) (hmid' : l'.mid = false) (hread : l' ≠ .iRead)
    (hself : l'.Here x') (hdesc : ∀ i, i ∉ (pcs t).held → x'.desc i = x.desc i)
    (hrest : x' = { x with desc := x'.desc, free := x'.free }) :
    Inv x' (update pcs t l') := by
  refine ⟨hd, h.bufs.keep hpc hbuf (by rw [hrest]), ?_, by rw [hrest]; exact h.fresh, ?_⟩
  · exact h.here_update hself hdesc (fun i _ => by rw [hrest]) (fun i _ => by rw [hrest])
      (fun n hn => by rw [hrest]; exact hn) (Nat.le_of_eq (by rw [hrest])) 
      (Or.inr ⟨by rw [hrest], by rw [hrest]⟩)
  · obtain ⟨A, U, k, hr⟩ := h.rings
    refine ⟨A, U, k, hr.frame ?_ ?_ ?_ ?_ ?_ ?_ ?_ ?_ ?_ hpc (hwait'.trans hwait.symm)
      (hmid'.trans hmid.symm) fun hl => absurd hl hread⟩
    · rw [hrest]
      exact hr.avail
    all_goals rw [hrest]
    all_goals intros
    all_goals rfl

variable {i b : ℕ} {r : Req} {c : Idx} {a : Chans}

section

variable (h : Inv x pcs)
include h

lemma alloc (hx : x.allocDesc = some (i, x')) (hpc : pcs t = l)
    (hheld : l'.held = l.held ++ [i]) (hbuf : l'.buf = l.buf)
    (hwait : l.waiting = none) (hwait' : l'.waiting = none)
    (hmid : l.mid = false) (hmid' : l'.mid = false) (hread : l' ≠ .iRead)
    (hself : l'.Here x') : Inv x' (update pcs t l') := by
  obtain ⟨hi, hf, rfl⟩ := Disk.allocDesc_some hx
  exact h.descAction (h.descs.alloc hi hf (hpc ▸ hheld) rfl) hpc hbuf hwait hwait' hmid hmid' hread hself
    (fun _ _ => rfl) rfl

lemma free (hx : x.freeDesc i = .ok x') (hpc : pcs t = l)
    (hheld : l.held = i :: l'.held) (hbuf : l'.buf = l.buf)
    (hwait : l.waiting = none) (hwait' : l'.waiting = none)
    (hmid : l.mid = false) (hmid' : l'.mid = false) (hread : l' ≠ .iRead)
    (hself : l'.Here x') : Inv x' (update pcs t l') := by
  obtain ⟨-, -, rfl⟩ := Disk.freeDesc_ok hx
  refine h.descAction (h.descs.free (hpc ▸ hheld) rfl) hpc hbuf hwait hwait' hmid hmid' hread hself
    (fun j hj => ?_) rfl
  have hne : j ≠ i := by
    rintro rfl
    rw [hpc, hheld] at hj
    exact hj mem_cons_self
  exact update_of_ne hne ..

/-- The buffer of another caller. -/
lemma buf_ne {u : ℕ} (ht : (pcs t).buf = some b)
    (hwait : (pcs t).waiting = none) (hu : (pcs u).waiting = some r) : r.b ≠ b := by
  rintro rfl
  obtain rfl := h.bufs.unique t u r.b ht (Pc.buf_of_waiting hu)
  rw [hwait] at hu
  exact absurd hu (by simp)

/-- What a handler finds: the entry belongs to a request that has completed and whose caller
waits. -/
lemma found (ht : pcs t = .iRead) :
    ∃ u r, (pcs u).waiting = some r ∧ r.idx.i0 = x.usedId ∧ (x.info x.usedId).b = some r.b ∧
      (x.info x.usedId).status = 0 ∧ x.ticket x.usedId = r.n ∧ r.n ∈ x.completed := by
  obtain ⟨A, U, k, hr⟩ := h.rings
  obtain ⟨V, u, r, hV, hw, hid⟩ := hr.usedId (hr.reading t ht)
  obtain ⟨-, hb, hn, -⟩ := (h.here u).of_waiting hw
  rw [hid] at hb hn
  obtain ⟨hstatus, hcompleted⟩ := hr.status x.usedId (by rw [hV]; exact mem_cons_self)
  exact ⟨u, r, hw, hid, hb, hstatus, hn, hn ▸ hcompleted⟩

lemma format {write : Bool} (ht : pcs t = .rFormat b write c) :
    Inv (x.format b write c) (update pcs t (.rInfo b c)) := by
  have hheld : (pcs t).held = c.list := by rw [ht]; rfl
  have hnodup := h.descs.nodup t
  rw [hheld] at hnodup
  refine ⟨h.descs.keep ht rfl rfl, h.bufs.keep ht rfl rfl, ?_, h.fresh, ?_⟩
  · refine h.here_update (Disk.format_formatted x b write hnodup) (fun i hi => ?_)
      (fun i _ => Disk.format_info_b ..) (fun _ _ => rfl) (fun _ => id) (Nat.le_refl _) (Or.inr ⟨rfl, rfl⟩)
    exact (Disk.format_of_notMem x b write (hheld ▸ hi)).1
  · obtain ⟨A, U, k, hr⟩ := h.rings
    refine ⟨A, U, k, hr.frame hr.avail rfl rfl rfl rfl (fun id hid => ?_) rfl rfl
      (fun _ _ _ => rfl) ht rfl rfl (fun hl => by cases hl)⟩
    have hne : id ∉ c.list := fun hmem => hr.notMem h.descs (t := t) (by rw [hheld]; exact hmem)
      (by rw [ht]; rfl) (mem_append_right _ hid)
    rw [(Disk.format_of_notMem x b write hne).2]

lemma info (ht : pcs t = .rInfo b c) (halone : ∀ u, (pcs u).holds = true → u = t) :
    Inv ((x.setDisk b 1).setInfo c.i0 (some b)) (update pcs t (.rRing b c)) := by
  have hhere := h.here t
  rw [ht] at hhere
  have hinfo : ∀ i, i ≠ c.i0 → ((x.setDisk b 1).setInfo c.i0 (some b)).info i = x.info i :=
    fun i hi => update_of_ne hi ..
  refine ⟨h.descs.keep ht rfl rfl, h.bufs.keep ht rfl rfl, ?_, h.fresh, ?_⟩
  · refine h.here_update ⟨Disk.Formatted.congr hhere fun _ _ => rfl, ?_, ?_⟩ (fun _ _ => rfl)
      (fun i hi => ?_) (fun _ _ => rfl) (fun _ => id) (Nat.le_refl _) (Or.inl halone)
    · simp [Disk.setInfo]
    · simp [Disk.setInfo, Disk.setDisk]
    · rw [hinfo i fun hi' => hi (by rw [ht, hi']; simp)]
  · obtain ⟨A, U, k, hr⟩ := h.rings
    refine ⟨A, U, k, hr.frame hr.avail rfl rfl rfl rfl (fun id hid => ?_) rfl rfl
      (fun u r hu => ?_) ht rfl rfl (fun hl => by cases hl)⟩
    · rw [hinfo id fun hid' => hr.notMem h.descs (t := t) (i := id) (by rw [ht, hid']; simp)
        (by rw [ht]; rfl) (mem_append_right _ hid)]
    · have hne : r.b ≠ b := h.buf_ne (t := t) (by rw [ht]; rfl) (by rw [ht]; rfl) hu
      change (update x.buf b _ r.b).disk = _
      rw [update_of_ne hne]

lemma ring (ht : pcs t = .rRing b c) (halone : ∀ u, (pcs u).holds = true → u = t) :
    Inv (x.setRing c.i0) (update pcs t (.rIdx b c)) := by
  have hhere := h.here t
  rw [ht] at hhere
  refine ⟨h.descs.keep ht rfl rfl, h.bufs.keep ht rfl rfl, ?_, h.fresh, ?_⟩
  · refine h.here_update ⟨hhere.1.congr fun _ _ => rfl, hhere.2.1, hhere.2.2, ?_⟩
      (fun _ _ => rfl) (fun _ _ => rfl) (fun _ _ => rfl) (fun _ => id) (Nat.le_refl _) (Or.inl halone)
    exact update_self ..
  · obtain ⟨A, U, k, hr⟩ := h.rings
    refine ⟨A, U, k, hr.frame ?_ rfl rfl rfl rfl (fun _ _ => rfl) rfl rfl
      (fun _ _ _ => rfl) ht rfl rfl (fun hl => by cases hl)⟩
    have hroom := hr.room h.descs (t := t) (i := c.i0) (by rw [ht]; simp) (by rw [ht]; rfl)
    have hstore := hr.avail.store NUM_dvd hroom c.i0
    rw [← hr.availIdx] at hstore
    exact hstore

lemma submit (ht : pcs t = .rIdx b c) (halone : ∀ u, (pcs u).holds = true → u = t) :
    Inv (x.submit c.i0) (update pcs t (.wTest ⟨b, c, x.nsub⟩)) := by
  have hhere := h.here t
  rw [ht] at hhere
  refine ⟨h.descs.keep ht rfl rfl, h.bufs.keep ht rfl rfl, ?_,
    fun m hm => Nat.lt_succ_of_lt (h.fresh m hm), ?_⟩
  · refine h.here_update ⟨hhere.1.congr fun _ _ => rfl, hhere.2.1, update_self ..,
        Nat.lt_succ_self _⟩
      (fun _ _ => rfl) (fun _ _ => rfl) (fun i hi => ?_) (fun _ => id) (Nat.le_succ _) (Or.inl halone)
    have hne : i ≠ c.i0 := fun hi' => hi (by rw [ht, hi']; simp)
    exact update_of_ne hne ..
  · obtain ⟨A, U, k, hr⟩ := h.rings
    exact ⟨A ++ [c.i0], U, k, hr.submit h.descs ht (h.here t)⟩

lemma done (ht : pcs t = .wTest r) (hflag : (x.buf r.b).disk ≠ 1)
    (halone : ∀ u, (pcs u).holds = true → u = t) :
    Inv x (update pcs t (.wDone r)) := by
  have hhere := h.here t
  rw [ht] at hhere
  obtain ⟨A, U, k, hr⟩ := h.rings
  obtain ⟨hr', hn⟩ := hr.leave (t := t) (.wDone r) (by rw [ht]; rfl)
    (hr.mid_eq_zero halone (by rw [ht]; rfl)) hflag rfl rfl (by simp)
  refine ⟨h.descs.keep ht rfl rfl, h.bufs.keep ht rfl rfl, ?_, h.fresh,
    ⟨A, U, k, hr'⟩⟩
  exact h.here_update ⟨hhere.1, hn⟩ (fun _ _ => rfl) (fun _ _ => rfl) (fun _ _ => rfl)
    (fun _ => id) (Nat.le_refl _) (Or.inr ⟨rfl, rfl⟩)

lemma clear (ht : pcs t = .wDone r) :
    Inv (x.setInfo r.idx.i0 none) (update pcs t (.fChain r r.idx.i0)) := by
  have hhere := h.here t
  have hnodup := h.descs.nodup t
  rw [ht] at hhere hnodup
  have hfrom : r.idx.from r.idx.i0 = r.idx.list := by simp [Idx.from]
  have hinfo : ∀ i, i ≠ r.idx.i0 → (x.setInfo r.idx.i0 none).info i = x.info i :=
    fun i hi => update_of_ne hi ..
  refine ⟨h.descs.keep ht hfrom rfl, h.bufs.keep ht rfl rfl, ?_, h.fresh, ?_⟩
  · refine h.here_update ⟨hnodup, by simp, ?_, hhere.2⟩ (fun _ _ => rfl) (fun i hi => ?_)
      (fun _ _ => rfl) (fun _ => id) (Nat.le_refl _) (Or.inr ⟨rfl, rfl⟩)
    · rw [hfrom]
      exact hhere.1.1.congr fun _ _ => rfl
    · rw [hinfo i fun hi' => hi (by rw [ht, hi']; simp)]
  · obtain ⟨A, U, k, hr⟩ := h.rings
    refine ⟨A, U, k, hr.frame hr.avail rfl rfl rfl rfl (fun id hid => ?_) rfl rfl
      (fun _ _ _ => rfl) ht rfl rfl (fun hl => by cases hl)⟩
    rw [hinfo id fun hid' => hr.notMem h.descs (t := t) (i := id) (by rw [ht, hid']; simp)
      (by rw [ht]; rfl) (mem_append_right _ hid)]

lemma freeChain (ht : pcs t = .fChain r i) (hx : x.freeDesc i = .ok x') :
    Inv x' (update pcs t (.fWake r (if (x.desc i).flags &&& VRING_DESC_F_NEXT ≠ 0
      then some (x.desc i).next else none))) := by
  have hhere := h.here t
  have hnodupFrom := h.descs.nodup t
  rw [ht] at hhere hnodupFrom
  obtain ⟨hnodup, hi, hlinked, hn⟩ := hhere
  obtain ⟨-, -, hx'⟩ := Disk.freeDesc_ok hx
  have hcompleted : r.n ∈ x'.completed := by rw [hx']; exact hn
  rcases hlinked.from_cases hnodup hi with ⟨hfrom, hflag⟩ | ⟨hflag, hmem, hfrom, hrest⟩
  · rw [if_neg (not_not.mpr hflag)]
    exact h.free hx ht hfrom rfl rfl rfl rfl rfl (by simp) hcompleted
  · rw [if_pos hflag]
    refine h.free hx ht hfrom rfl rfl rfl rfl rfl (by simp) ⟨hnodup, hmem, hrest.congr fun j hj => ?_, hcompleted⟩
    have hne : j ≠ i := by
      rintro rfl
      rw [Pc.held, hfrom, nodup_cons] at hnodupFrom
      exact hnodupFrom.1 hj
    rw [hx']
    exact update_of_ne hne ..

lemma read (ht : pcs t = .iRead) (hb : (x.info x.usedId).b = some b)
    (halone : ∀ u, (pcs u).holds = true → u = t) :
    Inv (x.setDisk b 0) (update pcs t (.iWake b)) := by
  obtain ⟨u, r, hw, hid, hrb, -, hn, -⟩ := h.found ht
  obtain rfl : r.b = b := Option.some.inj (hrb.symm.trans hb)
  obtain ⟨A, U, k, hr⟩ := h.rings
  obtain ⟨rfl, -⟩ := hr.mid_eq_zero halone (by rw [ht]; rfl)
  refine ⟨h.descs.keep ht rfl rfl, h.bufs.keep ht rfl rfl, ?_, h.fresh,
    ⟨A, U, 1, hr.read h.descs h.bufs hw hid hn (hr.reading t ht) (by rw [ht]; rfl)⟩⟩
  exact h.here_update trivial (fun _ _ => rfl) (fun _ _ => rfl) (fun _ _ => rfl) (fun _ => id) (Nat.le_refl _)
    (Or.inl halone)

lemma next (ht : pcs t = .iNext) (halone : ∀ u, (pcs u).holds = true → u = t) :
    Inv { x with usedIdx := x.usedIdx + 1 } (update pcs t .iTest) := by
  refine ⟨h.descs.keep ht rfl rfl, h.bufs.keep ht rfl rfl, ?_, h.fresh, ?_⟩
  · exact h.here_update trivial (fun _ _ => rfl) (fun _ _ => rfl) (fun _ _ => rfl) (fun _ => id) (Nat.le_refl _)
      (Or.inr ⟨rfl, rfl⟩)
  · obtain ⟨A, U, k, hr⟩ := h.rings
    exact ⟨A, U.tail, 0, hr.next ht halone⟩

/-- The device moves nobody. -/
lemma device (hd : x'.free = x.free) (hlocked : x'.locked = x.locked)
    (hdesc : x'.desc = x.desc) (hinfo : ∀ i, (x'.info i).b = (x.info i).b)
    (hticket : x'.ticket = x.ticket) (hcompleted : ∀ n ∈ x.completed, n ∈ x'.completed)
    (hbuf : x'.buf = x.buf) (havail : x'.avail = x.avail) (hnsub : x'.nsub = x.nsub)
    (hfresh : ∀ m ∈ x'.completed, m < x'.nsub)
    (hrings : ∃ A U k, Rings x' pcs A U k) : Inv x' pcs := by
  have hself : update pcs 0 (pcs 0) = pcs := update_eq_self ..
  refine ⟨hself ▸ h.descs.keep (t := 0) rfl rfl hd, hself ▸ h.bufs.keep (t := 0) rfl rfl hlocked,
    fun u => ?_, hfresh, hrings⟩
  exact (h.here u).congr (fun i _ => by rw [hdesc]) (fun i _ => hinfo i)
    (fun i _ => by rw [hticket]) hcompleted (Nat.le_of_eq hnsub.symm) fun _ => ⟨hbuf, havail⟩

/-- Every action keeps the invariant. -/
theorem act (hact : Act (pcs t) x l' x')
    (halone : (pcs t).holds = true → ∀ u, (pcs u).holds = true → u = t) :
    Inv x' (update pcs t l') := by
  generalize hpc : pcs t = l at hact
  have hhere := h.here t
  rw [hpc] at hhere halone
  cases hact with
  | call b write _ hb =>
    exact h.lock hpc (h.bufs.call hb rfl rfl) rfl rfl rfl trivial (fun hl => by cases hl)
  | fail b write idx | undone b write | wait r | irq | noMore =>
    first
    | exact h.goto hpc rfl rfl rfl rfl trivial (fun hl => by cases hl)
    | exact h.goto hpc rfl rfl rfl rfl hhere (fun hl => by cases hl)
  | alloc b write idx i _ _ hlen hx =>
    refine h.alloc hx hpc rfl rfl rfl rfl rfl rfl (by simp) ?_
    change (idx ++ [i]).length ≤ 2
    rw [length_append, length_singleton]
    omega
  | alloc3 b write i0 i1 l i _ _ hx =>
    obtain rfl : l = [] := eq_nil_of_length_eq_zero (by
      have : (i0 :: i1 :: l).length ≤ 2 := hhere
      simpa using this)
    exact h.alloc hx hpc rfl rfl rfl rfl rfl rfl (by simp) trivial
  | undo b write j js _ _ hx =>
    exact h.free hx hpc rfl rfl rfl rfl rfl rfl (by simp) trivial
  | format b write c => exact h.format hpc
  | info b c => exact h.info hpc (halone rfl)
  | ring b c => exact h.ring hpc (halone rfl)
  | submit b c => exact h.submit hpc (halone rfl)
  | done r _ hflag => exact h.done hpc hflag (halone rfl)
  | clear r => exact h.clear hpc
  | freeChain r i _ _ hx => exact h.freeChain hpc hx
  | ret r =>
    exact h.lock hpc (h.bufs.ret (by rw [hpc]; rfl) rfl rfl) rfl rfl rfl trivial
      (fun hl => by cases hl)
  | more _ hmore =>
    refine h.goto hpc rfl rfl rfl rfl trivial fun _ A U k hr hU => hmore ?_
    have := hr.usedIdx
    rw [hU, length_nil, BitVec.add_zero] at this
    exact this.symm
  | read b _ hb => exact h.read hpc hb (halone rfl)
  | next => exact h.next hpc (halone rfl)
  | consume _ hne =>
    rw [show update pcs t .dev = pcs by rw [← hpc, update_eq_self]]
    obtain ⟨A, U, k, hr⟩ := h.rings
    exact h.device rfl rfl rfl (fun _ => rfl) rfl (fun _ => id) rfl rfl rfl h.fresh
      ⟨A.tail, U, k, hr.consume hne⟩
  | complete id _ hid =>
    rw [show update pcs t .dev = pcs by rw [← hpc, update_eq_self]]
    obtain ⟨A, U, k, hr⟩ := h.rings
    obtain ⟨h₁, h₂, h₃, h₄, h₅, h₆, h₇, h₈, h₉⟩ := x.complete_fields id
    refine h.device h₂ h₆ h₁ h₉ h₅ (fun n hn => by rw [h₈]; exact mem_append_left _ hn) h₃ h₄
      h₇ (fun m hm => ?_) ⟨A, U ++ [id], k, hr.complete h.descs h.here hid⟩
    rw [h₈, mem_append, mem_singleton] at hm
    rw [h₇]
    rcases hm with hm | rfl
    · exact h.fresh m hm
    · obtain ⟨u, r, hw, rfl⟩ := hr.owner id (by simp [hid])
      obtain ⟨-, -, hn, hlt⟩ := (h.here u).of_waiting hw
      rw [hn]
      exact hlt

/-- The other instructions keep it too. -/
lemma next_instr (hnext : (code a (pcs t)).Next l') : Inv x (update pcs t l') := by
  have hhere := h.here t
  generalize hpc : pcs t = l at hnext
  rw [hpc] at hhere
  cases l with
  | rAcquire b write =>
    cases hnext
    exact h.goto hpc rfl rfl rfl rfl (Nat.zero_le 2) (fun hl => by cases hl)
  | rUndo b write js => cases js <;> exact hnext.elim
  | fWake r o =>
    cases o <;> cases hnext
    all_goals
      exact h.goto hpc rfl rfl rfl rfl hhere (fun hl => by cases hl)
  | wPrepare r | wUnlock r | wSleep r | wAcquire r | rRelease r =>
    cases hnext
    exact h.goto hpc rfl rfl rfl rfl hhere (fun hl => by cases hl)
  | rUndoWake | rPrepare | rUnlock | rSleep | iAcquire | iWake | iRelease =>
    cases hnext
    exact h.goto hpc rfl rfl rfl rfl trivial (fun hl => by cases hl)
  | _ => exact hnext.elim

/-- The panics of the driver are not reached. -/
lemma not_panic {f : Disk → Choice → Outcome Disk Pc} {ch : Choice} {msg : String}
    (hf : code a (pcs t) = .act f) : f x ch ≠ .panic msg := by
  have hok : ∀ i ∈ (pcs t).held, ∃ x', x.freeDesc i = .ok x' := by
    intro i hi
    obtain ⟨hlt, hfree⟩ := h.descs.used t i hi
    rw [Disk.freeDesc, if_neg (by omega), if_neg (by simp [hfree])]
    exact ⟨_, rfl⟩
  have hhere := h.here t
  intro hx
  generalize hpc : pcs t = l at hf
  rw [hpc] at hok hhere
  cases l with
  | out =>
    cases hf
    cases ch with
    | rw b write =>
      dsimp only at hx
      split at hx <;> cases hx
    | _ => cases hx
  | rAlloc b write idx =>
    cases hf
    dsimp only at hx
    split at hx
    · cases hx
    · split at hx <;> cases hx
  | rUndo b write js =>
    cases js with
    | nil =>
      cases hf
      cases hx
    | cons j js =>
      cases hf
      obtain ⟨x', hj⟩ := hok j (by simp)
      dsimp only at hx
      rw [hj] at hx
      cases hx
  | wTest | iTest =>
    cases hf
    dsimp only at hx
    split at hx <;> cases hx
  | fChain r i =>
    cases hf
    obtain ⟨hnodup, hi, hlinked, -⟩ := hhere
    have hmem : i ∈ r.idx.from i := by
      rcases hlinked.from_cases hnodup hi with ⟨hfrom, -⟩ | ⟨-, -, hfrom, -⟩
      all_goals
        rw [hfrom]
        exact mem_cons_self
    obtain ⟨x', hj⟩ := hok i hmem
    dsimp only at hx
    rw [hj] at hx
    cases hx
  | iRead =>
    cases hf
    obtain ⟨u, r, -, -, hb, hstatus, -⟩ := h.found hpc
    dsimp only [intr] at hx
    rw [if_neg (not_not.mpr hstatus), hb] at hx
    cases hx
  | dev =>
    cases hf
    cases ch with
    | consume | complete id =>
      dsimp only [Virtio.device] at hx
      split at hx <;> cases hx
    | _ => cases hx
  | fWake r o => cases o <;> cases hf
  | rFormat | rInfo | rRing | rIdx | wDone | rReturn | iOut | iNext =>
    cases hf
    cases hx
  | _ => cases hf

end

end Inv

end Virtio

end Xv6
