import Xv6.Fs.Dir

/-!
# A directory over time

Entries are added with `dirlink` and cleared as `sys_unlink` does it.  Whatever the order, and whatever
else happens to the file system in between, no name is in two entries.
-/

namespace Xv6

/-- The entry at `off` is in use and has the name and the inode number. -/
def Fs.LiveAt (s : Fs) (k off : ℕ) (name : List Byte) (inum : ℕ) : Prop :=
  ∃ i < s.entries k, off = DIRENT * i ∧ s.entry k i = some (name, inum)

/-- A change to directory `k`, in a transaction of its own, or anything else that leaves its contents
alone. -/
inductive DirStep (k : ℕ) (s : Fs) : Fs → Prop
  | link {s' : Fs} (name : Bytes) (inum : ℕ) (hpos : 0 < inum) (hlt : inum < 2 ^ 16) (r : ℤ)
    (h : transaction (dirlink k name inum) s = .ok (r, s')) : DirStep k s s'
  | clear {s' : Fs} (off : ℕ) (name : List Byte) (inum : ℕ) (hlive : s.LiveAt k off name inum)
    (h : transaction (clearDirent k off) s = .ok ((), s')) : DirStep k s s'
  | other {s' : Fs} (hidle : Idle s') (hdir : IsDir s' k) (h : s'.contents k = s.contents k) :
    DirStep k s s'

/-- What holds of a directory between the changes. -/
structure DirInv (s : Fs) (k : ℕ) : Prop where
  idle : Idle s
  dir : IsDir s k
  distinct : (s.entry k).Distinct (s.entries k)

section Contents

variable {s s' : Fs} {k : ℕ}

lemma Fs.size_of_contents (h : s'.contents k = s.contents k) : s'.size k = s.size k := by
  have := congrArg List.length h
  rwa [length_contents, length_contents] at this

/-- The entries are in the contents. -/
lemma Fs.entry_of_contents (hd : IsDir s k) (h : s'.contents k = s.contents k) {i : ℕ}
    (hi : i < s.entries k) : s'.entry k i = s.entry k i := by
  have hde : DIRENT = 16 := rfl
  have hsize := hd.size
  refine direntEntry_congr fun j hj => ?_
  have hlt : DIRENT * i + j < s.size k := by
    rw [hsize, hde]
    rw [hde] at hj
    omega
  have hget := congrArg (fun l : List Byte => l[DIRENT * i + j]?) h
  simp only [getElem?_contents, size_of_contents h, if_pos hlt] at hget
  exact Option.some.inj hget

lemma Fs.entries_of_contents (h : s'.contents k = s.contents k) : s'.entries k = s.entries k := by
  rw [entries, entries, size_of_contents h]

lemma DirInv.of_contents (hinv : DirInv s k) (hidle : Idle s') (hdir : IsDir s' k)
    (h : s'.contents k = s.contents k) : DirInv s' k := by
  refine ⟨hidle, hdir, ?_⟩
  rw [Fs.entries_of_contents h]
  exact hinv.distinct.congr fun i hi => Fs.entry_of_contents hinv.dir h hi

lemma Fs.liveAt_iff (hinv : (s.entry k).Distinct (s.entries k)) {off inum : ℕ} {name : List Byte} :
    s.LiveAt k off name inum ↔ ∃ i, s.lookup k name = some (i, inum) ∧ off = DIRENT * i := by
  constructor
  · rintro ⟨i, hi, hoff, hentry⟩
    exact ⟨i, (Slots.find_eq_some_iff hinv).mpr ⟨hi, hentry⟩, hoff⟩
  · rintro ⟨i, hlook, hoff⟩
    obtain ⟨hi, hentry⟩ := (Slots.find_eq_some_iff hinv).mp hlook
    exact ⟨i, hi, hoff, hentry⟩

end Contents

/-- The result of `dirlink`: it fails if the name is there or there is no room, and nothing changes
then; otherwise the entry is stored. -/
structure DirlinkResult (s : Fs) (k : ℕ) (name : Bytes) (inum : ℕ) (r : ℤ) (s' : Fs) : Prop where
  fails : r = -1 ↔ (∃ off i, s.LiveAt k off (cname name) i) ∨ s.AtMax k ∨
    s.NoBlock k (DIRENT * s.freeEntry k / BSIZE)
  unchanged : r = -1 → s'.contents k = s.contents k
  success : r ≠ -1 → r = 0
  found : r = 0 → s'.LiveAt k (DIRENT * s.freeEntry k) (cname name) inum
  others : r = 0 → ∀ off name' i, name' ≠ cname name →
    (s'.LiveAt k off name' i ↔ s.LiveAt k off name' i)
  -- a free entry is used before the directory grows
  reuse : r = 0 → (∃ i < s.entries k, s.entry k i = none) →
    s.freeEntry k < s.entries k ∧ s.entry k (s.freeEntry k) = none ∧ s'.size k = s.size k
  grows : r = 0 → (¬∃ i < s.entries k, s.entry k i = none) → s'.size k = s.size k + DIRENT
  size : s'.size k % DIRENT = 0

section Step

variable {s s' : Fs} {k : ℕ}

lemma IsDir.of_same (h : IsDir s k) (hs : s.Same s') : IsDir s' k :=
  h.congr hs.img hs.sb (by rw [hs.inode])

variable {name : Bytes} {r : ℤ}

lemma DirLinked.isDir {inum : ℕ} (hd : IsDir s k)
    (h : DirLinked s k name inum r s') : IsDir s' k ∧ if r = -1 then s'.contents k = s.contents k
      else EntrySet s s' k (s.freeEntry k) (dirent inum name) := by
  have hle : s.freeEntry k ≤ s.entries k := Slots.free_le _ _
  cases h with
  | present hlook hlike =>
    have hinode := hlike.inode_eq hd.ref
    refine ⟨hd.congr hlike.img hlike.sb hinode, ?_⟩
    rw [if_pos rfl, Fs.contents, Fs.contents, Fs.byte_congr hlike.img hinode, Fs.size, hinode]
    rfl
  | atMax hlook hmax =>
    rw [if_pos rfl]
    exact ⟨hd, rfl⟩
  | noBlock hlook hmax hblock hw =>
    obtain ⟨hd', hc⟩ := hd.written hw (Or.inl rfl) hle
    rw [if_pos rfl] at hc
    rw [if_pos rfl]
    exact ⟨hd', hc⟩
  | stored hlook hmax hblock hw =>
    obtain ⟨hd', hc⟩ := hd.written hw (Or.inr rfl) hle
    rw [if_neg (by decide)] at hc
    rw [if_neg (by decide)]
    exact ⟨hd', hc⟩

lemma DirLinked.logs {inum : ℕ} (h : DirLinked s k name inum r s') :
    ∃ B, Logs s s' B := by
  cases h with
  | present hlook hlike => exact ⟨_, hlike.logs⟩
  | atMax hlook hmax => exact ⟨_, Logs.refl s⟩
  | noBlock hlook hmax hblock hw => exact ⟨_, hw.toLogs⟩
  | stored hlook hmax hblock hw => exact ⟨_, hw.toLogs⟩

lemma DirLinked.fails_iff {inum : ℕ} (h : DirLinked s k name inum r s') :
    (r = -1 ↔ s.lookup k (cname name) ≠ none ∨ s.AtMax k ∨
      s.NoBlock k (DIRENT * s.freeEntry k / BSIZE)) ∧ (r ≠ -1 → r = 0) := by
  cases h with
  | present hlook hlike => exact ⟨iff_of_true rfl (Or.inl hlook), fun hc => absurd rfl hc⟩
  | atMax hlook hmax => exact ⟨iff_of_true rfl (Or.inr (Or.inl hmax)), fun hc => absurd rfl hc⟩
  | noBlock hlook hmax hblock hw =>
    exact ⟨iff_of_true rfl (Or.inr (Or.inr hblock)), fun hc => absurd rfl hc⟩
  | stored hlook hmax hblock hw =>
    refine ⟨iff_of_false (by decide) ?_, fun _ => rfl⟩
    rintro (hc | hc | hc)
    · exact hc hlook
    · exact hmax hc
    · exact hblock hc

/-- What `dirlink` does to the entries. -/
lemma DirLinked.result {inum : ℕ} (hd : IsDir s k)
    (hdist : (s.entry k).Distinct (s.entries k)) (hpos : 0 < inum) (hlt : inum < 2 ^ 16)
    (h : DirLinked s k name inum r s') :
    (s'.entry k).Distinct (s'.entries k) ∧ DirlinkResult s k name inum r s' := by
  obtain ⟨hd', hchange⟩ := h.isDir hd
  obtain ⟨hfails, hzero⟩ := h.fails_iff
  have hpresent : (∃ off i, s.LiveAt k off (cname name) i) ↔ s.lookup k (cname name) ≠ none := by
    simp only [Fs.liveAt_iff hdist, ne_eq, Option.eq_none_iff_forall_not_mem, not_forall, not_not]
    exact ⟨fun ⟨_, i, j, hj, _⟩ => ⟨(j, i), hj⟩, fun ⟨⟨j, i⟩, hj⟩ => ⟨_, i, j, hj, rfl⟩⟩
  have hmod : s'.size k % DIRENT = 0 := by
    rw [hd'.size]
    exact Nat.mul_mod_right ..
  by_cases hr : r = -1
  · rw [if_pos hr] at hchange
    subst hr
    refine ⟨?_, by rw [hpresent]; exact hfails, fun _ => hchange, hzero, ?_, ?_, ?_, ?_, hmod⟩
    · rw [Fs.entries_of_contents hchange]
      exact hdist.congr fun i hi => Fs.entry_of_contents hd hchange hi
    all_goals exact fun h0 => absurd h0 (by decide)
  · rw [if_neg hr] at hchange
    obtain rfl := hzero hr
    have hnone : s.lookup k (cname name) = none := by
      by_contra hc
      exact hr (hfails.mpr (Or.inl hc))
    have hle : s.freeEntry k ≤ s.entries k := Slots.free_le _ _
    have hstore := hchange.store hd hpos hlt hle Slots.free_eq_none
    have hdist' := hstore.distinct hdist hnone
    have hsize := hchange.size
    have hsz := hd.size
    have hde : DIRENT = 16 := rfl
    refine ⟨hdist', by rw [hpresent]; exact hfails, fun h0 => absurd h0 hr, hzero, fun _ => ?_,
      fun _ off name' i hname => ?_, fun _ hfree => ?_, fun _ hfree => ?_, hmod⟩
    · exact (Fs.liveAt_iff hdist').mpr ⟨_, hstore.find_self hdist', rfl⟩
    · rw [Fs.liveAt_iff hdist', Fs.liveAt_iff hdist, Fs.lookup, Fs.lookup,
        hstore.find_of_ne hdist hdist' hname]
    · obtain ⟨i, hi, hnone⟩ := hfree
      have hlt : s.freeEntry k < s.entries k := by
        by_contra hge
        exact Slots.used_of_lt_free (show i < s.freeEntry k by omega) hnone
      refine ⟨hlt, Slots.free_eq_none hlt, ?_⟩
      rw [hsize, hsz, hde]
      omega
    · have heq : s.freeEntry k = s.entries k := by
        by_contra hne
        have hlt : s.freeEntry k < s.entries k := by omega
        exact hfree ⟨_, hlt, Slots.free_eq_none hlt⟩
      rw [hsize, heq, hsz]
      omega

end Step

/-! ## Between transactions -/

section Between

variable {s s' : Fs} {k : ℕ}

section

variable (h : s.Same s')
include h

lemma Fs.Same.work (k : ℕ) : s'.work k = s.work k := by
  rw [Fs.work, Fs.work, h.img, h.inode]

lemma Fs.Same.entry (k : ℕ) : s'.entry k = s.entry k := by
  unfold Fs.entry Fs.byte
  rw [h.work, h.inode]

lemma Fs.Same.entries (k : ℕ) : s'.entries k = s.entries k := by
  rw [Fs.entries, Fs.entries, h.size]

lemma Fs.Same.freeEntry (k : ℕ) : s'.freeEntry k = s.freeEntry k := by
  rw [Fs.freeEntry, Fs.freeEntry, h.entry, h.entries]

lemma Fs.Same.noBlock (k bn : ℕ) : s'.NoBlock k bn ↔ s.NoBlock k bn := by
  unfold Fs.NoBlock Fs.freeBlocks Fs.freeSet Fs.blocksNeeded
  rw [h.work, h.inode, h.img, h.sb]

lemma Fs.Same.liveAt (k off : ℕ) (name : List Byte) (i : ℕ) :
    s'.LiveAt k off name i ↔ s.LiveAt k off name i := by
  unfold Fs.LiveAt
  rw [h.entry, h.entries]

end

lemma DirlinkResult.same {s₁ s₂ s₃ : Fs} {name : Bytes} {inum : ℕ} {r : ℤ}
    (h : DirlinkResult s₁ k name inum r s₂) (hs : s.Same s₁) (hs' : s₂.Same s₃) :
    DirlinkResult s k name inum r s₃ := by
  obtain ⟨h₁, h₂, h₃, h₄, h₅, h₆, h₇, h₈⟩ := h
  simp only [hs.liveAt, hs.freeEntry, hs.noBlock, Fs.AtMax, hs.entries, hs.size, hs.contents,
    hs.entry] at h₁ h₂ h₄ h₅ h₆ h₇
  refine ⟨?_, ?_, h₃, ?_, ?_, ?_, ?_, ?_⟩
  all_goals simp only [hs'.liveAt, hs'.contents, hs'.size, Fs.AtMax]
  all_goals assumption

lemma Full.not_of_nil {s : Fs} {n : ℕ} {e : String} (h : Full s n e) (hlh : s.log.lh = [])
    (hn : n ≤ LOGBLOCKS) : False := by
  have := (h.of_nil hlh).2
  omega

/-- A call of `dirlink`. -/
lemma DirInv.dirlink (h : DirInv s k) (name : Bytes) {inum : ℕ} (hpos : 0 < inum)
    (hlt : inum < 2 ^ 16) : wp (transaction (dirlink k name inum))
      (fun r s' => DirInv s' k ∧ DirlinkResult s k name inum r s') (TableFull s) s := by
  refine wp_transaction h.idle fun s₁ ht₁ hs₁ hlh => ?_
  have hd₁ := h.dir.of_same hs₁
  refine (dirlink_spec hd₁ ht₁ name inum).mono ?_ ?_
  · intro r s₂ hl
    obtain ⟨B, hlogs⟩ := hl.logs
    have hdist : (s₁.entry k).Distinct (s₁.entries k) := by
      rw [hs₁.entry, hs₁.entries]
      exact h.distinct
    obtain ⟨hdist₂, hres⟩ := hl.result hd₁ hdist hpos hlt
    refine ⟨ht₁.next hlogs, fun s₃ hidle hs₃ => ⟨⟨hidle, (hl.isDir hd₁).1.of_same hs₃, ?_⟩,
      hres.same hs₁ hs₃⟩⟩
    rwa [hs₃.entry, hs₃.entries]
  · rintro e (he | he)
    · refine ⟨he.1, fun j hj => ?_⟩
      rw [← hs₁.inode]
      exact he.2 j hj
    · exact (he.not_of_nil hlh (by decide)).elim

/-- Clearing an entry. -/
lemma DirInv.clearDirent (h : DirInv s k) {i : ℕ} (hi : i < s.entries k) :
    Returns (transaction (clearDirent k (DIRENT * i))) (fun _ s' => DirInv s' k ∧
      (s.entry k).Clear (s.entries k) i (s'.entry k)) s := by
  refine wp_transaction h.idle fun s₁ ht₁ hs₁ hlh => ?_
  have hd₁ := h.dir.of_same hs₁
  rw [← hs₁.entries] at hi
  refine (clearDirent_spec hd₁ ht₁ hi).mono ?_ fun e he => he.not_of_nil hlh (by decide)
  rintro - s₂ ⟨B, hw⟩
  obtain ⟨hd₂, hset⟩ := hd₁.written hw (Or.inr rfl) hi.le
  rw [if_neg (by decide)] at hset
  have hclear := hset.clear
  have hentries : s₂.entries k = s₁.entries k := by
    rw [hset.entries hd₁]
    omega
  rw [hs₁.entry, hs₁.entries] at hclear
  refine ⟨ht₁.next hw.toLogs, fun s₃ hidle hs₃ => ⟨⟨hidle, hd₂.of_same hs₃, ?_⟩, ?_⟩⟩
  · rw [hs₃.entry, hs₃.entries, hentries, hs₁.entries]
    exact hclear.distinct h.distinct
  · rwa [hs₃.entry]

/-- Every change keeps the invariant. -/
lemma DirStep.inv (hstep : DirStep k s s') (h : DirInv s k) : DirInv s' k := by
  cases hstep with
  | link name inum hpos hlt r hrun => exact ((h.dirlink name hpos hlt).of_eq_ok hrun).1
  | clear off name inum hlive hrun =>
    obtain ⟨i, hi, rfl, -⟩ := hlive
    exact ((h.clearDirent hi).of_eq_ok hrun).1
  | other hidle hdir hsame => exact h.of_contents hidle hdir hsame

end Between

/-- **A directory is a finite map on names.** -/
theorem directory_is_finite_map {s₀ s : Fs} {k : ℕ} (hidle : Idle s₀) (hdir : IsDir s₀ k)
    (hempty : s₀.size k = 0) (hreach : Relation.ReflTransGen (DirStep k) s₀ s) :
    (∀ off off' name i i', s.LiveAt k off name i → s.LiveAt k off' name i' → off = off') ∧
    s.size k % DIRENT = 0 ∧
    (∀ name : Bytes, wp (dirlookup k name) (fun r s' => ∀ off i,
      (∃ ip, r = some (ip, off) ∧ (s'.inode ip).inum = i) ↔ s.LiveAt k off (cname name) i)
      (TableFull s) s) ∧
    ∀ (name : Bytes) (i : ℕ), 0 < i → i < 2 ^ 16 → wp (transaction (dirlink k name i))
      (fun r s' => DirlinkResult s k name i r s') (TableFull s) s := by
  have h₀ : DirInv s₀ k := by
    refine ⟨hidle, hdir, ?_⟩
    rw [Fs.entries, hempty]
    exact Slots.distinct_zero _
  have h : DirInv s k := by
    induction hreach with
    | refl => exact h₀
    | tail _ hstep ih => exact hstep.inv ih
  refine ⟨?_, ?_, fun name => ?_, fun name i hpos hlt => ?_⟩
  · rintro off off' name i i' ⟨j, hj, rfl, hentry⟩ ⟨j', hj', rfl, hentry'⟩
    rw [h.distinct j hj j' hj' name i i' hentry hentry']
  · rw [h.dir.size]
    exact Nat.mul_mod_right ..
  · rw [wp_dirlookup h.dir]
    simp only [Fs.liveAt_iff h.distinct]
    split
    · next hlook => exact fun off i => iff_of_false (by simp) (by simp [hlook])
    · next j inum hlook =>
      refine (iget_spec s inum).imp fun ip s' hgot off i => ?_
      simp only [hlook, Option.some.injEq, Prod.mk.injEq]
      constructor
      · rintro ⟨ip', ⟨rfl, rfl⟩, rfl⟩
        exact ⟨j, ⟨rfl, hgot.inum_eq.symm⟩, rfl⟩
      · rintro ⟨j', ⟨rfl, rfl⟩, rfl⟩
        exact ⟨ip, ⟨rfl, rfl⟩, hgot.inum_eq⟩
  · exact (h.dirlink name hpos hlt).imp fun r s' hr => hr.2

/-- The root directory, without entries. -/
def emptyRoot : Fs := rootFs.onInode 0 fun x => { x with size := 0 }

lemma emptyRoot_idle : Idle emptyRoot := by
  obtain ⟨⟨h₁, h₂, h₃, h₄, h₅⟩, h₆, h₇⟩ := rootFs_idle
  exact ⟨⟨h₁, h₂, h₃, h₄, h₅⟩, h₆, h₇⟩

lemma emptyRoot_isDir : IsDir emptyRoot 0 := by
  have hroot : rootFs.img.dino ROOTINO = rootDino := by rw [rootFs_dino, if_pos rfl]
  have hslot : ∀ i n, (emptyRoot.work 0).slot i n = rootFs.img.slot i n := fun i n => by
    refine Img.slot_setDino ?_ ?_
    · exact iff_of_false (by decide) (hroot ▸ by decide)
    · change rootDino.addrs = (rootFs.img.dino ROOTINO).addrs
      rw [hroot]
  refine ⟨⟨rootSb_ok, by decide, by decide, rootFs_ok.alloc.congr hslot⟩, ⟨?_, fun bn hbn => ?_⟩,
    by decide, by decide, by decide⟩
  · rw [work_dino_self]
    decide
  · rw [work_dino_self] at hbn
    exact absurd hbn (Nat.not_lt_zero _)

/-- In an empty directory `a` and `b` are linked and the entry of `a` is cleared.  The link of `c` then
uses its slot. -/
theorem directory_is_finite_map_relinked : ∃ s₁ s₂ s₃ s₄ : Fs,
    transaction (dirlink 0 (nameOf [97]) 2) emptyRoot = .ok (0, s₁) ∧
    transaction (dirlink 0 (nameOf [98]) 3) s₁ = .ok (0, s₂) ∧ s₂.LiveAt 0 0 [97] 2 ∧
    transaction (clearDirent 0 0) s₂ = .ok ((), s₃) ∧
    transaction (dirlink 0 (nameOf [99]) 4) s₃ = .ok (0, s₄) ∧
    s₄.LiveAt 0 0 [99] 4 ∧ s₄.LiveAt 0 DIRENT [98] 3 ∧
    ∀ name : Bytes, wp (dirlookup 0 name) (fun r s' => ∀ off i,
      (∃ ip, r = some (ip, off) ∧ (s'.inode ip).inum = i) ↔ s₄.LiveAt 0 off (cname name) i)
      (TableFull s₄) s₄ := by
  have hrun : (transaction (dirlink 0 (nameOf [97]) 2) emptyRoot).bind (fun a =>
      (transaction (dirlink 0 (nameOf [98]) 3) a.2).bind fun b =>
      (transaction (clearDirent 0 0) b.2).bind fun c =>
      (transaction (dirlink 0 (nameOf [99]) 4) c.2).bind fun d =>
      .ok (decide ((a.1 = 0 ∧ b.1 = 0 ∧ d.1 = 0) ∧ b.2.entries 0 = 2 ∧ d.2.entries 0 = 2 ∧
        b.2.entry 0 0 = some ([97], 2) ∧ d.2.entry 0 0 = some ([99], 4) ∧
        d.2.entry 0 1 = some ([98], 3)))) = .ok true := by
    decide +kernel
  obtain ⟨⟨r₁, s₁⟩, h₁, hrun⟩ := bind_eq_ok.mp hrun
  obtain ⟨⟨r₂, s₂⟩, h₂, hrun⟩ := bind_eq_ok.mp hrun
  obtain ⟨⟨u, s₃⟩, h₃, hrun⟩ := bind_eq_ok.mp hrun
  obtain ⟨⟨r₄, s₄⟩, h₄, hrun⟩ := bind_eq_ok.mp hrun
  simp only [Except.ok.injEq, decide_eq_true_eq] at hrun
  obtain ⟨⟨rfl, rfl, rfl⟩, hn, hn', ha, hc, hb⟩ := hrun
  have hlive : s₂.LiveAt 0 0 [97] 2 := ⟨0, by omega, rfl, ha⟩
  have hreach : Relation.ReflTransGen (DirStep 0) emptyRoot s₄ :=
    .tail (.tail (.tail (.single (.link _ 2 (by decide) (by decide) _ h₁))
      (.link _ 3 (by decide) (by decide) _ h₂)) (.clear 0 [97] 2 hlive h₃))
      (.link _ 4 (by decide) (by decide) _ h₄)
  exact ⟨s₁, s₂, s₃, s₄, h₁, h₂, hlive, h₃, h₄, ⟨0, by omega, rfl, hc⟩, ⟨1, by omega, rfl, hb⟩,
    (directory_is_finite_map emptyRoot_idle emptyRoot_isDir (by decide) hreach).2.2.1⟩

end Xv6
