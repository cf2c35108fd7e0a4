import Xv6.Fs.Holding
import Xv6.Fs.Path

/-!
# Path lookup

Where a path leads is a property of the image: `Img.resolve` follows names from directory to
directory.  `namex` computes it, and all it leaves behind in the inode table is a reference to the inode
it returns.
-/

namespace Xv6

/-! ## Directories in an image -/

namespace Img

variable (g : Img) (i : ℕ)

/-- The entries of a directory. -/
def entry : Slots (List Byte) ℕ := fun e => direntEntry fun j => g.byte i (DIRENT * e + j)

/-- The number of entries of a directory. -/
def entries : ℕ := (g.dino i).size.toNat / DIRENT

/-- The inode that has a name in a directory. -/
def lookup (name : List Byte) : Option ℕ := ((g.entry i).find (g.entries i) name).map Prod.snd

/-- A directory that has not been unlinked. -/
def LiveDir : Prop := (g.dino i).type = T_DIR ∧ (g.dino i).nlink ≠ 0

instance : Decidable (g.LiveDir i) := inferInstanceAs (Decidable (_ ∧ _))

/-- The inode that names lead to from inode `i` on. -/
def resolve : ℕ → List (List Byte) → Option ℕ
  | i, [] => some i
  | i, name :: names =>
    if g.LiveDir i then (g.lookup i name).bind fun j => resolve j names else none

/-- The directory of the last name, and this name. -/
def resolveParent : ℕ → List (List Byte) → Option (ℕ × List Byte)
  | _, [] => none
  | i, name :: names =>
    if g.LiveDir i then
      if names = [] then some (i, name)
      else (g.lookup i name).bind fun j => resolveParent j names
    else none

end Img

/-- The directories of an image are well formed: their entries name inodes that are in use. -/
structure TreeOk (sb : Superblock) (g : Img) : Prop where
  root : g.LiveDir ROOTINO
  size : ∀ i, g.LiveDir i → (g.dino i).size.toNat % DIRENT = 0
  entry : ∀ i, g.LiveDir i → ∀ e < g.entries i, ∀ name j, g.entry i e = some (name, j) →
    j < sb.ninodes ∧ (g.dino j).type ≠ 0 ∧ (g.dino j).nlink ≠ 0

lemma TreeOk.lookup {sb : Superblock} {g : Img} (h : TreeOk sb g) {i j : ℕ} {name : List Byte}
    (hi : g.LiveDir i) (hlook : g.lookup i name = some j) :
    j < sb.ninodes ∧ (g.dino j).type ≠ 0 ∧ (g.dino j).nlink ≠ 0 := by
  obtain ⟨⟨e, j'⟩, hfind, rfl⟩ := Option.map_eq_some_iff.mp hlook
  obtain ⟨-, hlt, hentry⟩ := Slots.findFrom_eq_some hfind
  exact h.entry i hi e (by omega) name j' hentry

section Dir

variable {s : Fs} {k : ℕ}

/-- A locked directory can be worked on. -/
lemma FsOk.isDir (h : FsOk s) (hk : s.Valid k) (htype : (s.inode k).type = T_DIR)
    (hsize : s.size k % DIRENT = 0) : IsDir s k :=
  ⟨h.working hk, h.noHole_inode hk, hk.ref, htype, (Nat.mul_div_cancel' (Nat.dvd_of_mod_eq_zero hsize)).symm⟩

/-- A directory that is in use has the entries of the image. -/
lemma FsOk.lookup_eq (h : FsOk s) (hk : s.Valid k) (name : List Byte) :
    (s.lookup k name).map Prod.snd = s.img.lookup (s.inode k).inum name := by
  have hentry : s.entry k = s.img.entry (s.inode k).inum := by
    unfold Fs.entry Img.entry Fs.byte
    rw [h.work_eq hk]
  have hentries : s.entries k = s.img.entries (s.inode k).inum := by
    rw [Fs.entries, Img.entries, h.table.copy k hk.ref hk.valid]
    rfl
  rw [Fs.lookup, Img.lookup, hentry, hentries]

end Dir

/-! ## `namex` -/

/-- At most one entry of the inode table is free, so that there may be no room for the two inodes that
a lookup needs at a time. -/
def NoInodes (s : Fs) (e : String) : Prop :=
  e = "iget: no inodes" ∧ ∃ j₀, ∀ j < NINODE, j ≠ j₀ → (s.inode j).ref ≠ 0

variable {s s' : Fs} {path : List Byte}

lemma TableFull.noInodes {e : String} {ip : ℕ} {L : Finset ℕ}
    (h : Holding s s' {ip} L) (he : TableFull s' e) : NoInodes s e := by
  refine ⟨he.1, ip, fun j hj hji => ?_⟩
  have hfull := he.2 j hj
  rw [h.ref, Multiset.count_singleton, if_neg hji] at hfull
  omega

/-- The result of `namexLoop` from inode `i` on. -/
def NamexResult (g : Img) (parent : Bool) (i : ℕ) (names : List (List Byte)) (s' : Fs)
    (r : Option (ℕ × Bytes)) : Prop :=
  if parent then
    r.map (fun p => ((s'.inode p.1).inum, cname p.2)) = g.resolveParent i names
  else r.map (fun p => (s'.inode p.1).inum) = g.resolve i names

namespace NamexResult

variable {g : Img} {parent : Bool} {i j ip : ℕ} {c : List Byte} {cs : List (List Byte)} {s' : Fs}
  {name : Bytes} {r : Option (ℕ × Bytes)}

lemma dead (h : ¬g.LiveDir i) : NamexResult g parent i (c :: cs) s' none := by
  cases parent <;> simp [NamexResult, Img.resolve, Img.resolveParent, h]

lemma last (h : g.LiveDir i) (hip : (s'.inode ip).inum = i) (hname : cname name = c) :
    NamexResult g true i [c] s' (some (ip, name)) := by
  simp [NamexResult, Img.resolveParent, h, hip, hname]

/-- A name that has to be looked up. -/
lemma step_iff (h : g.LiveDir i) (hlast : ¬(parent = true ∧ cs = [])) :
    NamexResult g parent i (c :: cs) s' r ↔
      match g.lookup i c with
      | none => r = none
      | some j => NamexResult g parent j cs s' r := by
  cases parent with
  | false => cases hlook : g.lookup i c <;> simp [NamexResult, Img.resolve, h, hlook]
  | true =>
    have hcs : cs ≠ [] := fun hc => hlast ⟨rfl, hc⟩
    cases hlook : g.lookup i c <;> simp [NamexResult, Img.resolveParent, h, hlook, hcs]

end NamexResult

/-- The loop of `namex`: it holds a reference to the inode where it is, which is in use, and this is not
the last one unless the inode has links. -/
lemma namexLoop_spec (hs : FsOk s) (htree : TreeOk s.sb s.img) (parent : Bool) (n : ℕ)
    (hno : NoNul path) (hn : path.length < n) (name : Bytes) (ip i : ℕ) (s₁ : Fs)
    (hq : TableOnly s s₁) (h : Holding s s₁ {ip} ∅) (hi : (s₁.inode ip).inum = i)
    (htype : (s.img.dino i).type ≠ 0) (hkeep : 0 < (s.inode ip).ref ∨ (s.img.dino i).nlink ≠ 0) :
    wp (namexLoop parent n ip path name) (fun r s₂ => TableOnly s s₂ ∧
      Holding s s₂ (resultRefs (r.map Prod.fst)) ∅ ∧
      NamexResult s.img parent i (elements path) s₂ r) (NoInodes s) s₁ := by
  induction n generalizing path name ip i s₁ with
  | zero => omega
  | succ n ih =>
    subst hi
    have hspec := skipelem_spec name hno
    have hpos := h.ref_pos hs (Multiset.mem_singleton_self ip)
    rw [namexLoop]
    cases hskip : skipelem path name with
    | none =>
      rw [hskip] at hspec
      dsimp only at hspec ⊢
      rw [hspec]
      cases parent with
      | true =>
        rw [if_pos rfl, wp_bind]
        refine (h.wp_iput hs (hkeep.imp_right fun hlink => Or.inr fun hv => ?_)).wp.imp ?_
        · rw [← hq.img, h.ok.table.copy ip hpos hv] at hlink
          exact hlink
        · rintro - s₂ ⟨rfl, h₂⟩
          exact ⟨hq.trans (TableOnly.onInode ..), h₂, rfl⟩
      | false =>
        rw [if_neg (by decide), wp_pure]
        exact ⟨hq, h, rfl⟩
    | some e =>
      obtain ⟨rest, name'⟩ := e
      rw [hskip] at hspec
      obtain ⟨helem, hempty, hlen, hno'⟩ := hspec
      rw [helem]
      simp only [wp_bind]
      refine (h.wp_ilock hs (Multiset.mem_singleton_self ip) (Finset.notMem_empty ip)
        (hq.img ▸ htype)).wp.imp ?_
      rintro - s₂ ⟨rfl, h₂⟩
      have hq₂ : TableOnly s (s₁.ilocked ip) := hq.trans (TableOnly.ilocked ..)
      have hx : (s₁.ilocked ip).inode ip = { s₁.inode ip with
          toDinode := s.img.dino (s₁.inode ip).inum, valid := true, locked := true } := by
        rw [Fs.ilocked, onInode_self, hq.img]
      generalize s₁.ilocked ip = s₂ at h₂ hq₂ hx ⊢
      have hlocked : ip ∈ insert ip (∅ : Finset ℕ) := Finset.mem_insert_self ..
      -- giving up: the inode is unlocked and its reference dropped
      have hleave : wp (do iunlockput ip; return none : FsM (Option (ℕ × Bytes)))
          (fun r s₃ => r = none ∧ TableOnly s s₃ ∧ Holding s s₃ 0 ∅) (NoInodes s) s₂ := by
        rw [wp_bind]
        refine (h₂.wp_iunlockput hs hlocked (hkeep.imp_right fun hlink => Or.inr ?_)).wp.imp ?_
        · rw [hx]
          exact hlink
        · rintro - s₃ ⟨rfl, h₃⟩
          rw [Finset.erase_insert (Finset.notMem_empty ip)] at h₃
          exact ⟨rfl, hq₂.trans (TableOnly.onInode ..), h₃⟩
      have hlive : s.img.LiveDir (s₁.inode ip).inum ↔
          (s₂.inode ip).type = T_DIR ∧ (s₂.inode ip).nlink ≠ 0 := by rw [hx]; rfl
      simp only [wp_get]
      by_cases hdir : (s₂.inode ip).type = T_DIR
      swap
      · rw [wp_ite_pos hdir]
        refine hleave.imp ?_
        rintro r s₃ ⟨rfl, hq₃, h₃⟩
        exact ⟨hq₃, h₃, .dead fun hc => hdir (hlive.mp hc).1⟩
      rw [wp_ite_neg (not_not.mpr hdir)]
      by_cases hlink : (s₂.inode ip).nlink = 0
      · rw [wp_ite_pos hlink]
        refine hleave.imp ?_
        rintro r s₃ ⟨rfl, hq₃, h₃⟩
        exact ⟨hq₃, h₃, .dead fun hc => (hlive.mp hc).2 hlink⟩
      rw [wp_ite_neg hlink]
      have hlive' := hlive.mpr ⟨hdir, hlink⟩
      by_cases hlast : parent = true ∧ rest = []
      · rw [wp_ite_pos hlast, wp_bind]
        refine (h₂.wp_iunlock hs (Multiset.mem_singleton_self ip) hlocked).wp.imp ?_
        rintro - s₃ ⟨rfl, h₃⟩
        rw [Finset.erase_insert (Finset.notMem_empty ip)] at h₃
        obtain ⟨rfl, rfl⟩ := hlast
        rw [hempty.mp rfl]
        refine ⟨hq₂.trans (TableOnly.onInode ..), h₃, .last hlive' ?_ rfl⟩
        rw [onInode_self, hx]
      rw [wp_ite_neg hlast]
      have hlast' : ¬(parent = true ∧ elements rest = []) := by rwa [← hempty]
      simp only [NamexResult.step_iff hlive' hlast']
      have hv : s₂.Valid ip := ⟨h₂.ref_pos hs (Multiset.mem_singleton_self ip), by rw [hx]⟩
      have hsize : s₂.size ip % DIRENT = 0 := by
        rw [Fs.size, hx]
        exact htree.size _ hlive'
      have hlook := h₂.ok.lookup_eq hv (cname name')
      have hinum₂ : (s₂.inode ip).inum = (s₁.inode ip).inum := by rw [hx]
      rw [hq₂.img, hinum₂] at hlook
      rw [wp_bind, wp_dirlookup (h₂.ok.isDir hv hdir hsize), ← hlook]
      cases hfound : s₂.lookup ip (cname name') with
      | none =>
        refine hleave.imp ?_
        rintro r s₃ ⟨rfl, hq₃, h₃⟩
        exact ⟨hq₃, h₃, rfl⟩
      | some e =>
        obtain ⟨e, j⟩ := e
        rw [hfound] at hlook
        obtain ⟨hj, hjtype, hjlink⟩ := htree.lookup hlive' hlook.symm
        refine (h₂.wp_iget hs hj).mono ?_ fun e he => he.noInodes h₂
        rintro next s₃ ⟨hgot, h₃⟩
        have hswap : next ::ₘ {ip} = ip ::ₘ ({next} : Multiset ℕ) := Multiset.pair_comm next ip
        rw [hswap] at h₃
        have hlink₃ : (s₃.inode ip).nlink ≠ 0 := by rwa [hgot.toDinode ip]
        rw [wp_bind]
        refine (h₃.wp_iunlockput hs hlocked (Or.inr (Or.inr hlink₃))).wp.imp ?_
        rintro - s₄ ⟨rfl, h₄⟩
        rw [Finset.erase_insert (Finset.notMem_empty ip)] at h₄
        refine ih hno' (by omega) name' next j _ ((hq₂.trans (TableOnly.got hgot)).trans
          (TableOnly.onInode ..)) h₄ ?_ hjtype (Or.inr hjlink)
        refine Eq.trans ?_ hgot.inum_eq
        by_cases hne : next = ip
        · rw [hne, onInode_self]
        · rw [onInode_of_ne hne]


/-- Where a path starts. -/
def startInode (s : Fs) (cwd : ℕ) (path : List Byte) : ℕ :=
  if path.head? = some slash then ROOTINO else (s.inode cwd).inum

/-- **`namex`** -/
lemma namex_spec (hs : FsOk s) (htree : TreeOk s.sb s.img)
    (hlock : ∀ j, (s.inode j).locked = false) {cwd : ℕ} (hcwd : 0 < (s.inode cwd).ref)
    (htype : (s.img.dino (s.inode cwd).inum).type ≠ 0) (hno : NoNul path) (parent : Bool) :
    wp (namex cwd path parent) (fun r s' => TableOnly s s' ∧
      Holding s s' (resultRefs (r.map Prod.fst)) ∅ ∧
      NamexResult s.img parent (startInode s cwd path) (elements path) s' r) (NoInodes s) s := by
  have h₀ := Holding.start hs hlock
  unfold namex startInode
  dsimp only
  by_cases hslash : path.head? = some slash
  · rw [wp_ite_pos hslash, wp_bind, if_pos hslash]
    refine (h₀.wp_iget hs hs.sb.root).mono ?_ fun e he => ⟨he.1, 0, fun j hj _ => he.2 j hj⟩
    rintro ip s₁ ⟨hgot, h₁⟩
    obtain ⟨hroot, hlink⟩ := htree.root
    refine namexLoop_spec hs htree parent _ hno (Nat.lt_succ_self _) _ ip ROOTINO s₁ (TableOnly.got hgot)
      h₁ hgot.inum_eq ?_ (Or.inr hlink)
    rw [hroot]
    decide
  · rw [wp_ite_neg hslash, if_neg hslash]
    unfold idup
    simp only [wp_bind, wp_setInode, wp_pure]
    refine namexLoop_spec hs htree parent _ hno (Nat.lt_succ_self _) _ cwd _ _ (TableOnly.onInode ..)
      (h₀.addRef hcwd) ?_ htype (Or.inl hcwd)
    rw [onInode_self]

/-- The reference counts have grown by one for the result and are the same otherwise, and so are the
inodes in the entries that are in use. -/
structure OneRef (s s' : Fs) (r : Option ℕ) : Prop where
  img : s'.img = s.img
  ref : ∀ j, (s'.inode j).ref = (s.inode j).ref + if r = some j then 1 else 0
  inum : ∀ j, 0 < (s.inode j).ref → (s'.inode j).inum = (s.inode j).inum

lemma OneRef.of_holding {r : Option ℕ} (hq : TableOnly s s') (h : Holding s s' (resultRefs r) ∅) :
    OneRef s s' r where
  img := hq.img
  ref j := by
    rw [h.ref]
    cases r with
    | none => simp [resultRefs]
    | some ip =>
      rw [resultRefs, Multiset.count_singleton]
      by_cases hj : j = ip
      · simp [hj]
      · simp [hj, Ne.symm hj]
  inum := h.inum

/-- **Path resolution follows the elements of the path.** -/
theorem path_resolution_follows_elements :
    (∀ (path : List Byte) (name : Bytes), NoNul path →
      (skipelems (path.length + 1) path name).map (fun e => cname e.1) = elements path ∧
      ∀ i (hi : i < (skipelems (path.length + 1) path name).length),
        (skipelems (path.length + 1) path name)[i].2 = [] ↔
          i + 1 = (skipelems (path.length + 1) path name).length) ∧
    ∀ (s : Fs) (cwd : ℕ) (path : List Byte), FsOk s → TreeOk s.sb s.img →
      (∀ j, (s.inode j).locked = false) → 0 < (s.inode cwd).ref →
      (s.img.dino (s.inode cwd).inum).type ≠ 0 → NoNul path →
      wp (namei cwd path) (fun r s' => OneRef s s' r ∧ r.map (fun ip => (s'.inode ip).inum) =
        s.img.resolve (startInode s cwd path) (elements path)) (NoInodes s) s ∧
      wp (nameiparent cwd path) (fun r s' => OneRef s s' (r.map Prod.fst) ∧
        r.map (fun p => ((s'.inode p.1).inum, cname p.2)) =
          s.img.resolveParent (startInode s cwd path) (elements path)) (NoInodes s) s := by
  refine ⟨fun path name hno => skipelems_spec _ name hno (Nat.lt_succ_self _),
    fun s cwd path hs htree hlock hcwd htype hno => ⟨?_, ?_⟩⟩
  · unfold namei
    rw [wp_bind]
    refine (namex_spec hs htree hlock hcwd htype hno false).imp ?_
    rintro r s' ⟨hq, h, hres⟩
    rw [NamexResult, if_neg (by decide)] at hres
    refine ⟨OneRef.of_holding hq h, ?_⟩
    rw [Option.map_map]
    exact hres
  · unfold nameiparent
    refine (namex_spec hs htree hlock hcwd htype hno true).imp ?_
    rintro r s' ⟨hq, h, hres⟩
    rw [NamexResult, if_pos rfl] at hres
    exact ⟨OneRef.of_holding hq h, hres⟩

lemma rootFs_entry : ∀ e < 2, rootFs.img.entry ROOTINO e =
    some (if e = 0 then [46] else [46, 46], ROOTINO) := by decide +kernel

lemma rootFs_tree : TreeOk rootFs.sb rootFs.img := by
  have hroot : rootFs.img.dino ROOTINO = rootDino := by rw [rootFs_dino, if_pos rfl]
  have hlive : ∀ i, rootFs.img.LiveDir i → i = ROOTINO := fun i hi => by
    by_contra hne
    have := hi.1
    rw [rootFs_dino, if_neg hne] at this
    exact absurd this (by decide)
  refine ⟨?_, fun i hi => ?_, fun i hi e he name j hj => ?_⟩
  · rw [Img.LiveDir, hroot]
    decide
  · rw [hlive i hi, hroot]
    decide
  · obtain rfl := hlive i hi
    have hcount : rootFs.img.entries ROOTINO = 2 := by
      rw [Img.entries, hroot]
      decide
    rw [rootFs_entry e (hcount ▸ he)] at hj
    obtain ⟨-, rfl⟩ := Prod.mk.inj (Option.some.inj hj)
    rw [hroot]
    decide

/-- Looking up `/.` in a file system with a root directory only. -/
theorem path_resolution_follows_elements_root :
    FsOk rootFs ∧ TreeOk rootFs.sb rootFs.img ∧ NoNul [47, 46] ∧
    wp (namei 0 [47, 46]) (fun r s' => OneRef rootFs s' r ∧ r.map (fun ip => (s'.inode ip).inum) =
      rootFs.img.resolve (startInode rootFs 0 [47, 46]) (elements [47, 46])) (NoInodes rootFs)
      rootFs := by
  have hlock : ∀ j, (rootFs.inode j).locked = false := fun j => by
    by_cases hj : j = 0
    · subst hj
      rfl
    · simp [rootFs, hj]
  have htype : (rootFs.img.dino (rootFs.inode 0).inum).type ≠ 0 := by
    have : (rootFs.inode 0).inum = ROOTINO := rfl
    rw [this, rootFs_dino, if_pos rfl]
    decide
  exact ⟨rootFs_ok, rootFs_tree, by decide, (path_resolution_follows_elements.2 rootFs 0 [47, 46]
    rootFs_ok rootFs_tree hlock (by decide) htype (by decide)).1⟩

end Xv6
