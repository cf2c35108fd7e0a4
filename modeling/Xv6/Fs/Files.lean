import Xv6.Fs.Inv
import Xv6.Lib.Run

/-!
# Inodes as byte arrays

The contents of an inode are a list of bytes.  `readi` delivers a part of it, and `writei` overwrites
and extends it; whatever blocks the code adds and wherever they come from, other bytes do not get in.

The statements are about states that writes and truncations reach from any file system without
holes, each of them in a transaction of its own.
-/

namespace Xv6

/-- The contents of inode `k`. -/
def Fs.contents (s : Fs) (k : ℕ) : List Byte := (List.range (s.size k)).map (s.byte k)

/-- The first `n` bytes of a buffer. -/
def Bytes.first (b : Bytes) (n : ℕ) : List Byte := (List.range n).map b

/-- A byte array that is overwritten, and extended, from `off` on. -/
def overwrite (l : List Byte) (off : ℕ) (bs : List Byte) : List Byte :=
  l.take off ++ bs ++ l.drop (off + bs.length)

/-- A change to an inode. -/
inductive InodeOp
  | writei (ip : ℕ) (src : Buffer) (off n : ℕ)
  | itrunc (ip : ℕ)

/-- The inode that is changed. -/
def InodeOp.ip : InodeOp → ℕ
  | writei ip _ _ _ | itrunc ip => ip

/-- The arguments are those of C types. -/
def InodeOp.InRange : InodeOp → Prop
  | writei _ _ off n => off < 2 ^ 32 ∧ n < 2 ^ 32
  | itrunc _ => True

instance : DecidablePred InodeOp.InRange
  | .writei _ _ _ _ => inferInstanceAs (Decidable (_ ∧ _))
  | .itrunc _ => inferInstanceAs (Decidable True)

def InodeOp.exec : InodeOp → FsM Unit
  | writei ip src off n => do let _ ← transaction (Xv6.writei ip src off n)
  | itrunc ip => transaction (Xv6.itrunc ip)

/-- A change to an inode that is in use; there is no next state if it panics. -/
def InodeOp.step (s : Fs) (op : InodeOp) : Option Fs :=
  if s.Valid op.ip ∧ op.InRange then
    match op.exec s with
    | .ok (_, s') => some s'
    | .error _ => none
  else none

/-- What holds between calls. -/
structure Between (s : Fs) : Prop where
  idle : Idle s
  ok : FsOk s

variable {s s' : Fs} {n k : ℕ} {src : Buffer}

/-- The rule for a call in a transaction. -/
lemma wp_transaction {α : Type} {x : FsM α} {Q : α → Fs → Prop} {E : String → Prop}
    (h : Idle s) (hx : ∀ s₁, InTrans s₁ → s.Same s₁ → s₁.log.lh = [] →
      wp x (fun r s₂ => InTrans s₂ ∧ ∀ s₃, Idle s₃ → s₂.Same s₃ → Q r s₃) E s₁) :
    wp (transaction x) Q E s := by
  unfold transaction
  rw [wp_bind]
  refine (beginOp_spec h).wp.imp ?_
  rintro - s₁ ⟨ht₁, himg, hinode, hsb, hlh⟩
  rw [wp_bind]
  refine (hx s₁ ht₁ ⟨himg, hinode, hsb⟩ hlh).imp ?_
  rintro r s₂ ⟨ht₂, hq⟩
  rw [wp_bind]
  refine (endOp_spec ht₂).wp.imp ?_
  rintro - s₃ ⟨hidle, himg, hinode, hsb⟩
  exact hq s₃ hidle ⟨himg, hinode, hsb⟩

lemma Full.of_nil {e : String} (h : Full s n e) (hlh : s.log.lh = []) :
    e = "too big a transaction" ∧ LOGBLOCKS < n := by
  refine ⟨h.1, ?_⟩
  have := h.2
  rwa [hlh, List.length_nil, Nat.zero_add] at this

/-- Every change keeps the invariant. -/
lemma InodeOp.step_between {op : InodeOp} (h : Between s)
    (hstep : InodeOp.step s op = some s') : Between s' := by
  unfold InodeOp.step at hstep
  split at hstep
  · next hok =>
    obtain ⟨hk, hrange⟩ := hok
    have hspec : wp op.exec (fun _ s' => Between s') (fun _ => True) s := by
      cases op with
      | writei ip src off n =>
        simp only [InodeOp.exec, wp_bind, wp_pure]
        refine wp_transaction h.idle fun s₁ ht₁ hs₁ _ => ?_
        have hok₁ := h.ok.same hs₁
        have hk₁ := hk.same hs₁
        have hw := writei_spec (hok₁.working hk₁) ht₁.trans (hok₁.noHole_inode hk₁) src hrange.1
          hrange.2
        refine hw.mono ?_ fun _ _ => trivial
        intro r s₂ hr
        split at hr
        · obtain ⟨-, rfl⟩ := hr
          exact ⟨ht₁, fun s₃ hidle hs₃ => ⟨hidle, hok₁.same hs₃⟩⟩
        · obtain ⟨r', t, B, -, hwr⟩ := hr
          exact ⟨ht₁.next hwr.toLogs, fun s₃ hidle hs₃ => ⟨hidle, (hok₁.written hk₁ hwr).same hs₃⟩⟩
      | itrunc ip =>
        refine wp_transaction h.idle fun s₁ ht₁ hs₁ _ => ?_
        have hok₁ := h.ok.same hs₁
        have hk₁ := hk.same hs₁
        refine (itrunc_spec (hok₁.working hk₁) ht₁.trans ht₁.nodup).mono ?_ fun _ _ => trivial
        intro _ s₂ htr
        exact ⟨ht₁.next htr.toLogs, fun s₃ hidle hs₃ => ⟨hidle, (hok₁.truncated hk₁ htr).same hs₃⟩⟩
    split at hstep
    · next hrun =>
      obtain rfl := Option.some.inj hstep
      exact hspec.of_eq_ok hrun
    · exact absurd hstep (by simp)
  · exact absurd hstep (by simp)

/-! ## Reading -/

@[simp] lemma Fs.length_contents (s : Fs) (k : ℕ) : (s.contents k).length = s.size k := by
  simp [contents]

lemma Fs.getElem?_contents (s : Fs) (k o : ℕ) :
    (s.contents k)[o]? = if o < s.size k then some (s.byte k o) else none := by
  by_cases h : o < s.size k
  · rw [if_pos h, contents, List.getElem?_map, List.getElem?_range h, Option.map_some]
  · rw [if_neg h, List.getElem?_eq_none (by simpa using h)]

/-- What `readi` delivers from the contents `l`: the bytes `[off, min (off + n) l.length)`, all of
them unless the destination cannot be written. -/
def ReadResult (l : List Byte) (dst : Buffer) (off n : ℕ) (r : ℤ × Bytes) : Prop :=
  if l.length < off ∨ 2 ^ 32 ≤ off + n then r = (0, dst.byte)
  else ∃ m ≤ ((l.drop off).take n).length,
    r.2.first m = ((l.drop off).take n).take m ∧ (∀ i ≥ m, r.2 i = dst.byte i) ∧
    (r.1 = m ∧ m = ((l.drop off).take n).length ∨ r.1 = -1 ∧ ∃ t j, dst.stops t j ≠ none)

/-- A part of the contents, in a buffer. -/
lemma Fs.first_blit (s : Fs) (k : ℕ) (dst : Bytes) {off m : ℕ} (hm : m ≤ n)
    (hend : off + m ≤ s.size k) : (dst.blit 0 (s.byte k) off m).first m =
      (((s.contents k).drop off).take n).take m := by
  refine List.ext_getElem? fun i => ?_
  rw [List.take_take, List.getElem?_take, List.getElem?_drop, s.getElem?_contents, Bytes.first]
  by_cases hi : i < m
  · rw [if_pos (by omega), if_pos (by omega), List.getElem?_map, List.getElem?_range hi,
      Option.map_some, Bytes.blit_of_mem (by omega), Nat.sub_zero]
  · rw [if_neg (by omega), List.getElem?_eq_none (by simpa using hi)]

lemma ReadiPost.result {dst : Buffer} {off : ℕ} {r : ℤ × Bytes}
    (h : ReadiPost s k dst off n r) : ReadResult (s.contents k) dst off n r := by
  unfold ReadiPost at h
  unfold ReadResult
  rw [s.length_contents]
  split at h
  · rw [if_pos ‹_›]
    exact h
  · have hlen : (((s.contents k).drop off).take n).length = min (off + n) (s.size k) - off := by
      rw [List.length_take, List.length_drop, s.length_contents]
      omega
    rw [if_neg ‹_›, hlen]
    rcases h with rfl | ⟨hstop, p, hp, rfl⟩
    · exact ⟨_, le_rfl, s.first_blit k _ (by omega) (by omega),
        fun i hi => Bytes.blit_of_notMem (by omega), Or.inl ⟨rfl, rfl⟩⟩
    · exact ⟨p, hp, s.first_blit k _ (by omega) (by omega),
        fun i hi => Bytes.blit_of_notMem (by omega), Or.inr ⟨rfl, hstop⟩⟩

/-! ## Writing -/

/-- What `writei` has done when it returns `r`, having stored `t` bytes of the source. -/
structure WriteEffect (s s' : Fs) (k : ℕ) (src : Buffer) (off n r t : ℕ) : Prop where
  le : r ≤ n
  -- less is written only if the disk is full or the source cannot be read
  short : r < n → (∀ c < s.sb.size, s'.img.bit c = true) ∨ ∃ m, src.stops r m ≠ none
  -- more is stored only if the source cannot be read, in the same block
  stored : r ≤ t
  more : r < t → r < n ∧ (∃ m, src.stops r m ≠ none) ∧
    ∀ o, off + r ≤ o → o < off + t → o / BSIZE = (off + r) / BSIZE
  contents : s'.contents k =
    (overwrite (s.contents k) off (src.byte.first t)).take (max (s.size k) (off + r))
  others : ∀ i ≠ (s.inode k).inum, s'.img.dino i = s.img.dino i ∧
    ∀ o, s'.img.byte i o = s.img.byte i o

/-- What `writei` returns. -/
def WriteResult (s s' : Fs) (k : ℕ) (src : Buffer) (off n : ℕ) (r : ℤ) : Prop :=
  if WriteRefused s k off n then r = -1 ∧ s.Same s'
  else ∃ r' t : ℕ, r = r' ∧ WriteEffect s s' k src off n r' t

lemma Fs.Same.contents (h : s.Same s') (k : ℕ) : s'.contents k = s.contents k := by
  unfold Fs.contents Fs.byte Fs.work Fs.size
  rw [h.img, h.inode]

lemma Fs.Same.size (h : s.Same s') (k : ℕ) : s'.size k = s.size k := by
  unfold Fs.size
  rw [h.inode]

lemma Fs.Same.writeRefused {off : ℕ} (h : s.Same s') :
    WriteRefused s' k off n ↔ WriteRefused s k off n := by
  unfold WriteRefused
  rw [h.size]

lemma WriteResult.same {s₁ s₂ s₃ : Fs} {off : ℕ} {r : ℤ}
    (h : WriteResult s₁ s₂ k src off n r) (hs : s.Same s₁) (hs' : s₂.Same s₃) :
    WriteResult s s₃ k src off n r := by
  have hsize := hs.size k
  unfold WriteResult at h ⊢
  simp only [hs.writeRefused] at h
  split at h
  · rw [if_pos ‹_›]
    exact ⟨h.1, hs'.img.trans (h.2.img.trans hs.img), hs'.inode.trans (h.2.inode.trans hs.inode),
      hs'.sb.trans (h.2.sb.trans hs.sb)⟩
  · rw [if_neg ‹_›]
    obtain ⟨r', t, hr, ⟨hle, hshort, hstored, hmore, hcontents, hothers⟩⟩ := h
    rw [hs.contents, hsize] at hcontents
    rw [hs.inode, hs.img] at hothers
    rw [hs.sb] at hshort
    refine ⟨r', t, hr, ⟨hle, ?_, hstored, hmore, ?_, ?_⟩⟩
    · rwa [hs'.img]
    · rwa [hs'.contents]
    · rwa [hs'.img]

lemma rootFs_between : Between rootFs := ⟨rootFs_idle, rootFs_ok⟩

end Xv6
