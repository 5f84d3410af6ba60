import Xv6.MkfsVolume

/-! `itrunc` gives back the blocks of one inode, each once, and no other. -/
namespace Xv6

open Program Dinode Function

variable {sb : Superblock} {c c' : ℕ → Block} {loose : Set ℕ} {held : Finset ℕ} {s s' : Fs}
  {k : Kernel} {ip : Slot} {i j v : ℕ} {x y : Dinode} {P P' : ℕ → Prop}

/-- The blocks that inode `i` has at the places of `P` are free in `c'`; otherwise the bitmap and
all other blocks are those of `c`. -/
structure Freed (sb : Superblock) (c : ℕ → Block) (i : ℕ) (P : ℕ → Prop) (c' : ℕ → Block) :
    Prop where
  bits : ∀ b, bitAt sb c' b = true ↔
    bitAt sb c b = true ∧ ∀ j, P j → holds sb (dinodeAt sb c) c (i, j) ≠ some b
  other : ∀ b, ¬ sb.Bitmap b → c' b = c b

lemma Freed.congr (h : Freed sb c i P c')
    (hP : ∀ j b, holds sb (dinodeAt sb c) c (i, j) = some b → (P' j ↔ P j)) :
    Freed sb c i P' c' := by
  refine ⟨fun b => (h.bits b).trans (and_congr_right fun _ => forall_congr' fun j => ?_), h.other⟩
  exact ⟨fun hj hp hb => hj ((hP j b hb).mp hp) hb, fun hj hp hb => hj ((hP j b hb).mpr hp) hb⟩

lemma holds_lt {b : ℕ} (h : holds sb (dinodeAt sb c) c (i, j) = some b) : j < nptr :=
  (place_eq_some.mp (holds_eq_some.mp h).2).2.1

def Dinode.truncated (x : Dinode) : Dinode := { x with size := 0, addrs := fun _ => 0 }

def Dinode.cut (x : Dinode) (n : ℕ) : Dinode :=
  { x with addrs := fun a => if (a : ℕ) < n then 0 else x.addrs a }

lemma cut_addrs {n : ℕ} {a : Fin (ndirect + 1)} (h : ¬ (a : ℕ) < n) :
    (x.cut n).addrs a = x.addrs a := if_neg h

lemma cut_succ (x : Dinode) (a : Fin (ndirect + 1)) :
    { x.cut a with addrs := update (x.cut a).addrs a 0 } = x.cut (a + 1) := by
  unfold Dinode.cut
  dsimp only
  congr 1
  funext n
  by_cases ha : n = a
  · simp [ha]
  · rw [update_of_ne ha]
    by_cases hlt : (n : ℕ) < a
    · rw [if_pos hlt, if_pos (by omega)]
    · rw [if_neg hlt, if_neg (by omega)]

lemma cut_all (x : Dinode) : x.cut (ndirect + 1) = { x with addrs := fun _ => 0 } := by
  unfold Dinode.cut
  congr 1
  funext a
  exact if_pos a.isLt

structure Truncating (sb : Superblock) (c : ℕ → Block) (loose : Set ℕ) (i : ℕ) (ip : Slot)
    (P : ℕ → Prop) (y : Dinode) (s s' : Fs) : Prop where
  only : OnlyDin ip y s s'
  disk : ∃ c', Cached c' loose ∅ s'.kernel ∧ Freed sb c i P c'

lemma Truncating.slot (h : Truncating sb c loose i ip P y s s') :
    s'.itable ip = { s.itable ip with din := y } := by
  rw [h.only.itable, update_self]

lemma OnlyDin.setDin (k' : Kernel) {f : Dinode → Dinode} (h : OnlyDin ip y s s') :
    OnlyDin ip (f y) s
      (({ s' with kernel := k' } : Fs).setInode ip fun x => { x with din := f x.din }) := by
  refine ⟨h.super, ?_⟩
  rw [setInode_itable]
  rw [h.itable, update_self, update_idem]

section work
variable (h : Work sb i ip (dinodeAt sb c) ∅ c loose s)
include h

lemma Work.bitmap_sure {b : ℕ} (hb : b < sb.size) : sb.bblock b ∉ loose := by
  intro hm
  have hge := (h.disk.loose _ hm).1.1
  have hlt := h.disk.laid.bitmap b hb
  omega

lemma freePlace_spec (hj : ¬ P j) (hlt : j < nptr) (hv : v = (dinodeAt sb c i).ptr c j)
    (hh : ∀ b, sb.Data b → sb.bblock b ∉ held) (hc : Cached c' loose held k)
    (hf : Freed sb c i P c') :
    wp (if v = 0 then pure ⟨⟩ else bfree sb rootDev v) (fun _ k' => ∃ c'',
      Cached c'' loose held k' ∧ Freed sb c i (fun n => P n ∨ n = j) c'') Spent k := by
  by_cases hz : v = 0
  · rw [if_pos hz]
    refine wp_pure ⟨c', hc, hf.congr fun n b hn => ?_⟩
    refine ⟨fun hp => hp.resolve_right ?_, .inl⟩
    rintro rfl
    obtain ⟨-, -, hb, hne⟩ := place_eq_some.mp (holds_eq_some.mp hn).2
    exact hne (by rw [← hb, ← hv, hz])
  have hsome : holds sb (dinodeAt sb c) c (i, j) = some v :=
    holds_eq_some.mpr ⟨h.lt, place_eq_some.mpr ⟨h.type, hlt, hv.symm, hz⟩⟩
  have hused := h.disk.blocks.mem_used hsome
  have hbit : bitAt sb c' v = true := by
    refine (hf.bits v).mpr ⟨hused.2, fun n hn hnv => hj ?_⟩
    have hnj : n = j := congrArg Prod.snd (h.disk.blocks.owns.inj _ _ _ hnv hsome)
    rwa [← hnj]
  rw [if_neg hz]
  refine wp_post (bfree_run hc (hh v hused.1) (h.bitmap_sure hused.1.2) hbit
    (.inl fun _ _ he => he)) ?_
  intro _ k' h'
  refine ⟨_, h', fun b => ?_, fun b hb => ?_⟩
  · unfold cleared
    rw [bitAt_clearBit]
    by_cases hbv : b = v
    · rw [if_pos hbv, hbv]
      exact iff_of_false Bool.false_ne_true fun ha => ha.2 j (.inr rfl) hsome
    · rw [if_neg hbv, hf.bits b]
      refine and_congr_right fun _ => ⟨fun ha n hn => ?_, fun ha n hn => ha n (.inl hn)⟩
      rcases hn with hn | rfl
      · exact ha n hn
      · rw [hsome]
        exact fun he => hbv (Option.some.inj he).symm
  · rw [← hf.other b hb]
    refine update_of_ne ?_ _ _
    rintro rfl
    exact hb ⟨v, hused.1.2, rfl⟩

lemma truncDirect_spec {n : Fin ndirect}
    (ht : Truncating sb c loose i ip (· < (n : ℕ)) ((dinodeAt sb c i).cut n) s s') :
    wp (truncDirect ip n.castSucc) (fun _ s'' => Truncating sb c loose i ip (· < (n : ℕ) + 1)
      ((dinodeAt sb c i).cut (n + 1)) s s'') Starved s' := by
  obtain ⟨c1, hc1, hf1⟩ := ht.disk
  have hslot := ht.slot
  have haddr : ((dinodeAt sb c i).cut n).addrs n.castSucc = (dinodeAt sb c i).addrs n.castSucc :=
    cut_addrs (lt_irrefl (n : ℕ))
  have hplace : (dinodeAt sb c i).addrs n.castSucc = (dinodeAt sb c i).ptr c n :=
    (ptr_addrs _ c n.castSucc).symm
  have hfree := freePlace_spec h (P := (· < (n : ℕ))) (lt_irrefl _)
    (lt_of_lt_of_le n.isLt (by decide)) hplace (fun _ _ => Finset.notMem_empty _) hc1 hf1
  have hP : ∀ m, m < (n : ℕ) + 1 ↔ m < (n : ℕ) ∨ m = n := fun m => Nat.lt_succ_iff_lt_or_eq
  refine wp_bind (wp_get (wp_bind (wp_inode ?_)))
  rw [ht.only.super, h.super, hslot]
  rw [haddr, h.dev]
  by_cases hz : (dinodeAt sb c i).addrs n.castSucc = 0
  · rw [if_pos hz] at hfree ⊢
    have hcut : (dinodeAt sb c i).cut (n + 1) = (dinodeAt sb c i).cut n := by
      have hs := cut_succ (dinodeAt sb c i) n.castSucc
      rw [Fin.val_castSucc] at hs
      rw [← hs, ← hz, ← haddr, update_eq_self]
    obtain ⟨c2, hc2, hf2⟩ := hfree
    exact wp_pure ⟨by rw [hcut]; exact ht.only, c2, hc2, hf2.congr fun m _ _ => hP m⟩
  · rw [if_neg hz] at hfree ⊢
    refine wp_bind (wp_disk hfree ?_)
    rintro _ k2 ⟨c2, hc2, hf2⟩
    refine wp_modifyInode ⟨?_, c2, hc2, hf2.congr fun m _ _ => hP m⟩
    have hs := cut_succ (dinodeAt sb c i) n.castSucc
    rw [Fin.val_castSucc] at hs
    rw [← hs]
    exact ht.only.setDin _ (f := fun d => { d with addrs := update d.addrs n.castSucc 0 })

lemma truncIndirectAt_spec {addr w : ℕ} (ha : (dinodeAt sb c i).addrs (Fin.last ndirect) = addr)
    (h0 : addr ≠ 0) (hw : w < nindirect)
    (hd : ∃ c', Cached c' loose (insert addr ∅) k ∧
      Freed sb c i (fun j => j ≠ ndirect ∧ j < ndirect + 1 + w) c') :
    wp (truncIndirectAt sb rootDev addr w) (fun _ k' => ∃ c', Cached c' loose (insert addr ∅) k' ∧
      Freed sb c i (fun j => j ≠ ndirect ∧ j < ndirect + 1 + (w + 1)) c') Spent k := by
  obtain ⟨c1, hc1, hf1⟩ := hd
  have hdata := h.disk.blocks.data (holds_indirect (c := c) h.lt h.type ha h0)
  have hmap : ∀ b, b < sb.size → sb.bblock b < addr := fun b hb =>
    lt_of_lt_of_le (h.disk.laid.bitmap b hb) hdata.1
  have hsame : c1 addr = c addr := by
    apply hf1.other
    rintro ⟨b, hb, he⟩
    exact (hmap b hb).ne he
  have hv : (c addr).word w = (dinodeAt sb c i).ptr c (ndirect + 1 + w) := by
    rw [← ha] at h0 ⊢
    exact (ptr_word h0 c w).symm
  have hlt : ndirect + 1 + w < nptr := by
    unfold nptr
    omega
  refine wp_bind (hc1.bdata (Finset.mem_insert_self addr ∅) ?_)
  rw [hsame]
  refine wp_post (freePlace_spec h (by simp) hlt hv (fun b hb => ?_) hc1 hf1) ?_
  · simpa using (hmap b hb.2).ne
  · rintro _ k' ⟨c2, hc2, hf2⟩
    refine ⟨c2, hc2, hf2.congr fun j _ _ => ?_⟩
    omega

lemma truncIndirect_spec
    (ht : Truncating sb c loose i ip (· < ndirect) ((dinodeAt sb c i).cut ndirect) s s') :
    wp (truncIndirect ip) (fun _ s'' => Truncating sb c loose i ip (fun _ => True)
      ((dinodeAt sb c i).cut (ndirect + 1)) s s'') Starved s' := by
  obtain ⟨c1, hc1, hf1⟩ := ht.disk
  have hslot := ht.slot
  have haddr : ((dinodeAt sb c i).cut ndirect).addrs (Fin.last ndirect) =
      (dinodeAt sb c i).addrs (Fin.last ndirect) := cut_addrs (lt_irrefl ndirect)
  have hcut : { (dinodeAt sb c i).cut ndirect with
      addrs := update ((dinodeAt sb c i).cut ndirect).addrs (Fin.last ndirect) 0 } =
      (dinodeAt sb c i).cut (ndirect + 1) := cut_succ (dinodeAt sb c i) (Fin.last ndirect)
  refine wp_bind (wp_get (wp_bind (wp_inode ?_)))
  rw [ht.only.super, h.super, hslot]
  rw [haddr, h.dev]
  by_cases h0 : (dinodeAt sb c i).addrs (Fin.last ndirect) = 0
  · rw [if_pos h0]
    rw [← h0, ← haddr, update_eq_self] at hcut
    refine wp_pure ⟨by rw [← hcut]; exact ht.only, c1, hc1, hf1.congr fun j b hj => ?_⟩
    refine iff_of_true trivial ?_
    -- without an indirect block there is nothing behind the direct addresses
    by_contra hge
    obtain ⟨-, -, hp, hne⟩ := place_eq_some.mp (holds_eq_some.mp hj).2
    rcases Nat.eq_or_lt_of_le (not_lt.mp hge) with rfl | hgt
    · exact hne (by rw [← hp]; exact (ptr_indirect _ c).trans h0)
    · obtain ⟨w, rfl⟩ := Nat.exists_eq_add_of_le hgt
      exact hne (by rw [← hp]; exact ptr_of_no_indirect h0 c w)
  rw [if_neg h0]
  generalize ha : (dinodeAt sb c i).addrs (Fin.last ndirect) = addr at h0 ⊢
  have hheld : holds sb (dinodeAt sb c) c (i, ndirect) = some addr :=
    holds_indirect h.lt h.type ha h0
  have hnl : addr ∉ loose := fun hm => ((h.disk.loose _ hm).2 _ hheld).2 rfl
  refine wp_bind (wp_disk (hc1.bread_sure (Finset.notMem_empty addr) hnl
    (.inl fun _ _ he => he)) ?_)
  rintro _ k1 ⟨-, h1⟩
  refine wp_seq (wp_forRange (I := fun w t => t.itable = s'.itable ∧ t.sb = s'.sb ∧
    ∃ c', Cached c' loose (insert addr ∅) t.kernel ∧
      Freed sb c i (fun j => j ≠ ndirect ∧ j < ndirect + 1 + w) c') ?_ ⟨rfl, rfl, c1, h1, ?_⟩) ?_
  · rintro w t hw ⟨hti, htsb, hd⟩
    refine wp_disk (truncIndirectAt_spec h ha h0 hw hd) ?_
    intro _ k2 hd2
    exact ⟨hti, htsb, hd2⟩
  · exact hf1.congr fun j _ _ => by omega
  · rintro _ t ⟨hti, htsb, c2, hc2, hf2⟩
    refine wp_bind (wp_disk (hc2.release (Finset.notMem_empty addr)) ?_)
    rintro _ k3 ⟨-, h3⟩
    have hptr : addr = (dinodeAt sb c i).ptr c ndirect := by
      rw [← ha, ptr_indirect]
    have hfree := freePlace_spec h (j := ndirect) (by simp) (by decide) hptr
      (fun _ _ => Finset.notMem_empty _) h3 hf2
    rw [if_neg h0] at hfree
    refine wp_bind (wp_disk hfree ?_)
    rintro _ k4 ⟨c4, hc4, hf4⟩
    have honly : OnlyDin ip ((dinodeAt sb c i).cut ndirect) s t :=
      ⟨by rw [htsb, ht.only.super], by rw [hti, ht.only.itable]⟩
    refine wp_modifyInode ⟨?_, c4, hc4, hf4.congr fun j b hj => ?_⟩
    · rw [← hcut]
      exact honly.setDin _ (f := fun d => { d with addrs := update d.addrs (Fin.last ndirect) 0 })
    · have hlt := holds_lt hj
      unfold nptr at hlt
      refine iff_of_true trivial ?_
      omega

/-- `itrunc` clears the bits of the blocks that the inode holds, in `addrs[]` or in the indirect
block, and no other bit, and leaves the inode empty in memory and on disk. The other inodes and
all data blocks stay. A second `bfree` of a block would panic, and none does: `itrunc` stops only
for want of a buffer, of room in the log, or of a transaction. -/
theorem itrunc_frees_blocks :
    wp (itrunc ip) (fun _ s' => ∃ c', Cached c' loose ∅ s'.kernel ∧
      (∀ b, bitAt sb c' b = true ↔
        bitAt sb c b = true ∧ ∀ j, holds sb (dinodeAt sb c) c (i, j) ≠ some b) ∧
      OnlyDin ip (dinodeAt sb c i).truncated s s' ∧
      (∀ j < sb.ninodes, dinodeAt sb c' j =
        update (dinodeAt sb c) i (dinodeAt sb c i).truncated j) ∧
      ∀ b, sb.Data b → c' b = c b) Starved s := by
  have hlaid := h.disk.laid
  obtain ⟨hib, himap⟩ := hlaid.iblock h.lt h.some
  unfold itrunc
  refine wp_seq (wp_forFin (I := fun n t => Truncating sb c loose i ip (· < n)
    ((dinodeAt sb c i).cut n) s t) ?_ ⟨?_, c, h.disk.store.cached, ?_⟩) ?_
  · intro n t hn
    exact truncDirect_spec h hn
  · have honly : OnlyDin ip (s.itable ip).din s s := OnlyDin.of_eq rfl rfl
    rwa [h.mem] at honly
  · exact ⟨fun b => by simp, fun _ _ => rfl⟩
  intro _ s1 h1
  refine wp_seq (truncIndirect_spec h h1) ?_
  intro _ s2 h2
  refine wp_bind (wp_modifyInode ?_)
  obtain ⟨c2, hc2, hf2⟩ := h2.disk
  have honly := h2.only.setDin s2.kernel (f := fun d => { d with size := 0 })
  rw [cut_all] at honly
  generalize hs3 : s2.setInode ip _ = s3
  have hk3 : s3.kernel = s2.kernel := by
    rw [← hs3]
    rfl
  have ho3 : OnlyDin ip (dinodeAt sb c i).truncated s s3 := by
    rw [← hs3]
    exact honly
  have hslot : s3.itable ip = { s.itable ip with din := (dinodeAt sb c i).truncated } := by
    rw [ho3.itable, update_self]
  have hnl : sb.iblock i ∉ loose := by
    intro hm
    have hge := (h.disk.loose _ hm).1.1
    omega
  have hrun := iupdate_run (by rw [hk3]; exact hc2) (ho3.super.trans h.super) hslot h.dev
    (by rw [h.inum]; exact hnl)
  dsimp only at hrun
  rw [h.inum] at hrun
  refine wp_post hrun ?_
  rintro _ s4 ⟨⟨hi4, hsb4⟩, -, h4⟩
  have hfits : (dinodeAt sb c i).truncated.Fits :=
    ⟨by change 0 < 2 ^ 32; decide, fun _ => by change 0 < 2 ^ 32; decide⟩
  have hsync : ∀ j < sb.ninodes, dinodeAt sb c2 j = dinodeAt sb c j := by
    intro j hj
    unfold dinodeAt
    rw [hf2.other]
    rintro ⟨b, -, he⟩
    exact (hlaid.iblock hj h.some).2 b he
  refine ⟨_, h4, fun b => ?_, ⟨by rw [hsb4, ho3.super], by rw [hi4, ho3.itable]⟩, ?_, ?_⟩
  · rw [bitAt_update (himap b), hf2.bits b]
    simp
  · intro j hj
    rw [dinodeAt_putDinode hfits]
    by_cases hji : j = i
    · rw [hji, update_self, update_self]
    · rw [update_of_ne hji, update_of_ne hji, hsync j hj]
  · intro b hb
    have hge := hb.1
    rw [update_of_ne (by omega), hf2.other]
    rintro ⟨b', hb', he⟩
    have hlt := hlaid.bitmap b' hb'
    omega

end work

/-- The file `a` of an image that `mkfs` made, which has one block. -/
theorem itrunc_frees_blocks_hi : ∃ (s : Fs) (c : ℕ → Block),
    (dinodeAt Mkfs.sb c 2).type ≠ 0 ∧ wp (itrunc 0) (fun _ s' => ∃ c', Cached c' ∅ ∅ s'.kernel ∧
      ∀ b, bitAt Mkfs.sb c' b = true ↔ bitAt Mkfs.sb c b = true ∧
        ∀ j, holds Mkfs.sb (dinodeAt Mkfs.sb c) c (2, j) ≠ some b) Starved s := by
  obtain ⟨d, ino, s, hm, h, hi, -, htype⟩ := Mkfs.exists_hiFile_locked
  refine ⟨s, d.disk, htype, ?_⟩
  refine wp_post (itrunc_frees_blocks (h.work hi (Finset.mem_insert_self 2 ∅) htype)) ?_
  rintro _ s' ⟨c', hc, hbits, -⟩
  exact ⟨c', hc, hbits⟩

end Xv6
