import Xv6.DirectorySpec
import Xv6.MkfsKernel

/-! The image that `mkfs` makes, mounted and with an operation open, is a file system between two
calls. -/
namespace Xv6

open Function

theorem Steady.exists_taken {sb : Superblock} {T : Prop} {c : ℕ → Block} {loose : Set ℕ}
    {rc : ℕ → ℕ} {L : Finset ℕ} {s : Fs} {ip : Slot} {i : ℕ} (h : Steady sb T c loose rc L s)
    (h0 : (s.itable ip).ref = 0) (hz : rc i = 0) :
    ∃ s' : Fs, s'.kernel = s.kernel ∧ Steady sb T c loose (gain rc i) L s' ∧
      Has s'.itable ip i := by
  obtain ⟨h1, -⟩ := h.slots.take h0 hz
  generalize ht : update s.itable ip _ = t at h1
  have hs : Steady sb T c loose (gain rc i) L { s with itable := t } := h.setTable rfl rfl h1
  refine ⟨{ s with itable := t }, rfl, hs, ?_⟩
  change Has t ip i
  rw [← ht]
  exact ⟨by rw [update_self]; exact (zero_lt_one : (0 : ℤ) < 1), by
    rw [update_self]⟩

theorem Steady.exists_locked {sb : Superblock} {T : Prop} {c : ℕ → Block} {loose : Set ℕ}
    {rc : ℕ → ℕ} {L : Finset ℕ} {s : Fs} {ip : Slot} {i : ℕ} (h : Steady sb T c loose rc L s)
    (h0 : (s.itable ip).ref = 0) (hz : rc i = 0) (hlt : i < sb.ninodes) :
    ∃ s' : Fs, s'.kernel = s.kernel ∧ Steady sb T c loose (gain rc i) (insert i L) s' ∧
      Has s'.itable ip i := by
  obtain ⟨s1, hk1, h1, hi⟩ := h.exists_taken h0 hz
  obtain ⟨h2, hk⟩ := h1.slots.lock hi hlt
  generalize update s1.itable ip _ = u at h2 hk
  have hs : Steady sb T c loose (gain rc i) (insert i L) { s1 with itable := u } :=
    h1.setTable rfl rfl h2
  exact ⟨{ s1 with itable := u }, hk1, hs, hk ip i hi (by rw [gain_self]; omega)⟩

namespace Mkfs

variable {ino : ℕ → Dinode} {s : Image} {files : List Input}

/-- The kernel with the image mounted, no inode in use, and one operation open. -/
def operating (d : ℕ → Block) : Fs where
  kernel := { reboot rootDev sb.logstart sb.nlog d with
    log := ⟨sb.logstart, sb.nlog, 1, false, rootDev, []⟩ }
  sb := sb
  itable := fun _ => ⟨0, 0, 0, false, false, Dinode.zero⟩

lemma still_operating (d : ℕ → Block) : Still d (operating d).kernel := by
  have hq : Quiet rootDev [] (reboot rootDev sb.logstart sb.nlog d) := reboot_quiet (by decide) d
  have hc : ∀ b, (reboot rootDev sb.logstart sb.nlog d).content rootDev b = d b :=
    reboot_content (by decide) d
  exact ⟨⟨hq.cache, hq.found, hq.absent, hq.valid, hq.held⟩, hc, rfl⟩

lemma slots_operating (d : ℕ → Block) (ino : ℕ → Dinode) :
    Slots sb ino (fun _ => 0) ∅ (operating d).itable := by
  refine ⟨fun ip => ⟨le_rfl, ?_, ?_, ?_, ?_, ?_⟩, ?_, ?_, ?_⟩
  any_goals intro hr; exact absurd hr (lt_irrefl _)
  · exact ⟨fun hl => absurd hl Bool.false_ne_true, fun hl => absurd hl.1 (lt_irrefl _)⟩
  · intro i hi
    exact absurd hi (lt_irrefl _)
  · intro ip iq i hp
    exact absurd hp.1 (lt_irrefl _)
  · intro i hi
    exact absurd hi (Finset.notMem_empty i)

lemma Made.whole (h : Made files ino s) (hfew : files.length ≤ 198)
    (hmod : (files.length + 2) % 64 ≠ 0) {i : ℕ} (hi : i < ninodes) (ht : (ino i).type ≠ 0) :
    (ino i).Backed s.disk (ino i).size := by
  have hw := h.wellFormed hfew hmod
  have hlive : 0 < i ∧ i < s.freeinode := by
    by_contra hn
    rw [h.free i hi (by omega)] at ht
    exact ht rfl
  have hcap : (ino i).size ≤ maxFile * bsize := by
    by_cases hr : i = rootIno
    · have hlen : (rootBytes files).length = (files.length + 2) * direntSize := length_rootBytes
      have hmax : maxFile * bsize = 274432 := rfl
      rw [hr, h.root]
      unfold direntSize bsize at *
      omega
    · rw [h.length i hi hr]
      exact h.cap i
  have hthere := hw.whole i hlive.1 hlive.2
  rw [h.sync i hi] at hthere
  refine ⟨hcap, fun off ho => hthere _ ?_⟩
  exact lt_of_le_of_lt (Nat.div_mul_le_self off bsize) ho

lemma steady_operating {d : ℕ → Block} (hb : Blocks sb (dinodeAt sb d) d ∅)
    (hback : ∀ i < ninodes, (dinodeAt sb d i).type ≠ 0 →
      (dinodeAt sb d i).Backed d (dinodeAt sb d i).size) :
    Steady sb True d ∅ (fun _ => 0) ∅ (operating d) :=
  ⟨rfl, by decide, ⟨laid_sb, (still_operating d).store rfl ⟨rfl, rfl⟩ rfl, hb, by simp, by simp⟩,
    slots_operating _ _, hback, fun _ => rfl⟩

lemma Made.owners (h : Made files ino s) : Blocks sb (dinodeAt sb s.disk) s.disk ∅ := by
  refine h.blocks.congr fun p => ?_
  unfold holds
  split_ifs with hp
  · rw [h.sync p.1 hp]
  · rfl

section
variable (h : Made files ino s) (hfew : files.length ≤ 198) (hmod : (files.length + 2) % 64 ≠ 0)
include h hfew hmod

theorem Made.steady : Steady sb True s.disk ∅ (fun _ => 0) ∅ (operating s.disk) := by
  refine steady_operating h.owners fun i hi ht => ?_
  rw [h.sync i hi] at ht ⊢
  exact h.whole hfew hmod hi ht

theorem Made.direntAt_rest {e : ℕ} (he : files.length + 2 ≤ e)
    (hlt : e < (ino rootIno).size / direntSize) : ((ino rootIno).direntAt s.disk e).inum = 0 := by
  have hcont : contents files rootIno = rootBytes files := if_pos rfl
  have hlive : rootIno < s.freeinode := by
    rw [h.inodes]
    exact Nat.lt_of_lt_of_le (by decide) (Nat.le_add_left 2 files.length)
  have hback := h.whole hfew hmod (by decide : rootIno < ninodes) (h.type_ne (by decide) hlive)
  have hend : (e + 1) * direntSize ≤ (ino rootIno).size :=
    (Nat.le_div_iff_mul_le (by decide)).mp hlt
  have hm : ∀ n, n * direntSize = n * 16 := fun _ => rfl
  have hs : direntSize = 16 := rfl
  have hbyte : ∀ j ∈ List.range direntSize,
      (ino rootIno).byteAt s.disk (e * direntSize + j) = direntByte Dirent.zero j := by
    intro j hj
    rw [List.mem_range, hs] at hj
    rw [hm] at hend ⊢
    have ho : e * 16 + j < (ino rootIno).size := by omega
    have hlen : (rootBytes files).length ≤ e * 16 + j := by
      rw [length_rootBytes, hm]
      omega
    rw [h.byteAt_of_held hfew (by decide) hlive (hback.lt ho) (hback.2 _ ho), hcont,
      List.getD_eq_default _ _ hlen]
    interval_cases j <;> rfl
  unfold Dinode.direntAt
  rw [List.map_congr_left hbyte]
  rfl

end

theorem steady_putDinode {d d' : ℕ → Block} {y : Dinode} {i : ℕ}
    (h : Steady sb True d ∅ (fun _ => 0) ∅ (operating d)) (hi : i < sb.ninodes)
    (ht : (dinodeAt sb d i).type = 0) (hy : y = { Dinode.zero with type := tDir })
    (hd : d' = update d (sb.iblock i) ((d (sb.iblock i)).putDinode i y)) :
    Steady sb True d' ∅ (fun _ => 0) ∅ (operating d') ∧ dinodeAt sb d' i = y := by
  have hfits : y.Fits := by
    rw [hy]
    exact ⟨by change 0 < 2 ^ 32; decide, fun _ => by change 0 < 2 ^ 32; decide⟩
  have hsync : dinodeAt sb d' = update (dinodeAt sb d) i y := by
    rw [hd]
    exact funext (dinodeAt_putDinode hfits)
  have hdata : ∀ b, sb.Data b → d' b = d b := by
    intro b hb
    have hlt := (laid_sb.iblock hi h.size).1
    have hge := hb.1
    rw [hd, update_of_ne (by omega)]
  have hplace : ∀ n, y.place d n = (dinodeAt sb d i).place d n := by
    intro n
    rw [place_of_addrs_zero fun _ => by rw [hy]; rfl]
    unfold Dinode.place
    rw [if_neg (by simp [ht])]
  have hblocks : Blocks sb (dinodeAt sb d') d' ∅ := by
    rw [hsync, hd]
    exact (h.disk.blocks.setInode hi hplace).updateInodeBlock laid_sb hi h.size
  refine ⟨steady_operating hblocks fun j hj hj0 => ?_, by rw [hsync, update_self]⟩
  rw [hsync] at hj0 ⊢
  by_cases hji : j = i
  · rw [hji, update_self, hy]
    exact ⟨Nat.zero_le _, fun o ho => absurd ho (Nat.not_lt_zero o)⟩
  · rw [update_of_ne hji] at hj0 ⊢
    have hb := h.backed j hj hj0
    exact (stays_of_data (T := True) h.disk.blocks hj hj0 hb hdata).backed hb

theorem exists_hiFile_locked : ∃ (d : Image) (ino : ℕ → Dinode) (s : Fs), Made [hiFile] ino d ∧
    Steady sb True d.disk ∅ (gain (fun _ => 0) 2) (insert 2 ∅) s ∧ Has s.itable 0 2 ∧
    2 < d.freeinode ∧ (dinodeAt sb d.disk 2).type ≠ 0 := by
  obtain ⟨d, hd⟩ := mkfs_isSome (by decide) acceptable_hiFile
  obtain ⟨ino, hm⟩ := made_of_mkfs hd (by decide)
  obtain ⟨s, -, h, hi⟩ := (hm.steady (by decide) (by decide)).exists_locked
    (rfl : ((operating d.disk).itable 0).ref = 0) rfl (by decide : 2 < sb.ninodes)
  have hlive : 2 < d.freeinode := by
    rw [hm.inodes]
    decide
  refine ⟨d, ino, s, hm, h, hi, hlive, ?_⟩
  rw [hm.sync 2 (by decide)]
  exact hm.type_ne (by decide) hlive

end Mkfs

end Xv6
