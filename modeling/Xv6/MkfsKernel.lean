import Xv6.MkfsResult
import Xv6.FsInit
import Xv6.Name

/-! The kernel finds the files that `mkfs` was given, and allocates around them. -/
namespace Xv6.Mkfs

open Program Ownership Function List

variable {ino : ℕ → Dinode} {s : Image} {files : List Input} {i off : ℕ}

section mount

lemma superblock_sbBlock : superblock sbBlock = sb ∧ sbBlock.word 0 = fsmagic := by
  refine ⟨?_, by decide +kernel⟩
  unfold superblock
  rw [show sbBlock.word 1 = sb.size by decide +kernel,
    show sbBlock.word 2 = sb.nblocks by decide +kernel,
    show sbBlock.word 3 = sb.ninodes by decide +kernel,
    show sbBlock.word 4 = sb.nlog by decide +kernel,
    show sbBlock.word 5 = sb.logstart by decide +kernel,
    show sbBlock.word 6 = sb.inodestart by decide +kernel,
    show sbBlock.word 7 = sb.bmapstart by decide +kernel]

lemma Made.fsinit {E : Stop → Fs → Prop} (h : Made files ino s) :
    wp (fsinit rootDev) (fun _ t => Mounted sb s.disk t ∧ t.itable = (boot s.disk).itable ∧
      t.kernel.log = ⟨sb.logstart, sb.nlog, 0, false, rootDev, []⟩) E (boot s.disk) := by
  have hsb : superblock (s.disk 1) = sb := by rw [h.super, superblock_sbBlock.1]
  have hspec := fsinit_mounted (E := E) (s := boot s.disk) (still_boot s.disk)
    (by rw [h.super, superblock_sbBlock.2]) (by rw [hsb]; exact h.log _ le_rfl (by decide))
  rw [hsb] at hspec
  exact hspec

end mount

section files

section
variable (h : Made files ino s) (hfew : files.length ≤ 198) (h0 : 0 < i) (hi : i < s.freeinode)
include h hfew h0 hi

lemma Made.backed : (ino i).Backed s.disk (contents files i).length := by
  have hpos : 0 < bsize := by decide
  refine ⟨h.cap i, fun off ho => ?_⟩
  have hn : off / bsize < maxFile := by
    rw [Nat.div_lt_iff_lt_mul hpos]
    exact lt_of_lt_of_le ho (h.cap i)
  rw [h.ptr_ne_zero hfew h0 hi hn, lt_spread]
  exact lt_of_le_of_lt (Nat.div_mul_le_self off bsize) ho

theorem Made.byteAt_of_held (hn : off / bsize < maxFile)
    (hp : (ino i).ptr s.disk (dataPlace (off / bsize)) ≠ 0) :
    (ino i).byteAt s.disk off = (contents files i).getD off 0 := by
  have hheld : holds sb ino s.disk (i, dataPlace (off / bsize)) =
      some ((ino i).ptr s.disk (dataPlace (off / bsize))) := by
    rw [holds_eq_nonzero (h.lt hfew hi) (h.type_ne h0 hi) (dataPlace_lt hn)]
    exact nonzero_eq_some.mpr ⟨rfl, hp⟩
  unfold Dinode.byteAt
  rw [h.vol.bytes i (off / bsize) _ hheld _ (Nat.mod_lt _ (by decide)), Nat.div_add_mod']

theorem Made.byteAt (ho : off < (contents files i).length) :
    (ino i).byteAt s.disk off = (contents files i).getD off 0 := by
  have hback := h.backed hfew h0 hi
  exact h.byteAt_of_held hfew h0 hi (hback.lt ho) (hback.2 off ho)

end

end files

section root

def rootEntries (files : List Input) : List (ℕ × List Byte) :=
  (rootIno, [46]) :: (rootIno, [46, 46]) :: (files.zipIdx 2).map fun f => (f.2, f.1.shortname)

lemma length_rootEntries : (rootEntries files).length = files.length + 2 := by
  simp [rootEntries]

lemma rootBytes_eq : rootBytes files =
    (rootEntries files).flatMap fun e => direntBytes e.1 e.2 := by
  simp [rootBytes, rootEntries, flatMap_map]

theorem getD_rootEntries {k : ℕ} {f : Input} (hk : files[k]? = some f) :
    (rootEntries files).getD (k + 2) (0, []) = (k + 2, f.shortname) := by
  simp [rootEntries, hk, getD_eq_getElem?_getD, Nat.add_comm]

theorem Made.direntAt (h : Made files ino s) (hfew : files.length ≤ 198) {e : ℕ}
    (he : e < files.length + 2) : (ino rootIno).direntAt s.disk e =
      ⟨((rootEntries files).getD e (0, [])).1 % 2 ^ 16, nameOf ((rootEntries files).getD e (0, [])).2⟩ := by
  have hcont : contents files rootIno = rootBytes files := if_pos rfl
  have hlive : rootIno < s.freeinode := by
    rw [h.inodes]
    exact Nat.lt_of_lt_of_le (by decide) (Nat.le_add_left 2 files.length)
  have hbyte : ∀ j < direntSize, (ino rootIno).byteAt s.disk (e * direntSize + j) =
      (rootBytes files).getD (e * direntSize + j) 0 := by
    intro j hj
    rw [h.byteAt hfew (by decide) hlive, hcont]
    rw [hcont, length_rootBytes]
    exact Nat.lt_of_lt_of_le (Nat.add_lt_add_left hj _)
      ((Nat.succ_mul e direntSize).symm.trans_le (Nat.mul_le_mul_right _ he))
  generalize hp : (rootEntries files).getD e (0, []) = p
  have hbytes : (range direntSize).map (fun j => (ino rootIno).byteAt s.disk (e * direntSize + j)) =
      direntBytes p.1 p.2 := by
    refine map_congr_left fun j hj => ?_
    rw [mem_range] at hj
    have hpiece := getD_flatMap (f := fun e : ℕ × List Byte => direntBytes e.1 e.2) (d := 0)
      (fun e => length_direntBytes e.1 e.2) (by rw [length_rootEntries]; exact he) hj (0, [])
    rw [hp] at hpiece
    rw [hbyte j hj, rootBytes_eq, hpiece]
    unfold direntBytes
    rw [getD_eq_getElem _ _ (by rw [length_map, length_range]; exact hj),
      getElem_map, getElem_range]
  unfold Dinode.direntAt
  rw [hbytes]
  refine direntOf_direntByte ⟨Nat.mod_lt _ (by decide), ?_⟩
  unfold nameOf
  rw [length_append, length_take, length_replicate]
  omega

end root

section read

lemma Input.nonul_shortname (f : Input) : (0 : Byte) ∉ f.shortname := by
  have hbase : (0 : Byte) ∉ f.base := by
    unfold Input.base
    split_ifs
    · exact fun h0 => f.nonul (mem_of_mem_drop h0)
    · exact f.nonul
  unfold Input.shortname
  split_ifs
  · exact fun h0 => hbase (mem_of_mem_tail h0)
  · exact hbase

theorem contents_file {k : ℕ} {f : Input} (hk : files[k]? = some f) :
    contents files (k + 2) = f.bytes := by
  unfold contents
  rw [if_neg (by unfold rootIno; omega), if_neg (by omega), Nat.add_sub_cancel, hk]
  rfl

def Named (f : Input) : Prop :=
  f.shortname.length ≤ dirsiz ∧ f.shortname ≠ [46] ∧ f.shortname ≠ [46, 46]

theorem Made.matches (h : Made files ino s) (hfew : files.length ≤ 198)
    (hd : (files.map Input.shortname).Nodup) (hname : ∀ f ∈ files, Named f) {k : ℕ} {f : Input}
    (hk : files[k]? = some f) :
    (∀ e < k + 2, ¬ ((ino rootIno).direntAt s.disk e).Matches (nameOf f.shortname)) ∧
      ((ino rootIno).direntAt s.disk (k + 2)).Matches (nameOf f.shortname) ∧
      ((ino rootIno).direntAt s.disk (k + 2)).inum = k + 2 := by
  obtain ⟨hlt, hget⟩ := List.getElem?_eq_some_iff.mp hk
  have hmem : f ∈ files := mem_of_getElem? hk
  obtain ⟨hlen, hdot, hdotdot⟩ := hname f hmem
  refine ⟨?_, ?_⟩
  · intro e he hmatch
    rw [h.direntAt hfew (by omega)] at hmatch
    have hzero := hmatch.2
    dsimp only at hzero
    match e with
    | 0 => exact hdot ((namecmp_nameOf f.nonul_shortname (by decide) hlen (by decide)).mp hzero)
    | 1 => exact hdotdot ((namecmp_nameOf f.nonul_shortname (by decide) hlen (by decide)).mp hzero)
    | j + 2 =>
      have hj : files[j]? = some files[j] := getElem?_eq_getElem (by omega)
      rw [getD_rootEntries hj, namecmp_nameOf f.nonul_shortname (Input.nonul_shortname _) hlen
        (hname _ (getElem_mem _)).1] at hzero
      have hne := pairwise_iff_getElem.mp hd j k (by simp; omega) (by simp; omega) (by omega)
      rw [getElem_map, getElem_map, hget] at hne
      exact hne hzero.symm
  · rw [h.direntAt hfew (by omega), getD_rootEntries hk]
    have hmod : (k + 2) % 2 ^ 16 = k + 2 := Nat.mod_eq_of_lt (by omega)
    refine ⟨⟨?_, ?_⟩, hmod⟩
    · dsimp only
      omega
    · exact (namecmp_nameOf f.nonul_shortname f.nonul_shortname hlen hlen).mpr rfl

/-- Mount the image, look up `name` in the root directory, and read `n` bytes of that file. -/
def lookupRead (name : List Byte) (off n : ℕ) : F (Option (Dinode × Option (List Byte))) := do
  fsinit rootDev
  let dp ← iget rootDev rootIno
  ilock dp
  let r ← dirlookup dp name
  match r with
  | none => return none
  | some (ip, _) =>
      ilock ip
      let x ← inode ip
      let bytes ← readi ip (fun _ _ => true) off n
      return some (x.din, bytes)

lemma Made.lookupRead {E : Stop → Fs → Prop} (h : Made files ino s) (hfew : files.length ≤ 198)
    (hd : (files.map Input.shortname).Nodup) (hname : ∀ f ∈ files, Named f) {k off n : ℕ}
    {f : Input} (hk : files[k]? = some f) (hn : off + n ≤ f.bytes.length) :
    wp (lookupRead (nameOf f.shortname) off n) (fun r _ =>
      r = some (ino (k + 2), some ((f.bytes.drop off).take n))) E (boot s.disk) := by
  obtain ⟨hklt, -⟩ := List.getElem?_eq_some_iff.mp hk
  have hnum := h.inodes
  have hroot : rootIno < s.freeinode := by
    have hone : rootIno = 1 := rfl
    omega
  have hfile : k + 2 < s.freeinode := by omega
  obtain ⟨hmiss, hhit, hinum⟩ := h.matches hfew hd hname hk
  have hsync := fun i hi => h.sync i (h.lt hfew (i := i) hi)
  have hcont := contents_file hk
  unfold Mkfs.lookupRead
  refine wp_seq h.fsinit ?_
  rintro _ t ⟨hm, hi, -⟩
  have hfree : ∀ ip, t.itable ip = ⟨0, 0, 0, false, false, Dinode.zero⟩ := by
    intro ip
    rw [hi]
    rfl
  refine wp_seq (iget_new (fun ip hpos => ?_) ⟨0, by rw [hfree]⟩) ?_
  · rw [hfree] at hpos
    exact absurd hpos (by decide)
  rintro dp _ ⟨-, rfl⟩
  generalize ht1 : t.setInode dp _ = t1
  have hm1 : Mounted sb s.disk t1 := by
    rw [← ht1]
    exact hm.setInode _
  have hi1 : t1.itable = update t.itable dp ⟨rootDev, rootIno, 1, false, false, Dinode.zero⟩ := by
    rw [← ht1, Fs.setInode, hfree]
  have hx1 : t1.itable dp = ⟨rootDev, rootIno, 1, false, false, Dinode.zero⟩ := by
    rw [hi1, update_self]
  refine wp_seq (ilock_mounted hm1 (by rw [hx1]) (by rw [hx1]) (by rw [hx1]) (by rw [hx1]) ?_) ?_
  · rw [hx1, hsync _ hroot]
    exact h.type_ne (by decide) hroot
  rintro _ t2 ⟨hm2, hi2⟩
  rw [hx1, hi1, update_idem, hsync _ hroot] at hi2
  have hx2 : t2.itable dp = ⟨rootDev, rootIno, 1, true, true, ino rootIno⟩ := by
    rw [hi2, update_self]
  have ho2 : ∀ ip, ip ≠ dp → t2.itable ip = ⟨0, 0, 0, false, false, Dinode.zero⟩ := by
    intro ip hne
    rw [hi2, update_of_ne hne, hfree]
  have hback := h.backed hfew (by decide) hroot
  have hrlen : (contents files rootIno).length = (files.length + 2) * direntSize := length_rootBytes
  have hlast : (k + 2 + 1) * direntSize ≤ (contents files rootIno).length := by
    rw [hrlen]
    exact Nat.mul_le_mul_right _ (by omega)
  refine wp_seq (dirlookup_found hm2 (by rw [hx2]) (by rw [hx2]) (h.live _ (by decide) hroot).1
    (hback.mono hlast) ?_ ?_ hmiss hhit ?_ ?_) ?_
  · rw [h.root]
    refine hlast.trans ?_
    change (rootBytes files).length ≤ _
    unfold bsize
    omega
  · rw [h.root]
    exact Dvd.dvd.mul_left (by decide) _
  · intro ip hpos
    rw [hinum]
    by_cases hne : ip = dp
    · rw [hne, hx2]
      change 1 ≠ k + 2
      omega
    · rw [ho2 ip hne] at hpos
      exact absurd hpos (by decide)
  · have hslots : Nontrivial Slot := inferInstanceAs (Nontrivial (Fin 50))
    obtain ⟨ip, hne⟩ := exists_ne dp
    exact ⟨ip, by rw [ho2 ip hne]⟩
  rintro _ t3 ⟨q, rfl, hq, hm3, hi3⟩
  have hqne : q ≠ dp := by
    rintro rfl
    rw [hx2] at hq
    exact one_ne_zero hq
  rw [hinum, ho2 q hqne] at hi3
  have hx3 : t3.itable q = ⟨rootDev, k + 2, 1, false, false, Dinode.zero⟩ := by
    rw [hi3, update_self]
  dsimp only
  refine wp_seq (ilock_mounted hm3 (by rw [hx3]) (by rw [hx3]) (by rw [hx3]) (by rw [hx3]) ?_) ?_
  · rw [hx3, hsync _ hfile]
    exact h.type_ne (by omega) hfile
  rintro _ t4 ⟨hm4, hi4⟩
  have hx4 : t4.itable q = ⟨rootDev, k + 2, 1, true, true, ino (k + 2)⟩ := by
    rw [hi4, update_self, hx3, hsync _ hfile]
  have hfback := h.backed hfew (by omega) hfile
  rw [hcont] at hfback
  refine wp_bind (wp_inode ?_)
  refine wp_seq (readi_mounted hm4 (by rw [hx4]) ?_ ?_) ?_
  · rw [hx4]
    exact ⟨hn.trans hfback.1, fun o ho => hfback.2 o (lt_of_lt_of_le ho hn)⟩
  · rw [hx4]
    dsimp only
    rw [h.length _ (h.lt hfew hfile) (by unfold rootIno; omega), hcont]
    exact hn
  rintro _ t5 rfl
  refine wp_pure ?_
  rw [hx4]
  have hbytes : (range n).map (fun j => (ino (k + 2)).byteAt s.disk (off + j)) =
      (f.bytes.drop off).take n := by
    refine ext_getElem (by simp; omega) ?_
    intro j hj1 hj2
    have hj : off + j < f.bytes.length := by
      simp at hj1
      omega
    rw [getElem_map, getElem_range, h.byteAt hfew (by omega) hfile (by rw [hcont]; exact hj),
      hcont, getElem_take, getElem_drop, getD_eq_getElem _ _ hj]
  exact congrArg (fun l => some (ino (k + 2), some l)) hbytes

end read

section allocate

def allocate : ℕ → F (List ℕ)
  | 0 => return []
  | m + 1 => do
      let sb := (← get).sb
      let b ← Xv6.balloc sb rootDev
      let bs ← allocate m
      return b :: bs

def mountAllocate (m : ℕ) : F (List ℕ) := do
  fsinit rootDev
  beginOp
  allocate m

theorem laid_sb : sb.Laid := by
  refine ⟨by decide, ?_, ?_, by decide, by decide⟩
  · intro i hi
    change i < 200 at hi
    change i / 16 + 32 < 45
    omega
  · intro b hb
    change b < 2000 at hb
    change b / 8192 + 45 < 46
    omega

theorem Made.blocks (h : Made files ino s) : Blocks sb ino s.disk ∅ := by
  have hle := h.le
  have hfs : fssize = 2000 := rfl
  have hbpb : bpb = 8192 := rfl
  have hmeta : nmeta = 46 := rfl
  have hstart : sb.datastart = 46 := rfl
  have hsize : sb.size = 2000 := rfl
  have hused : used sb s.disk = {b | nmeta ≤ b ∧ b < s.freeblock} := by
    ext b
    rw [used, Set.mem_ofPred_eq, Set.mem_ofPred_eq, Superblock.Data, hstart, hsize, hmeta]
    constructor
    · rintro ⟨⟨h1, h2⟩, hbit⟩
      rw [h.bitmap (by omega)] at hbit
      exact ⟨h1, of_decide_eq_true hbit⟩
    · rintro ⟨h1, h2⟩
      refine ⟨⟨h1, by omega⟩, ?_⟩
      rw [h.bitmap (by omega)]
      exact decide_eq_true h2
  refine ⟨?_, ?_⟩
  · rw [hused]
    exact h.vol.owns
  · intro b h1 h2
    rw [h.bitmap (by omega), h.vol.room]
    exact decide_eq_true (by omega)

/-- Running out of buffers, log space or inode table entries, or writing outside of a
transaction. -/
def Exhausted (e : Stop) : Prop :=
  e = .panic .bgetNoBuffers ∨ e = .panic .tooBigTransaction ∨
    e = .panic .logWriteOutsideOfTrans ∨ e = .panic .igetNoInodes

lemma exhausted_of_spent {e : Stop} {k : Kernel} (h : Spent e k) : Exhausted e := by
  rcases h with ⟨h, -⟩ | ⟨h, -⟩ | ⟨h, -⟩
  · exact .inl h
  · exact .inr (.inl h)
  · exact .inr (.inr (.inl h))

lemma allocate_spec {X : Set ℕ} {c : ℕ → Block} {t : Fs} {m : ℕ} (hsb : t.sb = sb)
    (h : Disk sb ino X c ∅ ∅ t.kernel) (hused : used sb s.disk ⊆ used sb c) :
    wp (allocate m) (fun bs _ => ∀ b ∈ bs, b = 0 ∨ sb.Data b ∧ b ∉ used sb s.disk)
      (stops Exhausted) t := by
  induction m generalizing X c t with
  | zero => exact wp_pure (by simp)
  | succ m ih =>
    unfold allocate
    refine wp_bind (wp_get ?_)
    rw [hsb]
    refine wp_seq (wp_lift (R := fun r t' => t'.sb = sb ∧ BallocResult sb ino X c ∅ ∅ r t'.kernel)
      (wp_mono (balloc_spec (by decide) h) (fun r k hr => ⟨hsb, hr⟩)
        fun _ _ he => exhausted_of_spent he)) ?_
    rintro r t1 ⟨hsb1, ⟨rfl, -, h1⟩ | ⟨hr, c1, hA, h1⟩⟩
    · refine wp_seq (ih hsb1 h1 hused) ?_
      intro bs t2 hbs
      exact wp_pure fun b hb => (mem_cons.mp hb).elim .inl (hbs b)
    · rw [Set.empty_sdiff] at h1
      refine wp_seq (ih hsb1 h1 (hused.trans hA.mono)) ?_
      intro bs t2 hbs
      refine wp_pure fun b hb => ?_
      rcases mem_cons.mp hb with rfl | hb
      · have hin : b ∈ used sb c1 := h1.blocks.owns.spare (Set.mem_insert b X)
        exact .inr ⟨hin.1, fun hold => hA.fresh (hused hold)⟩
      · exact hbs b hb

lemma Made.mountAllocate (h : Made files ino s) (m : ℕ) :
    wp (mountAllocate m) (fun bs _ => ∀ b ∈ bs, b = 0 ∨ sb.Data b ∧ b ∉ used sb s.disk)
      (stops Exhausted) (boot s.disk) := by
  unfold Mkfs.mountAllocate
  refine wp_seq h.fsinit ?_
  rintro _ t ⟨hm, -, hlog⟩
  have hwait : ¬ t.kernel.log.mustWait := by
    rw [hlog]
    decide
  refine wp_seq (wp_lift (R := fun _ t' => t'.sb = sb ∧ Disk sb ino ∅ s.disk ∅ ∅ t'.kernel) ?_) ?_
  · unfold beginOp
    refine wp_bind (wp_get ?_)
    rw [if_neg hwait]
    refine wp_modify ⟨hm.super, laid_sb, ?_, h.blocks, by simp, by simp⟩
    have hstill := hm.still
    have hq := hstill.quiet
    refine Still.store ⟨⟨hq.cache, hq.found, hq.absent, hq.valid, hq.held⟩, hstill.content,
      hstill.disk⟩ ?_ ?_ ?_
    · change t.kernel.log.dev = _
      rw [hlog]
    · change t.kernel.log.start = _ ∧ t.kernel.log.size = _
      rw [hlog]
      exact ⟨rfl, rfl⟩
    · change t.kernel.log.lh = _
      rw [hlog]
  · rintro _ t1 ⟨hsb1, hd1⟩
    exact allocate_spec hsb1 hd1 subset_rfl

lemma Made.refers_used (h : Made files ino s) (hfew : files.length ≤ 198) {i j b : ℕ}
    (hr : Refers s i j b) : b ∈ used sb s.disk :=
  h.blocks.mem_used (h.refers hfew hr)

end allocate

/-- The kernel finds every file under its name, with its bytes; and the blocks that it allocates
belong to no file and are no meta blocks. -/
theorem kernel_agrees (h : mkfs files = some s) (hfew : files.length ≤ ninodes - 2)
    (hd : (files.map Input.shortname).Nodup) (hname : ∀ f ∈ files, Named f) :
    (∀ f ∈ files, ∀ off n, off + n ≤ f.bytes.length →
      wp (lookupRead (nameOf f.shortname) off n) (fun r _ => ∃ x : Dinode,
        r = some (x, some ((f.bytes.drop off).take n)) ∧ x.type = tFile ∧
          x.size = f.bytes.length) (fun _ _ => False) (boot s.disk)) ∧
    ∀ m, wp (mountAllocate m) (fun bs _ => ∀ b ∈ bs, b = 0 ∨
      nmeta ≤ b ∧ b < fssize ∧ ∀ i j, ¬ Refers s i j b) (stops Exhausted) (boot s.disk) := by
  have hfew' : files.length ≤ 198 := hfew
  obtain ⟨ino, hm⟩ := made_of_mkfs h hfew'
  refine ⟨?_, ?_⟩
  · intro f hf off n hn
    obtain ⟨k, hk⟩ := mem_iff_getElem?.mp hf
    obtain ⟨hklt, -⟩ := List.getElem?_eq_some_iff.mp hk
    have hnum := hm.inodes
    have hne : k + 2 ≠ rootIno := by
      unfold rootIno
      omega
    refine wp_post (hm.lookupRead hfew' hd hname hk hn) ?_
    rintro r - rfl
    refine ⟨ino (k + 2), rfl, ?_, ?_⟩
    · rw [(hm.live (k + 2) (by omega) (by omega)).1, if_neg hne]
    · rw [hm.length (k + 2) (hm.lt hfew' (by omega)) hne, contents_file hk]
  · intro m
    refine wp_post (hm.mountAllocate m) ?_
    intro bs _ hbs b hb
    refine (hbs b hb).imp_right fun ⟨hdata, hfresh⟩ => ?_
    exact ⟨hdata.1, hdata.2, fun i j hr => hfresh (hm.refers_used hfew' hr)⟩

def hiFile : Input where
  path := [117, 115, 101, 114, 47, 95, 97]
  reads := some [[104, 105]]
  nonul := by decide
  sized := by decide

theorem acceptable_hiFile : Acceptable [hiFile] := by
  refine ⟨?_, ?_, ?_, by decide +kernel⟩
  all_goals
    intro f hf
    obtain rfl := mem_singleton.mp hf
    decide

theorem kernel_agrees_hiFile : ∃ s, mkfs [hiFile] = some s ∧
    wp (lookupRead (nameOf [97]) 0 2) (fun r _ => ∃ x : Dinode,
      r = some (x, some [104, 105]) ∧ x.type = tFile ∧ x.size = 2)
      (fun _ _ => False) (boot s.disk) := by
  obtain ⟨s, hs⟩ := mkfs_isSome (by decide) acceptable_hiFile
  have hnamed : ∀ f ∈ [hiFile], Named f := by
    intro f hf
    obtain rfl := mem_singleton.mp hf
    exact ⟨by decide, by decide, by decide⟩
  exact ⟨s, hs, (kernel_agrees hs (by decide) (by simp) hnamed).1 hiFile (by simp) 0 2 (by decide)⟩

end Xv6.Mkfs
