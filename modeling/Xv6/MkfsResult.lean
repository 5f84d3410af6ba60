import Xv6.MkfsImage

/-! What `mkfs` leaves when it succeeds, and when it is well formed. -/
namespace Xv6.Mkfs

open Program Ownership Function List

variable {data : ℕ → List Byte} {ino : ℕ → Dinode} {s s' : Image} {i j n b : ℕ}
  {files : List Input}

structure Made (files : List Input) (ino : ℕ → Dinode) (s : Image) : Prop extends
    Tidy (contents files) ino s where
  inodes : s.freeinode = files.length + 2
  sync : ∀ i < ninodes, dinodeAt sb s.disk i = ino i
  root : (ino rootIno).size = ((rootBytes files).length / bsize + 1) * bsize
  length : ∀ i < ninodes, i ≠ rootIno → (ino i).size = (contents files i).length
  free : ∀ i < ninodes, i = 0 ∨ s.freeinode ≤ i → ino i = Dinode.zero
  live : ∀ i, 0 < i → i < s.freeinode →
    (ino i).type = (if i = rootIno then tDir else tFile) ∧ (ino i).nlink = 1
  super : s.disk 1 = sbBlock
  log : ∀ b, sb.logstart ≤ b → b < sb.inodestart → s.disk b = fun _ => 0
  map : s.disk sb.bmapstart = bitmap s.freeblock

section start

lemma byte_zero (k : ℕ) : Block.byte (fun _ => 0) k = 0 := by simp [Block.byte]

lemma getDinode_zero (i : ℕ) : Block.getDinode (fun _ => 0) i = Dinode.zero := by
  unfold Block.getDinode Block.get16 Block.get32
  simp only [byte_zero]
  rfl

lemma built_start : Built (fun _ => []) (fun _ => Dinode.zero)
    { start with disk := update start.disk 1 sbBlock, size := fssize } := by
  have hnone : ∀ c p, holds sb (fun _ => Dinode.zero) c p = none := by
    intro c p
    unfold holds Dinode.place
    simp [Dinode.zero]
  have hnb : nbOf (fun _ => []) = fun _ => 0 := by
    funext i
    simp [nbOf, spread, bsize]
  have hni : niOf (fun _ => []) = fun _ => 0 := by
    funext i
    rw [niOf, hnb]
    rfl
  have hmeta : nmeta = 46 := rfl
  refine ⟨⟨⟨rfl, ?_, ?_, ?_, ?_, ?_, ?_⟩, by decide, fun _ => Nat.zero_le _⟩, by decide, by decide,
    ?_, fun _ _ => rfl, fun _ _ _ => ⟨rfl, rfl⟩, ?_, ?_, ?_⟩
  · refine ⟨?_, ?_, fun a ha => absurd ha (Set.notMem_empty a)⟩
    · intro p q a hp
      rw [hnone] at hp
      cases hp
    · intro a
      simp only [hnone]
      change nmeta ≤ a ∧ a < nmeta ↔ _
      simp
  · rw [hnb, hni]
    simp [start]
  · intro b hb
    change nmeta ≤ b at hb
    dsimp only
    rw [update_of_ne (by omega)]
    rfl
  · intro i hi n hn
    rw [hnb]
    simp [hnone]
  · intro i hi
    rw [hni]
    simp [hnone]
  · intro i n b hb
    rw [hnone] at hb
    cases hb
  · intro i hi
    have hblock := (iblock_lt hi).1
    have hstart : sb.inodestart = 32 := rfl
    unfold dinodeAt
    dsimp only
    rw [update_of_ne (by omega)]
    exact getDinode_zero i
  · intro i h0 hi
    change i < 1 at hi
    omega
  · exact update_self 1 sbBlock start.disk
  · intro b h1 _
    change 2 ≤ b at h1
    dsimp only
    rw [update_of_ne (by omega)]
    rfl

lemma zeroes_spec {F : Exit → Image → Prop} (hn : n ≤ 2 ^ 22) :
    wp (forM (range n) fun i => wsect i fun _ => 0)
      (fun _ s => s = { start with size := n }) F start := by
  refine wp_forRange (I := fun k s => s = { start with size := k }) ?_ rfl
  rintro i s hi rfl
  have hsect : sector i = i := Nat.mod_eq_of_lt (lt_of_lt_of_le hi hn)
  refine wp_modify ?_
  have hdisk : update start.disk i (fun _ => 0) = start.disk := by
    funext b
    by_cases hb : b = i
    · rw [hb, update_self]
      rfl
    · rw [update_of_ne hb]
  rw [hsect, hdisk]
  simp [start]

end start

section main

lemma contents_nil : contents [] = update (update (fun _ => []) rootIno
    (direntBytes rootIno [46])) rootIno (direntBytes rootIno [46] ++ direntBytes rootIno [46, 46]) := by
  funext i
  by_cases hi : i = rootIno
  · rw [hi, update_self, contents, if_pos rfl, rootBytes]
    simp
  · rw [update_of_ne hi, update_of_ne hi, contents, if_neg hi]
    simp

lemma bit_bitmap {used : ℕ} (hu : used ≤ bpb) (b : ℕ) : (bitmap used).bit b = decide (b < used) := by
  induction used with
  | zero =>
    change (Block.byte (fun _ => 0) (b / 8)).getLsbD (b % 8) = _
    rw [byte_zero]
    simp
  | succ used ih =>
    have hstep : bitmap (used + 1) = (bitmap used).setBit used := by
      simp [bitmap, range_succ]
    rw [hstep, Block.bit_setBit (by omega), ih (by omega)]
    by_cases hb : b = used
    · simp [hb]
    · rw [if_neg hb]
      congr 1
      rw [eq_iff_iff]
      omega

lemma fixRoot_spec {F : Exit → Image → Prop} (h : Built (contents files) ino s)
    (hnum : s.freeinode = files.length + 2) :
    wp (do
      fixRoot rootIno
      balloc (← get).freeblock) (fun _ s' => ∃ ino', Made files ino' s') F s := by
  have hroot : rootIno < ninodes := by decide
  have hmap : sb.bmapstart = 45 := rfl
  have hstart : sb.inodestart = 32 := rfl
  have hmeta : nmeta = 46 := rfl
  have hblock := iblock_lt hroot
  have hlen := h.length rootIno hroot
  have hcap := h.cap rootIno
  have hsmall : ((ino rootIno).size / bsize + 1) * bsize < 2 ^ 32 := by
    have hmax : maxFile * bsize = 274432 := rfl
    rw [hlen]
    unfold bsize at *
    omega
  refine wp_bind (wp_bind (wp_rinode h.vol.size hroot ?_))
  rw [h.sync rootIno hroot]
  have hfits : ∀ a, (ino rootIno).addrs a < 2 ^ 32 := by
    rw [← h.sync rootIno hroot]
    exact (Block.fits_getDinode _ _).addrs
  generalize hx : ({ ino rootIno with size := ((ino rootIno).size / bsize + 1) * bsize } : Dinode) = x
  have hxfits : x.Fits := by
    rw [← hx]
    exact ⟨hsmall, hfits⟩
  refine wp_winode h.vol.size hroot (wp_bind (wp_get ?_))
  unfold balloc
  have hle := h.le
  have hfs : fssize = 2000 := rfl
  rw [if_pos (show s.freeblock < bpb by have hbpb : bpb = 8192 := rfl; omega)]
  refine wp_wsect h.vol.size (by omega) ⟨update ino rootIno x, ?_⟩
  have hvol : Vol (nbOf (contents files)) (niOf (contents files)) (contents files)
      (update ino rootIno x) s := by
    refine h.vol.congr (holds_setFields hroot fun j => ?_) rfl rfl rfl
    rw [← hx]
    rfl
  refine ⟨⟨(hvol.setMeta (by omega)).setMeta (by omega), h.le, h.cap⟩, hnum, ?_, ?_, ?_, ?_, ?_, ?_,
    ?_, ?_⟩
  · intro i hi
    have hne : sb.iblock i ≠ sb.bmapstart := (iblock_lt hi).2.ne
    unfold dinodeAt
    dsimp only
    rw [update_of_ne hne]
    have hset := dinodeAt_winode (c := s.disk) (i := rootIno) hxfits i
    unfold dinodeAt at hset
    rw [hset]
    by_cases hi1 : i = rootIno
    · rw [if_pos hi1, hi1, update_self]
    · rw [if_neg hi1, update_of_ne hi1]
      exact h.sync i hi
  · rw [update_self, ← hx]
    dsimp only
    rw [hlen, contents, if_pos rfl]
  · intro i hi hi1
    rw [update_of_ne hi1]
    exact h.length i hi
  · intro i hi hor
    have hi1 : i ≠ rootIno := by
      have hone : rootIno = 1 := rfl
      change i = 0 ∨ s.freeinode ≤ i at hor
      omega
    rw [update_of_ne hi1]
    exact (h.free i hi hor).1
  · intro i h0 hi
    by_cases hi1 : i = rootIno
    · rw [hi1, update_self, ← hx]
      rw [hi1] at h0 hi
      exact h.live rootIno h0 hi
    · rw [update_of_ne hi1]
      exact h.live i h0 hi
  · have hne : 1 ≠ sb.iblock rootIno := by omega
    have hne' : 1 ≠ sb.bmapstart := by omega
    dsimp only
    rw [update_of_ne hne', update_of_ne hne]
    exact h.super
  · intro b h1 h2
    have hne : b ≠ sb.iblock rootIno := by omega
    have hne' : b ≠ sb.bmapstart := by omega
    dsimp only
    rw [update_of_ne hne', update_of_ne hne]
    exact h.log b h1 h2
  · dsimp only
    rw [update_self]

lemma main_spec (hfew : files.length ≤ 198) :
    wp (main files) (fun _ s => ∃ ino, Made files ino s) (fun _ _ => ¬ Acceptable files) start := by
  have hroot : rootIno = 1 := rfl
  have hin : ninodes = 200 := rfl
  have hmax : maxFile * bsize = 274432 := rfl
  have hds : direntSize = 16 := rfl
  have hempty : (rootBytes []).length = 32 := by
    rw [length_rootBytes]
    rfl
  have hroom : ∀ done rest : List Input, done ++ rest = files →
      fssize < nmeta + need (contents done) → ¬ Acceptable files := by
    rintro done rest rfl hlt hacc
    have hle := hacc.room
    have hmono : need (contents done) ≤ need (contents (done ++ rest)) := need_contents_le
    omega
  have hfull : ∀ {l : List Byte}, l.length ≤ (rootBytes []).length →
      fssize < nmeta + need (update (fun _ => []) rootIno l) → ¬ Acceptable files := by
    intro l hl hlt
    refine hroom [] files rfl (lt_of_lt_of_le hlt (Nat.add_le_add_left (need_mono fun j => ?_) _))
    by_cases hj : j = rootIno
    · rw [hj, update_self, contents, if_pos rfl]
      exact hl
    · rw [update_of_ne hj]
      exact Nat.zero_le _
  unfold main
  generalize hfs : fssize = n
  have hn : n ≤ 2 ^ 22 := by
    rw [← hfs]
    unfold fssize
    norm_num
  refine wp_seq (zeroes_spec hn) ?_
  subst hfs
  rintro _ s rfl
  refine wp_bind (wp_wsect rfl (by decide) ?_)
  refine wp_seq (ialloc_spec built_start (by decide) rfl) ?_
  rintro rootino s1 ⟨hr, hnum1, ino1, h₁⟩
  obtain rfl : rootino = rootIno := hr
  change s1.freeinode = 2 at hnum1
  rw [if_pos rfl]
  refine wp_seq (iappend_spec (p := direntBytes rootIno [46]) h₁ (by decide) (by omega) ?_ ?_) ?_
  · intro hlt
    rw [length_direntBytes] at hlt
    simp at hlt
    omega
  · refine hfull ?_
    rw [nil_append, length_direntBytes, hempty]
    omega
  rintro _ s2 ⟨hnum2, ino2, h₂⟩
  refine wp_seq (iappend_spec (p := direntBytes rootIno [46, 46]) h₂ (by decide) (by omega) ?_ ?_) ?_
  · intro hlt
    rw [update_self, nil_append, length_direntBytes, length_direntBytes] at hlt
    omega
  · rw [update_idem, update_self, nil_append]
    refine hfull ?_
    rw [length_append, length_direntBytes, length_direntBytes, hempty]
    omega
  rintro _ s3 ⟨hnum3, ino3, h3⟩
  rw [update_self, nil_append, ← contents_nil] at h3
  have hloop : wp (forM files (addFile rootIno)) (fun _ s' => s'.freeinode = files.length + 2 ∧
      ∃ ino', Built (contents files) ino' s') (fun _ _ => ¬ Acceptable files) s3 := by
    refine wp_forM (I := fun done s' => s'.freeinode = done.length + 2 ∧
      ∃ ino', Built (contents done) ino' s') ?_ ⟨by simp; omega, ino3, h3⟩
    rintro done f rest t hfiles ⟨hnum, ino', hbuilt⟩
    have hmem : f ∈ files := by
      rw [hfiles]
      simp
    have hlt : done.length < 198 := by
      have hl := congrArg length hfiles
      rw [length_append, length_cons] at hl
      omega
    refine addFile_spec hbuilt hnum hlt ?_ ?_ ?_ ?_ ?_
    · exact fun hs hacc => (hacc.names f hmem).1 hs
    · exact fun ho hacc => hacc.opens f hmem ho
    · exact fun hl hacc => absurd (hacc.names f hmem).2 (by omega)
    · exact fun hl hacc => absurd (hacc.sizes f hmem) (by omega)
    · exact hroom (done ++ [f]) rest (by rw [hfiles]; simp)
  refine wp_seq hloop ?_
  rintro _ s4 ⟨hnum4, ino4, h4⟩
  exact fixRoot_spec h4 hnum4

end main

section count

def Counts {α : Type} (x : W α) (k : ℕ) : Prop :=
  ∀ s, wp x (fun _ s' => s'.freeinode = s.freeinode + k) (fun _ _ => True) s

lemma Counts.bind {α β : Type} {x : W α} {f : α → W β} {k m : ℕ} (hx : Counts x k)
    (hf : ∀ a, Counts (f a) m) : Counts (x >>= f) (k + m) := by
  intro s
  refine wp_seq (hx s) ?_
  intro a t ht
  refine wp_post (hf a t) ?_
  intro b u hu
  omega

lemma Counts.after {α β : Type} {x : W α} {f : α → W β} {k : ℕ} (hx : Counts x 0)
    (hf : ∀ a, Counts (f a) k) : Counts (x >>= f) k := by
  have h := hx.bind hf
  rwa [Nat.zero_add] at h

lemma Counts.pure {α : Type} (a : α) : Counts (pure a : W α) 0 := fun _ => wp_pure rfl

lemma Counts.throw {α : Type} (e : Exit) (k : ℕ) : Counts (throw e : W α) k := fun _ =>
  wp_throw trivial

lemma counts_rsect (b : ℕ) : Counts (rsect b) 0 := by
  intro s
  unfold rsect
  refine wp_bind (wp_get ?_)
  split_ifs
  · exact wp_pure rfl
  · exact wp_throw trivial

lemma counts_wsect (b : ℕ) (d : Block) : Counts (wsect b d) 0 := fun _ => wp_modify rfl

lemma counts_winode (i : ℕ) (x : Dinode) : Counts (winode i x) 0 :=
  (counts_rsect _).after fun _ => counts_wsect _ _

lemma counts_rinode (i : ℕ) : Counts (rinode i) 0 :=
  (counts_rsect _).after fun _ => Counts.pure _

lemma counts_nextBlock : Counts nextBlock 0 := fun _ =>
  wp_bind (wp_get (wp_bind (wp_modify (wp_pure rfl))))

lemma counts_ialloc (type : Short) : Counts (ialloc type) 1 := by
  intro s
  unfold ialloc
  refine wp_bind (wp_get (wp_bind (wp_modify ?_)))
  exact (((counts_winode s.freeinode _).after fun _ => Counts.pure s.freeinode) _)

lemma counts_iappendBlock (x : Dinode) (fbn : ℕ) : Counts (iappendBlock x fbn) 0 := by
  have hind : Counts (iappendBlock.iappendIndirect x) 0 := by
    unfold iappendBlock.iappendIndirect
    split_ifs
    · exact counts_nextBlock.after fun _ => Counts.pure _
    · exact Counts.pure _
  unfold iappendBlock
  split_ifs
  · dsimp only
    split_ifs
    · exact counts_nextBlock.after fun _ => Counts.pure _
    · exact Counts.pure _
  · refine hind.after fun _ => (counts_rsect _).after fun _ => ?_
    split_ifs
    · exact counts_nextBlock.after fun _ => (counts_wsect _ _).after fun _ => Counts.pure _
    · exact Counts.pure _

lemma counts_iappendFrom (fuel : ℕ) (x : Dinode) (off : ℕ) (p : List Byte) :
    Counts (iappendFrom fuel x off p) 0 := by
  induction fuel generalizing x off p with
  | zero => exact Counts.pure _
  | succ fuel ih =>
    unfold iappendFrom
    split_ifs
    · exact (counts_iappendBlock _ _).after fun _ => (counts_rsect _).after fun _ =>
        (counts_wsect _ _).after fun _ => ih _ _ _
    · exact Counts.throw _ _
    · exact Counts.pure _

lemma counts_iappend (i : ℕ) (p : List Byte) : Counts (iappend i p) 0 :=
  (counts_rinode _).after fun _ => (counts_iappendFrom _ _ _ _).after fun _ => counts_winode _ _

lemma Counts.forM {α : Type} {f : α → W PUnit} {k : ℕ} (hf : ∀ a, Counts (f a) k) (l : List α) :
    Counts (forM l f) (l.length * k) := by
  induction l with
  | nil =>
    rw [length_nil, Nat.zero_mul]
    exact Counts.pure _
  | cons a l ih =>
    rw [length_cons, Nat.succ_mul, Nat.add_comm, forM_cons]
    exact (hf a).bind fun _ => ih

lemma counts_addFile (i : ℕ) (f : Input) : Counts (addFile i f) 1 := by
  unfold addFile
  by_cases hs : (47 : Byte) ∈ f.base
  · rw [if_pos hs]
    exact Counts.throw _ _
  rw [if_neg hs]
  cases f.reads with
  | none => exact Counts.throw _ _
  | some bufs =>
    dsimp only
    split_ifs
    · exact Counts.throw _ _
    · refine (counts_ialloc _).bind (m := 0) fun inum => (counts_iappend _ _).after fun _ => ?_
      exact Counts.forM (counts_iappend inum) bufs

lemma counts_fixRoot (i : ℕ) : Counts (fixRoot i) 0 :=
  (counts_rinode _).after fun _ => counts_winode _ _

lemma counts_balloc (used : ℕ) : Counts (balloc used) 0 := by
  unfold balloc
  split_ifs
  · exact counts_wsect _ _
  · exact Counts.throw _ _

lemma Counts.get : Counts (get : W Image) 0 := fun _ => wp_get rfl

lemma counts_main : Counts (main files) (1 + files.length) := by
  unfold main
  generalize fssize = n
  refine Counts.after ?_ fun _ => (counts_wsect _ _).after fun _ => (counts_ialloc _).bind fun r => ?_
  · have hzero := Counts.forM (fun i => counts_wsect i fun _ => 0) (range n)
    rwa [Nat.mul_zero] at hzero
  · split_ifs
    · refine (counts_iappend _ _).after fun _ => (counts_iappend _ _).after fun _ => ?_
      have hfiles := Counts.forM (counts_addFile r) files
      rw [Nat.mul_one] at hfiles
      exact hfiles.bind fun _ => (counts_fixRoot _).after fun _ => Counts.get.after fun _ =>
        counts_balloc _
    · exact Counts.throw _ _

end count

section wellFormed

def Refers (s : Image) (i j b : ℕ) : Prop :=
  0 < i ∧ i < s.freeinode ∧ j < nptr ∧ (dinodeAt sb s.disk i).ptr s.disk j = b ∧ b ≠ 0

/-- The inodes that have been written are in the inode area, with numbers below `ninodes`; the
blocks they refer to are data blocks and have one reference each; the bitmap has the blocks below
`freeblock`; and no file has a hole. -/
structure WellFormed (s : Image) : Prop where
  inodes : ∀ i, 0 < i → i < s.freeinode →
    i < sb.ninodes ∧ sb.inodestart ≤ sb.iblock i ∧ sb.iblock i < sb.bmapstart
  blocks : ∀ i j b, Refers s i j b → nmeta ≤ b ∧ b < fssize
  once : ∀ i j i' j' b, Refers s i j b → Refers s i' j' b → i = i' ∧ j = j'
  bitmap : ∀ b < bpb, bitAt sb s.disk b = decide (b < s.freeblock)
  whole : ∀ i, 0 < i → i < s.freeinode → ∀ n, n * bsize < (dinodeAt sb s.disk i).size →
    (dinodeAt sb s.disk i).ptr s.disk (dataPlace n) ≠ 0

lemma outcome_eq_some {x : W PUnit} {t : Image} {Q : PUnit → Image → Prop}
    {F : Exit → Image → Prop} (h : outcome x t = some s) (hw : wp x Q F t) : Q ⟨⟩ s := by
  unfold outcome at h
  unfold wp at hw
  rcases hx : x.run t with ⟨r, u⟩
  rw [hx] at h hw
  cases r with
  | error e => cases h
  | ok a =>
    obtain rfl := Option.some.inj h
    exact hw

lemma freeinode_eq (h : mkfs files = some s) : s.freeinode = files.length + 2 := by
  have hcount := outcome_eq_some h (counts_main start)
  have hone : start.freeinode = 1 := rfl
  omega

theorem made_of_mkfs (h : mkfs files = some s) (hfew : files.length ≤ 198) :
    ∃ ino, Made files ino s :=
  outcome_eq_some h (main_spec hfew)

section
variable (h : Made files ino s)
include h

theorem Made.type_ne (h0 : 0 < i) (hi : i < s.freeinode) : (ino i).type ≠ 0 := by
  rw [(h.live i h0 hi).1]
  split_ifs <;> decide

theorem Made.lt (hfew : files.length ≤ 198) (hi : i < s.freeinode) : i < ninodes := by
  have hnum := h.inodes
  have hin : ninodes = 200 := rfl
  omega

theorem Made.refers (hfew : files.length ≤ 198) (hr : Refers s i j b) :
    holds sb ino s.disk (i, j) = some b := by
  obtain ⟨h0, hi, hj, hptr, hb⟩ := hr
  have hlt := h.lt hfew hi
  rw [h.sync i hlt] at hptr
  rw [holds_eq_nonzero hlt (h.type_ne h0 hi) hj]
  exact nonzero_eq_some.mpr ⟨hptr, hb⟩

theorem Made.ptr_ne_zero (hfew : files.length ≤ 198) (h0 : 0 < i) (hi : i < s.freeinode)
    (hn : n < maxFile) :
    (ino i).ptr s.disk (dataPlace n) ≠ 0 ↔ n < spread (contents files i).length := by
  have hlt := h.lt hfew hi
  have hhas := h.vol.has i hlt n hn
  rw [holds_eq_nonzero hlt (h.type_ne h0 hi) (dataPlace_lt hn)] at hhas
  change _ ↔ n < nbOf (contents files) i
  rw [← hhas]
  simp

end

theorem lt_spread {len : ℕ} : n < spread len ↔ n * bsize < len := by
  unfold spread bsize
  omega

theorem Made.bitmap (h : Made files ino s) (hb : b < bpb) :
    bitAt sb s.disk b = decide (b < s.freeblock) := by
  have hle := h.le
  have hfs : fssize = 2000 := rfl
  have hbpb : bpb = 8192 := rfl
  have hblock : sb.bblock b = sb.bmapstart := by
    unfold Superblock.bblock
    rw [Nat.div_eq_of_lt hb, Nat.zero_add]
  unfold bitAt
  rw [hblock, h.map, Nat.mod_eq_of_lt hb, bit_bitmap (by omega)]

lemma Made.root_whole (h : Made files ino s) (hfew : files.length ≤ 198) :
    (∀ n, n * bsize < (ino rootIno).size → (ino rootIno).ptr s.disk (dataPlace n) ≠ 0) ↔
      (files.length + 2) % 64 ≠ 0 := by
  have hnum := h.inodes
  have hroot : rootIno = 1 := rfl
  have hmax : maxFile = 268 := rfl
  have hlen : (contents files rootIno).length = (files.length + 2) * 16 := by
    rw [contents, if_pos rfl, length_rootBytes]
    rfl
  have hiff := fun n hn => h.ptr_ne_zero (i := rootIno) (n := n) hfew (by decide) (by omega) hn
  simp only [hlen] at hiff
  rw [h.root, length_rootBytes]
  change (∀ n, n * 1024 < ((files.length + 2) * 16 / 1024 + 1) * 1024 → _) ↔ _
  constructor
  · intro hall hmod
    have hlt := (hiff ((files.length + 2) / 64) (by omega)).mp
      (hall ((files.length + 2) / 64) (by omega))
    rw [lt_spread] at hlt
    unfold bsize at hlt
    omega
  · intro hmod n hn
    rw [hiff n (by omega), lt_spread]
    unfold bsize
    omega

lemma WellFormed.bounds (hw : WellFormed s) (h : mkfs files = some s) :
    files.length ≤ 198 ∧ (files.length + 2) % 64 ≠ 0 := by
  have hnum := freeinode_eq h
  have hin : sb.ninodes = 200 := rfl
  have hroot : rootIno = 1 := rfl
  have hlast := (hw.inodes (files.length + 1) (by omega) (by omega)).1
  have hfew : files.length ≤ 198 := by omega
  obtain ⟨ino, hm⟩ := made_of_mkfs h hfew
  refine ⟨hfew, (hm.root_whole hfew).mp ?_⟩
  have hwhole := hw.whole rootIno (by decide) (by omega)
  rw [hm.sync rootIno (by decide)] at hwhole
  exact hwhole

theorem Made.wellFormed (hm : Made files ino s) (hfew : files.length ≤ 198)
    (hmod : (files.length + 2) % 64 ≠ 0) : WellFormed s := by
  refine ⟨?_, ?_, ?_, ?_, ?_⟩
  · intro i h0 hi
    have hlt := hm.lt hfew hi
    exact ⟨hlt, iblock_lt hlt⟩
  · intro i j b hr
    have hheld := hm.vol.held (hm.refers hfew hr)
    exact ⟨hheld.1, lt_of_lt_of_le hheld.2 hm.le⟩
  · intro i j i' j' b hr hr'
    have hq := hm.vol.owns.inj _ _ _ (hm.refers hfew hr) (hm.refers hfew hr')
    rwa [Prod.mk.injEq] at hq
  · intro b hb
    exact hm.bitmap hb
  · intro i h0 hi
    have hlt := hm.lt hfew hi
    rw [hm.sync i hlt]
    by_cases hi1 : i = rootIno
    · rw [hi1]
      exact (hm.root_whole hfew).mpr hmod
    · rw [hm.length i hlt hi1]
      intro n hn
      have hcap := hm.cap i
      have hnmax : n < maxFile := lt_of_mul_lt_mul_right (lt_of_lt_of_le hn hcap) (Nat.zero_le _)
      rw [hm.ptr_ne_zero hfew h0 hi hnmax, lt_spread]
      exact hn

end wellFormed

section success

theorem mkfs_isSome (hfew : files.length ≤ 198) (h : Acceptable files) :
    ∃ s, mkfs files = some s := by
  have hsome : ∀ {x : W PUnit} {t : Image} {Q : PUnit → Image → Prop},
      wp x Q (fun _ _ => ¬ Acceptable files) t → ∃ s, outcome x t = some s := by
    intro x t Q hw
    unfold outcome
    unfold wp at hw
    rcases hx : x.run t with ⟨r, u⟩
    rw [hx] at hw
    cases r with
    | error e => exact absurd h hw
    | ok a => exact ⟨u, rfl⟩
  exact hsome (main_spec hfew)

def emptyFile : Input where
  path := [97]
  reads := some []
  nonul := by decide
  sized := by
    intro bufs hb
    cases hb
    intro buf hbuf
    cases hbuf

theorem acceptable_replicate (n : ℕ) (hn : n ≤ 198) : Acceptable (replicate n emptyFile) := by
  have hmem : ∀ f ∈ replicate n emptyFile, f = emptyFile := fun f hf => eq_of_mem_replicate hf
  refine ⟨?_, ?_, ?_, ?_⟩
  · intro f hf
    rw [hmem f hf]
    exact ⟨by decide, by decide⟩
  · intro f hf
    rw [hmem f hf]
    exact Option.some_ne_none _
  · intro f hf
    rw [hmem f hf]
    exact Nat.zero_le _
  · have hother : ∀ i, i ≠ rootIno → contents (replicate n emptyFile) i = [] := by
      intro i hi
      rw [contents, if_neg hi]
      split_ifs
      · rfl
      · rw [getElem?_replicate]
        split_ifs <;> rfl
    have hneed : need (contents (replicate n emptyFile)) =
        nbOf (contents (replicate n emptyFile)) rootIno +
          niOf (contents (replicate n emptyFile)) rootIno := by
      refine Finset.sum_eq_single rootIno ?_ fun h => absurd (Finset.mem_range.mpr (by decide)) h
      intro i _ hi
      rw [niOf, nbOf, hother i hi]
      rfl
    have hlen : nbOf (contents (replicate n emptyFile)) rootIno = spread ((n + 2) * 16) := by
      rw [nbOf, contents, if_pos rfl, length_rootBytes, length_replicate]
      rfl
    have hfs : fssize = 2000 := rfl
    have hmeta : nmeta = 46 := rfl
    rw [hneed, niOf, hlen]
    unfold extra spread bsize ndirect
    split_ifs <;> omega

/-- Sixty-two empty files: the root directory has 64 entries, which fill one block, and its size
is rounded up to two. -/
theorem full_root_hole : ∃ s, mkfs (replicate 62 emptyFile) = some s ∧ ¬ WellFormed s := by
  obtain ⟨s, hs⟩ := mkfs_isSome (by simp) (acceptable_replicate 62 (by decide))
  refine ⟨s, hs, fun hw => ?_⟩
  have hmod := (hw.bounds hs).2
  simp at hmod

/-- `mkfs` makes a well-formed image unless it has run out of inodes or the entries of the root
directory fill its last block. -/
theorem wellFormed_iff (h : mkfs files = some s) :
    WellFormed s ↔ files.length ≤ 198 ∧ (files.length + 2) % 64 ≠ 0 := by
  constructor
  · intro hw
    exact hw.bounds h
  · rintro ⟨hfew, hmod⟩
    obtain ⟨ino, hm⟩ := made_of_mkfs h hfew
    exact hm.wellFormed hfew hmod

theorem wellFormed_iff_empty : ∃ s, mkfs [] = some s ∧ WellFormed s := by
  obtain ⟨s, hs⟩ := mkfs_isSome (Nat.zero_le _) (acceptable_replicate 0 (by decide))
  exact ⟨s, hs, (wellFormed_iff hs).mpr ⟨by decide, by decide⟩⟩

end success

end Xv6.Mkfs
