import Xv6.Node

/-! `writei`: a file stays whole however its loop ends, and an entry written to a directory
changes that entry alone. -/
namespace Xv6

open Program Dinode Function

variable {sb : Superblock} {ino : ℕ → Dinode} {c c' : ℕ → Block} {X loose loose' : Set ℕ}
  {held : Finset ℕ} {k : Kernel} {b i j n : ℕ} {d : Block} {y : Dinode} {T : Prop} {lim : ℕ}

def Source.Atomic (src : Source) (dst tot len : ℕ) : Prop :=
  ∀ d, (eitherCopyin src d dst tot len).2 = true ∨ (eitherCopyin src d dst tot len).1 = d

lemma Store.setData_same (h : Store sb c loose held k) (hb : b ∈ held) {E : Stop → Kernel → Prop} :
    wp (Xv6.setData rootDev b (c b)) (fun _ k' => Store sb c loose held k') E k := by
  refine wp_post (setData_spec h.view (by simp [hb]) (c b)) ?_
  rintro _ k' ⟨v, s, hc, hother⟩
  have hcont : ∀ x, k'.content rootDev x = k.content rootDev x := by
    intro x
    by_cases hx : x = b
    · rw [hx, hc, h.agree b (.inr hb)]
    · exact hother x hx
  refine ⟨by rw [s.log]; exact h.log, by rw [s.log]; exact h.dev, by rw [s.log]; exact h.area,
    by rw [s.log]; exact v, ?_, ?_⟩
  · intro x hx
    rw [hcont]
    exact h.agree x hx
  · intro x hx hlh
    rw [s.log] at hlh
    rw [s.disk]
    exact h.clean x hx hlh

lemma Disk.setBlock {k' : Kernel} (h : Disk sb ino X c loose ∅ k)
    (hb : holds sb ino c (i, dataPlace n) = some b)
    (hs : Store sb (update c b d) loose' ∅ k')
    (hl : ∀ x ∈ loose', x ∈ loose ∨ x = b ∧ (ino i).type = tFile) :
    Disk sb ino X (update c b d) loose' ∅ k' := by
  have hdata := h.blocks.data hb
  have hind : ∀ j, holds sb ino c (j, ndirect) ≠ some b := by
    intro j hj
    exact dataPlace_ne n (congrArg Prod.snd (h.blocks.owns.inj _ _ _ hb hj))
  have hmap : ∀ x, x < sb.size → sb.bblock x ≠ b := fun x hx =>
    (lt_of_lt_of_le (h.laid.bitmap x hx) hdata.1).ne
  refine ⟨h.laid, hs, h.blocks.update hind hmap, ?_, ?_⟩
  · intro x hx
    rw [holds_update hind]
    rcases hl x hx with hx' | ⟨rfl, ht⟩
    · exact h.loose x hx'
    · refine ⟨hdata, ?_⟩
      intro p hp
      rw [h.blocks.owns.inj _ _ _ hp hb]
      exact ⟨ht, dataPlace_ne n⟩
  · intro x hx
    exact absurd hx (Finset.notMem_empty x)

structure BlockWritten (sb : Superblock) (ino : ℕ → Dinode) (X : Set ℕ) (c : ℕ → Block)
    (loose : Set ℕ) (src : Source) (b dst tot len : ℕ) (d : Block) (loose' : Set ℕ)
    (k' : Kernel) : Prop where
  disk : Disk sb ino X (update c b d) loose' ∅ k'
  data : b ∉ loose → d = (eitherCopyin src (c b) dst tot len).1
  atomic : src.Atomic dst tot len → loose' ⊆ loose

lemma writeBlock_spec {src : Source} {dst tot len : ℕ} (hn : 0 < sb.ninodes)
    (h : Disk sb ino X c loose ∅ k) (hb : holds sb ino c (i, dataPlace n) = some b)
    (hsrc : (∀ d, (eitherCopyin src d dst tot len).2 = true) ∨ (ino i).type = tFile) :
    wp (writeBlock src rootDev b dst tot len) (fun more k' => ∃ d loose',
      BlockWritten sb ino X c loose src b dst tot len d loose' k' ∧
      ((∀ d, (eitherCopyin src d dst tot len).2 = true) → more = true)) Spent k := by
  obtain ⟨hhome, hu⟩ := Disk.loggable hn h.laid (h.blocks.data hb)
  have hin : b ∈ insert b (∅ : Finset ℕ) := Finset.mem_insert_self _ _
  have hout : b ∉ (∅ : Finset ℕ) := Finset.notMem_empty b
  unfold writeBlock
  refine wp_seq (h.store.bread hout) ?_
  rintro _ k1 ⟨_, e, he, h1⟩
  refine wp_bind (h1.bdata hin ?_)
  rw [update_self]
  have hdata : b ∉ loose → (eitherCopyin src e dst tot len).1 =
      (eitherCopyin src (c b) dst tot len).1 := fun hb => by rw [he hb]
  by_cases hcopy : (eitherCopyin src e dst tot len).2 = true
  · simp only [hcopy, if_true]
    refine h1.setLogged hin hhome hu ?_
    intro k2 h2
    refine wp_seq (h2.release hout) ?_
    rintro _ k3 ⟨_, h3⟩
    rw [update_idem] at h3
    refine wp_pure ⟨_, loose \ {b}, ⟨?_, hdata, fun _ => Set.sdiff_subset⟩, fun _ => rfl⟩
    exact h.setBlock hb h3 fun x hx => .inl hx.1
  · have hfile := hsrc.resolve_left fun hall => hcopy (hall e)
    by_cases hsame : (eitherCopyin src e dst tot len).1 = e
    · rw [if_neg hcopy]
      have hset := h1.setData_same (E := Spent) hin
      rw [update_self] at hset
      rw [hsame]
      refine wp_seq hset ?_
      intro _ k2 h2
      refine wp_seq (h2.release hout) ?_
      rintro _ k3 ⟨_, h3⟩
      refine wp_pure ⟨e, loose, ⟨?_, fun hl => ?_, fun _ => subset_rfl⟩,
        fun hall => absurd (hall e) hcopy⟩
      · exact h.setBlock hb h3 fun x hx => .inl hx
      · rw [← hdata hl, hsame]
    · rw [if_neg hcopy]
      refine wp_seq (h1.setData hin _) ?_
      rintro _ k2 ⟨_, h2⟩
      refine wp_seq (h2.release hout) ?_
      rintro _ k3 ⟨_, h3⟩
      rw [update_idem] at h3
      refine wp_pure ⟨_, insert b loose, ⟨?_, hdata, fun hat => ?_⟩,
        fun hall => absurd (hall e) hcopy⟩
      · refine h.setBlock hb h3 fun x hx => ?_
        exact (Set.mem_insert_iff.mp hx).elim (fun hx => .inr ⟨hx, hfile⟩) .inl
      · exact absurd ((hat e).resolve_left hcopy) hsame


theorem stays_of_data (hB : Blocks sb ino c X) (hj : j < sb.ninodes) (ht : (ino j).type ≠ 0)
    (hb : (ino j).Backed c lim) (hc : ∀ b, sb.Data b → c' b = c b) :
    Stays T lim (ino j) c (ino j) c' := by
  have hptr : ∀ q, (ino j).ptr c' q = (ino j).ptr c q := by
    refine fun q => ptr_congr (fun ha => hc _ ?_) q
    have hp : holds sb ino c (j, ndirect) = some ((ino j).addrs (Fin.last ndirect)) :=
      holds_eq_some.mpr ⟨hj, place_indirect ht ha⟩
    exact hB.data hp
  exact ⟨rfl, fun off _ => hptr _, fun _ off ho => hc _ (hB.data (hb.holds hj ht ho))⟩

section inode
variable {ip : Slot} {s s' : Fs}

theorem Superblock.Laid.iblock (hl : sb.Laid) (hi : i < sb.ninodes) (hs : 0 < sb.size) :
    sb.iblock i < sb.datastart ∧ ∀ b, sb.bblock b ≠ sb.iblock i := by
  have hlt := hl.inodes i hi
  have hmap : ∀ b, sb.bmapstart ≤ sb.bblock b := fun b => Nat.le_add_left _ _
  refine ⟨lt_trans (lt_of_lt_of_le hlt (hmap 0)) (hl.bitmap 0 hs), fun b => ?_⟩
  have hge := hmap b
  omega

theorem Work.fits (h : Work sb i ip ino X c loose s) (hsize : (ino i).size ≤ maxFile * bsize) :
    (ino i).Fits := by
  have hmax : maxFile * bsize = 274432 := rfl
  refine ⟨by omega, fun a => ?_⟩
  by_cases ha : (ino i).addrs a = 0
  · rw [ha]
    decide
  · have hp : holds sb ino c (i, a) = some ((ino i).addrs a) := by
      rw [holds_eq_some, place_eq_some]
      exact ⟨h.lt, h.type, lt_of_lt_of_le a.isLt (Nat.le_add_right _ _), ptr_addrs _ _ _, ha⟩
    exact lt_trans (h.disk.blocks.data hp).2 (lt_trans h.disk.laid.size (by decide))

/-- What `iupdate` guarantees: the disk has the inodes of `ino`, and nothing else has changed. -/
structure Updated (sb : Superblock) (i : ℕ) (ino : ℕ → Dinode) (X : Set ℕ) (c : ℕ → Block)
    (loose : Set ℕ) (c' : ℕ → Block) (k : Kernel) : Prop where
  disk : Disk sb ino X c' loose ∅ k
  other : ∀ b, b ≠ sb.iblock i → c' b = c b
  sync : ∀ j < sb.ninodes, dinodeAt sb c' j = ino j
  free : freeBlocks sb c' = freeBlocks sb c

theorem dinodeAt_putDinode {z : Dinode} (hf : z.Fits) (j : ℕ) :
    dinodeAt sb (update c (sb.iblock i) ((c (sb.iblock i)).putDinode i z)) j =
      update (dinodeAt sb c) i z j := by
  unfold dinodeAt
  by_cases hji : j = i
  · rw [hji, update_self, update_self, Block.getDinode_putDinode hf]
  · rw [update_of_ne hji]
    by_cases hblk : sb.iblock j = sb.iblock i
    · rw [hblk, update_self, Block.getDinode_putDinode_of_ne]
      intro hmod
      have hdiv : j / ipb = i / ipb := Nat.add_right_cancel hblk
      have hj := Nat.div_add_mod j ipb
      have hi := Nat.div_add_mod i ipb
      rw [hdiv, ← hmod, hi] at hj
      exact hji hj.symm
    · rw [update_of_ne hblk]

theorem iupdate_run {x : Inode} (h : Cached c loose ∅ s.kernel) (hsb : s.sb = sb)
    (hx : s.itable ip = x) (hdev : x.dev = rootDev) (hnl : sb.iblock x.inum ∉ loose) :
    wp (iupdate ip) (fun _ s' => (s'.itable = s.itable ∧ s'.sb = s.sb) ∧
      s.kernel.log.logWrite (sb.iblock x.inum) = .ok s'.kernel.log ∧
      Cached (update c (sb.iblock x.inum) ((c (sb.iblock x.inum)).putDinode x.inum x.din)) loose ∅
        s'.kernel) Starved s := by
  have hnh : sb.iblock x.inum ∉ (∅ : Finset ℕ) := Finset.notMem_empty _
  have hspec : wp (do
      bread rootDev (sb.iblock x.inum)
      let d ← bdata rootDev (sb.iblock x.inum)
      setData rootDev (sb.iblock x.inum) (d.putDinode x.inum x.din)
      logWrite (sb.iblock x.inum)
      brelse rootDev (sb.iblock x.inum)) (fun _ k' =>
        s.kernel.log.logWrite (sb.iblock x.inum) = .ok k'.log ∧ Cached (update c (sb.iblock x.inum)
          ((c (sb.iblock x.inum)).putDinode x.inum x.din)) loose ∅ k') Spent s.kernel := by
    refine wp_seq (h.bread_sure hnh hnl (.inl fun _ _ he => he)) ?_
    rintro _ k1 ⟨hlog, h1⟩
    refine wp_bind (h1.bdata (Finset.mem_insert_self _ _) ?_)
    have hput := h1.putLogged (d := (c (sb.iblock x.inum)).putDinode x.inum x.din) hnh
      (.inl fun _ _ he => he)
    rwa [Set.sdiff_singleton_eq_self hnl, hlog] at hput
  unfold iupdate
  refine wp_bind (wp_get (wp_bind (wp_inode ?_)))
  rw [hsb, hx, hdev]
  have hlift := wp_disk (R := fun _ t => (t.itable = s.itable ∧ t.sb = s.sb) ∧
    s.kernel.log.logWrite (sb.iblock x.inum) = .ok t.kernel.log ∧ Cached (update c
      (sb.iblock x.inum) ((c (sb.iblock x.inum)).putDinode x.inum x.din)) loose ∅ t.kernel) hspec
    fun _ k hk => ⟨⟨rfl, rfl⟩, hk⟩
  simp only [liftM_bind] at hlift
  rw [hsb] at hlift
  exact hlift

theorem iupdate_spec (h : Ahead sb i ip ino X c loose s) (hf : (ino i).Fits) :
    wp (iupdate ip) (fun _ s' => s'.itable = s.itable ∧ s'.sb = s.sb ∧
      ∃ c', Updated sb i ino X c loose c' s'.kernel) Starved s := by
  have hd := h.disk
  obtain ⟨hlt, hmap⟩ := hd.laid.iblock h.lt h.some
  have hnl : sb.iblock i ∉ loose := by
    intro hm
    have hge := (hd.loose _ hm).1.1
    omega
  have hrun := iupdate_run hd.store.cached h.super rfl h.dev (by rw [h.inum]; exact hnl)
  rw [h.inum, h.mem] at hrun
  refine wp_post hrun ?_
  rintro _ s' ⟨⟨hi, hs⟩, hw, h'⟩
  have h32 : sb.iblock i < 2 ^ 32 := by
    have hsz := hd.laid.size
    have hle : sb.datastart ≤ sb.size := Nat.sub_le _ _
    omega
  have hlogs := hd.store.logs.logWrite (hd.laid.home (Nat.le_add_left _ _)) h32 hw
  have hholds := holds_update (d := (c (sb.iblock i)).putDinode i (ino i))
    (hd.blocks.not_indirect hlt)
  refine ⟨hi, hs, _, ⟨hd.laid, h'.store hlogs, hd.blocks.updateInodeBlock hd.laid h.lt h.some, ?_,
    ?_⟩, ?_, ?_, ?_⟩
  · intro b hb
    rw [hholds]
    exact hd.loose b hb
  · intro b hb
    exact absurd hb (Finset.notMem_empty b)
  · intro b hb
    exact update_of_ne hb _ _
  · intro j hj
    rw [dinodeAt_putDinode hf]
    by_cases hji : j = i
    · rw [hji, update_self]
    · rw [update_of_ne hji, h.sync j hj hji]
  · exact freeBlocks_update fun b _ => hmap b

def Source.Sure (src : Source) : Prop :=
  ∀ d dst tot len, (eitherCopyin src d dst tot len).2 = true

theorem sure_kernel (data : ℕ → Byte) : (Source.kernel data).Sure := fun _ _ _ _ => rfl

lemma Source.Sure.atomic {src : Source} (h : src.Sure) (dst tot len : ℕ) :
    src.Atomic dst tot len := fun d => .inl (h d dst tot len)

/-- What some turns of the loop of `writei` have done: inode `i` is `y` now, and the `m` bytes
from `off` on have been written, from byte `tot` of `src` on. -/
structure Written (sb : Superblock) (T : Prop) (i : ℕ) (ip : Slot) (ino : ℕ → Dinode)
    (c : ℕ → Block) (loose : Set ℕ) (src : Source) (tot off m : ℕ) (s : Fs) (y : Dinode)
    (c' : ℕ → Block) (loose' : Set ℕ) (s' : Fs) : Prop where
  work : Work sb i ip (update ino i y) ∅ c' loose' s'
  only : OnlyDin ip y s s'
  fields : y = { ino i with addrs := y.addrs }
  others : ∀ j < sb.ninodes, j ≠ i → (ino j).type ≠ 0 →
    Stays T (ino j).size (ino j) c (ino j) c'
  backed : y.Backed c' (max (ino i).size (off + m))
  sub : src.Sure → loose' ⊆ loose
  bytes : T ∨ (ino i).type = tDir → ∀ data, src = .kernel data →
    ∀ o < max (ino i).size (off + m), y.byteAt c' o =
      if off ≤ o ∧ o < off + m then data (tot + (o - off)) else (ino i).byteAt c o

variable {src : Source} {tot off m : ℕ} {y : Dinode} {loose1 loose2 : Set ℕ} {c1 : ℕ → Block}

section
variable (h : Written sb T i ip ino c loose src tot off m s y c' loose' s')
include h

lemma Written.size :
    y.size = (ino i).size := by rw [h.fields]

lemma Written.type :
    y.type = (ino i).type := by rw [h.fields]

end

lemma Written.of_grows (h : Work sb i ip ino ∅ c loose s)
    (hw : ∀ j < sb.ninodes, j ≠ i → (ino j).type ≠ 0 → (ino j).Backed c (ino j).size)
    (hb : (ino i).Backed c (max (ino i).size off)) (hsub : loose' ⊆ loose)
    (hg : Grows sb i ino c y c') (hd : Disk sb (update ino i y) ∅ c' loose' ∅ s'.kernel)
    (ho : OnlyDin ip y s s') : Written sb T i ip ino c loose src tot off 0 s y c' loose' s' := by
  have hstays : Stays T (max (ino i).size off) (ino i) c y c' := by
    have hst := hg.stays (T := T) h.disk.blocks h.lt h.type hb
    rwa [update_self] at hst
  refine ⟨h.grow hg hd ho, ho, hg.fields, ?_, ?_, fun _ => hsub, ?_⟩
  · intro j hj hji ht
    have hst := hg.stays (T := T) h.disk.blocks hj ht (hw j hj hji ht)
    rwa [update_of_ne hji] at hst
  · rw [Nat.add_zero]
    exact hstays.backed hb
  · intro ht data _ o hlt
    rw [Nat.add_zero] at hlt ⊢
    rw [if_neg (by omega)]
    exact hstays.byteAt ht hlt

lemma Written.trans {m' : ℕ} {z : Dinode} {c2 : ℕ → Block} {s2 : Fs}
    (h : Written sb T i ip ino c loose src tot off m s y c' loose' s')
    (h' : Written sb T i ip (update ino i y) c' loose' src (tot + m) (off + m) m' s' z c2
      loose2 s2) :
    Written sb T i ip ino c loose src tot off (m + m') s z c2 loose2 s2 := by
  have hw := h'.work
  have hf := h'.fields
  have hb := h'.backed
  have hbytes := h'.bytes
  rw [update_idem] at hw
  rw [update_self] at hf hb hbytes
  rw [h.size, Nat.add_assoc] at hb
  rw [h.size, h.type, Nat.add_assoc] at hbytes
  refine ⟨hw, h.only.trans h'.only, ?_, ?_, hb, fun hs => (h'.sub hs).trans (h.sub hs), ?_⟩
  · rw [hf, h.fields]
  · intro j hj hji ht
    have hst := h'.others j hj hji (by rw [update_of_ne hji]; exact ht)
    rw [update_of_ne hji] at hst
    exact (h.others j hj hji ht).trans hst
  · intro ht data hsrc o hlt
    rw [hbytes ht data hsrc o hlt]
    by_cases hin : off + m ≤ o ∧ o < off + (m + m')
    · rw [if_pos hin, if_pos (by omega)]
      congr 1
      omega
    · rw [if_neg hin, h.bytes ht data hsrc o (by omega)]
      by_cases hin' : off ≤ o ∧ o < off + m
      · rw [if_pos hin', if_pos (by omega)]
      · rw [if_neg hin', if_neg (by omega)]

lemma Work.setBlock {r : ℕ} {k' : Kernel} (h : Work sb i ip ino X c loose s)
    (hr : sb.Data r) (hd : Disk sb ino X (update c r d) loose' ∅ k') :
    Work sb i ip ino X (update c r d) loose' { s with kernel := k' } := by
  refine ⟨⟨h.super, h.some, h.lt, h.inum, h.dev, h.mem, ?_, hd⟩, h.type⟩
  intro j hj hji
  rw [h.sync j hj hji]
  unfold dinodeAt
  rw [update_of_ne]
  have hlt := (h.disk.laid.iblock hj h.some).1
  have hge := hr.1
  omega

lemma div_eq_of_fits {o : ℕ} (hm : m ≤ bsize - off % bsize) (h1 : off ≤ o) (h2 : o < off + m) :
    o / bsize = off / bsize ∧ o % bsize = off % bsize + (o - off) := by
  have hbs : bsize = 1024 := rfl
  rw [hbs] at hm ⊢
  omega

/-- One turn of the loop: the piece of `src` is in the block, unless the copy has failed. -/
lemma Written.of_block {r m' : ℕ} {k' : Kernel} (h : Work sb i ip ino ∅ c loose s)
    (hall : ∀ j < sb.ninodes, j ≠ i → (ino j).type ≠ 0 → (ino j).Backed c (ino j).size)
    (hg : Written sb T i ip ino c loose src tot off 0 s y c1 loose1 s')
    (hT : T → loose1 = ∅)
    (hp : holds sb (update ino i y) c1 (i, dataPlace (off / bsize)) = some r)
    (hm : m ≤ bsize - off % bsize) (hmax : off / bsize < maxFile)
    (hw : BlockWritten sb (update ino i y) ∅ c1 loose1 src r (off % bsize) tot m d loose2 k')
    (hm' : m' = m ∨ m' = 0 ∧ ¬ src.Sure) :
    Written sb T i ip ino c loose src tot off m' s y (update c1 r d) loose2
      { s' with kernel := k' } := by
  have hB := hg.work.disk.blocks
  have hwork := hg.work
  have hself : update ino i y i = y := update_self ..
  have hty : y.type ≠ 0 := by
    rw [hg.type]
    exact h.type
  have hbs : bsize = 1024 := rfl
  have hle : m' ≤ m := by omega
  have hpr : y.ptr c1 (dataPlace (off / bsize)) = r ∧ r ≠ 0 := by
    have hp' := hp
    rw [holds_eq_some, place_eq_some, hself] at hp'
    exact ⟨hp'.2.2.2.1, hp'.2.2.2.2⟩
  have hptr : ∀ q, y.ptr (update c1 r d) q = y.ptr c1 q := by
    intro q
    have hq := ptr_setBlock (j := i) (d := d) hB h.lt (by rw [hself]; exact hty) hp q
    rwa [hself] at hq
  have hback0 := hg.backed
  rw [Nat.add_zero] at hback0
  refine ⟨hwork.setBlock (hB.data hp) hw.disk, ⟨hg.only.super, hg.only.itable⟩, hg.fields, ?_, ?_, ?_, ?_⟩
  · intro j hj hji ht
    have hj' : update ino i y j = ino j := update_of_ne hji ..
    have hold := hg.others j hj hji ht
    have hst : Stays T (ino j).size (update ino i y j) c1 (update ino i y j)
        (update c1 r d) := by
      refine stays_of_update hB hj ?_ (by rw [hj']; exact ht) hp (.inl hji)
      rw [hj']
      exact hold.backed (hall j hj hji ht)
    rw [hj'] at hst
    exact hold.trans hst
  · refine ⟨?_, fun o ho => ?_⟩
    · have hcap := hback0.1
      have hdm := Nat.div_add_mod' off bsize
      have hmul : (off / bsize + 1) * bsize ≤ maxFile * bsize := Nat.mul_le_mul_right _ hmax
      rw [Nat.succ_mul] at hmul
      omega
    · rw [hptr]
      by_cases hold : o < max (ino i).size off
      · exact hback0.2 o hold
      · rw [(div_eq_of_fits (o := o) hm (by omega) (by omega)).1, hpr.1]
        exact hpr.2
  · intro hs
    exact (hw.atomic (hs.atomic _ _ _)).trans (hg.sub hs)
  · intro ht data hsrc o ho
    have hmm : m' = m := hm'.resolve_right fun hbad => hbad.2 (by rw [hsrc]; exact sure_kernel data)
    rw [hmm] at ho ⊢
    have hrl : r ∉ loose1 := by
      rcases ht with hT' | hdir
      · rw [hT hT']
        exact Set.notMem_empty r
      · intro hm
        have htf := ((hwork.disk.loose r hm).2 _ hp).1
        rw [hself, hg.type, hdir] at htf
        exact absurd htf (by decide)
    have hd := hw.data hrl
    rw [hsrc] at hd
    unfold Dinode.byteAt
    rw [hptr]
    by_cases hin : off ≤ o ∧ o < off + m
    · obtain ⟨hq, hr⟩ := div_eq_of_fits hm hin.1 hin.2
      rw [if_pos hin, hq, hpr.1, update_self, hd, hr]
      change ((c1 r).splice (off % bsize) m fun j => data (tot + j)).byte _ = _
      rw [Block.byte_splice_of_mem (by omega) (by omega) (by omega), Nat.add_sub_cancel_left]
    · have hlim : o < max (ino i).size off := by omega
      have hold := hg.bytes ht data hsrc o (by rw [Nat.add_zero]; exact hlim)
      rw [Nat.add_zero, if_neg (by omega)] at hold
      rw [if_neg hin]
      refine Eq.trans ?_ hold
      unfold Dinode.byteAt
      by_cases hblk : y.ptr c1 (dataPlace (o / bsize)) = r
      · -- the same block, outside the piece
        have hback : (update ino i y i).Backed c1 (max (ino i).size off) := by
          rw [hself]
          exact hback0
        have hheld : holds sb (update ino i y) c1 (i, dataPlace (o / bsize)) = some _ :=
          hback.holds h.lt (by rw [hself]; exact hty) hlim
        rw [hself, hblk] at hheld
        have hq := dataPlace_inj (congrArg Prod.snd (hB.owns.inj _ _ _ hheld hp))
        rw [hblk, update_self, hd]
        change ((c1 r).splice (off % bsize) m fun j => data (tot + j)).byte _ = _
        refine Block.byte_splice_of_not ?_
        rw [hbs] at hq hm ⊢
        omega
      · rw [update_of_ne hblk]

/-- How the loop of `writei` ends. It is cut short at the start of a block; if its copies cannot
fail, only on a full disk, and before its first byte only if there are too few blocks for it. -/
def LoopEnd (sb : Superblock) (T : Prop) (i : ℕ) (ip : Slot) (ino : ℕ → Dinode) (c : ℕ → Block)
    (loose : Set ℕ) (src : Source) (n tot off : ℕ) (s : Fs) (r : ℕ × ℕ) (s' : Fs) : Prop :=
  ∃ m y c' loose', r = (tot + m, off + m) ∧ tot + m ≤ n ∧
    Written sb T i ip ino c loose src tot off m s y c' loose' s' ∧
    (tot + m < n → m = 0 ∨ (off + m) % bsize = 0) ∧
    (src.Sure → tot + m < n → freeBlocks sb c' = ∅) ∧
    (src.Sure → tot < n →
      (m = 0 ↔ (freeBlocks sb c).card < (ino i).missing c (off / bsize)))

lemma writeLoop_spec {fuel : ℕ} (h : Work sb i ip ino ∅ c loose s)
    (hall : ∀ j < sb.ninodes, j ≠ i → (ino j).type ≠ 0 → (ino j).Backed c (ino j).size)
    (hb : (ino i).Backed c (max (ino i).size off)) (hT : T → loose = ∅ ∧ src.Sure)
    (hsrc : src.Sure ∨ (ino i).type = tFile) (hle : tot ≤ n)
    (hcap : off + (n - tot) ≤ maxFile * bsize) (hfuel : n - tot ≤ fuel) :
    wp (writeLoop ip src n fuel tot off) (LoopEnd sb T i ip ino c loose src n tot off s)
      Starved s := by
  induction fuel generalizing ino c loose s tot off with
  | zero =>
    have hn : tot = n := by omega
    refine wp_pure ⟨0, ino i, c, loose, rfl, hle, ?_, fun _ => .inl rfl, fun _ hlt => by omega,
      fun _ hlt => by omega⟩
    refine Written.of_grows h hall hb subset_rfl Grows.refl ?_ ?_
    · rw [update_eq_self]
      exact h.disk
    · rw [← h.mem]
      exact OnlyDin.of_eq rfl rfl
  | succ fuel ih =>
    unfold writeLoop
    by_cases hlt : tot < n
    · rw [if_pos hlt]
      have hpos : 0 < bsize := by decide
      have hmod : off % bsize < bsize := Nat.mod_lt _ hpos
      have hmax : off / bsize < maxFile := (Nat.div_lt_iff_lt_mul hpos).mpr (by omega)
      have hn : 0 < sb.ninodes := lt_of_le_of_lt (Nat.zero_le i) h.lt
      refine wp_bind (wp_inode ?_)
      refine wp_seq (bmap_spec h hmax) ?_
      rintro addr s1 ⟨y, c1, loose1, hd1, hm, ho⟩
      have hw0 : Written sb T i ip ino c loose src tot off 0 s y c1 loose1 s1 :=
        Written.of_grows h hall hb hm.sub hm.grows hd1 ho
      by_cases haddr : addr = 0
      · -- no block for this piece
        rw [if_pos haddr]
        rcases hm.result with ⟨-, hfew, hfull⟩ | ⟨hp, -⟩
        · exact wp_pure ⟨0, y, c1, loose1, rfl, hle, hw0, fun _ => .inl rfl, fun _ _ => hfull,
            fun _ _ => ⟨fun _ => hfew, fun _ => rfl⟩⟩
        · rw [haddr, holds_eq_some, place_eq_some] at hp
          exact absurd rfl hp.2.2.2.2
      · rw [if_neg haddr, h.dev]
        obtain ⟨hp, hcard⟩ := hm.result.resolve_left fun hz => haddr hz.1
        generalize hmin : min (n - tot) (bsize - off % bsize) = m
        have hm1 : m ≤ n - tot := by omega
        have hm2 : m ≤ bsize - off % bsize := by omega
        have hm0 : 0 < m := by omega
        have hty : (update ino i y i).type = (ino i).type := by
          rw [update_self]
          exact hw0.type
        have hT1 : T → loose1 = ∅ := fun ht => Set.subset_empty_iff.mp (by
          rw [← (hT ht).1]
          exact hm.sub)
        refine wp_bind (wp_disk (writeBlock_spec hn hd1 hp ?_) ?_)
        · rw [hty]
          exact hsrc.imp_left fun hs d => hs d _ _ _
        rintro more k2 ⟨d, loose2, hbw, hmore⟩
        cases more with
        | true =>
          have hw1 := Written.of_block h hall hw0 hT1 hp hm2 hmax hbw (.inl rfl)
          have hT2 : T → loose2 = ∅ ∧ src.Sure := fun ht => ⟨Set.subset_empty_iff.mp (by
            rw [← hT1 ht]
            exact hbw.atomic ((hT ht).2.atomic _ _ _)), (hT ht).2⟩
          rw [if_pos rfl]
          refine wp_post (ih hw1.work ?_ ?_ hT2 ?_ (by omega) (by omega) (by omega)) ?_
          · intro j hj hji ht
            rw [update_of_ne hji] at ht ⊢
            exact (hw1.others j hj hji ht).backed (hall j hj hji ht)
          · rw [update_self, hw1.size]
            exact hw1.backed
          · rw [hty]
            exact hsrc
          · rintro r s3 ⟨m3, z, c3, loose3, rfl, hle3, hw3, hend3, hfull3, -⟩
            refine ⟨m + m3, z, c3, loose3, by rw [Nat.add_assoc, Nat.add_assoc], by omega,
              hw1.trans hw3, fun hl => .inr ?_, fun hs hl => hfull3 hs (by omega), fun _ _ => ?_⟩
            · rcases hend3 (by omega) with h0 | h0
              · -- the piece ends with its block
                rw [h0, Nat.add_zero, show m = bsize - off % bsize by omega]
                have hdm := Nat.div_add_mod' off bsize
                rw [show off + (bsize - off % bsize) = (off / bsize + 1) * bsize by
                  rw [Nat.succ_mul]; omega, Nat.mul_mod_left]
              · rwa [Nat.add_assoc] at h0
            · constructor
              · intro hz
                omega
              · intro hf
                omega
        | false =>
          have hns : ¬ src.Sure := by
            intro hs
            exact Bool.false_ne_true (hmore fun d => hs d _ _ _)
          rw [if_neg Bool.false_ne_true]
          exact wp_pure ⟨0, y, _, loose2, rfl, hle,
            Written.of_block h hall hw0 hT1 hp hm2 hmax hbw (.inr ⟨rfl, hns⟩),
            fun _ => .inl rfl, fun hs => absurd hs hns, fun hs => absurd hs hns⟩
    · rw [if_neg hlt]
      refine wp_pure ⟨0, ino i, c, loose, rfl, hle, ?_, fun _ => .inl rfl, fun _ hl => by omega,
        fun _ hl => by omega⟩
      refine Written.of_grows h hall hb subset_rfl Grows.refl ?_ ?_
      · rw [update_eq_self]
        exact h.disk
      · rw [← h.mem]
        exact OnlyDin.of_eq rfl rfl

/-- `writei` writes nothing: the range starts behind the end, wraps, or is too long. -/
def Refused (size off n : ℕ) : Prop :=
  (off > size ∨ uint (off + n) < off) ∨ uint (off + n) > maxFile * bsize

structure WroteTo (sb : Superblock) (T : Prop) (i : ℕ) (ip : Slot) (ino : ℕ → Dinode)
    (c : ℕ → Block) (loose : Set ℕ) (src : Source) (off m : ℕ) (s : Fs) (z : Dinode)
    (c' : ℕ → Block) (loose' : Set ℕ) (s' : Fs) : Prop where
  only : OnlyDin ip z s s'
  disk : Disk sb (dinodeAt sb c') ∅ c' loose' ∅ s'.kernel
  sync : ∀ j < sb.ninodes, dinodeAt sb c' j = update ino i z j
  fields : z = { ino i with size := max (ino i).size (off + m), addrs := z.addrs }
  others : ∀ j < sb.ninodes, j ≠ i → (ino j).type ≠ 0 →
    Stays T (ino j).size (ino j) c (ino j) c'
  backed : z.Backed c' z.size
  sub : src.Sure → loose' ⊆ loose
  bytes : T ∨ (ino i).type = tDir → ∀ data, src = .kernel data → ∀ o < z.size,
    z.byteAt c' o = if off ≤ o ∧ o < off + m then data (o - off) else (ino i).byteAt c o

theorem Disk.congr {ino' : ℕ → Dinode} (h : Disk sb ino X c loose held k)
    (hi : ∀ j < sb.ninodes, ino' j = ino j) : Disk sb ino' X c loose held k := by
  have hh : ∀ p, holds sb ino' c p = holds sb ino c p := by
    intro p
    unfold holds
    split_ifs with hp
    · rw [hi p.1 hp]
    · rfl
  refine ⟨h.laid, h.store, h.blocks.congr hh, ?_, h.held⟩
  intro b hb
  refine ⟨(h.loose b hb).1, fun p hp => ?_⟩
  have hlt := (holds_eq_some.mp hp).1
  rw [hh] at hp
  rw [hi p.1 hlt]
  exact (h.loose b hb).2 p hp

lemma place_congr {x : Dinode} (ht : y.type = x.type) (ha : y.addrs = x.addrs) (q : ℕ) :
    y.place c q = x.place c q := by
  unfold Dinode.place Dinode.ptr
  rw [ht, ha]

lemma Work.setDin {z : Dinode} (h : Work sb i ip ino X c loose s) (ht : z.type = (ino i).type)
    (ha : z.addrs = (ino i).addrs) :
    Work sb i ip (update ino i z) X c loose
      (s.setInode ip fun x => { x with din := z }) := by
  have hslot : (s.setInode ip fun x => { x with din := z }).itable ip = { s.itable ip with din := z } :=
    update_self ..
  have hplace : ∀ q, z.place c q = (ino i).place c q := place_congr ht ha
  refine ⟨⟨h.super, h.some, h.lt, by rw [hslot]; exact h.inum, by rw [hslot]; exact h.dev,
    by rw [hslot, update_self], ?_, h.disk.laid, h.disk.store,
    h.disk.blocks.setInode h.lt hplace, ?_, h.disk.held⟩, ?_⟩
  · intro j hj hji
    rw [update_of_ne hji]
    exact h.sync j hj hji
  · intro b hb
    refine ⟨(h.disk.loose b hb).1, fun p hp => ?_⟩
    rw [holds_updateInode h.lt] at hp
    by_cases hpi : p.1 = i
    · rw [if_pos hpi, hplace] at hp
      have hold := (h.disk.loose b hb).2 p (holds_eq_some.mpr ⟨by rw [hpi]; exact h.lt,
        by rw [hpi]; exact hp⟩)
      rw [hpi, update_self, ht]
      rw [hpi] at hold
      exact hold
    · rw [if_neg hpi] at hp
      rw [update_of_ne hpi]
      exact (h.disk.loose b hb).2 p hp
  · rw [update_self, ht]
    exact h.type

theorem writei_spec (h : Work sb i ip ino ∅ c loose s)
    (hall : ∀ j < sb.ninodes, (ino j).type ≠ 0 → (ino j).Backed c (ino j).size)
    (hT : T → loose = ∅ ∧ src.Sure) (hsrc : src.Sure ∨ (ino i).type = tFile) (hn : n < 2 ^ 32) :
    wp (writei ip src off n) (fun r s' =>
      Refused (ino i).size off n ∧ r = -1 ∧ s' = s ∨
      ¬ Refused (ino i).size off n ∧ ∃ (m : ℕ) (z : Dinode) (c' : ℕ → Block) (loose' : Set ℕ), r = m ∧ m ≤ n ∧
        WroteTo sb T i ip ino c loose src off m s z c' loose' s' ∧
        (m < n → m = 0 ∨ (off + m) % bsize = 0) ∧
        (src.Sure → m < n → freeBlocks sb c' = ∅) ∧
        (src.Sure → 0 < n → (m = 0 ↔ (freeBlocks sb c).card < (ino i).missing c (off / bsize))))
      Starved s := by
  have hback := hall i h.lt h.type
  have hcap := hback.1
  have hmaxv : maxFile * bsize = 274432 := rfl
  unfold writei
  refine wp_bind (wp_inode ?_)
  rw [h.mem]
  by_cases hout : off > (ino i).size ∨ uint (off + n) < off
  · rw [if_pos hout]
    exact wp_pure (.inl ⟨.inl hout, rfl, rfl⟩)
  rw [if_neg hout]
  by_cases hbig : uint (off + n) > maxFile * bsize
  · rw [if_pos hbig]
    exact wp_pure (.inl ⟨.inr hbig, rfl, rfl⟩)
  rw [if_neg hbig]
  have hnr : ¬ Refused (ino i).size off n := not_or.mpr ⟨hout, hbig⟩
  push Not at hout hbig
  have hu : uint (off + n) = off + n := by
    unfold uint at *
    omega
  rw [hu] at hbig
  have hmax : max (ino i).size off = (ino i).size := max_eq_left hout.1
  refine wp_seq (writeLoop_spec (T := T) h (fun j hj _ ht => hall j hj ht)
    (by rw [hmax]; exact hback) hT hsrc (Nat.zero_le n) (by rw [Nat.sub_zero]; exact hbig) (by simp)) ?_
  rintro r s1 ⟨m, y, c1, loose1, rfl, hle, hw, hend, hfull, hfirst⟩
  rw [Nat.zero_add] at hle hend hfull
  have hmem : (s1.itable ip).din = y := by
    rw [hw.only.itable, update_self]
  refine wp_bind (wp_modifyInode ?_)
  generalize hz : { y with size := max (ino i).size (off + m) } = z
  have hset : s1.setInode ip (fun x => { x with din :=
      { x.din with size := max x.din.size (off + m) } }) =
      s1.setInode ip fun x => { x with din := z } := by
    unfold Fs.setInode
    dsimp only
    rw [hmem, hw.size, hz]
  rw [hset]
  have hza : z.addrs = y.addrs := by rw [← hz]
  have hzt : z.type = y.type := by rw [← hz]
  have hzs : z.size = max (ino i).size (off + m) := by rw [← hz]
  have hwork := hw.work.setDin (z := z) (by rw [update_self]; exact hzt)
    (by rw [update_self]; exact hza)
  rw [update_idem] at hwork
  have hzb : z.Backed c1 z.size := by
    have hyb := hw.backed
    rw [← hzs] at hyb
    refine ⟨hyb.1, fun o ho => ?_⟩
    have hp := hyb.2 o ho
    unfold Dinode.ptr at hp ⊢
    rwa [hza]
  refine wp_seq (iupdate_spec hwork.toAhead (hwork.fits (by
    rw [update_self]
    exact hzb.1))) ?_
  rintro _ s2 ⟨hi2, hsb2, c2, hup⟩
  have hdata : ∀ b, sb.Data b → c2 b = c1 b := by
    intro b hb
    refine hup.other b ?_
    have hlt := (h.disk.laid.iblock h.lt h.some).1
    have hge := hb.1
    omega
  have hB := hwork.disk.blocks
  have hstz : Stays True z.size z c1 z c2 := by
    have hst := stays_of_data (T := True) (j := i) hB h.lt
      (by rw [update_self, hzt, hw.type]; exact h.type) (by rw [update_self]; exact hzb) hdata
    rwa [update_self] at hst
  refine wp_pure (.inr ⟨hnr, m, z, c2, loose1, by rw [Nat.zero_add], hle, ?_, hend, ?_, ?_⟩)
  · refine ⟨?_, ?_, hup.sync, ?_, ?_, hstz.backed hzb, hw.sub, ?_⟩
    · refine ⟨by rw [hsb2]; exact hw.only.super, ?_⟩
      rw [hi2]
      unfold Fs.setInode
      dsimp only
      rw [hw.only.itable, update_self, update_idem]
    · exact hup.disk.congr hup.sync
    · rw [← hz, hw.fields]
    · intro j hj hji ht
      have hold := hw.others j hj hji ht
      have hback : (update ino i z j).Backed c1 (ino j).size := by
        rw [update_of_ne hji]
        exact hold.backed (hall j hj ht)
      have hst := stays_of_data (T := T) hB hj (by rw [update_of_ne hji]; exact ht) hback
        hdata
      rw [update_of_ne hji] at hst
      exact hold.trans hst
    · intro ht data hd o ho
      have hyo := hw.bytes ht data hd o (by rw [← hzs]; exact ho)
      rw [Nat.zero_add] at hyo
      rw [hstz.byteAt (.inl trivial) ho, ← hyo]
      unfold Dinode.byteAt Dinode.ptr
      rw [hza]
  · intro hs hlt
    rw [hup.free]
    exact hfull hs hlt
  · exact hfirst

end inode

end Xv6
