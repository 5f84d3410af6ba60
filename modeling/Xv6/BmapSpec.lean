import Xv6.BallocSpec

/-! `bmap` gives an inode at most one new data block, and touches nothing else that anybody
holds. -/
namespace Xv6

open Program Function Finset

variable {sb : Superblock} {ino : ℕ → Dinode} {c c' : ℕ → Block} {X : Set ℕ} {loose loose' : Set ℕ}
  {held : Finset ℕ} {k : Kernel} {i : ℕ} {y : Dinode}

/-- The inode `i` has got new blocks, and is `y` now; what was held is still held where it
was, and only indirect blocks of `i` among the blocks in use have changed. -/
structure Grows (sb : Superblock) (i : ℕ) (ino : ℕ → Dinode) (c : ℕ → Block) (y : Dinode)
    (c' : ℕ → Block) : Prop where
  fields : y = { ino i with addrs := y.addrs }
  mono : used sb c ⊆ used sb c'
  keep : ∀ p b, holds sb ino c p = some b → holds sb (update ino i y) c' p = some b
  fresh : ∀ p b, holds sb (update ino i y) c' p = some b → holds sb ino c p = some b ∨
    p.1 = i ∧ b ∉ used sb c ∧ (p.2 ≠ ndirect → c' b = fun _ => 0)
  data : ∀ b ∈ used sb c, (∀ i', holds sb ino c (i', ndirect) ≠ some b) → c' b = c b
  fixed : ∀ x, x < sb.datastart → ¬ sb.Bitmap x → c' x = c x

theorem Grows.refl : Grows sb i ino c (ino i) c := by
  refine ⟨rfl, subset_rfl, ?_, ?_, fun _ _ _ => rfl, fun _ _ _ => rfl⟩
  · intro p b hp
    rwa [update_eq_self]
  · intro p b hp
    rw [update_eq_self] at hp
    exact .inl hp

lemma Grows.trans {z : Dinode} {c'' : ℕ → Block} (h : Grows sb i ino c y c')
    (h' : Grows sb i (update ino i y) c' z c'')
    (hB : Blocks sb (update ino i y) c' X) : Grows sb i ino c z c'' := by
  have hupd : update (update ino i y) i z = update ino i z :=
    update_idem _ _ _
  refine ⟨?_, h.mono.trans h'.mono, ?_, ?_, ?_, ?_⟩
  · have h1 := h'.fields
    rw [update_self] at h1
    rw [h1, h.fields]
  · intro p b hp
    have h2 := h'.keep p b (h.keep p b hp)
    rwa [hupd] at h2
  · intro p b hp
    rw [← hupd] at hp
    rcases h'.fresh p b hp with hp' | ⟨hi, hb, hz⟩
    · rcases h.fresh p b hp' with hp'' | ⟨hi, hb, hz⟩
      · exact .inl hp''
      · refine .inr ⟨hi, hb, fun hne => ?_⟩
        rw [h'.data b (hB.mem_used hp') ?_, hz hne]
        intro i' hi'
        exact hne (congrArg Prod.snd (hB.owns.inj p (i', ndirect) b hp' hi'))
    · exact .inr ⟨hi, fun hu => hb (h.mono hu), hz⟩
  · intro b hb hn
    rw [h'.data b (h.mono hb) ?_, h.data b hb hn]
    intro i' hi'
    rcases h.fresh _ b hi' with hp | ⟨_, hnu, _⟩
    · exact hn i' hp
    · exact hnu hb
  · intro x hx hnb
    rw [h'.fixed x hx hnb, h.fixed x hx hnb]

lemma Grows.of_store {r : ℕ} {c1 : ℕ → Block} {q : ℕ × ℕ} (hl : sb.Laid)
    (hB : Blocks sb ino c X) (hA : Allocated sb ino c c1 r) (hr : sb.Data r) (hq : q.1 = i)
    (hnone : holds sb ino c q = none)
    (hy : y = { ino i with addrs := y.addrs })
    (hholds : holds sb (update ino i y) c' = update (holds sb ino c) q (some r))
    (hused : used sb c1 ⊆ used sb c') (hz : q.2 ≠ ndirect → c' r = fun _ => 0)
    (hc' : ∀ x, c' x = c1 x ∨ x = r ∨ ∃ i', holds sb ino c (i', ndirect) = some x) :
    Grows sb i ino c y c' := by
  have hmap : ∀ b ∈ used sb c, ¬ sb.Bitmap b := by
    rintro b hb ⟨x, hx, rfl⟩
    have hlt := hl.bitmap x hx
    have hge := hb.1.1
    omega
  refine ⟨hy, hA.mono.trans hused, ?_, ?_, ?_, ?_⟩
  · intro p b hp
    rw [hholds, update_of_ne]
    · exact hp
    · rintro rfl
      rw [hnone] at hp
      cases hp
  · intro p b hp
    rw [hholds] at hp
    by_cases hpq : p = q
    · subst hpq
      rw [update_self] at hp
      cases hp
      exact .inr ⟨hq, hA.fresh, hz⟩
    · rw [update_of_ne hpq] at hp
      exact .inl hp
  · intro b hb hn
    have hbr : b ≠ r := by
      rintro rfl
      exact hA.fresh hb
    rcases hc' b with he | he | ⟨i', hi'⟩
    · rw [he, hA.other b hbr (hmap b hb)]
    · exact absurd he hbr
    · exact absurd hi' (hn i')
  · intro x hx hnb
    have hxr : x ≠ r := by
      rintro rfl
      have hge := hr.1
      omega
    rcases hc' x with he | he | ⟨i', hi'⟩
    · rw [he, hA.other x hxr hnb]
    · exact absurd he hxr
    · have hge := (hB.data hi').1
      omega

def missing (v : ℕ) : ℕ := if v = 0 then 1 else 0

/-- What `bmap` and its parts guarantee: `r` is 0, since there are fewer than `m` free blocks, or
the block now at place `j`, for which they have taken `m` of them. -/
structure Mapped (sb : Superblock) (i : ℕ) (ino : ℕ → Dinode) (c : ℕ → Block) (loose : Set ℕ)
    (j m : ℕ) (y : Dinode) (r : ℕ) (c' : ℕ → Block) (loose' : Set ℕ) : Prop where
  sub : loose' ⊆ loose
  grows : Grows sb i ino c y c'
  only : ∀ q, q ≠ j → q ≠ ndirect →
    holds sb (update ino i y) c' (i, q) = holds sb ino c (i, q)
  result : r = 0 ∧ (freeBlocks sb c).card < m ∧ freeBlocks sb c' = ∅ ∨
    holds sb (update ino i y) c' (i, j) = some r ∧
      (freeBlocks sb c').card + m = (freeBlocks sb c).card

lemma Grows.keepsLoose (h : Grows sb i ino c y c')
    (hl : ∀ b ∈ loose, sb.Data b ∧
      ∀ p, holds sb ino c p = some b → (ino p.1).type = tFile ∧ p.2 ≠ ndirect)
    (hn : ∀ b ∈ loose', b ∈ loose ∧ ∀ p, holds sb (update ino i y) c' p = some b →
      holds sb ino c p = some b) :
    ∀ b ∈ loose', sb.Data b ∧ ∀ p, holds sb (update ino i y) c' p = some b →
      (update ino i y p.1).type = tFile ∧ p.2 ≠ ndirect := by
  intro b hb
  obtain ⟨hbl, hp⟩ := hn b hb
  refine ⟨(hl b hbl).1, ?_⟩
  intro p hpb
  obtain ⟨ht, hne⟩ := (hl b hbl).2 p (hp p hpb)
  refine ⟨?_, hne⟩
  by_cases hpi : p.1 = i
  · rw [hpi, update_self, h.fields]
    rw [hpi] at ht
    exact ht
  · rwa [update_of_ne hpi]

lemma Mapped.same {j m r : ℕ} (hr : r = 0 ∧ (freeBlocks sb c).card < m ∧ freeBlocks sb c = ∅ ∨
    holds sb ino c (i, j) = some r ∧ m = 0) : Mapped sb i ino c loose j m (ino i) r c loose := by
  refine ⟨subset_rfl, Grows.refl, ?_, ?_⟩
  · intro q _ _
    rw [update_eq_self]
  · rw [update_eq_self]
    exact hr.imp_right fun ⟨hp, hm⟩ => ⟨hp, by rw [hm, Nat.add_zero]⟩

lemma Mapped.of_alloc {r j : ℕ} {c1 : ℕ → Block} (hsub : loose' ⊆ loose)
    (hg : Grows sb i ino c y c') (hA : Allocated sb ino c c1 r)
    (hfree : freeBlocks sb c' = freeBlocks sb c1)
    (hupd : holds sb (update ino i y) c' = update (holds sb ino c) (i, j) (some r)) :
    Mapped sb i ino c loose j 1 y r c' loose' := by
  refine ⟨hsub, hg, ?_, .inr ⟨?_, ?_⟩⟩
  · intro q hq _
    rw [hupd, update_of_ne]
    intro he
    exact hq (congrArg Prod.snd he)
  · rw [hupd, update_self]
  · rw [hfree, hA.free]
    exact card_erase_add_one hA.was

lemma Disk.indirect (h : Disk sb ino X c loose held k) (hi : i < sb.ninodes)
    (ht : (ino i).type ≠ 0) (ha : (ino i).addrs (Fin.last ndirect) ≠ 0) :
    holds sb ino c (i, ndirect) = some ((ino i).addrs (Fin.last ndirect)) ∧
      (ino i).addrs (Fin.last ndirect) ∈ used sb c ∧
      (ino i).addrs (Fin.last ndirect) ∉ loose := by
  have hh : holds sb ino c (i, ndirect) = some ((ino i).addrs (Fin.last ndirect)) :=
    holds_eq_some.mpr ⟨hi, place_indirect ht ha⟩
  refine ⟨hh, h.blocks.mem_used hh, ?_⟩
  intro hl
  exact ((h.loose _ hl).2 _ hh).2 rfl

theorem Disk.loggable {b : ℕ} (hn : 0 < sb.ninodes) (hl : sb.Laid) (hb : sb.Data b) :
    sb.Home b ∧ b < 2 ^ 32 := by
  have hmap := hl.bitmap b hb.2
  have hstart := hl.inodestart_le hn (b := b)
  have hge := hb.1
  exact ⟨hl.home (by omega), lt_trans hb.2 (lt_trans hl.size (by decide))⟩

lemma insert_sdiff_of_fresh {r : ℕ} (hB : Blocks sb ino c X) (hr : r ∉ used sb c) :
    insert r X \ {r} = X := by
  rw [Set.insert_sdiff_of_mem _ (Set.mem_singleton r), Set.sdiff_singleton_eq_self]
  intro hx
  exact hr (hB.owns.spare hx)

lemma bmapIndirect_spec {w : ℕ} (h : Disk sb ino X c loose ∅ k) (hi : i < sb.ninodes)
    (ht : (ino i).type ≠ 0) (ha : (ino i).addrs (Fin.last ndirect) ≠ 0) (hw : w < nindirect) :
    wp (bmapIndirect sb rootDev ((ino i).addrs (Fin.last ndirect)) w)
      (fun r k' => ∃ c' loose', Disk sb ino X c' loose' ∅ k' ∧
        Mapped sb i ino c loose (ndirect + 1 + w)
          (missing ((c ((ino i).addrs (Fin.last ndirect))).word w)) (ino i) r c' loose') Spent k := by
  have hl := h.laid
  have hn : 0 < sb.ninodes := by omega
  obtain ⟨hind, hu, hnl⟩ := h.indirect hi ht ha
  generalize hx : (ino i).addrs (Fin.last ndirect) = x at *
  have hxd := hu.1
  obtain ⟨hhome, hx32⟩ := Disk.loggable hn hl hxd
  have hmapx : ∀ b, b < sb.size → sb.bblock b ≠ x := fun b hb =>
    (lt_of_lt_of_le (hl.bitmap b hb) hxd.1).ne
  have hnmap : ¬ sb.Bitmap x := fun ⟨b, hb, he⟩ => hmapx b hb he
  unfold bmapIndirect
  refine wp_seq (h.store.bread_sure (notMem_empty x) hnl) ?_
  rintro _ k1 ⟨_, h1⟩
  refine wp_bind (h1.bdata (mem_insert_self _ _) ?_)
  by_cases hword : (c x).word w = 0
  · rw [if_neg (not_not.mpr hword), missing, if_pos hword]
    have hD1 : Disk sb ino X c loose (insert x ∅) k1 := by
      refine ⟨hl, h1, h.blocks, h.loose, ?_⟩
      intro b hb
      rcases mem_insert.mp hb with rfl | hb
      · exact hu
      · exact absurd hb (notMem_empty b)
    refine wp_seq (balloc_spec hn hD1) ?_
    rintro r k2 (⟨rfl, hfull, h2⟩ | ⟨hr0, c1, hA, h2⟩)
    · unfold storeIndirect
      refine wp_bind (wp_bind (h2.store.bdata (mem_insert_self _ _) ?_))
      rw [if_pos rfl]
      refine wp_pure ?_
      refine wp_seq (h2.store.release (notMem_empty x)) ?_
      rintro _ k3 ⟨_, h3⟩
      refine wp_pure ⟨c, loose, ⟨hl, h3, h2.blocks, h2.loose, h.held⟩, Mapped.same (.inl ⟨rfl, ?_, hfull⟩)⟩
      rw [hfull]
      exact Nat.one_pos
    · have hxr : x ≠ r := by
        rintro rfl
        exact hA.fresh hu
      have hc1x : c1 x = c x := hA.other x hxr hnmap
      have hrX : r ∈ insert r X := Set.mem_insert r X
      have hrd : sb.Data r := (h2.blocks.owns.spare hrX).1
      obtain ⟨hset, hnone, hupd⟩ := h2.blocks.setWord (i := i) (w := w) hl hi ht hx ha hw
        (by rw [hc1x]; exact hword) hrX hr0
      rw [insert_sdiff_of_fresh h.blocks hA.fresh] at hset
      rw [hA.holds] at hnone hupd
      unfold storeIndirect
      refine wp_bind (wp_bind (h2.store.bdata (mem_insert_self _ _) ?_))
      rw [if_neg hr0]
      refine wp_seq (h2.store.setData (mem_insert_self _ _) _) ?_
      rintro _ k3 ⟨_, h3⟩
      refine wp_post (h3.logWrite (mem_insert_self _ _) hhome hx32) ?_
      intro _ k4 h4
      refine wp_seq (h4.release (notMem_empty x)) ?_
      rintro _ k5 ⟨_, h5⟩
      have hloose : insert x (loose \ {r}) \ {x} ⊆ loose := by
        intro b hb
        rcases Set.mem_insert_iff.mp hb.1 with he | hb'
        · exact absurd he hb.2
        · exact hb'.1
      have hself : update ino i (ino i) = ino := update_eq_self i ino
      have hgrow : Grows sb i ino c (ino i) (update c1 x ((c1 x).setWord w r)) := by
        refine Grows.of_store hl h.blocks hA hrd (q := (i, ndirect + 1 + w)) rfl hnone rfl ?_ ?_ ?_ ?_
        · rw [hself]
          exact hupd
        · rw [used_update hmapx]
        · intro _
          rw [update_of_ne hxr.symm, hA.zero]
        · intro z
          by_cases hz : z = x
          · exact .inr (.inr ⟨i, by rw [hz]; exact hind⟩)
          · exact .inl (update_of_ne hz _ _)
      refine wp_pure ⟨_, _, ⟨hl, h5, hset, ?_, ?_⟩,
        Mapped.of_alloc hloose hgrow hA (freeBlocks_update hmapx) (by rw [hself, hupd])⟩
      · rw [← hself]
        refine hgrow.keepsLoose h.loose ?_
        intro b hb
        refine ⟨hloose hb, ?_⟩
        intro p hp
        have hbr : b ≠ r := by
          rintro rfl
          rcases Set.mem_insert_iff.mp hb.1 with he | hb'
          · exact hxr he.symm
          · exact hb'.2 rfl
        rw [hself, hupd] at hp
        by_cases hpq : p = (i, ndirect + 1 + w)
        · rw [hpq, update_self] at hp
          exact absurd (Option.some.inj hp).symm hbr
        · rwa [update_of_ne hpq] at hp
      · intro b hb
        exact absurd hb (notMem_empty b)
  · rw [if_pos hword, missing, if_neg hword]
    refine wp_seq (h1.release (notMem_empty x)) ?_
    rintro _ k2 ⟨_, h2⟩
    refine wp_pure ⟨c, loose, ⟨hl, h2, h.blocks, h.loose, h.held⟩, Mapped.same (.inr ⟨?_, rfl⟩)⟩
    rw [holds_eq_some, place_eq_some, ptr_word (by rw [hx]; exact ha), hx]
    have hnp : nptr = ndirect + 1 + nindirect := rfl
    exact ⟨hi, ht, by simp only; omega, rfl, hword⟩

section inode
variable {ip : Slot} {s : Fs} {Q : Inode → Fs → Prop} {E : Stop → Fs → Prop}

theorem wp_inode (h : Q (s.itable ip) s) : wp (inode ip) Q E s := h

theorem wp_modifyInode {f : Inode → Inode} {R : PUnit → Fs → Prop} (h : R ⟨⟩ (s.setInode ip f)) :
    wp (modifyInode ip f) R E s := h

theorem wp_lift {α : Type} {x : K α} {R : α → Fs → Prop}
    (h : wp x (fun a k => R a { s with kernel := k }) (fun e k => E e { s with kernel := k })
      s.kernel) : wp (liftM x : F α) R E s := by
  change wp (zoom Fs.kernel (fun s k => { s with kernel := k }) x) R E s
  exact wp_zoom h

theorem liftM_bind {α β : Type} (x : K α) (f : α → K β) :
    (liftM (x >>= f) : F β) = (liftM x : F α) >>= fun a => liftM (f a) :=
  zoom_bind Fs.kernel (fun s k => { s with kernel := k }) (fun _ _ => rfl) (fun _ _ _ => rfl) x f

def Starved (e : Stop) (s : Fs) : Prop :=
  Spent e s.kernel ∨ e = .panic .igetNoInodes ∧ ∀ ip, (s.itable ip).ref ≠ 0

theorem wp_disk {α : Type} {x : K α} {Q : α → Kernel → Prop} {R : α → Fs → Prop}
    (h : wp x Q Spent s.kernel) (hR : ∀ a k, Q a k → R a { s with kernel := k }) :
    wp (liftM x : F α) R Starved s :=
  wp_lift (wp_mono h hR fun _ _ he => .inl he)

section
variable (sb : Superblock) (i : ℕ) (ip : Slot) (ino : ℕ → Dinode) (X : Set ℕ) (c : ℕ → Block)
  (loose : Set ℕ) (s : Fs)

/-- The call works on inode `i`, which it has locked in slot `ip`. Its copy in memory may be
ahead of the disk; all other inodes are as on disk. -/
structure Ahead : Prop where
  super : s.sb = sb
  some : 0 < sb.size
  lt : i < sb.ninodes
  inum : (s.itable ip).inum = i
  dev : (s.itable ip).dev = rootDev
  mem : (s.itable ip).din = ino i
  sync : ∀ j, j < sb.ninodes → j ≠ i → ino j = dinodeAt sb c j
  disk : Disk sb ino X c loose ∅ s.kernel

structure Work : Prop extends Ahead sb i ip ino X c loose s where
  type : (ino i).type ≠ 0

end

/-- Only the copy of the inode in slot `ip` has changed, besides the disk. -/
structure OnlyDin (ip : Slot) (y : Dinode) (s s' : Fs) : Prop where
  super : s'.sb = s.sb
  itable : s'.itable = update s.itable ip { s.itable ip with din := y }

theorem OnlyDin.trans {y z : Dinode} {s' s'' : Fs} (h : OnlyDin ip y s s')
    (h' : OnlyDin ip z s' s'') : OnlyDin ip z s s'' := by
  refine ⟨by rw [h'.super, h.super], ?_⟩
  rw [h'.itable, h.itable, update_self, update_idem]

theorem OnlyDin.of_eq {s' : Fs} (hs : s'.sb = s.sb) (hi : s'.itable = s.itable) :
    OnlyDin ip (s.itable ip).din s s' :=
  ⟨hs, by rw [hi, update_eq_self]⟩

lemma Grows.dinodeAt (hl : sb.Laid) (h : Grows sb i ino c y c') {j : ℕ} (hj : j < sb.ninodes)
    (hs : 0 < sb.size) : Xv6.dinodeAt sb c' j = Xv6.dinodeAt sb c j := by
  have hlt := hl.inodes j hj
  have hmap : ∀ b, sb.iblock j < sb.bblock b := fun b => lt_of_lt_of_le hlt (Nat.le_add_left _ _)
  unfold Xv6.dinodeAt
  rw [h.fixed _ (lt_trans (hmap 0) (hl.bitmap 0 hs))]
  rintro ⟨b, _, he⟩
  exact (hmap b).ne' he

theorem Work.grow {s' : Fs} (h : Work sb i ip ino X c loose s)
    (hg : Grows sb i ino c y c') (hd : Disk sb (update ino i y) X c' loose' ∅ s'.kernel)
    (ho : OnlyDin ip y s s') : Work sb i ip (update ino i y) X c' loose' s' := by
  have hslot : s'.itable ip = { s.itable ip with din := y } := by
    rw [ho.itable, update_self]
  refine ⟨⟨by rw [ho.super, h.super], h.some, h.lt, by rw [hslot]; exact h.inum,
    by rw [hslot]; exact h.dev, ?_, ?_, hd⟩, ?_⟩
  · rw [hslot, update_self]
  · intro j hj hji
    rw [update_of_ne hji, hg.dinodeAt h.disk.laid hj h.some]
    exact h.sync j hj hji
  · rw [update_self, hg.fields]
    exact h.type

def Bmapped (sb : Superblock) (i : ℕ) (ip : Slot) (ino : ℕ → Dinode) (c : ℕ → Block)
    (X loose : Set ℕ) (j m : ℕ) (s : Fs) (r : ℕ) (s' : Fs) : Prop :=
  ∃ y c' loose', Disk sb (update ino i y) X c' loose' ∅ s'.kernel ∧
    Mapped sb i ino c loose j m y r c' loose' ∧ OnlyDin ip y s s'

lemma bmapAddr_spec {a : Fin (ndirect + 1)} (h : Work sb i ip ino X c loose s) :
    wp (bmapAddr ip a) (Bmapped sb i ip ino c X loose a (missing ((ino i).addrs a)) s) Starved s := by
  have hl := h.disk.laid
  have hn : 0 < sb.ninodes := lt_of_le_of_lt (Nat.zero_le i) h.lt
  have hsame : OnlyDin ip (ino i) s s := by
    rw [← h.mem]
    exact OnlyDin.of_eq rfl rfl
  have hself : update ino i (ino i) = ino := update_eq_self i ino
  unfold bmapAddr
  refine wp_bind (wp_get ?_)
  refine wp_bind (wp_inode ?_)
  rw [h.super, h.dev, h.mem]
  by_cases ha : (ino i).addrs a = 0
  · rw [if_neg (not_not.mpr ha), missing, if_pos ha]
    refine wp_bind (wp_disk (balloc_spec hn h.disk) ?_)
    rintro r k1 (⟨rfl, hfull, h1⟩ | ⟨hr0, c1, hA, h1⟩)
    · rw [if_pos rfl]
      refine wp_pure ⟨ino i, c, loose, by rw [hself]; exact h1, Mapped.same (.inl ⟨rfl, ?_, hfull⟩),
        hsame.super, hsame.itable⟩
      rw [hfull]
      exact Nat.one_pos
    · rw [if_neg hr0]
      have hrX : r ∈ insert r X := Set.mem_insert r X
      have hrd : sb.Data r := (h1.blocks.owns.spare hrX).1
      obtain ⟨hset, hnone, hupd⟩ := h1.blocks.setAddr h.lt h.type ha hrX hr0 fun _ => hA.zero
      rw [insert_sdiff_of_fresh h.disk.blocks hA.fresh] at hset
      rw [hA.holds] at hnone hupd
      have hgrow : Grows sb i ino c
          { ino i with addrs := update (ino i).addrs a r } c1 :=
        Grows.of_store hl h.disk.blocks hA hrd (q := (i, a)) rfl hnone rfl hupd subset_rfl
          (fun _ => hA.zero) fun _ => .inl rfl
      refine wp_bind (wp_modifyInode (wp_pure ?_))
      refine ⟨_, c1, loose \ {r}, ⟨hl, h1.store, hset, ?_, ?_⟩,
        Mapped.of_alloc Set.sdiff_subset hgrow hA rfl hupd, rfl, ?_⟩
      · refine hgrow.keepsLoose h.disk.loose ?_
        intro b hb
        refine ⟨hb.1, ?_⟩
        intro p hp
        rw [hupd] at hp
        by_cases hpq : p = (i, ↑a)
        · rw [hpq, update_self] at hp
          cases hp
          exact absurd rfl hb.2
        · rwa [update_of_ne hpq] at hp
      · intro b hb
        exact absurd hb (notMem_empty b)
      · simp only [Fs.setInode, h.mem]
  · rw [if_pos ha, missing, if_neg ha]
    refine wp_pure ⟨ino i, c, loose, by rw [hself]; exact h.disk, Mapped.same (.inr ⟨?_, rfl⟩), hsame⟩
    rw [holds_eq_some, place_eq_some]
    exact ⟨h.lt, h.type, lt_of_lt_of_le a.isLt (Nat.le_add_right _ _), ptr_addrs _ _ _, ha⟩

/-- The place of the `n`th data block: the indirect block itself is no data block. -/
def dataPlace (n : ℕ) : ℕ := if n < ndirect then n else n + 1

theorem dataPlace_ne (n : ℕ) : dataPlace n ≠ ndirect := by
  unfold dataPlace
  split_ifs <;> omega

theorem dataPlace_lt {n : ℕ} (h : n < maxFile) : dataPlace n < nptr := by
  have h1 : maxFile = ndirect + nindirect := rfl
  have h2 : nptr = ndirect + 1 + nindirect := rfl
  unfold dataPlace
  split_ifs <;> omega

def Dinode.missing (x : Dinode) (c : ℕ → Block) (n : ℕ) : ℕ :=
  (if n < ndirect then 0 else Xv6.missing (x.addrs (Fin.last ndirect))) +
    Xv6.missing (x.ptr c (dataPlace n))

lemma missing_eq_of_nonzero {v w : ℕ} (h : nonzero v = nonzero w) : missing v = missing w := by
  unfold nonzero at h
  unfold missing
  split_ifs at h ⊢ <;> simp_all

theorem bmap_spec {n : ℕ} (h : Work sb i ip ino X c loose s) (hbn : n < maxFile) :
    wp (bmap ip n) (Bmapped sb i ip ino c X loose (dataPlace n) ((ino i).missing c n) s)
      Starved s := by
  have hmax : maxFile = ndirect + nindirect := rfl
  unfold bmap Dinode.missing dataPlace
  split_ifs with h1 h2
  · have hval : ((Fin.ofNat (ndirect + 1) n : Fin (ndirect + 1)) : ℕ) = n :=
      Nat.mod_eq_of_lt (by omega)
    have hspec := bmapAddr_spec (a := Fin.ofNat (ndirect + 1) n) h
    rwa [← ptr_addrs (ino i) c, hval, ← Nat.zero_add (Xv6.missing _)] at hspec
  · refine wp_bind (wp_get ?_)
    refine wp_bind (wp_inode ?_)
    refine wp_seq (bmapAddr_spec (a := Fin.last ndirect) h) ?_
    rintro r s1 ⟨y, c1, loose1, hd, hm, ho⟩
    have hplace : ndirect + 1 + (n - ndirect) = n + 1 := by omega
    split_ifs with hr0
    · -- no block for the addresses: `bmap` gives up
      refine wp_pure ⟨y, c1, loose1, hd, ⟨hm.sub, hm.grows, fun q _ hq => hm.only q hq hq, .inl ?_⟩, ho⟩
      rcases hm.result with ⟨-, hlt, hfull⟩ | ⟨hp, -⟩
      · exact ⟨rfl, lt_of_lt_of_le hlt (Nat.le_add_right _ _), hfull⟩
      · rw [hr0, holds_eq_some, place_eq_some] at hp
        exact absurd rfl hp.2.2.2.2
    · obtain ⟨hp, hcard⟩ := hm.result.resolve_left fun hz => hr0 hz.1
      have hp' := hp
      rw [Fin.val_last, holds_eq_some, place_eq_some, ptr_indirect, update_self] at hp'
      obtain ⟨_, ht, _, hyr, _⟩ := hp'
      have hword : Xv6.missing ((c1 r).word (n - ndirect)) = Xv6.missing ((ino i).ptr c (n + 1)) := by
        have honly := hm.only (n + 1) (by rw [Fin.val_last]; omega) (by omega)
        have hlt : n + 1 < nptr := by
          have hnp : nptr = ndirect + 1 + nindirect := rfl
          omega
        have hty : y.type = (ino i).type := by rw [hm.grows.fields]
        unfold holds Dinode.place at honly
        rw [if_pos h.lt, if_pos h.lt, update_self, if_pos ⟨ht, hlt⟩,
          if_pos ⟨by rw [← hty]; exact ht, hlt⟩] at honly
        have hptr : y.ptr c1 (n + 1) = (c1 r).word (n - ndirect) := by
          rw [← hplace, ptr_word (by rw [hyr]; exact hr0), hyr]
        rw [← hptr]
        exact missing_eq_of_nonzero honly
      have hspec := bmapIndirect_spec (i := i) (w := n - ndirect) hd h.lt
        (by rw [update_self]; exact ht)
        (by rw [update_self, hyr]; exact hr0) h2
      rw [update_self, hyr, hword] at hspec
      rw [h.super, h.dev]
      refine wp_disk hspec ?_
      rintro r2 k2 ⟨c2, loose2, hd2, hm2⟩
      have hg2 := hm2.grows
      have hres := hm2.result
      have honly := hm2.only
      rw [update_idem] at honly hres
      rw [hplace] at honly hres
      refine ⟨y, c2, loose2, hd2, ⟨hm2.sub.trans hm.sub, hm.grows.trans hg2 hd.blocks, ?_, ?_⟩,
        ho.super, ho.itable⟩
      · intro q hq hqn
        rw [honly q hq hqn, hm.only q hqn hqn]
      · rcases hres with ⟨hz, hlt, hfull⟩ | ⟨hp2, hcard2⟩
        · exact .inl ⟨hz, by omega, hfull⟩
        · exact .inr ⟨hp2, by omega⟩
  · exact absurd hbn (by omega)

end inode

end Xv6
