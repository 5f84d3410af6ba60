import Xv6.BlockOwnership
import Xv6.Fs

/-! What `balloc`, `bfree` and the walk through an indirect block do to the ownership of
blocks. -/
namespace Xv6

open Program Function

variable {sb : Superblock} {ino : ℕ → Dinode} {c c' : ℕ → Block} {X : Set ℕ} {loose : Set ℕ}
  {held : Finset ℕ} {k : Kernel} {b n : ℕ} {d : Block}

/-- The state of the disk while a call holds the blocks `held`, which are data blocks in use.
A block with uncertain contents is no directory or indirect block. -/
structure Disk (sb : Superblock) (ino : ℕ → Dinode) (X : Set ℕ) (c : ℕ → Block) (loose : Set ℕ)
    (held : Finset ℕ) (k : Kernel) : Prop where
  laid : sb.Laid
  store : Store sb c loose held k
  blocks : Blocks sb ino c X
  loose : ∀ b ∈ loose, sb.Data b ∧
    ∀ p, holds sb ino c p = some b → (ino p.1).type = tFile ∧ p.2 ≠ ndirect
  held : ∀ b ∈ held, b ∈ used sb c

def Superblock.Bitmap (sb : Superblock) (x : ℕ) : Prop := ∃ b, b < sb.size ∧ sb.bblock b = x

theorem Superblock.Laid.home (hl : sb.Laid) {x : ℕ} (hx : sb.inodestart ≤ x) : sb.Home x :=
  .inr (le_trans hl.log hx)

theorem Superblock.Laid.inodestart_le (hl : sb.Laid) (hs : 0 < sb.ninodes) {b : ℕ} :
    sb.inodestart ≤ sb.bblock b := by
  have h0 := hl.inodes 0 hs
  have h1 : sb.bmapstart ≤ sb.bblock b := Nat.le_add_left _ _
  have h2 : sb.inodestart ≤ sb.iblock 0 := Nat.le_add_left _ _
  omega

lemma findFree_spec {bi r : ℕ} (h : findFree sb d b n bi = some r) :
    r < bi + n ∧ b + r < sb.size ∧ d.bit r = false ∧ ∀ x, bi ≤ x → x < r → d.bit x = true := by
  induction n generalizing bi with
  | zero => cases h
  | succ n ih =>
    unfold findFree at h
    split_ifs at h with h1 h2
    · obtain ⟨hr, hs, hbit, hmin⟩ := ih h
      refine ⟨by omega, hs, hbit, fun x hx hxr => ?_⟩
      by_cases hxb : x = bi
      · rw [hxb, h2]
      · exact hmin x (by omega) hxr
    · cases h
      exact ⟨by omega, h1, by simpa using h2, fun x hx hxr => by omega⟩

lemma findFree_none {bi r : ℕ} (h : findFree sb d b n bi = none) (h1 : bi ≤ r) (h2 : r < bi + n)
    (hs : b + r < sb.size) : d.bit r = true := by
  induction n generalizing bi with
  | zero => omega
  | succ n ih =>
    unfold findFree at h
    split_ifs at h with h3 h4
    · by_cases hr : bi = r
      · rw [← hr, h4]
      · exact ih h (by omega) (by omega)
    · omega

def freeBlocks (sb : Superblock) (c : ℕ → Block) : Finset ℕ :=
  (Finset.range sb.size).filter fun b => bitAt sb c b = false

lemma mem_freeBlocks : b ∈ freeBlocks sb c ↔ b < sb.size ∧ bitAt sb c b = false := by
  simp [freeBlocks]

lemma freeBlocks_congr (h : ∀ b, b < sb.size → bitAt sb c' b = bitAt sb c b) :
    freeBlocks sb c' = freeBlocks sb c := by
  ext b
  rw [mem_freeBlocks, mem_freeBlocks]
  refine and_congr_right fun hb => ?_
  rw [h b hb]

theorem freeBlocks_update {x : ℕ} (hx : ∀ b, b < sb.size → sb.bblock b ≠ x) :
    freeBlocks sb (update c x d) = freeBlocks sb c :=
  freeBlocks_congr fun b hb => bitAt_update (hx b hb)

lemma freeBlocks_setBit :
    freeBlocks sb (update c (sb.bblock b) ((c (sb.bblock b)).setBit (b % bpb))) =
      (freeBlocks sb c).erase b := by
  ext x
  rw [Finset.mem_erase, mem_freeBlocks, mem_freeBlocks, bitAt_setBit]
  by_cases hx : x = b
  · simp [hx]
  · simp [hx]

/-- What an allocation has done: block `r` is new, zeroed and held by no place. -/
structure Allocated (sb : Superblock) (ino : ℕ → Dinode) (c c' : ℕ → Block) (r : ℕ) : Prop where
  was : r ∈ freeBlocks sb c
  free : freeBlocks sb c' = (freeBlocks sb c).erase r
  fresh : r ∉ used sb c
  mono : used sb c ⊆ used sb c'
  zero : c' r = fun _ => 0
  other : ∀ b, b ≠ r → ¬ sb.Bitmap b → c' b = c b
  holds : holds sb ino c' = holds sb ino c

lemma bblock_add (sb : Superblock) {r : ℕ} (hb : b % bpb = 0) (hr : r < bpb) :
    sb.bblock (b + r) = sb.bblock b ∧ (b + r) % bpb = r := by
  have hmod : (b + r) % bpb = r := by
    rw [Nat.add_mod, hb, Nat.zero_add, Nat.mod_mod, Nat.mod_eq_of_lt hr]
  have hdiv : (b + r) / bpb = b / bpb := by
    obtain ⟨q, rfl⟩ := Nat.dvd_of_mod_eq_zero hb
    rw [Nat.mul_add_div (by decide), Nat.div_eq_of_lt hr, Nat.mul_div_cancel_left _ (by decide)]
    rfl
  refine ⟨?_, hmod⟩
  unfold Superblock.bblock
  rw [hdiv]

lemma bitAt_of_mem {x : ℕ} (hb : b % bpb = 0) (h1 : b ≤ x) (h2 : x - b < bpb) :
    bitAt sb c x = (c (sb.bblock b)).bit (x - b) := by
  obtain ⟨hblk, hmod⟩ := bblock_add sb hb h2
  rw [Nat.add_sub_of_le h1] at hblk hmod
  unfold bitAt
  rw [hblk, hmod]

section run
variable {E : Stop → Kernel → Prop} {r : ℕ}

lemma bzero_run (h : Cached c loose held k) (hr : r ∉ held)
    (hE : (∀ e k, Spent e k → E e k) ∨ held = ∅ ∧ k.log.Room 1) :
    wp (bzero rootDev r) (fun _ k' => k.log.logWrite r = .ok k'.log ∧
      Cached (update c r fun _ => 0) (loose \ {r}) held k') E k := by
  refine wp_seq (h.bread hr (hE.imp_right ?_)) ?_
  · rintro ⟨rfl, hroom, -⟩
    exact Nat.lt_of_succ_le hroom
  rintro _ k1 ⟨hlog, e, -, h1⟩
  rw [← hlog] at hE ⊢
  refine wp_post (h1.putLogged hr (hE.imp_right And.right)) ?_
  rintro _ k2 ⟨hw, h2⟩
  rw [update_idem] at h2
  exact ⟨hw, h2⟩

section
variable (sb : Superblock) (c : ℕ → Block)

def marked (r : ℕ) : ℕ → Block :=
  update c (sb.bblock r) ((c (sb.bblock r)).setBit (r % bpb))

/-- `balloc` returns 0 if every block is in use, or else the least free block, which it has
marked and zeroed. -/
def BallocRun (loose : Set ℕ) (held : Finset ℕ) (log : Log) (r : ℕ) (k' : Kernel) : Prop :=
  (r = 0 ∧ freeBlocks sb c = ∅) ∧ k'.log = log ∧ Cached c loose held k' ∨
    IsLeast (freeBlocks sb c : Set ℕ) r ∧
      (∃ log1, log.logWrite (sb.bblock r) = .ok log1 ∧ log1.logWrite r = .ok k'.log) ∧
      Cached (update (marked sb c r) r fun _ => 0) (loose \ {r}) held k'

def cleared (r : ℕ) : ℕ → Block :=
  update c (sb.bblock r) ((c (sb.bblock r)).clearBit (r % bpb))

end

theorem bfree_run (h : Cached c loose held k) (hh : sb.bblock r ∉ held) (hl : sb.bblock r ∉ loose)
    (hbit : bitAt sb c r = true)
    (hE : (∀ e k, Spent e k → E e k) ∨ held = ∅ ∧ k.log.Room 1) :
    wp (bfree sb rootDev r) (fun _ k' => Cached (cleared sb c r) loose held k') E k := by
  refine wp_seq (h.bread_sure hh hl (hE.imp_right ?_)) ?_
  · rintro ⟨rfl, hroom, -⟩
    exact Nat.lt_of_succ_le hroom
  rintro _ k1 ⟨hlog, h1⟩
  rw [← hlog] at hE
  refine wp_bind (h1.bdata (Finset.mem_insert_self _ _) ?_)
  unfold bitAt at hbit
  rw [if_pos hbit]
  refine wp_post (h1.putLogged hh (hE.imp_right And.right)) ?_
  rintro _ k2 ⟨-, h2⟩
  rwa [Set.sdiff_singleton_eq_self hl] at h2

variable (hmap : ∀ b < sb.size, sb.bblock b ∉ held ∧ sb.bblock b ∉ loose)
  (hheld : ∀ r ∈ freeBlocks sb c, r ∉ held)
include hmap hheld

section
variable (h : Cached c loose held k) (hE : (∀ e k, Spent e k → E e k) ∨ held = ∅ ∧ k.log.Room 2)
include h hE

lemma ballocFrom_run (hb : b % bpb = 0) (hlast : n ≠ 0 → b + (n - 1) * bpb < sb.size)
    (hdone : ∀ x, x < b → x < sb.size → bitAt sb c x = true) (hend : sb.size ≤ b + n * bpb) :
    wp (ballocFrom sb rootDev n b) (BallocRun sb c loose held k.log) E k := by
  induction n generalizing b k with
  | zero =>
    refine wp_pure (.inl ⟨⟨rfl, ?_⟩, rfl, h⟩)
    refine Finset.eq_empty_of_forall_notMem fun x hx => ?_
    obtain ⟨hxs, hbit⟩ := mem_freeBlocks.mp hx
    rw [hdone x (by omega) hxs] at hbit
    cases hbit
  | succ n ih =>
    have hlast' := hlast (by omega)
    rw [Nat.add_sub_cancel] at hlast'
    obtain ⟨hnh, hnl⟩ := hmap b (by omega)
    refine wp_seq (h.bread_sure hnh hnl (hE.imp_right ?_)) ?_
    · rintro ⟨rfl, hroom, -⟩
      exact Nat.lt_of_succ_le (Nat.le_of_succ_le hroom)
    rintro _ k1 ⟨hlog, h1⟩
    rw [← hlog] at hE ⊢
    refine wp_bind (h1.bdata (Finset.mem_insert_self _ _) ?_)
    cases hf : findFree sb (c (sb.bblock b)) b bpb 0 with
    | none =>
      refine wp_seq (h1.release hnh) ?_
      rintro _ k2 ⟨hlog2, h2⟩
      rw [← hlog2] at hE ⊢
      refine ih h2 hE ?_ ?_ ?_ ?_
      · rw [Nat.add_mod_right, hb]
      · intro hn0
        have hmul : (n - 1) * bpb + bpb = n * bpb := by
          obtain ⟨m, rfl⟩ := Nat.exists_eq_succ_of_ne_zero hn0
          simp [Nat.succ_mul]
        omega
      · intro x hx hxs
        by_cases hlt : x < b
        · exact hdone x hlt hxs
        · rw [bitAt_of_mem hb (by omega : b ≤ x) (by omega)]
          exact findFree_none hf (Nat.zero_le _) (by omega) (by omega)
      · rw [Nat.succ_mul] at hend
        omega
    | some r =>
      obtain ⟨hr, hsize, hbit, hmin⟩ := findFree_spec hf
      obtain ⟨hblk, hmod⟩ := bblock_add sb hb hr
      have hfree : b + r ∈ freeBlocks sb c := by
        rw [mem_freeBlocks]
        refine ⟨hsize, ?_⟩
        unfold bitAt
        rw [hblk, hmod]
        exact hbit
      have hleast : IsLeast (freeBlocks sb c : Set ℕ) (b + r) := by
        refine ⟨hfree, fun x hx => ?_⟩
        obtain ⟨hxs, hxf⟩ := mem_freeBlocks.mp hx
        by_contra hlt
        by_cases hxb : x < b
        · rw [hdone x hxb hxs] at hxf
          cases hxf
        · rw [bitAt_of_mem hb (by omega : b ≤ x) (by omega), hmin _ (by omega) (by omega)] at hxf
          cases hxf
      have hput := wp_seq (h1.putLogged (d := (c (sb.bblock b)).setBit r) hnh
        (hE.imp_right fun hr => ⟨by have := hr.2.1; omega, by have := hr.2.2.1; omega, hr.2.2.2⟩))
        (f := fun _ => do bzero rootDev (b + r); return b + r)
        (R := BallocRun sb c loose held k1.log) ?_
      · simpa only [bind_assoc] using hput
      rintro _ k2 ⟨hw, h2⟩
      rw [Set.sdiff_singleton_eq_self hnl] at h2
      refine wp_seq (bzero_run h2 (hheld _ hfree) (hE.imp_right fun hr =>
        ⟨hr.1, hr.2.logWrite hw⟩)) ?_
      rintro _ k3 ⟨hw3, h3⟩
      refine wp_pure (.inr ⟨hleast, ⟨k2.log, by rw [hblk]; exact hw, hw3⟩, ?_⟩)
      unfold marked
      rw [hblk, hmod]
      exact h3

theorem balloc_run : wp (balloc sb rootDev) (BallocRun sb c loose held k.log) E k := by
  have hb : 0 < bpb := by decide
  refine ballocFrom_run hmap hheld h hE (Nat.zero_mod _) ?_
    (fun x hx => absurd hx (Nat.not_lt_zero x)) ?_
  · intro h0
    have hdiv := Nat.div_mul_le_self (sb.size + bpb - 1) bpb
    obtain ⟨m, hm⟩ := Nat.exists_eq_succ_of_ne_zero h0
    rw [hm, Nat.succ_mul] at hdiv
    rw [hm, Nat.succ_sub_one]
    omega
  · have hlt := Nat.lt_div_mul_add (a := sb.size + bpb - 1) hb
    omega

end

end run

lemma Disk.bitmap_free (h : Disk sb ino X c loose held k) (hb : b < sb.size) :
    sb.bblock b ∉ held ∧ sb.bblock b ∉ loose := by
  have hlt := h.laid.bitmap b hb
  constructor
  · intro hm
    have hd := (h.held _ hm).1.1
    omega
  · intro hm
    have hd := (h.loose _ hm).1.1
    omega

lemma used_subset_setBit : used sb c ⊆
    used sb (update c (sb.bblock b) ((c (sb.bblock b)).setBit (b % bpb))) := by
  rintro x ⟨hd, hx⟩
  refine ⟨hd, ?_⟩
  rw [bitAt_setBit]
  split_ifs
  · rfl
  · exact hx

/-- `balloc` returns 0, since there is no free block, and has done nothing, or a new block. -/
def BallocResult (sb : Superblock) (ino : ℕ → Dinode) (X : Set ℕ) (c : ℕ → Block) (loose : Set ℕ)
    (held : Finset ℕ) (r : ℕ) (k' : Kernel) : Prop :=
  r = 0 ∧ freeBlocks sb c = ∅ ∧ Disk sb ino X c loose held k' ∨
    r ≠ 0 ∧ ∃ c', Allocated sb ino c c' r ∧ Disk sb ino (insert r X) c' (loose \ {r}) held k'

theorem balloc_spec (hn : 0 < sb.ninodes) (h : Disk sb ino X c loose held k) :
    wp (balloc sb rootDev) (BallocResult sb ino X c loose held) Spent k := by
  have hl := h.laid
  have hnot : ∀ r ∈ freeBlocks sb c, r ∉ used sb c := by
    rintro r hr ⟨_, hu⟩
    rw [(mem_freeBlocks.mp hr).2] at hu
    cases hu
  refine wp_post (balloc_run (fun b hb => h.bitmap_free hb) (fun r hr hm => hnot r hr (h.held r hm))
    h.store.cached (.inl fun _ _ he => he)) ?_
  rintro r k' (⟨⟨rfl, hfull⟩, hlog, h'⟩ | ⟨⟨hr, -⟩, ⟨log1, hw1, hw2⟩, h'⟩)
  · exact .inl ⟨rfl, hfull, hl, h.store.of_cached hlog h', h.blocks, h.loose, h.held⟩
  have hfresh := hnot r hr
  obtain ⟨hsize, hfree⟩ := mem_freeBlocks.mp hr
  have hdata : sb.Data r := by
    refine ⟨?_, hsize⟩
    by_contra hlt
    rw [h.blocks.reserved r (by omega) hsize] at hfree
    cases hfree
  have hmap : ∀ b, b < sb.size → sb.bblock b < r := fun b hb =>
    lt_of_lt_of_le (hl.bitmap b hb) hdata.1
  have hstart : sb.inodestart ≤ sb.bblock r := hl.inodestart_le hn
  have hsz := hl.size
  have hrmap := hmap r hsize
  have hlogs := (h.store.logs.logWrite (hl.home hstart) (by omega) hw1).logWrite
    (hl.home (hstart.trans hrmap.le)) (by omega) hw2
  have hset := h.blocks.setBit hl hdata hfree
  have hm1 : holds sb ino (marked sb c r) = holds sb ino c :=
    holds_update (h.blocks.not_indirect (hl.bitmap r hsize))
  have hind : ∀ i, holds sb ino (marked sb c r) (i, ndirect) ≠ some r := by
    intro i hi
    rw [hm1] at hi
    exact hfresh (h.blocks.mem_used hi)
  have hm2 : holds sb ino (update (marked sb c r) r fun _ => 0) = holds sb ino c :=
    (holds_update hind).trans hm1
  have hne : ∀ b, b < sb.size → sb.bblock b ≠ r := fun b hb => (hmap b hb).ne
  have hmono : used sb c ⊆ used sb (update (marked sb c r) r fun _ => 0) := by
    rw [used_update hne]
    exact used_subset_setBit
  refine .inr ⟨by omega, _, ⟨hr, ?_, hfresh, hmono, update_self _ _ _, ?_, hm2⟩, hl,
    h'.store hlogs, hset.update hind hne, ?_, fun b hb => hmono (h.held b hb)⟩
  · rw [freeBlocks_update hne]
    exact freeBlocks_setBit
  · intro b hb hnb
    rw [update_of_ne hb]
    refine update_of_ne ?_ _ _
    rintro rfl
    exact hnb ⟨r, hsize, rfl⟩
  · intro b hb
    rw [hm2]
    exact h.loose b hb.1

end Xv6
