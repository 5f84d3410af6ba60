import Xv6.BallocSpec

/-! `balloc` finds the least free block, on a disk of any size. -/
namespace Xv6

open Program Function

variable {sb : Superblock} {c c' : ℕ → Block} {k : Kernel} {r : ℕ}

/-- What `balloc` should do when it returns `r` and leaves `c'`: take the least free block, or
nothing when there is none. -/
def Allocates (sb : Superblock) (c : ℕ → Block) (r : ℕ) (c' : ℕ → Block) : Prop :=
  (freeBlocks sb c = ∅ → r = 0 ∧ c' = c) ∧
    ((freeBlocks sb c).Nonempty → r ≠ 0 ∧ IsLeast (freeBlocks sb c : Set ℕ) r ∧
      bitAt sb c' r = true ∧ c' r = (fun _ => 0) ∧
      (∀ x, sb.Bitmap (sb.bblock x) → x ≠ r → bitAt sb c' x = bitAt sb c x) ∧
      ∀ b, b ≠ r → ¬ sb.Bitmap b → c' b = c b)

lemma Cached.unique (h : Cached c ∅ ∅ k) (h' : Cached c' ∅ ∅ k) : c' = c := by
  funext b
  rw [← h.agree b (.inl (Set.notMem_empty b)), h'.agree b (.inl (Set.notMem_empty b))]

lemma balloc_returns (sb : Superblock) (h : Cached c ∅ ∅ k) (hroom : k.log.Room 2) :
    ∃ r k', (balloc sb rootDev).run k = (.ok r, k') ∧ BallocRun sb c ∅ ∅ k.log r k' :=
  exists_run_of_wp (balloc_run (fun _ _ => ⟨Finset.notMem_empty _, Set.notMem_empty _⟩)
    (fun r _ => Finset.notMem_empty r) h (.inr ⟨rfl, hroom⟩))

lemma bitAt_zeroed {x : ℕ} (hr : ¬ sb.Bitmap r) (hx : sb.Bitmap (sb.bblock x)) :
    bitAt sb (update (marked sb c r) r fun _ => 0) x = if x = r then true else bitAt sb c x := by
  have hne : sb.bblock x ≠ r := by
    rintro rfl
    exact hr hx
  rw [bitAt_update hne]
  exact bitAt_setBit x

lemma allocates_of_least (h0 : bitAt sb c 0 = true) (hleast : IsLeast (freeBlocks sb c : Set ℕ) r)
    (hr : ¬ sb.Bitmap r) : Allocates sb c r (update (marked sb c r) r fun _ => 0) := by
  obtain ⟨hsize, hfree⟩ := mem_freeBlocks.mp hleast.1
  have hown : sb.Bitmap (sb.bblock r) := ⟨r, hsize, rfl⟩
  refine ⟨fun he => ?_, fun _ => ⟨?_, hleast, ?_, update_self _ _ _, ?_, ?_⟩⟩
  · have hmem := hleast.1
    simp [he] at hmem
  · rintro rfl
    rw [h0] at hfree
    cases hfree
  · rw [bitAt_zeroed hr hown, if_pos rfl]
  · intro x hx hne
    rw [bitAt_zeroed hr hx, if_neg hne]
  · intro b hb hmap
    rw [update_of_ne hb]
    refine update_of_ne ?_ _ _
    rintro rfl
    exact hmap hown

lemma outer_lt (hsize : sb.size < 2 ^ 31 - bpb) : (sb.size + bpb - 1) / bpb * bpb < 2 ^ 31 := by
  have hle := Nat.div_mul_le_self (sb.size + bpb - 1) bpb
  omega

/-- On a disk of any number of bitmap blocks, in a transaction with room for three blocks, and
unless the least free block is a block of the bitmap itself: `balloc` does what it should, no
`int` overflows on the way, and `bfree` undoes it. -/
theorem balloc_least_free (hsize : sb.size < 2 ^ 31 - bpb) (h : Cached c ∅ ∅ k)
    (hroom : k.log.Room 3) (h0 : bitAt sb c 0 = true)
    (hmap : ∀ r, IsLeast (freeBlocks sb c : Set ℕ) r → ¬ sb.Bitmap r) :
    (sb.size + bpb - 1) / bpb * bpb < 2 ^ 31 ∧
    ∃ r k' c', (balloc sb rootDev).run k = (.ok r, k') ∧ Cached c' ∅ ∅ k' ∧ Allocates sb c r c' ∧
      (r ≠ 0 → ∃ k'' c'', (bfree sb rootDev r).run k' = (.ok ⟨⟩, k'') ∧ Cached c'' ∅ ∅ k'' ∧
        ∀ x, sb.Bitmap (sb.bblock x) → bitAt sb c'' x = bitAt sb c x) := by
  refine ⟨outer_lt hsize, ?_⟩
  obtain ⟨hn, hs, ho⟩ := hroom
  obtain ⟨r, k', hrun, hres⟩ := balloc_returns sb h ⟨by omega, by omega, ho⟩
  rcases hres with ⟨⟨rfl, hfull⟩, -, h'⟩ | ⟨hleast, ⟨log1, hw1, hw2⟩, h'⟩
  · refine ⟨0, k', c, hrun, h', ⟨fun _ => ⟨rfl, rfl⟩, fun hne => ?_⟩, fun hne => absurd rfl hne⟩
    rw [hfull] at hne
    exact absurd hne Finset.not_nonempty_empty
  rw [Set.empty_sdiff] at h'
  have hr := hmap r hleast
  have hall := allocates_of_least h0 hleast hr
  refine ⟨r, k', _, hrun, h', hall, fun _ => ?_⟩
  have hbit := (hall.2 ⟨r, hleast.1⟩).2.2.1
  have hroom1 : k'.log.Room 1 :=
    Log.Room.logWrite (Log.Room.logWrite (m := 2) ⟨hn, hs, ho⟩ hw1) hw2
  obtain ⟨_, k'', hfree, h''⟩ := exists_run_of_wp (bfree_run h' (Finset.notMem_empty _)
    (Set.notMem_empty _) hbit (.inr ⟨rfl, hroom1⟩))
  refine ⟨k'', _, hfree, h'', fun x hx => ?_⟩
  unfold cleared
  rw [bitAt_clearBit, bitAt_zeroed hr hx]
  by_cases hxr : x = r
  · rw [if_pos hxr, hxr, (mem_freeBlocks.mp hleast.1).2]
  · rw [if_neg hxr, if_neg hxr]

/-- A disk of four blocks whose bitmap, in block 1, has the byte `x`; one transaction is open. -/
def smallDisk (x : Byte) : ℕ → Block := fun b i => if b = 1 ∧ i.val = 0 then x else 0

def smallSuper : Superblock := ⟨4, 2, 1, 10, 100, 0, 1⟩

def smallKernel (x : Byte) : Kernel :=
  { reboot rootDev 100 10 (smallDisk x) with log := ⟨100, 10, 1, false, rootDev, []⟩ }

lemma smallKernel_cached (x : Byte) : Cached (smallDisk x) ∅ ∅ (smallKernel x) := by
  have hq : Quiet rootDev [] (reboot rootDev 100 10 (smallDisk x)) := reboot_quiet (by decide) _
  have hc : ∀ b, (reboot rootDev 100 10 (smallDisk x)).content rootDev b = smallDisk x b :=
    reboot_content (by decide) _
  refine ⟨rfl, ?_, fun b _ => hc b, fun _ _ _ => rfl⟩
  exact ⟨hq.cache, hq.found, hq.absent, hq.valid, hq.held⟩

lemma smallSuper_bitmap {b : ℕ} : smallSuper.Bitmap b ↔ b = 1 := by
  constructor
  · rintro ⟨x, hx, rfl⟩
    have hx4 : x < 4 := hx
    unfold Superblock.bblock
    rw [Nat.div_eq_of_lt (hx4.trans (by decide))]
    rfl
  · rintro rfl
    exact ⟨0, by decide, rfl⟩

theorem balloc_least_free_small :
    bitAt smallSuper (smallDisk 3) 0 = true ∧ ∃ r k', (balloc smallSuper rootDev).run
      (smallKernel 3) = (.ok r, k') ∧ IsLeast (freeBlocks smallSuper (smallDisk 3) : Set ℕ) r := by
  have h0 : bitAt smallSuper (smallDisk 3) 0 = true := by decide
  obtain ⟨-, r, k', c', hrun, -, hall, -⟩ := @balloc_least_free smallSuper _ _ (by decide)
    (smallKernel_cached 3) (by simp [Log.Room, smallKernel, Log.n]; decide) h0 (by
      intro r hr hmap
      rw [smallSuper_bitmap.mp hmap] at hr
      exact absurd (mem_freeBlocks.mp hr.1).2 (by decide))
  exact ⟨h0, r, k', hrun, (hall.2 ⟨2, mem_freeBlocks.mpr (by decide)⟩).2.1⟩

/-- When the bitmap says that its own block is free, `balloc` takes that block and zeroes it. -/
theorem balloc_takes_bitmap : ∃ (sb : Superblock) (c : ℕ → Block) (k : Kernel),
    sb.size < 2 ^ 31 - bpb ∧ Cached c ∅ ∅ k ∧ k.log.Room 3 ∧ bitAt sb c 0 = true ∧
      (freeBlocks sb c).Nonempty ∧ ∃ k' c', (balloc sb rootDev).run k = (.ok 1, k') ∧
        Cached c' ∅ ∅ k' ∧ bitAt sb c' 1 = false ∧ bitAt sb c' 0 = false ∧
        ¬ Allocates sb c 1 c' := by
  have hroom : (smallKernel 1).log.Room 3 := by simp [Log.Room, smallKernel, Log.n]; decide
  have hone : 1 ∈ freeBlocks smallSuper (smallDisk 1) := mem_freeBlocks.mpr (by decide)
  obtain ⟨r, k', hrun, hres⟩ := balloc_returns smallSuper (smallKernel_cached 1)
    ⟨by simp [smallKernel, Log.n]; decide, by simp [smallKernel, Log.n], by decide⟩
  rcases hres with ⟨⟨-, hfull⟩, -⟩ | ⟨hleast, -, h'⟩
  · rw [hfull] at hone
    exact absurd hone (Finset.notMem_empty 1)
  · have hle : r ≤ 1 := hleast.2 hone
    have hr : r = 1 := by
      have hne : r ≠ 0 := by
        rintro rfl
        exact absurd (mem_freeBlocks.mp hleast.1).2 (by decide)
      omega
    subst hr
    rw [Set.empty_sdiff] at h'
    have hzero : ∀ x < 4, bitAt smallSuper
        (update (marked smallSuper (smallDisk 1) 1) 1 fun _ => 0) x = false := by
      intro x hx
      unfold bitAt Superblock.bblock
      rw [Nat.div_eq_of_lt (hx.trans (by decide)), Nat.zero_add]
      simp [smallSuper, Block.bit, Block.byte]
    refine ⟨smallSuper, _, _, by decide, smallKernel_cached 1, hroom, by decide, ⟨1, hone⟩, k', _,
      hrun, h', hzero 1 (by decide), hzero 0 (by decide), fun hall => ?_⟩
    have hbit := (hall.2 ⟨1, hone⟩).2.2.1
    rw [hzero 1 (by decide)] at hbit
    cases hbit

end Xv6
