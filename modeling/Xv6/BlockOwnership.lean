import Xv6.BlockStore
import Xv6.Ownership

/-! Which inode or indirect block holds which data block, and the bitmap, as functions of the
contents `c` of the disk. `ino` gives the inodes, which may be ahead of their copies in `c`. -/
namespace Xv6

open Ownership Function

/-- The block addresses of an inode: `addrs[]`, then the words of its indirect block. -/
def nptr : ℕ := ndirect + 1 + nindirect

namespace Superblock

def datastart (sb : Superblock) : ℕ := sb.size - sb.nblocks

def Data (sb : Superblock) (b : ℕ) : Prop := sb.datastart ≤ b ∧ b < sb.size

/-- The areas follow each other as in `fs.h`, and all numbers fit their fields. -/
structure Laid (sb : Superblock) : Prop where
  log : sb.logstart + sb.nlog ≤ sb.inodestart
  inodes : ∀ i, i < sb.ninodes → sb.iblock i < sb.bmapstart
  bitmap : ∀ b, b < sb.size → sb.bblock b < sb.datastart
  size : sb.size < 2 ^ 31
  ninodes : sb.ninodes ≤ 2 ^ 16

end Superblock

def dinodeAt (sb : Superblock) (c : ℕ → Block) (i : ℕ) : Dinode := (c (sb.iblock i)).getDinode i

def bitAt (sb : Superblock) (c : ℕ → Block) (b : ℕ) : Bool := (c (sb.bblock b)).bit (b % bpb)

/-- The block address at place `j`; there is none in a missing indirect block. -/
def Dinode.ptr (x : Dinode) (c : ℕ → Block) (j : ℕ) : ℕ :=
  if h : j < ndirect + 1 then x.addrs ⟨j, h⟩
  else if x.addrs (Fin.last ndirect) = 0 then 0
  else (c (x.addrs (Fin.last ndirect))).word (j - (ndirect + 1))

def nonzero (v : ℕ) : Option ℕ := if v = 0 then none else some v

/-- The block that place `j` of an inode holds; only allocated inodes hold blocks. -/
def Dinode.place (x : Dinode) (c : ℕ → Block) (j : ℕ) : Option ℕ :=
  if x.type ≠ 0 ∧ j < nptr then nonzero (x.ptr c j) else none

def holds (sb : Superblock) (ino : ℕ → Dinode) (c : ℕ → Block) (p : ℕ × ℕ) : Option ℕ :=
  if p.1 < sb.ninodes then (ino p.1).place c p.2 else none

def used (sb : Superblock) (c : ℕ → Block) : Set ℕ := {b | sb.Data b ∧ bitAt sb c b = true}

/-- Every used data block is held by one place, but for those of `X`, which are held by none;
the blocks before the data area are marked too. -/
structure Blocks (sb : Superblock) (ino : ℕ → Dinode) (c : ℕ → Block) (X : Set ℕ) : Prop where
  owns : Owns (holds sb ino c) (used sb c) X
  reserved : ∀ b, b < sb.datastart → b < sb.size → bitAt sb c b = true

variable {sb : Superblock} {ino ino' : ℕ → Dinode} {c c' : ℕ → Block} {X : Set ℕ}
  {b i j x : ℕ} {p : ℕ × ℕ} {d : Block}

@[simp]
theorem nonzero_eq_some {v : ℕ} : nonzero v = some b ↔ v = b ∧ b ≠ 0 := by
  unfold nonzero
  split_ifs with h
  · simp only [false_iff, not_and, not_not]
    rintro rfl
    exact h
  · rw [Option.some.injEq]
    constructor
    · rintro rfl
      exact ⟨rfl, h⟩
    · exact And.left

variable {y : Dinode}

theorem place_eq_some :
    y.place c j = some b ↔ y.type ≠ 0 ∧ j < nptr ∧ y.ptr c j = b ∧ b ≠ 0 := by
  unfold Dinode.place
  split_ifs with h
  · rw [nonzero_eq_some]
    exact ⟨fun hb => ⟨h.1, h.2, hb⟩, fun hb => hb.2.2⟩
  · simp only [false_iff, not_and]
    intro h1 h2
    exact absurd ⟨h1, h2⟩ h

theorem holds_eq_some : holds sb ino c p = some b ↔
    p.1 < sb.ninodes ∧ (ino p.1).place c p.2 = some b := by
  unfold holds
  split_ifs with h
  · exact ⟨fun hb => ⟨h, hb⟩, And.right⟩
  · simp [h]

theorem ptr_indirect (x : Dinode) (c : ℕ → Block) :
    x.ptr c ndirect = x.addrs (Fin.last ndirect) := by
  rfl

theorem ptr_addrs (x : Dinode) (c : ℕ → Block) (j : Fin (ndirect + 1)) :
    x.ptr c j = x.addrs j := by
  unfold Dinode.ptr
  rw [dif_pos j.isLt]

theorem ptr_word (ha : y.addrs (Fin.last ndirect) ≠ 0) (c : ℕ → Block) (w : ℕ) :
    y.ptr c (ndirect + 1 + w) = (c (y.addrs (Fin.last ndirect))).word w := by
  have hge : ¬ ndirect + 1 + w < ndirect + 1 := by omega
  unfold Dinode.ptr
  rw [dif_neg hge, if_neg ha, Nat.add_sub_cancel_left]

theorem ptr_of_no_indirect (ha : y.addrs (Fin.last ndirect) = 0) (c : ℕ → Block)
    (w : ℕ) : y.ptr c (ndirect + 1 + w) = 0 := by
  have hge : ¬ ndirect + 1 + w < ndirect + 1 := by omega
  unfold Dinode.ptr
  rw [dif_neg hge, if_pos ha]

theorem place_indirect (ht : y.type ≠ 0) (ha : y.addrs (Fin.last ndirect) ≠ 0) :
    y.place c ndirect = some (y.addrs (Fin.last ndirect)) :=
  place_eq_some.mpr ⟨ht, by decide, ptr_indirect _ _, ha⟩

section
variable (h : Blocks sb ino c X) (hp : holds sb ino c p = some b)
include h hp

theorem Blocks.mem_used :
    b ∈ used sb c := h.owns.held hp

theorem Blocks.data : sb.Data b :=
  (h.mem_used hp).1

end

theorem ptr_congr (hc : y.addrs (Fin.last ndirect) ≠ 0 →
    c' (y.addrs (Fin.last ndirect)) = c (y.addrs (Fin.last ndirect))) (j : ℕ) :
    y.ptr c' j = y.ptr c j := by
  unfold Dinode.ptr
  split_ifs with h1 h2
  · rfl
  · rfl
  · rw [hc h2]

lemma place_update (hx : y.place c ndirect ≠ some x) (j : ℕ) :
    y.place (Function.update c x d) j = y.place c j := by
  unfold Dinode.place
  split_ifs with h
  · rw [ptr_congr]
    intro ha
    rw [update_of_ne]
    rintro rfl
    exact hx (place_indirect h.1 ha)
  · rfl

theorem holds_update (hx : ∀ i, holds sb ino c (i, ndirect) ≠ some x) :
    holds sb ino (Function.update c x d) = holds sb ino c := by
  funext p
  have hp := hx p.1
  unfold holds at hp ⊢
  split_ifs with h
  · rw [if_pos h] at hp
    exact place_update hp p.2
  · rfl

theorem bitAt_update (hx : sb.bblock b ≠ x) :
    bitAt sb (Function.update c x d) b = bitAt sb c b := by
  unfold bitAt
  rw [update_of_ne hx]

theorem used_update (hx : ∀ b, b < sb.size → sb.bblock b ≠ x) :
    used sb (Function.update c x d) = used sb c := by
  ext b
  constructor
  · rintro ⟨hd, hb⟩
    exact ⟨hd, by rwa [bitAt_update (hx b hd.2)] at hb⟩
  · rintro ⟨hd, hb⟩
    exact ⟨hd, by rwa [bitAt_update (hx b hd.2)]⟩

theorem Blocks.update (h : Blocks sb ino c X) (hi : ∀ i, holds sb ino c (i, ndirect) ≠ some x)
    (hb : ∀ b, b < sb.size → sb.bblock b ≠ x) : Blocks sb ino (Function.update c x d) X := by
  refine ⟨?_, ?_⟩
  · rw [holds_update hi, used_update hb]
    exact h.owns
  · intro b hlt hs
    rw [bitAt_update (hb b hs)]
    exact h.reserved b hlt hs

lemma bblock_inj {b' : ℕ} (h : sb.bblock b' = sb.bblock b) (hm : b' % bpb = b % bpb) :
    b' = b := by
  unfold Superblock.bblock at h
  have hq : b' / bpb = b / bpb := by omega
  rw [← Nat.div_add_mod b' bpb, hq, hm, Nat.div_add_mod]

lemma bitAt_change {v : Bool}
    (hd : ∀ bi, d.bit bi = if bi = b % bpb then v else (c (sb.bblock b)).bit bi) (b' : ℕ) :
    bitAt sb (Function.update c (sb.bblock b) d) b' = if b' = b then v else bitAt sb c b' := by
  unfold bitAt
  by_cases hx : sb.bblock b' = sb.bblock b
  · rw [hx, update_self, hd]
    by_cases hb : b' = b
    · simp [hb]
    · rw [if_neg fun hm => hb (bblock_inj hx hm), if_neg hb]
  · have hb : b' ≠ b := by
      rintro rfl
      exact hx rfl
    rw [update_of_ne hx, if_neg hb]

theorem bitAt_setBit (b' : ℕ) :
    bitAt sb (Function.update c (sb.bblock b) ((c (sb.bblock b)).setBit (b % bpb))) b' =
      if b' = b then true else bitAt sb c b' :=
  bitAt_change (fun _ => Block.bit_setBit (Nat.mod_lt _ (by decide))) b'

theorem bitAt_clearBit (b' : ℕ) :
    bitAt sb (Function.update c (sb.bblock b) ((c (sb.bblock b)).clearBit (b % bpb))) b' =
      if b' = b then false else bitAt sb c b' :=
  bitAt_change (fun _ => Block.bit_clearBit (Nat.mod_lt _ (by decide))) b'

theorem Blocks.not_indirect (h : Blocks sb ino c X) (hb : x < sb.datastart) (i : ℕ) :
    holds sb ino c (i, ndirect) ≠ some x := by
  intro hp
  have hd := (h.data hp).1
  omega

theorem Blocks.setBit (hl : sb.Laid) (h : Blocks sb ino c X) (hb : sb.Data b)
    (hfree : bitAt sb c b = false) :
    Blocks sb ino (Function.update c (sb.bblock b) ((c (sb.bblock b)).setBit (b % bpb)))
      (insert b X) := by
  have hnot : b ∉ used sb c := by
    rintro ⟨_, hu⟩
    rw [hfree] at hu
    cases hu
  have hused : used sb (Function.update c (sb.bblock b) ((c (sb.bblock b)).setBit (b % bpb))) =
      insert b (used sb c) := by
    ext b'
    by_cases he : b' = b
    · simp [used, bitAt_setBit, he, hb]
    · simp [used, bitAt_setBit, he]
  refine ⟨?_, ?_⟩
  · rw [holds_update (h.not_indirect (hl.bitmap b hb.2)), hused]
    exact h.owns.acquire hnot
  · intro b' hlt hs
    rw [bitAt_setBit]
    split_ifs
    · rfl
    · exact h.reserved b' hlt hs

theorem holds_updateInode (hi : i < sb.ninodes) (p : ℕ × ℕ) :
    holds sb (Function.update ino i y) c p = if p.1 = i then y.place c p.2 else holds sb ino c p := by
  unfold holds
  by_cases hp : p.1 = i
  · simp [hp, hi]
  · simp [hp]

theorem Blocks.congr (h : Blocks sb ino c X) (hp : ∀ p, holds sb ino' c p = holds sb ino c p) :
    Blocks sb ino' c X := by
  refine ⟨?_, h.reserved⟩
  rw [funext hp]
  exact h.owns

theorem Blocks.setInode (h : Blocks sb ino c X) (hi : i < sb.ninodes)
    (hy : ∀ j, y.place c j = (ino i).place c j) : Blocks sb (Function.update ino i y) c X := by
  refine h.congr ?_
  intro p
  rw [holds_updateInode hi]
  split_ifs with hp
  · rw [hy, holds, if_pos (hp ▸ hi), hp]
  · rfl

variable {a : Fin (ndirect + 1)}

lemma place_setAddr (ht : y.type ≠ 0)
    (ha : y.addrs a = 0) (hb : b ≠ 0) (hz : a = Fin.last ndirect → c b = fun _ => 0) (j : ℕ) :
    Dinode.place { y with addrs := Function.update y.addrs a b } c j =
      if j = a then some b else y.place c j := by
  have hja : ∀ h : j < ndirect + 1, (⟨j, h⟩ : Fin (ndirect + 1)) = a ↔ j = a := by
    intro h
    rw [Fin.ext_iff]
  by_cases hj : j = a
  · rw [if_pos hj, place_eq_some]
    have hlt : j < ndirect + 1 := hj ▸ a.isLt
    refine ⟨ht, lt_of_lt_of_le hlt (Nat.le_add_right _ _), ?_, hb⟩
    unfold Dinode.ptr
    rw [dif_pos hlt, (hja hlt).mpr hj]
    exact update_self a b y.addrs
  · unfold Dinode.place
    split_ifs with h
    · refine congrArg nonzero ?_
      unfold Dinode.ptr
      split_ifs with h1 h2 h3 h3
      · exact update_of_ne (fun he => hj ((hja h1).mp he)) b y.addrs
      · rfl
      · by_cases hl : a = Fin.last ndirect
        · subst hl
          exact absurd h2 hb
        · simp only [update_of_ne (Ne.symm hl)] at h2
          exact absurd h2 h3
      · by_cases hl : a = Fin.last ndirect
        · subst hl
          simp only [update_self]
          rw [hz rfl, Block.word_zero]
        · simp only [update_of_ne (Ne.symm hl)] at h2
          exact absurd h3 h2
      · by_cases hl : a = Fin.last ndirect
        · subst hl
          exact absurd ha h3
        · simp only [update_of_ne (Ne.symm hl)]
    · rfl

theorem holds_setAddr (hi : i < sb.ninodes) (ht : (ino i).type ≠ 0)
    (ha : (ino i).addrs a = 0) (hb0 : b ≠ 0) (hz : a = Fin.last ndirect → c b = fun _ => 0) :
    holds sb ino c (i, a) = none ∧
      holds sb (Function.update ino i
        { ino i with addrs := Function.update (ino i).addrs a b }) c =
        Function.update (holds sb ino c) (i, ↑a) (some b) := by
  refine ⟨?_, ?_⟩
  · unfold holds Dinode.place
    rw [if_pos hi]
    split_ifs
    · rw [ptr_addrs, ha]
      rfl
    · rfl
  · funext p
    rw [holds_updateInode hi]
    by_cases hp : p.1 = i
    · rw [if_pos hp, place_setAddr ht ha hb0 hz]
      by_cases hj : p.2 = a
      · have he : p = (i, ↑a) := Prod.ext hp hj
        rw [if_pos hj, he, update_self]
      · have he : p ≠ (i, ↑a) := fun he => hj (by rw [he])
        rw [if_neg hj, update_of_ne he, holds, if_pos (hp ▸ hi), hp]
    · have he : p ≠ (i, ↑a) := fun he => hp (by rw [he])
      rw [if_neg hp, update_of_ne he]

theorem Blocks.setAddr (h : Blocks sb ino c X) (hi : i < sb.ninodes)
    (ht : (ino i).type ≠ 0) (ha : (ino i).addrs a = 0) (hb : b ∈ X) (hb0 : b ≠ 0)
    (hz : a = Fin.last ndirect → c b = fun _ => 0) :
    Blocks sb (Function.update ino i
      { ino i with addrs := Function.update (ino i).addrs a b }) c (X \ {b}) ∧
      holds sb ino c (i, a) = none ∧
      holds sb (Function.update ino i
        { ino i with addrs := Function.update (ino i).addrs a b }) c =
        Function.update (holds sb ino c) (i, ↑a) (some b) := by
  obtain ⟨hnone, hupd⟩ := holds_setAddr hi ht ha hb0 hz
  refine ⟨⟨?_, h.reserved⟩, hnone, hupd⟩
  rw [hupd]
  exact h.owns.store hb hnone

variable {w : ℕ}

lemma place_setWord (ht : y.type ≠ 0)
    (ha : y.addrs (Fin.last ndirect) = x) (hx : x ≠ 0) (hw : w < nindirect) (hb : b ≠ 0)
    (hb32 : b < 2 ^ 32) (j : ℕ) :
    y.place (Function.update c x ((c x).setWord w b)) j =
      if j = ndirect + 1 + w then some b else y.place c j := by
  have hn : nptr = ndirect + 1 + nindirect := rfl
  have hx' : y.addrs (Fin.last ndirect) ≠ 0 := by rw [ha]; exact hx
  by_cases hj : j = ndirect + 1 + w
  · rw [if_pos hj, place_eq_some, hj, ptr_word hx', ha, update_self,
      Block.word_setWord hw hb32, if_pos rfl]
    exact ⟨ht, by omega, rfl, hb⟩
  · unfold Dinode.place
    split_ifs with h
    · refine congrArg nonzero ?_
      by_cases hlt : j < ndirect + 1
      · unfold Dinode.ptr
        rw [dif_pos hlt, dif_pos hlt]
      · obtain ⟨v, rfl⟩ := Nat.exists_eq_add_of_le (Nat.le_of_not_lt hlt)
        have hvw : v ≠ w := fun he => hj (by rw [he])
        rw [ptr_word hx', ptr_word hx', ha, update_self, Block.word_setWord hw hb32,
          if_neg hvw]
    · rfl

lemma holds_indirect (hi : i < sb.ninodes) (ht : (ino i).type ≠ 0)
    (ha : (ino i).addrs (Fin.last ndirect) = x) (hx : x ≠ 0) :
    holds sb ino c (i, ndirect) = some x := by
  rw [holds_eq_some]
  refine ⟨hi, ?_⟩
  rw [← ha]
  exact place_indirect ht (by rw [ha]; exact hx)

/-- A new block in the indirect block is held there; no other inode has the same indirect
block. -/
theorem holds_setWord {U : Set ℕ} (h : Owns (holds sb ino c) U X) (hi : i < sb.ninodes)
    (ht : (ino i).type ≠ 0) (ha : (ino i).addrs (Fin.last ndirect) = x) (hx : x ≠ 0)
    (hw : w < nindirect) (hz : (c x).word w = 0) (hb32 : b < 2 ^ 32) (hb0 : b ≠ 0) :
    holds sb ino c (i, ndirect + 1 + w) = none ∧
      holds sb ino (Function.update c x ((c x).setWord w b)) =
        Function.update (holds sb ino c) (i, ndirect + 1 + w) (some b) := by
  have hind : holds sb ino c (i, ndirect) = some x := holds_indirect hi ht ha hx
  refine ⟨?_, ?_⟩
  · unfold holds Dinode.place
    rw [if_pos hi]
    split_ifs with hp
    · rw [ptr_word (by rw [ha]; exact hx), ha, hz]
      rfl
    · rfl
  · funext p
    by_cases hp : p.1 = i
    · have hlhs : holds sb ino (Function.update c x ((c x).setWord w b)) p =
          if p.2 = ndirect + 1 + w then some b else holds sb ino c p := by
        unfold holds
        rw [if_pos (hp ▸ hi), hp, place_setWord ht ha hx hw hb0 hb32, if_pos hi]
      rw [hlhs]
      by_cases hj : p.2 = ndirect + 1 + w
      · rw [if_pos hj, show p = (i, ndirect + 1 + w) from Prod.ext hp hj, update_self]
      · rw [if_neg hj, update_of_ne fun he => hj (by rw [he])]
    · rw [update_of_ne fun he => hp (by rw [he])]
      unfold holds
      split_ifs with hlt
      · refine place_update ?_ p.2
        intro hpl
        have he := h.inj (p.1, ndirect) (i, ndirect) x (holds_eq_some.mpr ⟨hlt, hpl⟩) hind
        exact hp (congrArg Prod.fst he)
      · rfl

theorem Blocks.setWord (hl : sb.Laid) (h : Blocks sb ino c X) (hi : i < sb.ninodes)
    (ht : (ino i).type ≠ 0) (ha : (ino i).addrs (Fin.last ndirect) = x) (hx : x ≠ 0)
    (hw : w < nindirect) (hz : (c x).word w = 0) (hb : b ∈ X) (hb0 : b ≠ 0) :
    Blocks sb ino (Function.update c x ((c x).setWord w b)) (X \ {b}) ∧
      holds sb ino c (i, ndirect + 1 + w) = none ∧
      holds sb ino (Function.update c x ((c x).setWord w b)) =
        Function.update (holds sb ino c) (i, ndirect + 1 + w) (some b) := by
  have hsize := hl.size
  have hb32 : b < 2 ^ 32 := lt_trans (h.owns.spare hb).1.2 (lt_trans hsize (by decide))
  have hdata := h.data (holds_indirect hi ht ha hx)
  obtain ⟨hnone, hupd⟩ := holds_setWord h.owns hi ht ha hx hw hz hb32 hb0
  refine ⟨⟨?_, ?_⟩, hnone, hupd⟩
  · rw [hupd, used_update]
    · exact h.owns.store hb hnone
    · intro b' hb'
      have hlt := hl.bitmap b' hb'
      have hd := hdata.1
      omega
  · intro b' hlt hs
    rw [bitAt_update]
    · exact h.reserved b' hlt hs
    · have hlt' := hl.bitmap b' hs
      have hd := hdata.1
      omega

theorem place_of_addrs_zero (hz : ∀ a, y.addrs a = 0) (j : ℕ) : y.place c j = none := by
  unfold Dinode.place
  split_ifs
  · unfold Dinode.ptr
    simp only [hz]
    split_ifs <;> rfl
  · rfl

theorem Blocks.updateInodeBlock (hl : sb.Laid) (h : Blocks sb ino c X) (hi : i < sb.ninodes)
    (hs : 0 < sb.size) : Blocks sb ino (Function.update c (sb.iblock i) d) X := by
  have hlt := hl.inodes i hi
  have hmap : ∀ b, b < sb.size → sb.iblock i < sb.bblock b := by
    intro b _
    exact lt_of_lt_of_le hlt (Nat.le_add_left _ _)
  refine h.update ?_ ?_
  · intro i'
    refine h.not_indirect ?_ i'
    exact lt_trans (hmap 0 hs) (hl.bitmap 0 hs)
  · intro b hb
    exact (hmap b hb).ne'

end Xv6
