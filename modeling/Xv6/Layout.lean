import Xv6.Block

/-! The on-disk format of `fs.h`: inodes, bitmap bits, block addresses and directory entries
inside blocks. -/
namespace Xv6

def rootIno : ℕ := 1

def fsmagic : ℕ := 0x10203040

def ndirect : ℕ := 12

lemma neZero_addrs : NeZero (ndirect + 1) := inferInstance

def nindirect : ℕ := bsize / 4

def maxFile : ℕ := ndirect + nindirect

def ipb : ℕ := bsize / 64

def bpb : ℕ := bsize * 8

def dirsiz : ℕ := 14

def direntSize : ℕ := 16

structure Superblock where
  size : ℕ
  nblocks : ℕ
  ninodes : ℕ
  nlog : ℕ
  logstart : ℕ
  inodestart : ℕ
  bmapstart : ℕ
  deriving DecidableEq, Repr

namespace Superblock

def iblock (sb : Superblock) (i : ℕ) : ℕ := i / ipb + sb.inodestart

def bblock (sb : Superblock) (b : ℕ) : ℕ := b / bpb + sb.bmapstart

end Superblock

abbrev Short := BitVec 16

def tDir : Short := 1

def tFile : Short := 2

/-- `struct dinode`, also the part of `struct inode` that is a copy of it. -/
structure Dinode where
  type : Short
  major : Short
  minor : Short
  nlink : Short
  size : ℕ
  addrs : Fin (ndirect + 1) → ℕ

namespace Dinode

def zero : Dinode := ⟨0, 0, 0, 0, 0, fun _ => 0⟩

end Dinode

/-- `struct dirent`; `name` is the whole array. -/
structure Dirent where
  inum : ℕ
  name : List Byte
  deriving DecidableEq

namespace Dirent

def zero : Dirent := ⟨0, List.replicate dirsiz 0⟩

end Dirent

namespace Block

def splice (d : Block) (off len : ℕ) (f : ℕ → Byte) : Block := fun i =>
  if off ≤ i.val ∧ i.val < off + len then f (i.val - off) else d i

def get16 (d : Block) (off : ℕ) : Short := d.byte (off + 1) ++ d.byte off

def byteOf {w : ℕ} (v : BitVec w) (k : ℕ) : Byte := v.extractLsb' (8 * k) 8

def dinodeByte (x : Dinode) (k : ℕ) : Byte :=
  if k < 2 then byteOf x.type k
  else if k < 4 then byteOf x.major (k - 2)
  else if k < 6 then byteOf x.minor (k - 4)
  else if k < 8 then byteOf x.nlink (k - 6)
  else if k < 12 then byteOf (BitVec.ofNat 32 x.size) (k - 8)
  else byteOf (BitVec.ofNat 32 (x.addrs (Fin.ofNat _ ((k - 12) / 4)))) ((k - 12) % 4)

section
variable (d : Block)

def getDinode (i : ℕ) : Dinode :=
  let o := 64 * (i % ipb)
  { type := d.get16 o, major := d.get16 (o + 2), minor := d.get16 (o + 4)
    nlink := d.get16 (o + 6), size := (d.get32 (o + 8)).toNat
    addrs := fun j => (d.get32 (o + 12 + 4 * j)).toNat }

def putDinode (i : ℕ) (x : Dinode) : Block :=
  d.splice (64 * (i % ipb)) 64 (dinodeByte x)

def bit (bi : ℕ) : Bool := (d.byte (bi / 8)).getLsbD (bi % 8)

def setBit (bi : ℕ) : Block :=
  d.splice (bi / 8) 1 fun _ => d.byte (bi / 8) ||| (1#8 <<< (bi % 8))

def clearBit (bi : ℕ) : Block :=
  d.splice (bi / 8) 1 fun _ => d.byte (bi / 8) &&& ~~~(1#8 <<< (bi % 8))

def word (j : ℕ) : ℕ := (d.get32 (4 * j)).toNat

def setWord (j v : ℕ) : Block := d.put32 (4 * j) (BitVec.ofNat 32 v)

end

end Block

def direntByte (de : Dirent) (k : ℕ) : Byte :=
  if k < 2 then Block.byteOf (BitVec.ofNat 16 de.inum) k else de.name.getD (k - 2) 0

def direntOf (bytes : List Byte) : Dirent :=
  ⟨(bytes.getD 1 0 ++ bytes.getD 0 0).toNat, (bytes.drop 2).take dirsiz⟩

namespace Block
variable {d : Block} {off len i j : ℕ} {f : ℕ → Byte}

theorem byte_splice_of_mem (h1 : off ≤ i) (h2 : i < off + len) (h3 : i < bsize) :
    (d.splice off len f).byte i = f (i - off) := by
  unfold byte splice
  rw [dif_pos h3, if_pos ⟨h1, h2⟩]

theorem byte_splice_of_not (h : i < off ∨ off + len ≤ i) :
    (d.splice off len f).byte i = d.byte i := by
  unfold byte splice
  split
  · rw [if_neg]
    simp only
    omega
  · rfl

lemma get16_splice_of_not (h : i + 2 ≤ off ∨ off + len ≤ i) :
    (d.splice off len f).get16 i = d.get16 i := by
  unfold get16
  rw [byte_splice_of_not (by omega), byte_splice_of_not (by omega)]

lemma get32_splice_of_not (h : i + 4 ≤ off ∨ off + len ≤ i) :
    (d.splice off len f).get32 i = d.get32 i := by
  unfold get32
  rw [byte_splice_of_not (by omega), byte_splice_of_not (by omega),
    byte_splice_of_not (by omega), byte_splice_of_not (by omega)]

lemma byteOf_append16 (v : BitVec 16) : (byteOf v 1 ++ byteOf v 0 : BitVec 16) = v := by
  apply BitVec.eq_of_getLsbD_eq
  intro i hi
  unfold byteOf
  simp only [BitVec.getLsbD_append]
  by_cases h1 : i < 8
  · simp [h1]
  · have h2 : i - 8 < 8 := by omega
    have h3 : 8 + (i - 8) = i := by omega
    simp [h1, h2, h3]

lemma byteOf_append32 (v : BitVec 32) :
    (byteOf v 3 ++ byteOf v 2 ++ byteOf v 1 ++ byteOf v 0 : BitVec 32) = v := by
  have hb : ∀ k, k < 4 → (put32 (fun _ => 0) 0 v).byte (0 + k) = byteOf v k := fun k hk =>
    byte_put32 _ v hk (by decide)
  rw [← hb 3 (by omega)]
  exact get32_put32 _ v (by decide)

lemma get16_splice {v : BitVec 16} {k : ℕ} (hk : k + 2 ≤ len) (hb : off + len ≤ bsize)
    (h0 : f k = byteOf v 0) (h1 : f (k + 1) = byteOf v 1) :
    (d.splice off len f).get16 (off + k) = v := by
  unfold get16
  rw [byte_splice_of_mem (by omega) (by omega) (by omega),
    byte_splice_of_mem (by omega) (by omega) (by omega),
    show off + k + 1 - off = k + 1 by omega, show off + k - off = k by omega, h0, h1]
  exact byteOf_append16 v

lemma get32_splice {v : BitVec 32} {k : ℕ} (hk : k + 4 ≤ len) (hb : off + len ≤ bsize)
    (hf : ∀ n, n < 4 → f (k + n) = byteOf v n) :
    (d.splice off len f).get32 (off + k) = v := by
  unfold get32
  rw [byte_splice_of_mem (by omega) (by omega) (by omega),
    byte_splice_of_mem (by omega) (by omega) (by omega),
    byte_splice_of_mem (by omega) (by omega) (by omega),
    byte_splice_of_mem (by omega) (by omega) (by omega),
    show off + k + 3 - off = k + 3 by omega, show off + k + 2 - off = k + 2 by omega,
    show off + k + 1 - off = k + 1 by omega, show off + k - off = k + 0 by omega,
    hf 3 (by omega), hf 2 (by omega), hf 1 (by omega), hf 0 (by omega)]
  exact byteOf_append32 v

end Block

namespace Dinode

structure Fits (x : Dinode) : Prop where
  size : x.size < 2 ^ 32
  addrs : ∀ j, x.addrs j < 2 ^ 32

end Dinode

namespace Block
variable {d : Block} {i j : ℕ} {x : Dinode}

lemma dinode_in_block (i : ℕ) : 64 * (i % ipb) + 64 ≤ bsize := by
  have h : i % ipb < ipb := Nat.mod_lt _ (by decide)
  have h1 : ipb = 16 := rfl
  have h2 : bsize = 1024 := rfl
  omega

theorem fits_getDinode (d : Block) (i : ℕ) : (d.getDinode i).Fits :=
  ⟨BitVec.isLt _, fun _ => BitVec.isLt _⟩

lemma toNat_ofNat32 {n : ℕ} (h : n < 2 ^ 32) : (BitVec.ofNat 32 n).toNat = n := by
  rw [BitVec.toNat_ofNat, Nat.mod_eq_of_lt h]

theorem getDinode_putDinode (hx : x.Fits) : (d.putDinode i x).getDinode i = x := by
  have hb := dinode_in_block i
  have hsize : ((d.putDinode i x).get32 (64 * (i % ipb) + 8)).toNat = x.size := by
    rw [putDinode, get32_splice (v := BitVec.ofNat 32 x.size) (by omega) hb ?_,
      toNat_ofNat32 hx.size]
    intro n hn
    have h1 : ¬ 8 + n < 8 := by omega
    have h2 : 8 + n < 12 := by omega
    simp only [dinodeByte, show ¬ 8 + n < 2 by omega, show ¬ 8 + n < 4 by omega,
      show ¬ 8 + n < 6 by omega, h1, h2, if_false, if_true]
    congr 1
    omega
  have haddrs : ∀ j : Fin (ndirect + 1),
      ((d.putDinode i x).get32 (64 * (i % ipb) + 12 + 4 * j)).toNat = x.addrs j := by
    intro j
    have hj : (j : ℕ) < 13 := j.isLt
    rw [putDinode, Nat.add_assoc, get32_splice (v := BitVec.ofNat 32 (x.addrs j)) (by omega) hb ?_,
      toNat_ofNat32 (hx.addrs j)]
    intro n hn
    have hdiv : (12 + 4 * (j : ℕ) + n - 12) / 4 = j := by omega
    have hmod : (12 + 4 * (j : ℕ) + n - 12) % 4 = n := by omega
    simp only [dinodeByte, show ¬ 12 + 4 * (j : ℕ) + n < 2 by omega,
      show ¬ 12 + 4 * (j : ℕ) + n < 4 by omega, show ¬ 12 + 4 * (j : ℕ) + n < 6 by omega,
      show ¬ 12 + 4 * (j : ℕ) + n < 8 by omega, show ¬ 12 + 4 * (j : ℕ) + n < 12 by omega,
      if_false, hdiv, hmod]
    congr 3
    exact Fin.ext (Nat.mod_eq_of_lt j.isLt)
  have htype : (d.putDinode i x).get16 (64 * (i % ipb)) = x.type := by
    have h : (d.putDinode i x).get16 (64 * (i % ipb) + 0) = x.type :=
      get16_splice (by omega) hb rfl rfl
    exact h
  have hmajor : (d.putDinode i x).get16 (64 * (i % ipb) + 2) = x.major :=
    get16_splice (by omega) hb rfl rfl
  have hminor : (d.putDinode i x).get16 (64 * (i % ipb) + 4) = x.minor :=
    get16_splice (by omega) hb rfl rfl
  have hnlink : (d.putDinode i x).get16 (64 * (i % ipb) + 6) = x.nlink :=
    get16_splice (by omega) hb rfl rfl
  unfold getDinode
  simp only [hsize]
  congr
  funext j
  exact haddrs j

theorem getDinode_putDinode_of_ne (h : i % ipb ≠ j % ipb) :
    (d.putDinode i x).getDinode j = d.getDinode j := by
  unfold getDinode putDinode
  simp only
  rw [get16_splice_of_not (by omega), get16_splice_of_not (by omega),
    get16_splice_of_not (by omega), get16_splice_of_not (by omega),
    get32_splice_of_not (by omega)]
  congr
  funext k
  have hk : (k : ℕ) < 13 := k.isLt
  rw [get32_splice_of_not (by omega)]

lemma getLsbD_mask {n m : ℕ} (hn : n < 8) : (1#8 <<< m).getLsbD n = decide (n = m) := by
  rw [BitVec.getLsbD_shiftLeft]
  by_cases h : n = m
  · simp [h, h ▸ hn]
  · by_cases hlt : n < m
    · simp [h, hlt]
    · have hne : n - m ≠ 0 := by omega
      simp [h, hne]

lemma bit_splice {bi bj : ℕ} {x : Byte} {v : Bool} (hi : bi < bpb)
    (hx : ∀ n < 8, x.getLsbD n = if n = bi % 8 then v else (d.byte (bi / 8)).getLsbD n) :
    (d.splice (bi / 8) 1 fun _ => x).bit bj = if bj = bi then v else d.bit bj := by
  have hb : bi / 8 < bsize := by
    have h : bpb = bsize * 8 := rfl
    omega
  unfold bit
  by_cases hbyte : bj / 8 = bi / 8
  · rw [hbyte, byte_splice_of_mem (by omega) (by omega) hb, hx _ (Nat.mod_lt _ (by omega))]
    by_cases he : bj = bi
    · simp [he]
    · have hne : bj % 8 ≠ bi % 8 := by omega
      simp [he, hne]
  · have he : bj ≠ bi := by
      rintro rfl
      exact hbyte rfl
    rw [if_neg he, byte_splice_of_not (by omega)]

theorem bit_setBit {bi bj : ℕ} (hi : bi < bpb) :
    (d.setBit bi).bit bj = if bj = bi then true else d.bit bj := by
  apply bit_splice hi
  intro n hn
  rw [BitVec.getLsbD_or, getLsbD_mask hn]
  by_cases h : n = bi % 8
  · simp [h]
  · simp [h]

theorem bit_clearBit {bi bj : ℕ} (hi : bi < bpb) :
    (d.clearBit bi).bit bj = if bj = bi then false else d.bit bj := by
  apply bit_splice hi
  intro n hn
  rw [BitVec.getLsbD_and, BitVec.getLsbD_not, getLsbD_mask hn]
  by_cases h : n = bi % 8
  · simp [h]
  · simp [h, hn]

theorem word_setWord {v : ℕ} (hi : i < nindirect) (hv : v < 2 ^ 32) :
    (d.setWord i v).word j = if j = i then v else d.word j := by
  have hn : 4 * i + 4 ≤ bsize := by
    have h1 : nindirect = 256 := rfl
    have h2 : bsize = 1024 := rfl
    omega
  unfold word setWord
  split_ifs with h
  · rw [h, get32_put32 _ _ hn, toNat_ofNat32 hv]
  · rw [get32_put32_of_disjoint _ _ (by omega)]

@[simp]
theorem word_zero (j : ℕ) : word (fun _ => 0) j = 0 := by
  have hb : ∀ i, byte (fun _ => 0) i = 0 := by
    intro i
    simp [byte]
  unfold word get32
  simp only [hb]
  rfl

end Block

namespace Dirent

structure Fits (de : Dirent) : Prop where
  inum : de.inum < 2 ^ 16
  name : de.name.length = dirsiz

end Dirent

theorem direntOf_direntByte {de : Dirent} (h : de.Fits) :
    direntOf ((List.range direntSize).map (direntByte de)) = de := by
  obtain ⟨inum, name⟩ := de
  have hname : ((List.range direntSize).map (direntByte ⟨inum, name⟩)).drop 2 = name := by
    apply List.ext_getElem
    · simp [direntSize, h.name, dirsiz]
    · intro j h1 h2
      have hj : ¬ 2 + j < 2 := by omega
      simp [direntByte, hj, h2]
  have hinum : (Block.byteOf (BitVec.ofNat 16 inum) 1 ++
      Block.byteOf (BitVec.ofNat 16 inum) 0 : BitVec 16).toNat = inum := by
    rw [Block.byteOf_append16, BitVec.toNat_ofNat, Nat.mod_eq_of_lt h.inum]
  unfold direntOf
  congr 1

theorem fits_direntOf {bytes : List Byte} (h : bytes.length = direntSize) :
    (direntOf bytes).Fits := by
  refine ⟨BitVec.isLt _, ?_⟩
  simp [direntOf, h, direntSize, dirsiz]

namespace Block
variable {d : Block} {e e' : ℕ} {de : Dirent}

end Block

end Xv6
