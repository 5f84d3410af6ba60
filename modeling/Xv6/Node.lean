import Xv6.BmapSpec

/-! What an inode stands for: its fields and its bytes. Growing an inode or changing another
one's data leaves it what it was. Where `T` does not hold, the data of plain files may be
uncertain, and only that of directories counts. -/
namespace Xv6

open Function

variable {sb : Superblock} {ino : ℕ → Dinode} {c c' c'' : ℕ → Block} {X loose : Set ℕ} {T : Prop}
  {x y z : Dinode} {b i j n lim : ℕ} {d : Block}

namespace Dinode

section
variable (x : Dinode) (c : ℕ → Block)

def byteAt (off : ℕ) : Byte :=
  (c (x.ptr c (dataPlace (off / bsize)))).byte (off % bsize)

def bytes : List Byte := (List.range x.size).map (x.byteAt c)

def direntAt (e : ℕ) : Dirent :=
  direntOf ((List.range direntSize).map fun j => x.byteAt c (e * direntSize + j))

def Backed (lim : ℕ) : Prop :=
  lim ≤ maxFile * bsize ∧ ∀ off < lim, x.ptr c (dataPlace (off / bsize)) ≠ 0

end

theorem Backed.mono {lim' : ℕ} (h : x.Backed c lim) (hle : lim' ≤ lim) : x.Backed c lim' :=
  ⟨hle.trans h.1, fun off ho => h.2 off (lt_of_lt_of_le ho hle)⟩

theorem Backed.lt (h : x.Backed c lim) {off : ℕ} (ho : off < lim) : off / bsize < maxFile :=
  (Nat.div_lt_iff_lt_mul (by decide)).mpr (lt_of_lt_of_le ho h.1)

theorem Backed.holds (h : (ino j).Backed c lim) (hj : j < sb.ninodes) (ht : (ino j).type ≠ 0)
    {off : ℕ} (ho : off < lim) : Xv6.holds sb ino c (j, dataPlace (off / bsize)) =
      some ((ino j).ptr c (dataPlace (off / bsize))) :=
  holds_eq_some.mpr ⟨hj, place_eq_some.mpr ⟨ht, dataPlace_lt (h.lt ho), rfl, h.2 off ho⟩⟩

/-- `x` has become `y` and may have got new blocks; its first `lim` bytes are what they were. -/
structure Stays (T : Prop) (lim : ℕ) (x : Dinode) (c : ℕ → Block) (y : Dinode)
    (c' : ℕ → Block) : Prop where
  fields : y = { x with addrs := y.addrs }
  ptr : ∀ off < lim, y.ptr c' (dataPlace (off / bsize)) = x.ptr c (dataPlace (off / bsize))
  data : T ∨ x.type = tDir → ∀ off < lim, c' (x.ptr c (dataPlace (off / bsize))) =
    c (x.ptr c (dataPlace (off / bsize)))

section
variable (h : Stays T lim x c y c')
include h

lemma Stays.type : y.type = x.type := by rw [h.fields]

theorem Stays.size : y.size = x.size := by rw [h.fields]

theorem Stays.trans (h' : Stays T lim y c' z c'') : Stays T lim x c z c'' := by
  refine ⟨?_, ?_, ?_⟩
  · rw [h'.fields, h.fields]
  · intro off ho
    rw [h'.ptr off ho, h.ptr off ho]
  · intro ht off ho
    have hd := h'.data (by rw [h.type]; exact ht) off ho
    rw [h.ptr off ho] at hd
    rw [hd, h.data ht off ho]

theorem Stays.byteAt (ht : T ∨ x.type = tDir) {off : ℕ} (ho : off < lim) :
    y.byteAt c' off = x.byteAt c off := by
  unfold Dinode.byteAt
  rw [h.ptr off ho, h.data ht off ho]

theorem Stays.backed (hx : x.Backed c lim) : y.Backed c' lim := by
  refine ⟨hx.1, fun off ho => ?_⟩
  rw [h.ptr off ho]
  exact hx.2 off ho

end

structure Same (T : Prop) (x : Dinode) (c : ℕ → Block) (y : Dinode) (c' : ℕ → Block) : Prop where
  type : y.type = x.type
  major : y.major = x.major
  minor : y.minor = x.minor
  nlink : y.nlink = x.nlink
  size : y.size = x.size
  data : T ∨ x.type = tDir → ∀ off < x.size, y.byteAt c' off = x.byteAt c off

theorem Same.refl : Same T x c x c := ⟨rfl, rfl, rfl, rfl, rfl, fun _ _ _ => rfl⟩

theorem Same.trans (h : Same T x c y c') (h' : Same T y c' z c'') : Same T x c z c'' := by
  refine ⟨by rw [h'.type, h.type], by rw [h'.major, h.major], by rw [h'.minor, h.minor],
    by rw [h'.nlink, h.nlink], by rw [h'.size, h.size], fun ht off ho => ?_⟩
  rw [h'.data (by rw [h.type]; exact ht) off (by rw [h.size]; exact ho), h.data ht off ho]

theorem Stays.same (h : Stays T lim x c y c') (hle : x.size ≤ lim) : Same T x c y c' := by
  have hf := h.fields
  exact ⟨by rw [hf], by rw [hf], by rw [hf], by rw [hf], by rw [hf], fun ht off ho =>
    h.byteAt ht (lt_of_lt_of_le ho hle)⟩

theorem Same.bytes (h : Same T x c y c') (ht : T ∨ x.type = tDir) : y.bytes c' = x.bytes c := by
  unfold Dinode.bytes
  rw [h.size]
  exact List.map_congr_left fun off ho => h.data ht off (List.mem_range.mp ho)

theorem Same.direntAt (h : Same T x c y c') (ht : x.type = tDir) {e : ℕ}
    (he : (e + 1) * direntSize ≤ x.size) : y.direntAt c' e = x.direntAt c e := by
  unfold Dinode.direntAt
  congr 1
  refine List.map_congr_left fun j hj => ?_
  rw [List.mem_range] at hj
  exact h.data (.inr ht) _ (by rw [Nat.succ_mul] at he; omega)

end Dinode

open Dinode

theorem Grows.stays (h : Grows sb i ino c y c') (hB : Blocks sb ino c X) (hj : j < sb.ninodes)
    (ht : (ino j).type ≠ 0) (hb : (ino j).Backed c lim) :
    Stays T lim (ino j) c (update ino i y j) c' := by
  refine ⟨?_, ?_, ?_⟩
  · by_cases hji : j = i
    · subst hji
      rw [update_self]
      exact h.fields
    · rw [update_of_ne hji]
  · intro off ho
    have hp := h.keep _ _ (hb.holds hj ht ho)
    rw [holds_eq_some, place_eq_some] at hp
    exact hp.2.2.2.1
  · intro _ off ho
    have hp := hb.holds hj ht ho
    refine h.data _ (hB.mem_used hp) ?_
    intro i' hi'
    exact dataPlace_ne _ (congrArg Prod.snd (hB.owns.inj _ _ _ hp hi'))

theorem dataPlace_inj {m : ℕ} (h : dataPlace m = dataPlace n) : m = n := by
  unfold dataPlace at h
  split_ifs at h <;> omega

theorem ptr_setBlock (hB : Blocks sb ino c X) (hj : j < sb.ninodes) (ht : (ino j).type ≠ 0)
    (hi : holds sb ino c (i, dataPlace n) = some b) (q : ℕ) :
    (ino j).ptr (update c b d) q = (ino j).ptr c q := by
  refine ptr_congr ?_ _
  intro ha
  rw [update_of_ne]
  rintro rfl
  have hp : holds sb ino c (j, ndirect) = some ((ino j).addrs (Fin.last ndirect)) :=
    holds_eq_some.mpr ⟨hj, place_indirect ht ha⟩
  exact dataPlace_ne n (congrArg Prod.snd (hB.owns.inj _ _ _ hp hi)).symm

/-- Changing a data block keeps an inode that does not hold it, or whose data do not count. -/
theorem stays_of_update (hB : Blocks sb ino c X) (hj : j < sb.ninodes)
    (hb : (ino j).Backed c lim) (ht : (ino j).type ≠ 0)
    (hi : holds sb ino c (i, dataPlace n) = some b)
    (hne : j ≠ i ∨ ¬ (T ∨ (ino j).type = tDir)) :
    Stays T lim (ino j) c (ino j) (update c b d) := by
  refine ⟨rfl, fun off _ => ptr_setBlock hB hj ht hi _, ?_⟩
  intro htd off ho
  rw [update_of_ne]
  intro he
  have hp := hb.holds hj ht ho
  rw [he] at hp
  exact hne.elim (fun h => h (congrArg Prod.fst (hB.owns.inj _ _ _ hp hi))) fun h => h htd

end Xv6
