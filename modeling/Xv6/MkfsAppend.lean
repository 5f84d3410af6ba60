import Xv6.Mkfs
import Xv6.BmapSpec

/-! `iappend` and the blocks it hands out: as in the kernel, a block is held by one place of one
inode, and here the blocks in use are those from `nmeta` to `freeblock`. -/
namespace Xv6.Mkfs

open Program Ownership Function List

def spread (len : ℕ) : ℕ := (len + bsize - 1) / bsize

def extra (n : ℕ) : ℕ := if ndirect < n then 1 else 0

/-- The blocks in the image: inode `i` has `nb i` data blocks and `ni i` indirect blocks, and the
data blocks hold the bytes `data i` with zeros after them. -/
structure Vol (nb ni : ℕ → ℕ) (data : ℕ → List Byte) (ino : ℕ → Dinode) (s : Image) : Prop where
  size : s.size = fssize
  owns : Owns (holds sb ino s.disk) {b | nmeta ≤ b ∧ b < s.freeblock} ∅
  room : s.freeblock = nmeta + ∑ i ∈ Finset.range ninodes, (nb i + ni i)
  fresh : ∀ b, s.freeblock ≤ b → s.disk b = fun _ => 0
  has : ∀ i < ninodes, ∀ n < maxFile,
    (∃ b, holds sb ino s.disk (i, dataPlace n) = some b) ↔ n < nb i
  ind : ∀ i < ninodes, (∃ b, holds sb ino s.disk (i, ndirect) = some b) ↔ ni i = 1
  bytes : ∀ i n b, holds sb ino s.disk (i, dataPlace n) = some b → ∀ k < bsize,
    (s.disk b).byte k = (data i).getD (n * bsize + k) 0

structure Low (s s' : Image) : Prop where
  inode : s'.freeinode = s.freeinode
  disk : ∀ b < nmeta, s'.disk b = s.disk b

variable {nb ni nb' ni' : ℕ → ℕ} {data : ℕ → List Byte} {ino ino' : ℕ → Dinode} {s s' : Image}
  {c c' : ℕ → Block} {i j n b fbn : ℕ} {q : ℕ × ℕ} {E : Prop}

lemma Low.refl : Low s s := ⟨rfl, fun _ _ => rfl⟩

lemma Low.trans {s'' : Image} (h : Low s s') (h' : Low s' s'') : Low s s'' :=
  ⟨h'.inode.trans h.inode, fun b hb => (h'.disk b hb).trans (h.disk b hb)⟩

lemma Low.write {d : Block} (hb : nmeta ≤ b) :
    Low s { s with disk := update s.disk b d } :=
  ⟨rfl, fun _ hx => update_of_ne (by omega) _ _⟩

section places

lemma dataPlace_inj (h : dataPlace n = dataPlace j) : n = j := by
  unfold dataPlace at h
  split_ifs at h <;> omega

section
variable (hi : i < sb.ninodes) (ht : (ino i).type ≠ 0)
include hi ht

theorem holds_eq_nonzero (hj : j < nptr) : holds sb ino c (i, j) = nonzero ((ino i).ptr c j) := by
  unfold holds Dinode.place
  rw [if_pos hi, if_pos ⟨ht, hj⟩]

lemma holds_direct (hn : n < ndirect) :
    holds sb ino c (i, dataPlace n) = nonzero ((ino i).addrs (Fin.ofNat _ n)) := by
  have hval : ((Fin.ofNat (ndirect + 1) n : Fin (ndirect + 1)) : ℕ) = n :=
    Nat.mod_eq_of_lt (by omega)
  have hplace : dataPlace n = (Fin.ofNat (ndirect + 1) n : Fin (ndirect + 1)) := by
    rw [hval, dataPlace, if_pos hn]
  rw [hplace, holds_eq_nonzero hi ht (lt_of_lt_of_le (Fin.isLt _) (Nat.le_add_right _ _)), ptr_addrs]

lemma holds_last : holds sb ino c (i, ndirect) = nonzero ((ino i).addrs (Fin.last ndirect)) := by
  rw [holds_eq_nonzero hi ht (by decide), ptr_indirect]

lemma holds_word (hn : ndirect ≤ n) (hmax : n < maxFile) (ha : (ino i).addrs (Fin.last ndirect) ≠ 0)
    :
    holds sb ino c (i, dataPlace n) =
      nonzero ((c ((ino i).addrs (Fin.last ndirect))).word (n - ndirect)) := by
  have hplace : dataPlace n = ndirect + 1 + (n - ndirect) := by
    rw [dataPlace, if_neg (by omega)]
    omega
  rw [holds_eq_nonzero hi ht (dataPlace_lt hmax), hplace, ptr_word ha]

end

end places

section allocate

section
variable (h : Vol nb ni data ino s)
include h

theorem Vol.nmeta_le : nmeta ≤ s.freeblock := by
  have hroom := h.room
  omega

theorem Vol.held (hq : holds sb ino s.disk q = some b) :
    nmeta ≤ b ∧ b < s.freeblock := h.owns.held hq

lemma Vol.put (hnone : holds sb ino s.disk q = none)
    (hupd : holds sb ino' c' = update (holds sb ino s.disk) q (some s.freeblock))
    (hdata : ∀ j n b, holds sb ino s.disk (j, dataPlace n) = some b → c' b = s.disk b)
    (hfree : ∀ b, s.freeblock ≤ b → c' b = s.disk b)
    (hhas : ∀ j < ninodes, ∀ n < maxFile, n < nb' j ↔ n < nb j ∨ (j, dataPlace n) = q)
    (hind : ∀ j < ninodes, ni' j = 1 ↔ ni j = 1 ∨ (j, ndirect) = q)
    (hsum : ∑ j ∈ Finset.range ninodes, (nb' j + ni' j) = ∑ j ∈ Finset.range ninodes, (nb j + ni j) + 1)
    (hzero : ∀ j n, q = (j, dataPlace n) → ∀ k < bsize, (data j).getD (n * bsize + k) 0 = 0) :
    Vol nb' ni' data ino' { s with disk := c', freeblock := s.freeblock + 1 } := by
  have hmeta := h.nmeta_le
  have hnot : s.freeblock ∉ {b | nmeta ≤ b ∧ b < s.freeblock} := fun hm => absurd hm.2 (by omega)
  have hset : {b | nmeta ≤ b ∧ b < s.freeblock + 1} =
      insert s.freeblock {b | nmeta ≤ b ∧ b < s.freeblock} := by
    ext b
    simp only [Set.mem_ofPred_eq, Set.mem_insert_iff]
    omega
  have hspare : (insert s.freeblock ∅ \ {s.freeblock} : Set ℕ) = ∅ := by simp
  have hex : ∀ p, (∃ b, holds sb ino' c' p = some b) ↔
      (∃ b, holds sb ino s.disk p = some b) ∨ p = q := by
    intro p
    rw [hupd]
    by_cases hp : p = q
    · simp [hp]
    · simp [hp]
  refine ⟨h.size, ?_, ?_, ?_, ?_, ?_, ?_⟩
  · change Owns (holds sb ino' c') {b | nmeta ≤ b ∧ b < s.freeblock + 1} ∅
    rw [hupd, hset, ← hspare]
    exact (h.owns.acquire hnot).store (Set.mem_insert _ _) hnone
  · change s.freeblock + 1 = _
    rw [hsum, h.room]
    omega
  · intro b hb
    change s.freeblock + 1 ≤ b at hb
    exact (hfree b (by omega)).trans (h.fresh b (by omega))
  · intro j hj n hn
    rw [hex, h.has j hj n hn, hhas j hj n hn]
  · intro j hj
    rw [hex, h.ind j hj, hind j hj]
  · intro j n b hb k hk
    change holds sb ino' c' (j, dataPlace n) = some b at hb
    change (c' b).byte k = _
    rw [hupd] at hb
    by_cases hp : (j, dataPlace n) = q
    · rw [hp, update_self] at hb
      obtain rfl := Option.some.inj hb
      rw [hfree _ le_rfl, h.fresh _ le_rfl, hzero j n hp.symm k hk]
      simp [Block.byte]
    · rw [update_of_ne hp] at hb
      rw [hdata j n b hb]
      exact h.bytes j n b hb k hk

end

lemma sum_succ {f g : ℕ → ℕ} (hi : i < ninodes) (hg : g i = f i + 1)
    (hother : ∀ j, j ≠ i → g j = f j) :
    ∑ j ∈ Finset.range ninodes, g j = ∑ j ∈ Finset.range ninodes, f j + 1 := by
  have hmem : i ∈ Finset.range ninodes := Finset.mem_range.mpr hi
  have hsame : ∑ j ∈ (Finset.range ninodes).erase i, g j =
      ∑ j ∈ (Finset.range ninodes).erase i, f j :=
    Finset.sum_congr rfl fun j hj => hother j (Finset.ne_of_mem_erase hj)
  rw [← Finset.add_sum_erase _ _ hmem, ← Finset.add_sum_erase _ f hmem, hsame, hg]
  omega

lemma Vol.putData (h : Vol nb ni data ino s) (hi : i < ninodes) (hfbn : nb i = fbn)
    (hlen : (data i).length ≤ fbn * bsize)
    (hnone : holds sb ino s.disk (i, dataPlace fbn) = none)
    (hupd : holds sb ino' c' =
      update (holds sb ino s.disk) (i, dataPlace fbn) (some s.freeblock))
    (hdata : ∀ j n b, holds sb ino s.disk (j, dataPlace n) = some b → c' b = s.disk b)
    (hfree : ∀ b, s.freeblock ≤ b → c' b = s.disk b) :
    Vol (update nb i (fbn + 1)) ni data ino'
      { s with disk := c', freeblock := s.freeblock + 1 } := by
  refine h.put hnone hupd hdata hfree ?_ ?_ ?_ ?_
  · intro j hj n hn
    by_cases hji : j = i
    · subst hji
      rw [update_self, hfbn, Nat.lt_succ_iff_lt_or_eq, Prod.mk.injEq]
      refine or_congr_right ⟨fun he => ⟨rfl, by rw [he]⟩, fun he => dataPlace_inj he.2⟩
    · rw [update_of_ne hji, Prod.mk.injEq]
      exact ⟨.inl, fun he => he.resolve_right fun hq => hji hq.1⟩
  · intro j hj
    rw [Prod.mk.injEq]
    exact ⟨.inl, fun he => he.resolve_right fun hq => dataPlace_ne fbn hq.2.symm⟩
  · refine sum_succ hi ?_ ?_
    · rw [update_self, hfbn]
      omega
    · intro j hj
      rw [update_of_ne hj]
  · intro j n hq k hk
    rw [Prod.mk.injEq] at hq
    obtain ⟨rfl, hn⟩ := hq
    obtain rfl := dataPlace_inj hn
    exact getD_eq_default _ _ (by omega)

lemma Vol.putIndirect (h : Vol nb ni data ino s) (hi : i < ninodes) (hni : ni i = 0)
    (hnone : holds sb ino s.disk (i, ndirect) = none)
    (hupd : holds sb ino' s.disk =
      update (holds sb ino s.disk) (i, ndirect) (some s.freeblock)) :
    Vol nb (update ni i 1) data ino' { s with freeblock := s.freeblock + 1 } := by
  refine h.put hnone hupd (fun _ _ _ _ => rfl) (fun _ _ => rfl) ?_ ?_ ?_ ?_
  · intro j hj n hn
    rw [Prod.mk.injEq]
    exact ⟨.inl, fun he => he.resolve_right fun hq => dataPlace_ne n hq.2⟩
  · intro j hj
    by_cases hji : j = i
    · simp [hji]
    · simp [hji]
  · refine sum_succ hi ?_ ?_
    · rw [update_self, hni]
    · intro j hj
      rw [update_of_ne hj]
  · intro j n hq
    rw [Prod.mk.injEq] at hq
    exact absurd hq.2.symm (dataPlace_ne n)

end allocate

section sectors

variable {Q : Block → Image → Prop} {R : PUnit → Image → Prop} {F : Exit → Image → Prop} {d : Block}

theorem wp_rsect (hsize : s.size = fssize) (hb : b ≤ fssize) (hQ : b < fssize → Q (s.disk b) s)
    (hF : fssize ≤ b → F .die s) : wp (rsect b) Q F s := by
  have hsect : sector b = b := by
    refine Nat.mod_eq_of_lt (lt_of_le_of_lt hb ?_)
    decide
  unfold rsect
  refine wp_bind (wp_get ?_)
  rw [hsect, hsize]
  by_cases hlt : b < fssize
  · rw [if_pos hlt]
    exact hQ hlt
  · rw [if_neg hlt]
    exact hF (Nat.le_of_not_lt hlt)

theorem wp_wsect (hsize : s.size = fssize) (hb : b < fssize)
    (hR : R ⟨⟩ { s with disk := update s.disk b d }) : wp (wsect b d) R F s := by
  have hsect : sector b = b := by
    refine Nat.mod_eq_of_lt (lt_trans hb ?_)
    decide
  refine wp_modify ?_
  rw [hsect, max_eq_left (by omega)]
  exact hR

lemma wp_nextBlock {Q : ℕ → Image → Prop}
    (hQ : Q s.freeblock { s with freeblock := s.freeblock + 1 }) : wp nextBlock Q F s :=
  wp_bind (wp_get (wp_bind (wp_modify (wp_pure hQ))))

end sectors

section block

lemma Vol.ne_zero (h : Vol nb ni data ino s) : s.freeblock ≠ 0 := by
  have hmeta := h.nmeta_le
  have hpos : 0 < nmeta := by decide
  omega

lemma Vol.holds_setAddr {a : Fin (ndirect + 1)} (h : Vol nb ni data ino s) (hi : i < ninodes)
    (ht : (ino i).type ≠ 0) (ha : (ino i).addrs a = 0) :
    holds sb (update ino i
      { ino i with addrs := update (ino i).addrs a s.freeblock }) s.disk =
      update (holds sb ino s.disk) (i, ↑a) (some s.freeblock) :=
  (Xv6.holds_setAddr hi ht ha h.ne_zero fun _ => h.fresh _ le_rfl).2

open iappendBlock in
lemma iappendIndirect_spec {F : Exit → Image → Prop} (h : Vol nb ni data ino s) (hi : i < ninodes)
    (ht : (ino i).type ≠ 0) (hni : ni i = extra (nb i)) :
    wp (iappendIndirect (ino i)) (fun din s' =>
      Vol nb (update ni i 1) data (update ino i din) s' ∧
      din = { ino i with addrs := din.addrs } ∧ din.addrs (Fin.last ndirect) ≠ 0 ∧
      s'.disk = s.disk ∧ s'.freeinode = s.freeinode ∧
      (s'.freeblock = s.freeblock ∨
        s'.freeblock = s.freeblock + 1 ∧ nb i ≤ ndirect ∧
          din.addrs (Fin.last ndirect) = s.freeblock)) F s := by
  unfold iappendIndirect
  split_ifs with ha
  · have hnone : holds sb ino s.disk (i, ndirect) = none := by
      rw [holds_last hi ht, ha]
      rfl
    have hzero : ni i = 0 := by
      have hne : ni i ≠ 1 := by
        rw [Ne, ← h.ind i hi, hnone]
        simp
      unfold extra at hni
      split_ifs at hni <;> omega
    refine wp_bind (wp_nextBlock (wp_pure ?_))
    have hupd := h.holds_setAddr hi ht ha
    rw [Fin.val_last] at hupd
    refine ⟨h.putIndirect hi hzero hnone hupd, rfl, ?_, rfl, rfl, .inr ⟨rfl, ?_, ?_⟩⟩
    · simp only [update_self]
      exact h.ne_zero
    · unfold extra at hni
      split_ifs at hni <;> omega
    · simp only [update_self]
  · have hone : ni i = 1 := by
      rw [← h.ind i hi, holds_last hi ht]
      exact ⟨_, nonzero_eq_some.mpr ⟨rfl, ha⟩⟩
    refine wp_pure ⟨?_, rfl, ha, rfl, rfl, .inl rfl⟩
    rw [update_eq_self, ← hone, update_eq_self]
    exact h

/-- The block that the loop of `iappend` goes on with: data block `fbn` of the file. -/
structure Found (nb ni : ℕ → ℕ) (data : ℕ → List Byte) (ino : ℕ → Dinode) (i fbn : ℕ) (s : Image)
    (r : Dinode × ℕ) (s' : Image) : Prop where
  vol : Vol (update nb i (fbn + 1)) (update ni i (extra (fbn + 1))) data
    (update ino i r.1) s'
  held : holds sb (update ino i r.1) s'.disk (i, dataPlace fbn) = some r.2
  fields : r.1 = { ino i with addrs := r.1.addrs }
  low : Low s s'
  last : s'.freeblock ≤ fssize ∨ s'.freeblock = r.2 + 1
  le : r.2 ≤ fssize

section
variable (h : Vol nb ni data ino s) (hi : i < ninodes) (ht : (ino i).type ≠ 0)
  (hni : ni i = extra (nb i))
include h hi ht hni

lemma iappendBlock_direct {F : Exit → Image → Prop} (hdirect : fbn < ndirect)
    (hnb : nb i = fbn ∧ (data i).length ≤ fbn * bsize ∨ nb i = fbn + 1) (hle : s.freeblock ≤ fssize)
    :
    wp (iappendBlock (ino i) fbn) (Found nb ni data ino i fbn s) F s := by
  have hmax : fbn < maxFile := lt_of_lt_of_le hdirect (Nat.le_add_right _ _)
  unfold iappendBlock
  rw [if_pos hdirect]
  dsimp only
  split_ifs with ha
  · have hplace : ((Fin.ofNat (ndirect + 1) fbn : Fin (ndirect + 1)) : ℕ) = dataPlace fbn := by
      rw [dataPlace, if_pos hdirect]
      exact Nat.mod_eq_of_lt (by omega)
    have hnone : holds sb ino s.disk (i, dataPlace fbn) = none := by
      rw [holds_direct hi ht hdirect, ha]
      rfl
    have hnew : nb i = fbn ∧ (data i).length ≤ fbn * bsize := by
      refine hnb.resolve_right fun he => ?_
      have hex := (h.has i hi fbn hmax).mpr (by omega)
      rw [hnone] at hex
      simp at hex
    have hupd := h.holds_setAddr hi ht ha
    rw [hplace] at hupd
    have hextra : extra (fbn + 1) = ni i := by
      rw [hni, hnew.1]
      unfold extra
      split_ifs <;> omega
    refine wp_bind (wp_nextBlock (wp_pure ⟨?_, ?_, rfl, ⟨rfl, fun _ _ => rfl⟩, .inr rfl, hle⟩))
    · rw [hextra, update_eq_self]
      exact h.putData hi hnew.1 hnew.2 hnone hupd (fun _ _ _ _ => rfl) fun _ _ => rfl
    · exact (congrFun hupd _).trans (update_self _ _ _)
  · have hheld : holds sb ino s.disk (i, dataPlace fbn) =
        some ((ino i).addrs (Fin.ofNat (ndirect + 1) fbn)) := by
      rw [holds_direct hi ht hdirect]
      exact nonzero_eq_some.mpr ⟨rfl, ha⟩
    have hnb' : fbn + 1 = nb i := by
      have hlt := (h.has i hi fbn hmax).mp ⟨_, hheld⟩
      omega
    have hlt := (h.held hheld).2
    refine wp_pure ⟨?_, ?_, rfl, Low.refl, .inl hle, by dsimp only; omega⟩
    · rw [hnb', update_eq_self, ← hni, update_eq_self, update_eq_self]
      exact h
    · rw [update_eq_self]
      exact hheld

lemma iappendBlock_indirect (hmax : fbn < maxFile) (hdirect : ndirect ≤ fbn)
    (hnb : nb i = fbn ∧ (data i).length ≤ fbn * bsize ∨ nb i = fbn + 1) (hle : s.freeblock ≤ fssize)
    (hE : fssize < nmeta + ∑ j ∈ Finset.range ninodes, (update nb i (fbn + 1) j + update ni i (extra (fbn + 1)) j) → E)
    :
    wp (iappendBlock (ino i) fbn) (Found nb ni data ino i fbn s) (fun _ _ => E) s := by
  have hextra : extra (fbn + 1) = 1 := if_pos (by omega)
  rw [hextra] at hE
  unfold iappendBlock
  rw [if_neg (by omega)]
  refine wp_seq (iappendIndirect_spec h hi ht hni) ?_
  rintro din s1 ⟨h₁, hdin, hind, hdisk, hinode, hblock⟩
  have htype : (update ino i din i).type ≠ 0 := by
    rw [update_self, hdin]
    exact ht
  have hlast : holds sb (update ino i din) s1.disk (i, ndirect) =
      some (din.addrs (Fin.last ndirect)) := by
    rw [holds_last hi htype, update_self]
    exact nonzero_eq_some.mpr ⟨rfl, hind⟩
  have hx := h₁.held hlast
  have hword := holds_word (c := s1.disk) hi htype hdirect hmax (by rwa [update_self])
  rw [update_self] at hword
  have hlow : Low s s1 := ⟨hinode, fun b _ => by rw [hdisk]⟩
  have hroom := h₁.room
  refine wp_bind (wp_rsect h₁.size (by omega) ?_ ?_)
  · intro hlt
    split_ifs with hw
    · -- the file has no block here yet
      have hnone : holds sb (update ino i din) s1.disk (i, dataPlace fbn) = none := by
        rw [hword, hw]
        rfl
      have hnew : nb i = fbn ∧ (data i).length ≤ fbn * bsize := by
        refine hnb.resolve_right fun he => ?_
        have hex := (h₁.has i hi fbn hmax).mpr (by omega)
        rw [hnone] at hex
        simp at hex
      have hfree : s1.freeblock < 2 ^ 32 := by
        have hsize : fssize = 2000 := rfl
        omega
      have hplace : dataPlace fbn = ndirect + 1 + (fbn - ndirect) := by
        rw [dataPlace, if_neg (by omega)]
        omega
      have hwlt : fbn - ndirect < nindirect := by
        have hfile : maxFile = ndirect + nindirect := rfl
        omega
      have hupd := (holds_setWord h₁.owns hi htype (by rw [update_self]) hind hwlt hw hfree
        h₁.ne_zero).2
      rw [← hplace] at hupd
      refine wp_bind (wp_nextBlock (wp_bind (wp_wsect h₁.size hlt (wp_pure ?_))))
      refine ⟨?_, ?_, hdin, hlow.trans ⟨rfl, ?_⟩, .inr rfl, by dsimp only; omega⟩
      · rw [hextra]
        refine h₁.putData hi hnew.1 hnew.2 hnone hupd ?_ ?_
        · intro j n b hb
          refine update_of_ne ?_ _ _
          rintro rfl
          exact dataPlace_ne n (congrArg Prod.snd (h₁.owns.inj _ _ _ hb hlast))
        · intro b hb
          exact update_of_ne (by omega) _ _
      · exact (congrFun hupd _).trans (update_self _ _ _)
      · intro b hb
        exact update_of_ne (by omega) _ _
    · have hheld : holds sb (update ino i din) s1.disk (i, dataPlace fbn) =
          some ((s1.disk (din.addrs (Fin.last ndirect))).word (fbn - ndirect)) := by
        rw [hword]
        exact nonzero_eq_some.mpr ⟨rfl, hw⟩
      have hnb' : fbn + 1 = nb i := by
        have hlt := (h₁.has i hi fbn hmax).mp ⟨_, hheld⟩
        omega
      have hlt := (h₁.held hheld).2
      refine wp_pure ⟨?_, hheld, hdin, hlow, .inl ?_, by dsimp only; omega⟩
      · rw [hextra, hnb', update_eq_self]
        exact h₁
      · omega
  · -- the new indirect block is after the end of the image
    intro hge
    have hnew : nb i = fbn := by omega
    refine hE ?_
    have hsum : ∑ j ∈ Finset.range ninodes,
        (update nb i (fbn + 1) j + update ni i 1 j) =
        ∑ j ∈ Finset.range ninodes, (nb j + update ni i 1 j) + 1 := by
      refine sum_succ hi ?_ ?_
      · rw [update_self, hnew]
        omega
      · intro j hj
        rw [update_of_ne hj]
    omega

lemma iappendBlock_spec (hmax : fbn < maxFile)
    (hnb : nb i = fbn ∧ (data i).length ≤ fbn * bsize ∨ nb i = fbn + 1) (hle : s.freeblock ≤ fssize)
    (hE : fssize < nmeta + ∑ j ∈ Finset.range ninodes, (update nb i (fbn + 1) j + update ni i (extra (fbn + 1)) j) → E)
    :
    wp (iappendBlock (ino i) fbn) (Found nb ni data ino i fbn s) (fun _ _ => E) s := by
  by_cases hdirect : fbn < ndirect
  · exact iappendBlock_direct h hi ht hni hdirect hnb hle
  · exact iappendBlock_indirect h hi ht hni hmax (Nat.le_of_not_lt hdirect) hnb hle hE

end

end block

section append

section
variable (data : ℕ → List Byte)

def nbOf (i : ℕ) : ℕ := spread (data i).length

def niOf (i : ℕ) : ℕ := extra (nbOf data i)

def need : ℕ := ∑ i ∈ Finset.range ninodes, (nbOf data i + niOf data i)

structure Tidy (ino : ℕ → Dinode) (s : Image) : Prop where
  vol : Vol (nbOf data) (niOf data) data ino s
  le : s.freeblock ≤ fssize
  cap : ∀ i, (data i).length ≤ maxFile * bsize

end

variable {p l : List Byte} {x off fuel : ℕ} {d : Block}

lemma spread_le {m : ℕ} (h : n ≤ m) : spread n ≤ spread m := Nat.div_le_div_right (by omega)

lemma extra_le {m : ℕ} (h : n ≤ m) : extra n ≤ extra m := by
  unfold extra
  split_ifs <;> omega

theorem need_mono {data' : ℕ → List Byte} (h : ∀ j, (data j).length ≤ (data' j).length) :
    need data ≤ need data' := by
  refine Finset.sum_le_sum fun j _ => ?_
  have hnb : nbOf data j ≤ nbOf data' j := spread_le (h j)
  exact Nat.add_le_add hnb (extra_le hnb)

lemma nbOf_update : nbOf (update data i l) = update (nbOf data) i (spread l.length) := by
  funext j
  by_cases hj : j = i
  · simp [nbOf, hj]
  · simp [nbOf, hj]

lemma niOf_update : niOf (update data i l) =
    update (niOf data) i (extra (spread l.length)) := by
  funext j
  by_cases hj : j = i
  · simp [niOf, nbOf, hj]
  · simp [niOf, nbOf, hj]

lemma Vol.fill (h : Vol nb ni data ino s) (hi : i < ninodes) (hnb : nb i = fbn + 1)
    (hx : holds sb ino s.disk (i, dataPlace fbn) = some x)
    (hnew : ∀ k < bsize, d.byte k = l.getD (fbn * bsize + k) 0)
    (hold : ∀ k < fbn * bsize, l.getD k 0 = (data i).getD k 0) :
    Vol nb ni (update data i l) ino { s with disk := update s.disk x d } := by
  have hheld := h.held hx
  have hsame : holds sb ino (update s.disk x d) = holds sb ino s.disk := by
    refine holds_update fun j hj => ?_
    exact dataPlace_ne fbn (congrArg Prod.snd (h.owns.inj _ _ _ hx hj))
  refine ⟨h.size, ?_, h.room, ?_, ?_, ?_, ?_⟩
  · change Owns (holds sb ino (update s.disk x d)) _ _
    rw [hsame]
    exact h.owns
  · intro b hb
    change s.freeblock ≤ b at hb
    exact (update_of_ne (by omega) _ _).trans (h.fresh b hb)
  · intro j hj n hn
    change (∃ b, holds sb ino (update s.disk x d) (j, dataPlace n) = some b) ↔ _
    rw [hsame]
    exact h.has j hj n hn
  · intro j hj
    change (∃ b, holds sb ino (update s.disk x d) (j, ndirect) = some b) ↔ _
    rw [hsame]
    exact h.ind j hj
  · intro j n b hb k hk
    change holds sb ino (update s.disk x d) (j, dataPlace n) = some b at hb
    change (update s.disk x d b).byte k = _
    rw [hsame] at hb
    by_cases hbx : b = x
    · subst hbx
      have hq := h.owns.inj _ _ _ hb hx
      rw [Prod.mk.injEq] at hq
      obtain ⟨rfl, hn⟩ := hq
      obtain rfl := dataPlace_inj hn
      rw [update_self, update_self]
      exact hnew k hk
    · rw [update_of_ne hbx, h.bytes j n b hb k hk]
      by_cases hji : j = i
      · subst hji
        rw [update_self, hold]
        have hn : n < maxFile := by
          have hptr := (place_eq_some.mp (holds_eq_some.mp hb).2).2.1
          have h1 : maxFile = ndirect + nindirect := rfl
          have h2 : nptr = ndirect + 1 + nindirect := rfl
          unfold dataPlace at hptr
          split_ifs at hptr <;> omega
        have hlt := (h.has j hi n hn).mp ⟨b, hb⟩
        have hne : n ≠ fbn := by
          rintro rfl
          exact hbx (Option.some.inj (hb.symm.trans hx))
        have hsucc : (n + 1) * bsize ≤ fbn * bsize := Nat.mul_le_mul_right _ (by omega)
        rw [Nat.succ_mul] at hsucc
        omega
      · rw [update_of_ne hji]

lemma byte_splice_append {buf : Block} {n1 k : ℕ} (hoff : l.length = off)
    (hfbn : off / bsize = fbn) (hn1 : n1 ≤ p.length)
    (hbuf : ∀ k < bsize, buf.byte k = l.getD (fbn * bsize + k) 0) (hk : k < bsize) :
    (buf.splice (off - fbn * bsize) n1 fun j => p.getD j 0).byte k =
      (l ++ p.take n1).getD (fbn * bsize + k) 0 := by
  have hlow : fbn * bsize ≤ off := by
    rw [← hfbn]
    exact Nat.div_mul_le_self _ _
  by_cases h1 : fbn * bsize + k < off
  · rw [Block.byte_splice_of_not (by omega), hbuf k hk, getD_append _ _ _ _ (by omega)]
  · rw [getD_append_right _ _ _ _ (by omega), hoff]
    by_cases h2 : fbn * bsize + k < off + n1
    · rw [Block.byte_splice_of_mem (by omega) (by omega) hk]
      have he : fbn * bsize + k - off = k - (off - fbn * bsize) := by omega
      rw [he, getD_eq_getElem?_getD, getD_eq_getElem?_getD, getElem?_take_of_lt (by omega)]
    · rw [Block.byte_splice_of_not (by omega), hbuf k hk, getD_eq_default _ _ (by omega),
        getD_eq_default _ _ (by rw [length_take]; omega)]

lemma Tidy.fill {r : Dinode × ℕ} {n1 : ℕ} (h : Tidy data ino s) (hi : i < ninodes)
    (hoff : (data i).length = off) (hfbn : off / bsize = fbn) (hmax : fbn < maxFile) (hpos : 0 < n1) (hn1 : n1 ≤ p.length)
    (hend : off + n1 ≤ (fbn + 1) * bsize)
    (hfound : Found (nbOf data) (niOf data) data ino i fbn s r s') (hx : r.2 < fssize)
    (hd : d = (s'.disk r.2).splice (off - fbn * bsize) n1 fun j => p.getD j 0) :
    Tidy (update data i (data i ++ p.take n1)) (update ino i r.1)
      { s' with disk := update s'.disk r.2 d } := by
  subst hd
  have hlow : fbn * bsize ≤ off := by
    rw [← hfbn]
    exact Nat.div_mul_le_self _ _
  have hspread : spread (data i ++ p.take n1).length = fbn + 1 := by
    rw [length_append, length_take, hoff, min_eq_left hn1]
    unfold spread
    unfold bsize at *
    omega
  refine ⟨?_, ?_, ?_⟩
  · rw [nbOf_update, niOf_update, hspread]
    refine hfound.vol.fill hi (update_self _ _ _) hfound.held ?_ ?_
    · intro k hk
      exact byte_splice_append hoff hfbn hn1 (fun k hk => hfound.vol.bytes _ _ _ hfound.held k hk) hk
    · intro k hk
      exact getD_append _ _ _ _ (by omega)
  · change s'.freeblock ≤ fssize
    rcases hfound.last with hle | hlast <;> omega
  · intro j
    by_cases hj : j = i
    · rw [hj, update_self, length_append, length_take, hoff, min_eq_left hn1]
      exact hend.trans (Nat.mul_le_mul_right _ hmax)
    · rw [update_of_ne hj]
      exact h.cap j

theorem iappendFrom_spec (h : Tidy data ino s) (hi : i < ninodes) (ht : (ino i).type ≠ 0)
    (hoff : (data i).length = off) (hfuel : p.length ≤ fuel)
    (hbig : maxFile * bsize < off + p.length → E)
    (hfull : fssize < nmeta + need (update data i (data i ++ p)) → E) :
    wp (iappendFrom fuel (ino i) off p) (fun r s' =>
      Tidy (update data i (data i ++ p)) (update ino i r.1) s' ∧
      r.2 = off + p.length ∧ r.1 = { ino i with addrs := r.1.addrs } ∧ Low s s')
      (fun _ _ => E) s := by
  induction fuel generalizing data ino s off p with
  | zero =>
    have hnil : p = [] := eq_nil_of_length_eq_zero (by omega)
    subst hnil
    refine wp_pure ⟨?_, rfl, rfl, Low.refl⟩
    rw [append_nil, update_eq_self, update_eq_self]
    exact h
  | succ fuel ih =>
    unfold iappendFrom
    by_cases hp : 0 < p.length
    · rw [if_pos hp]
      by_cases hmax : off / bsize < maxFile
      · rw [if_pos hmax]
        generalize hfbn : off / bsize = fbn at hmax ⊢
        have hlow := Nat.lt_div_mul_add (b := bsize) (by decide) (a := off)
        rw [hfbn] at hlow
        have hend : off < (fbn + 1) * bsize := by
          rw [Nat.succ_mul]
          exact hlow
        have hdown : fbn * bsize ≤ off := by
          rw [← hfbn]
          exact Nat.div_mul_le_self _ _
        dsimp only
        generalize hn1 : min p.length ((fbn + 1) * bsize - off) = n1
        have hpos : 0 < n1 := by omega
        have hple : n1 ≤ p.length := by omega
        have hfit : off + n1 ≤ (fbn + 1) * bsize := by omega
        have hgrow : ∀ j, (update data i (data i ++ p.take n1) j).length ≤
            (update data i (data i ++ p) j).length := by
          intro j
          by_cases hj : j = i
          · subst hj
            simp
          · simp [hj]
        have hspread : spread (data i ++ p.take n1).length = fbn + 1 := by
          rw [length_append, length_take, hoff]
          unfold spread
          unfold bsize at *
          omega
        have hE : fssize < nmeta + need (update data i (data i ++ p.take n1)) → E :=
          fun hlt => hfull (lt_of_lt_of_le hlt (Nat.add_le_add_left (need_mono hgrow) _))
        have hblock := hE
        unfold need at hblock
        rw [nbOf_update, niOf_update, hspread] at hblock
        refine wp_seq (iappendBlock_spec h.vol hi ht rfl hmax ?_ h.le hblock) ?_
        · have hnb : nbOf data i = spread off := by
            unfold nbOf
            rw [hoff]
          rw [hnb, hoff]
          unfold spread
          unfold bsize at *
          omega
        rintro ⟨din, x⟩ s1 hfound
        have hheld := hfound.vol.held hfound.held
        refine wp_bind (wp_rsect hfound.vol.size hfound.le ?_ ?_)
        · intro hlt
          refine wp_bind (wp_wsect hfound.vol.size hlt ?_)
          have htidy := h.fill (p := p) hi hoff hfbn hmax hpos hple hfit hfound hlt rfl
          have hdata : update (update data i (data i ++ p.take n1)) i
              (update data i (data i ++ p.take n1) i ++ p.drop n1) =
              update data i (data i ++ p) := by
            rw [update_self, update_idem, append_assoc, take_append_drop]
          have hlen : (p.drop n1).length = p.length - n1 := length_drop
          have hoff1 : (update data i (data i ++ p.take n1) i).length = off + n1 := by
            rw [update_self, length_append, length_take]
            omega
          have hrest := ih (p := p.drop n1) htidy ?_ hoff1 (by omega) ?_ ?_
          · rw [update_self, hdata] at hrest
            refine wp_post hrest ?_
            rintro r s2 ⟨htidy2, hr2, hr1, hlow2⟩
            rw [update_idem] at htidy2
            refine ⟨htidy2, by omega, ?_, ?_⟩
            · rw [hr1, hfound.fields]
            · exact hfound.low.trans ((Low.write hheld.1).trans hlow2)
          · rw [update_self, hfound.fields]
            exact ht
          · intro hlt'
            exact hbig (by omega)
          · rw [hdata]
            exact hfull
        · intro hge
          refine hblock ?_
          have hroom := hfound.vol.room
          omega
      · rw [if_neg hmax]
        refine wp_throw (hbig ?_)
        have hle := Nat.le_of_not_lt hmax
        have hmul := (Nat.le_div_iff_mul_le (by decide)).mp hle
        omega
    · have hnil : p = [] := eq_nil_of_length_eq_zero (by omega)
      subst hnil
      rw [if_neg hp]
      refine wp_pure ⟨?_, rfl, rfl, Low.refl⟩
      rw [append_nil, update_eq_self, update_eq_self]
      exact h

end append

end Xv6.Mkfs
