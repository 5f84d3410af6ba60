import Xv6.InodeTable

/-! `dirlookup`, `dirlink` and the writing of one entry, between the calls of `fs.c`. -/
namespace Xv6

open Program Dinode

variable {sb : Superblock} {c c' : ℕ → Block} {loose : Set ℕ} {T : Prop} {rc rc' : ℕ → ℕ}
  {L : Finset ℕ} {t t' t'' : Slot → Inode} {s : Fs} {ip : Slot} {i e : ℕ} {x : Dinode}
  {de : Dirent}

theorem Retains.refl : Retains rc t t := fun _ _ h _ => h

theorem Retains.trans (h : Retains rc t t') (h' : Retains rc' t' t'')
    (hle : ∀ i, 0 < rc' i → 0 < rc i) : Retains rc' t t'' :=
  fun ip i hi hp => h' ip i (h ip i hi (hle i hp)) hp

/-- What `dirlookup` of `name` returns: a reference to the inode of the entry it finds. -/
def LookedUp (sb : Superblock) (T : Prop) (c : ℕ → Block) (loose : Set ℕ) (rc : ℕ → ℕ)
    (L : Finset ℕ) (x : Dinode) (name : List Byte) (s : Fs) (r : Option (Slot × ℕ)) (s' : Fs) :
    Prop :=
  match x.lookup c name with
  | none => r = none ∧ Steady sb T c loose rc L s' ∧ Retains rc s.itable s'.itable
  | some e => ∃ q, r = some (q, e * direntSize) ∧ Has s'.itable q (x.direntAt c e).inum ∧
      Steady sb T c loose (gain rc (x.direntAt c e).inum) L s' ∧
      Retains (gain rc (x.direntAt c e).inum) s.itable s'.itable ∧
      (rc (x.direntAt c e).inum = 0 → (s'.itable q).valid = false)

theorem dirlookup_spec (h : Steady sb T c loose rc L s) (hi : Has s.itable ip i) (hl : i ∈ L)
    (ht : (dinodeAt sb c i).type = tDir) (hw : direntSize ∣ (dinodeAt sb c i).size)
    (name : List Byte) :
    wp (dirlookup ip name) (LookedUp sb T c loose rc L (dinodeAt sb c i) name s) Starved s := by
  have h0 : (dinodeAt sb c i).type ≠ 0 := by
    rw [ht]
    decide
  have hwork := h.work hi hl h0
  have hscan := h.scannable hwork.lt ht hw
  refine dirlookup_rule starved_of_spent h.idle hwork.dev hwork.mem ht (hscan.searchable name) ?_
  intro s1 h1
  have hs1 := h.read h1
  unfold LookedUp
  cases hf : (dinodeAt sb c i).lookup c name with
  | none =>
    refine ⟨rfl, hs1, ?_⟩
    rw [h1.itable]
    exact Retains.refl
  | some e =>
    refine wp_post (iget_spec hs1 _) ?_
    rintro q s2 ⟨hq, h2, hk, -, hv⟩
    rw [h1.itable] at hk
    exact ⟨q, rfl, hq, h2, hk, hv⟩

def Room (sb : Superblock) (c : ℕ → Block) (x : Dinode) (e : ℕ) : Prop :=
  (e + 1) * direntSize ≤ maxFile * bsize ∧
    x.missing c (e * direntSize / bsize) ≤ (freeBlocks sb c).card

structure EntryWritten (sb : Superblock) (T : Prop) (i e : ℕ) (de : Dirent) (c c' : ℕ → Block) :
    Prop where
  others : ∀ j < sb.ninodes, j ≠ i → Alike sb T c c' j
  type : (dinodeAt sb c' i).type = (dinodeAt sb c i).type
  major : (dinodeAt sb c' i).major = (dinodeAt sb c i).major
  minor : (dinodeAt sb c' i).minor = (dinodeAt sb c i).minor
  nlink : (dinodeAt sb c' i).nlink = (dinodeAt sb c i).nlink
  size : (dinodeAt sb c' i).size = max (dinodeAt sb c i).size ((e + 1) * direntSize)
  entry : de.Fits → (dinodeAt sb c' i).direntAt c' e = de
  rest : ∀ e' < (dinodeAt sb c i).size / direntSize, e' ≠ e →
    (dinodeAt sb c' i).direntAt c' e' = (dinodeAt sb c i).direntAt c e'

theorem EntryWritten.whole (h : EntryWritten sb T i e de c c')
    (hw : direntSize ∣ (dinodeAt sb c i).size) : direntSize ∣ (dinodeAt sb c' i).size := by
  rw [h.size]
  rcases max_choice (dinodeAt sb c i).size ((e + 1) * direntSize) with hm | hm
  · rwa [hm]
  · rw [hm]
    exact Dvd.intro_left _ rfl

lemma FileWritten.entryWritten (h : FileWritten sb T i (.kernel (direntByte de))
      (e * direntSize) direntSize c c') (ht : (dinodeAt sb c i).type = tDir) :
    EntryWritten sb T i e de c c' := by
  have hs : direntSize = 16 := rfl
  have hend : (e + 1) * direntSize = e * direntSize + direntSize := Nat.succ_mul _ _
  have hbytes := h.bytes (.inr ht) _ rfl
  have hsize := h.size
  rw [← hend] at hsize
  refine ⟨h.others, h.type, h.major, h.minor, h.nlink, hsize, fun hde => ?_, fun e' he' hne => ?_⟩
  · refine Eq.trans ?_ (direntOf_direntByte hde)
    unfold Dinode.direntAt
    congr 1
    refine List.map_congr_left fun j hj => ?_
    rw [List.mem_range] at hj
    rw [hbytes _ (by omega), if_pos (by omega), Nat.add_sub_cancel_left]
  · unfold Dinode.direntAt
    congr 1
    refine List.map_congr_left fun j hj => ?_
    rw [List.mem_range] at hj
    have hle : (e' + 1) * direntSize ≤ (dinodeAt sb c i).size :=
      (Nat.le_div_iff_mul_le (by decide)).mp he'
    have hm : ∀ n, n * direntSize = n * 16 := fun _ => rfl
    rw [hm] at hle hbytes ⊢
    rw [hbytes _ (by omega), if_neg]
    omega

lemma FileWritten.alike {data : ℕ → Byte} {off : ℕ}
    (h : FileWritten sb T i (.kernel data) off 0 c c')
    (h0 : (dinodeAt sb c i).type ≠ 0) (hoff : off ≤ (dinodeAt sb c i).size) :
    ∀ j < sb.ninodes, Alike sb T c c' j := by
  intro j hj
  by_cases hji : j = i
  · have hsize := h.size
    rw [Nat.add_zero, max_eq_left hoff] at hsize
    subst hji
    refine .inl ⟨h0, h.type, h.major, h.minor, h.nlink, hsize, fun ht o ho => ?_⟩
    rw [h.bytes ht data rfl o (by omega), if_neg (by omega)]
  · exact h.others j hj hji

theorem writeDirent_spec (h : Steady sb T c loose rc L s) (hi : Has s.itable ip i) (hl : i ∈ L)
    (ht : (dinodeAt sb c i).type = tDir)
    (he : e * direntSize ≤ (dinodeAt sb c i).size) :
    wp (writeDirent ip (e * direntSize) de) (fun r s' => ∃ (c' : ℕ → Block) (loose' : Set ℕ),
      Steady sb T c' loose' rc L s' ∧ Retains rc s.itable s'.itable ∧
      (r = true ∧ Room sb c (dinodeAt sb c i) e ∧ EntryWritten sb T i e de c c' ∨
        r = false ∧ ¬ Room sb c (dinodeAt sb c i) e ∧ ∀ j < sb.ninodes, Alike sb T c c' j))
      Starved s := by
  have h0 : (dinodeAt sb c i).type ≠ 0 := by
    rw [ht]
    decide
  have hs : direntSize = 16 := rfl
  have hmax : maxFile * bsize = 274432 := rfl
  have hb : bsize = 64 * direntSize := rfl
  have hend : (e + 1) * direntSize = e * direntSize + direntSize := Nat.succ_mul _ _
  refine wp_seq (writei_steady h hi hl h0 (fun _ => sure_kernel _) (.inl (sure_kernel _))
    (by decide)) ?_
  rintro r s' (⟨href, rfl, rfl⟩ | ⟨hnr, m, c', loose', rfl, hle, h', hk, hw, hcut, -, hfirst⟩)
  · refine wp_pure ⟨c, loose, h, Retains.refl, .inr ⟨rfl, fun hroom => ?_, fun j _ => Alike.refl j⟩⟩
    have hfit := hroom.1
    unfold Refused uint at href
    omega
  · have hfit : (e + 1) * direntSize ≤ maxFile * bsize := by
      unfold Refused uint at hnr
      omega
    have hroom : Room sb c (dinodeAt sb c i) e ↔ m ≠ 0 := by
      rw [Ne, hfirst (sure_kernel _) (by decide), not_lt]
      exact and_iff_right hfit
    refine wp_pure ⟨c', loose', h', hk, ?_⟩
    by_cases hm : m = direntSize
    · subst hm
      exact .inl ⟨by simp, hroom.mpr (by decide), hw.entryWritten ht⟩
    · -- an entry does not straddle two blocks
      have hm0 : m = 0 := by
        rcases hcut (by omega) with hz | hz
        · exact hz
        · rw [hb, hs] at hz
          omega
      subst hm0
      exact .inr ⟨by simp [hs], fun hr => hroom.mp hr rfl, hw.alike h0 he⟩

theorem room_of_backed (hb : x.Backed c x.size) (he : (e + 1) * direntSize ≤ x.size) :
    Room sb c x e := by
  have hs : direntSize = 16 := rfl
  refine ⟨he.trans hb.1, ?_⟩
  have hend : (e + 1) * direntSize = e * direntSize + direntSize := Nat.succ_mul _ _
  have hptr := hb.2 (e * direntSize) (by omega)
  have hzero : x.missing c (e * direntSize / bsize) = 0 := by
    unfold Dinode.missing Xv6.missing
    split_ifs with hd ha
    · rfl
    · refine absurd ?_ hptr
      have hplace : dataPlace (e * direntSize / bsize) =
          ndirect + 1 + (e * direntSize / bsize - ndirect) := by
        unfold dataPlace
        rw [if_neg hd]
        omega
      rw [hplace]
      exact ptr_of_no_indirect ha _ _
    · rfl
  rw [hzero]
  exact Nat.zero_le _

def Dinode.newEntry (x : Dinode) (c : ℕ → Block) : ℕ := (x.firstFree c).getD (x.size / direntSize)

theorem newEntry_le : x.newEntry c ≤ x.size / direntSize := by
  unfold Dinode.newEntry
  cases hf : x.firstFree c with
  | none => exact le_rfl
  | some e =>
    have hm := List.mem_of_find?_eq_some hf
    exact (List.mem_range.mp hm).le

def newDirent (name : List Byte) (inum : ℕ) : Dirent := ⟨inum, nameOf (name.takeWhile (· ≠ 0))⟩

theorem dirlink_spec (h : Steady sb T c loose rc L s) (hi : Has s.itable ip i) (hl : i ∈ L)
    (ht : (dinodeAt sb c i).type = tDir) (hw : direntSize ∣ (dinodeAt sb c i).size)
    (name : List Byte) (inum : ℕ) :
    wp (dirlink ip name inum) (fun b s' => ∃ (c' : ℕ → Block) (loose' : Set ℕ),
      Steady sb T c' loose' rc L s' ∧ Retains rc s.itable s'.itable ∧
      (b = true ∧ (dinodeAt sb c i).lookup c name = none ∧
          Room sb c (dinodeAt sb c i) ((dinodeAt sb c i).newEntry c) ∧
          EntryWritten sb T i ((dinodeAt sb c i).newEntry c) (newDirent name inum) c c' ∨
        b = false ∧ ((dinodeAt sb c i).lookup c name ≠ none ∨
          ¬ Room sb c (dinodeAt sb c i) ((dinodeAt sb c i).newEntry c)) ∧
          ∀ j < sb.ninodes, Alike sb T c c' j)) Starved s := by
  have h0 : (dinodeAt sb c i).type ≠ 0 := by
    rw [ht]
    decide
  refine wp_seq (dirlookup_spec h hi hl ht hw name) ?_
  intro r s1 hr
  unfold LookedUp at hr
  cases hf : (dinodeAt sb c i).lookup c name with
  | none =>
    rw [hf] at hr
    obtain ⟨rfl, h1, hk1⟩ := hr
    have hi1 := hk1 ip i hi (h.slots.pos hi)
    have hwork := h1.work hi1 hl h0
    refine wp_bind (wp_inode ?_)
    rw [hwork.mem]
    refine wp_seq (emptyDirent_rule starved_of_spent h1.idle hwork.dev hwork.mem
      (h1.scannable hwork.lt ht hw)) ?_
    rintro off s2 ⟨hread, rfl⟩
    have h2 := h1.read hread
    have hi2 : Has s2.itable ip i := by
      rw [hread.itable]
      exact hi1
    refine wp_post (writeDirent_spec h2 hi2 hl ht
      ((Nat.mul_le_mul_right _ newEntry_le).trans (Nat.div_mul_le_self _ _))) ?_
    rintro b s3 ⟨c', loose', h3, hk3, hb⟩
    rw [hread.itable] at hk3
    refine ⟨c', loose', h3, hk1.trans hk3 fun _ hp => hp, ?_⟩
    rcases hb with ⟨rfl, hroom, hwr⟩ | ⟨rfl, hroom, hall⟩
    · exact .inl ⟨rfl, rfl, hroom, hwr⟩
    · exact .inr ⟨rfl, .inr hroom, hall⟩
  | some e =>
    rw [hf] at hr
    obtain ⟨q, rfl, hq, h1, hk1, hv⟩ := hr
    generalize (dinodeAt sb c i).direntAt c e = de at *
    -- the reference just taken is not the last one to a loaded inode
    have hkeep : gain rc de.inum de.inum ≠ 1 ∨ (s1.itable q).valid = false := by
      rw [gain_self]
      by_cases hz : rc de.inum = 0
      · exact .inr (hv hz)
      · exact .inl (by omega)
    have hheld : de.inum ∈ L → gain rc de.inum de.inum ≠ 1 := by
      intro hm
      have hp := h.slots.held _ hm
      rw [gain_self]
      omega
    refine wp_seq (iput_spec h1 hq hheld (hkeep.imp_right .inl)) ?_
    rintro _ s2 ⟨h2, hk2, -⟩
    rw [lose_gain] at h2 hk2
    refine wp_pure ⟨c, loose, h2, hk1.trans hk2 fun j hp => hp.trans_le (le_gain j), ?_⟩
    exact .inr ⟨rfl, .inl (Option.some_ne_none e), fun j _ => Alike.refl j⟩

end Xv6
