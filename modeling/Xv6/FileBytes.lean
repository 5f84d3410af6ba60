import Xv6.MkfsVolume

/-! `readi` and `writei` on a file as an array of bytes. -/
namespace Xv6

open Program Dinode List

variable {sb : Superblock} {rc : ℕ → ℕ} {L : Finset ℕ} {s : Fs} {ip : Slot} {i : ℕ}
  {x y : Dinode} {c c' : ℕ → Block}

def Fs.blocks (s : Fs) (b : ℕ) : Block := s.kernel.content rootDev b

def Fs.file (s : Fs) (i : ℕ) : List Byte := (dinodeAt s.sb s.blocks i).bytes s.blocks

theorem Steady.blocks_eq {loose : Set ℕ} (h : Steady sb True c loose rc L s) : s.blocks = c := by
  funext b
  refine h.disk.store.agree b (.inl ?_)
  rw [h.sure trivial]
  exact Set.notMem_empty b

lemma Steady.file_eq {loose : Set ℕ} (h : Steady sb True c loose rc L s) (j : ℕ) :
    s.file j = (dinodeAt sb c j).bytes c := by
  unfold Fs.file
  rw [h.super, h.blocks_eq]

@[simp]
lemma length_bytes : (x.bytes c).length = x.size := by simp [Dinode.bytes]

lemma getElem_bytes {o : ℕ} (ho : o < (x.bytes c).length) : (x.bytes c)[o] = x.byteAt c o := by
  simp [Dinode.bytes]

lemma drop_take_bytes {off n : ℕ} (hn : off + n ≤ x.size) :
    (range n).map (fun j => x.byteAt c (off + j)) = ((x.bytes c).drop off).take n := by
  refine ext_getElem (by simp; omega) fun o h1 h2 => ?_
  rw [getElem_map, getElem_range, getElem_take, getElem_drop, getElem_bytes]

lemma bytes_of_write {off m : ℕ} {data : ℕ → Byte} (hoff : off ≤ x.size)
    (hsize : y.size = max x.size (off + m))
    (hb : ∀ o < y.size, y.byteAt c' o =
      if off ≤ o ∧ o < off + m then data (o - off) else x.byteAt c o) :
    y.bytes c' = (x.bytes c).take off ++ (range m).map data ++ (x.bytes c).drop (off + m) := by
  refine ext_getElem (by simp; omega) fun o h1 h2 => ?_
  rw [length_bytes] at h1
  rw [getElem_bytes, hb o h1, getElem_append]
  by_cases hlow : o < off
  · rw [if_neg (by omega), dif_pos (by simp; omega), getElem_append, dif_pos (by simp; omega),
      getElem_take, getElem_bytes]
  · by_cases hin : o < off + m
    · rw [if_pos (by omega), dif_pos (by simp; omega), getElem_append, dif_neg (by simp; omega),
        getElem_map, getElem_range]
      congr 1
      simp
      omega
    · rw [if_neg (by omega), dif_neg (by simp; omega), getElem_drop, getElem_bytes]
      congr 1
      simp
      omega

def OutOfRange (size off n : ℕ) : Prop :=
  size < off ∨ 2 ^ 32 ≤ off + n ∨ maxFile * bsize < off + n

instance (size off n : ℕ) : Decidable (OutOfRange size off n) :=
  inferInstanceAs (Decidable (size < off ∨ 2 ^ 32 ≤ off + n ∨ maxFile * bsize < off + n))

lemma refused_iff {size off n : ℕ} (ho : off < 2 ^ 32) (hn : n < 2 ^ 32) :
    Refused size off n ↔ OutOfRange size off n := by
  unfold Refused OutOfRange uint
  omega

/-- `readi` and `writei` work on an array of bytes. They stop only for want of a free buffer, of
room in the log, or of a transaction. -/
theorem file_refines_bytes {data : ℕ → Byte} {off n : ℕ}
    (h : Steady sb True s.blocks ∅ rc L s) (hi : Has s.itable ip i) (hl : i ∈ L)
    (ht : (dinodeAt sb s.blocks i).type ≠ 0) (ho : off < 2 ^ 32) (hn : n < 2 ^ 32) :
    wp (readi ip (fun _ _ => true) off n) (fun r s' => s'.blocks = s.blocks ∧ s'.itable = s.itable ∧
      (off ≤ (s.file i).length → off + n < 2 ^ 32 → r = some (((s.file i).drop off).take n)))
      Starved s ∧
    wp (writei ip (.kernel data) off n) (fun r s' =>
      if OutOfRange (s.file i).length off n then r = -1 ∧ s' = s
      else ∃ tot : ℕ, r = tot ∧ tot ≤ n ∧ (tot < n → freeBlocks sb s'.blocks = ∅) ∧
        s'.file i = (s.file i).take off ++ (range tot).map data ++
          (s.file i).drop (off + tot) ∧
        (s'.file i).length = max (s.file i).length (off + tot) ∧
        (∀ j < sb.ninodes, j ≠ i → (dinodeAt sb s.blocks j).type ≠ 0 → s'.file j = s.file j) ∧
        Steady sb True s'.blocks ∅ rc L s') Starved s := by
  have hlt := h.locked_lt hi hl
  have hw := h.work hi hl ht
  have hfile := h.file_eq i
  have hmem := hw.mem
  constructor
  · refine wp_post (readi_whole starved_of_spent h.idle hw.dev (by
      rw [hmem]
      exact h.readable hlt (.inl trivial) ht) (by
      rw [hmem]
      exact h.backed i hlt ht) hn) ?_
    rintro r s' ⟨hread, hr⟩
    refine ⟨(h.read hread).blocks_eq, hread.itable, fun hle hnw => ?_⟩
    rw [hfile, length_bytes] at hle
    rw [hmem, if_neg (by unfold uint; omega)] at hr
    rw [hr, hfile, drop_take_bytes (by omega)]
    congr 1
    refine take_eq_take_iff.mpr ?_
    simp
    omega
  · rw [hfile, length_bytes]
    refine wp_post (writei_steady h hi hl ht (fun _ => sure_kernel data) (.inl (sure_kernel data)) hn) ?_
    rintro r s' (⟨href, hr, hs⟩ | ⟨hnr, m, c', loose', hr, hle, hs', -, hfw, -, hfull, -⟩)
    · rw [if_pos ((refused_iff ho hn).mp href)]
      exact ⟨hr, hs⟩
    · have hnr' := mt (refused_iff ho hn).mpr hnr
      rw [if_neg hnr']
      have hc' := hs'.blocks_eq
      have hloose : loose' = ∅ := hs'.sure trivial
      subst hloose
      have hoff : off ≤ (dinodeAt sb s.blocks i).size := by
        unfold OutOfRange at hnr'
        omega
      have hbytes := bytes_of_write hoff hfw.size (hfw.bytes (.inl trivial) data rfl)
      refine ⟨m, hr, hle, fun hlt' => ?_, ?_, ?_, ?_, ?_⟩
      · rw [hc']
        exact hfull (sure_kernel data) hlt'
      · rw [hs'.file_eq, hbytes]
      · rw [hs'.file_eq, length_bytes]
        exact hfw.size
      · intro j hj hji hj0
        rw [hs'.file_eq, h.file_eq]
        exact ((hfw.others j hj hji).same hj0).bytes (.inl trivial)
      · rw [hc']
        exact hs'

/-- The file `a` of an image that `mkfs` made, with the bytes `hi`: one byte written at offset 1. -/
theorem file_refines_bytes_hi : ∃ (s : Fs) (ip : Slot), s.file 2 = [104, 105] ∧
    wp (writei ip (.kernel fun _ => 33) 1 1) (fun r s' => ∃ tot : ℕ, r = tot ∧ tot ≤ 1 ∧
      (tot < 1 → freeBlocks Mkfs.sb s'.blocks = ∅) ∧
      s'.file 2 = [104] ++ (range tot).map (fun _ => 33) ++ [104, 105].drop (1 + tot))
      Starved s := by
  obtain ⟨d, ino, s, hm, h, hi, hlive, htype⟩ := Mkfs.exists_hiFile_locked
  have hb := h.blocks_eq
  have hfile : s.file 2 = [104, 105] := by
    have hhi : [Mkfs.hiFile][0]? = some Mkfs.hiFile := rfl
    have hcont : Mkfs.contents [Mkfs.hiFile] 2 = [104, 105] := Mkfs.contents_file hhi
    rw [h.file_eq, hm.sync 2 (by decide)]
    unfold Dinode.bytes
    rw [hm.length 2 (by decide) (by decide), hcont]
    refine ext_getElem rfl fun o h1 h2 => ?_
    rw [getElem_map, getElem_range, hm.byteAt (by decide) (by decide) hlive
      (by rw [hcont]; exact h2), hcont, getD_eq_getElem _ _ h2]
  rw [← hb] at h htype
  refine ⟨s, 0, hfile, wp_post (file_refines_bytes h hi (Finset.mem_insert_self 2 ∅) htype
    (by decide) (by decide)).2 ?_⟩
  intro r s' hr
  rw [hfile] at hr
  rw [if_neg (by unfold OutOfRange; decide)] at hr
  obtain ⟨tot, hr, hle, hfull, hbytes, -⟩ := hr
  exact ⟨tot, hr, hle, hfull, hbytes⟩

end Xv6
