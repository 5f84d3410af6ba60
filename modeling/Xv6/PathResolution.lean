import Xv6.FileBytes
import Xv6.Path

/-! `namei` and `nameiparent` on a tree of directories. -/
namespace Xv6

open Program

variable {sb : Superblock} {rc : ℕ → ℕ} {s s' : Fs} {cwd : Slot} {D : Set ℕ}

/-- All inodes have the references that they had, but for one more to inode `i`. -/
def OneMore (s : Fs) (i : ℕ) (s' : Fs) : Prop := ∀ j, s'.refs j = s.refs j + if j = i then 1 else 0

lemma Steady.oneMore {T : Prop} {c : ℕ → Block} {loose : Set ℕ} {L L' : Finset ℕ} {i : ℕ}
    (h : Steady sb T c loose rc L s) (h' : Steady sb T c loose (gain rc i) L' s') :
    OneMore s i s' := by
  intro j
  rw [h.refs, h'.refs]
  split_ifs with hj
  · rw [hj, gain_self]
    rfl
  · rw [gain_of_ne hj, add_zero]

/-- Names in a tree that nobody changes lead where the fold over their elements says, and `namex`
gives back every reference but the one it returns. -/
theorem path_resolution {d : ℕ} (h : Steady sb True s.blocks ∅ rc ∅ s) (hcwd : Has s.itable cwd d)
    (hT : Tree sb s.blocks rc D) (hroot : rootIno ∈ D) (hd : d ∈ D) (path : List Byte) :
    wp (namei cwd path) (fun r s' => s'.blocks = s.blocks ∧
      match resolve sb s.blocks (pathStart d path) (elements path) with
      | none => r = none ∧ ∀ j, s'.refs j = s.refs j
      | some i => ∃ q, r = some q ∧ Has s'.itable q i ∧ OneMore s i s') Starved s ∧
    wp (nameiparent cwd path) (fun r s' => s'.blocks = s.blocks ∧
      match resolveParent sb s.blocks (pathStart d path) (elements path) with
      | none => r = none ∧ ∀ j, s'.refs j = s.refs j
      | some (i, name) => ∃ q, r = some (q, name) ∧ Has s'.itable q i ∧ OneMore s i s')
      Starved s ∧
    (∀ p q, elements (p ++ 47 :: 47 :: q) = elements (p ++ 47 :: q) ∧
      elements (p ++ [47]) = elements p) ∧
    ∀ p name rest, skipelem p = some (name, rest) → rest.length < p.length := by
  have hfail : ∀ {s'}, Steady sb True s.blocks ∅ rc ∅ s' →
      s'.blocks = s.blocks ∧ ∀ j, s'.refs j = s.refs j := by
    intro s' hs'
    exact ⟨hs'.blocks_eq, fun j => by rw [hs'.refs, h.refs]⟩
  refine ⟨?_, ?_, fun p q => elements_slashes, fun p name rest hs => (skipelem_some hs).2.1⟩
  · unfold namei
    refine wp_seq (namex_spec h hcwd hT hroot hd path) ?_
    intro r s' hw
    rw [← walk_false _ []]
    unfold Walked at hw
    cases hwant : walk sb s.blocks false (pathStart d path) [] (elements path) with
    | none =>
      rw [hwant] at hw
      obtain ⟨hb, hr⟩ := hfail hw.2.1
      exact wp_pure ⟨hb, by rw [hw.1]; rfl, hr⟩
    | some w =>
      rw [hwant] at hw
      obtain ⟨q, rfl, hq, hs', -⟩ := hw
      exact wp_pure ⟨hs'.blocks_eq, q, rfl, hq, h.oneMore hs'⟩
  · unfold nameiparent
    refine wp_post (namex_spec h hcwd hT hroot hd path) ?_
    intro r s' hw
    rw [walk_true] at hw
    unfold Walked at hw
    cases hwant : resolveParent sb s.blocks (pathStart d path) (elements path) with
    | none =>
      rw [hwant] at hw
      obtain ⟨hb, hr⟩ := hfail hw.2.1
      exact ⟨hb, hw.1, hr⟩
    | some w =>
      rw [hwant] at hw
      obtain ⟨q, hr, hq, hs', -⟩ := hw
      exact ⟨hs'.blocks_eq, q, hr, hq, h.oneMore hs'⟩

namespace Mkfs

variable {ino : ℕ → Dinode} {d : Image} {files : List Input}

lemma Made.tree (h : Made files ino d) (hfew : files.length ≤ 198)
    (hmod : (files.length + 2) % 64 ≠ 0) (rc : ℕ → ℕ) :
    Tree Mkfs.sb d.disk rc {i | 0 < i ∧ i < d.freeinode} := by
  have hlt : ∀ {i}, i < d.freeinode → i < ninodes := fun hi => h.lt hfew hi
  have hdir : ∀ {i}, 0 < i → i < d.freeinode → (dinodeAt Mkfs.sb d.disk i).type = tDir →
      i = rootIno := by
    intro i h0 hi ht
    rw [h.sync i (hlt hi), (h.live i h0 hi).1] at ht
    by_contra hne
    rw [if_neg hne] at ht
    exact absurd ht (by decide)
  constructor
  · rintro i ⟨h0, hi⟩
    refine ⟨hlt hi, ?_, .inl ?_⟩
    · rw [h.sync i (hlt hi)]
      exact h.type_ne h0 hi
    · rw [h.sync i (hlt hi), (h.live i h0 hi).2]
      decide
  · rintro i ⟨h0, hi⟩ ht
    rw [hdir h0 hi ht, h.sync rootIno (by decide), h.root]
    exact Dvd.dvd.mul_left (by decide) _
  · rintro i ⟨h0, hi⟩ ht e he hne
    rw [hdir h0 hi ht, h.sync rootIno (by decide)] at he hne ⊢
    have hnum := h.inodes
    by_cases hle : files.length + 2 ≤ e
    · exact absurd (h.direntAt_rest hfew hmod hle he) hne
    · rw [h.direntAt hfew (by omega)]
      match e, hle with
      | 0, _ => exact ⟨Nat.one_pos, by rw [hnum]; exact Nat.lt_add_left _ Nat.one_lt_two⟩
      | 1, _ => exact ⟨Nat.one_pos, by rw [hnum]; exact Nat.lt_add_left _ Nat.one_lt_two⟩
      | k + 2, hle =>
        have hk : files[k]? = some files[k] := List.getElem?_eq_getElem (by omega)
        rw [getD_rootEntries hk]
        exact ⟨by simp only; omega, by simp only; omega⟩

end Mkfs

/-- The path `/a` on an image with the file `a`, from the root directory. -/
theorem path_resolution_a : ∃ (s : Fs) (cwd : Slot), Has s.itable cwd rootIno ∧
    wp (namei cwd [47, 97]) (fun r s' => s'.blocks = s.blocks ∧
      ∃ q, r = some q ∧ Has s'.itable q 2 ∧ OneMore s 2 s') Starved s := by
  obtain ⟨d, hd⟩ := Mkfs.mkfs_isSome (by decide) Mkfs.acceptable_hiFile
  obtain ⟨ino, hm⟩ := Mkfs.made_of_mkfs hd (by decide)
  obtain ⟨s, -, h, hi⟩ := (hm.steady (by decide) (by decide)).exists_taken (i := rootIno)
    (rfl : ((Mkfs.operating d.disk).itable 0).ref = 0) rfl
  have hb := h.blocks_eq
  have hT := hm.tree (by decide) (by decide) (gain (fun _ => 0) rootIno)
  have hroot : rootIno ∈ {i | 0 < i ∧ i < d.freeinode} := by
    rw [Set.mem_ofPred_eq, hm.inodes]
    decide
  have hchild : child Mkfs.sb d.disk rootIno (nameOf [97]) = some 2 := by
    have hhi : [Mkfs.hiFile][0]? = some Mkfs.hiFile := rfl
    have hnamed : ∀ f ∈ [Mkfs.hiFile], Mkfs.Named f := by
      intro f hf
      obtain rfl := List.mem_singleton.mp hf
      exact ⟨by decide, by decide, by decide⟩
    have hname : Mkfs.hiFile.shortname = [97] := by decide
    obtain ⟨hmiss, hhit, hinum⟩ := hm.matches (by decide) (by simp) hnamed hhi
    rw [hname] at hmiss hhit
    have htype : (ino rootIno).type = tDir := (hm.live rootIno (by decide) hroot.2).1
    have hfind : (ino rootIno).lookup d.disk (nameOf [97]) = some 2 := by
      unfold Dinode.lookup
      rw [List.find?_range_eq_some]
      refine ⟨decide_eq_true hhit, List.mem_range.mpr ?_, fun e he => ?_⟩
      · rw [hm.root]
        decide
      · rw [decide_eq_false (hmiss e he)]
        rfl
    unfold child
    rw [hm.sync rootIno (by decide), if_pos htype, hfind]
    exact congrArg some hinum
  have hres : resolve Mkfs.sb d.disk (pathStart rootIno [47, 97]) (elements [47, 97]) = some 2 := by
    have hel : elements [47, 97] = [nameOf [97]] := by decide
    have hstart : pathStart rootIno [47, 97] = rootIno := rfl
    rw [hel, hstart, resolve_cons, hchild]
    rfl
  rw [← hb] at h hT hres
  refine ⟨s, 0, hi, ?_⟩
  have hpath := (path_resolution h hi hT hroot hroot [47, 97]).1
  rw [hres] at hpath
  exact hpath

end Xv6
