import Xv6.FileRead
import Xv6.WriteiSpec

/-! The inode table between the calls of `fs.c`: `iget`, `idup`, `ilock`, `iunlock`, and `iput`
where it frees nothing. -/
namespace Xv6

open Program Dinode Function Finset

variable {sb : Superblock} {ino ino' : ℕ → Dinode} {c : ℕ → Block} {loose : Set ℕ} {T : Prop}
  {rc rc' : ℕ → ℕ} {L L' : Finset ℕ} {t : Slot → Inode} {s s' s'' : Fs} {ip : Slot} {i j : ℕ}
  {x : Inode}

/-- A slot is free, or has all `rc i` references to an inode `i`. The inodes of `L` are locked
by the running call, and their copies are valid. -/
structure SlotOk (sb : Superblock) (ino : ℕ → Dinode) (rc : ℕ → ℕ) (L : Finset ℕ)
    (x : Inode) : Prop where
  nonneg : 0 ≤ x.ref
  dev : 0 < x.ref → x.dev = rootDev
  count : 0 < x.ref → x.ref = rc x.inum
  copy : 0 < x.ref → x.valid = true → x.inum < sb.ninodes ∧ x.din = ino x.inum
  locked : x.locked = true ↔ 0 < x.ref ∧ x.inum ∈ L
  loaded : 0 < x.ref → x.inum ∈ L → x.valid = true

def Has (t : Slot → Inode) (ip : Slot) (i : ℕ) : Prop := 0 < (t ip).ref ∧ (t ip).inum = i

structure Slots (sb : Superblock) (ino : ℕ → Dinode) (rc : ℕ → ℕ) (L : Finset ℕ)
    (t : Slot → Inode) : Prop where
  ok : ∀ ip, SlotOk sb ino rc L (t ip)
  slot : ∀ i, 0 < rc i → ∃ ip, Has t ip i
  inj : ∀ {ip iq i}, Has t ip i → Has t iq i → ip = iq
  held : ∀ i ∈ L, 0 < rc i

lemma Slots.count (h : Slots sb ino rc L t) (hi : Has t ip i) : (t ip).ref = rc i := by
  rw [(h.ok ip).count hi.1, hi.2]

theorem Slots.pos (h : Slots sb ino rc L t) (hi : Has t ip i) : 0 < rc i := by
  have hr := hi.1
  rw [h.count hi] at hr
  exact_mod_cast hr

def Retains (rc : ℕ → ℕ) (t t' : Slot → Inode) : Prop := ∀ ip i, Has t ip i → 0 < rc i → Has t' ip i

theorem SlotOk.congr (h : SlotOk sb ino rc L x) (hx : 0 < x.ref → x.inum ≠ i)
    (hino : ∀ j, j ≠ i → ino' j = ino j) (hrc : ∀ j, j ≠ i → rc' j = rc j)
    (hL : ∀ j, j ≠ i → (j ∈ L' ↔ j ∈ L)) : SlotOk sb ino' rc' L' x := by
  refine ⟨h.nonneg, h.dev, fun hr => ?_, fun hr hv => ?_, ?_, fun hr hl => ?_⟩
  · rw [hrc _ (hx hr), h.count hr]
  · rw [hino _ (hx hr)]
    exact h.copy hr hv
  · rw [h.locked]
    exact and_congr_right fun hr => (hL _ (hx hr)).symm
  · exact h.loaded hr ((hL _ (hx hr)).mp hl)

lemma Slots.set (h : Slots sb ino rc L t) (hold : 0 < (t ip).ref → (t ip).inum = i)
    (hfree : (t ip).ref = 0 → rc i = 0) (hino : ∀ j, j ≠ i → ino' j = ino j)
    (hrc : ∀ j, j ≠ i → rc' j = rc j) (hL : ∀ j, j ≠ i → (j ∈ L' ↔ j ∈ L))
    (hx : x.inum = i) (hok : SlotOk sb ino' rc' L' x) (hpos : 0 < rc' i → 0 < x.ref)
    (hheld : i ∈ L' → 0 < rc' i) :
    Slots sb ino' rc' L' (update t ip x) ∧ Retains rc' t (update t ip x) := by
  have hother : ∀ iq, iq ≠ ip → 0 < (t iq).ref → (t iq).inum ≠ i := by
    intro iq hne hr hi
    by_cases hp : 0 < (t ip).ref
    · exact hne (h.inj ⟨hr, hi⟩ ⟨hp, hold hp⟩)
    · have h0 := hfree (le_antisymm (not_lt.mp hp) (h.ok ip).nonneg)
      have hcnt := h.pos ⟨hr, hi⟩
      omega
  have hself : update t ip x ip = x := update_self ..
  have hkeep : Retains rc' t (update t ip x) := by
    intro iq j hj hpj
    by_cases hne : iq = ip
    · subst hne
      have hji : j = i := by rw [← hj.2, hold hj.1]
      subst hji
      exact ⟨by rw [hself]; exact hpos hpj, by rw [hself, hx]⟩
    · unfold Has
      rw [update_of_ne hne]
      exact hj
  have hat : ∀ {iq j}, iq ≠ ip → Has (update t ip x) iq j → Has t iq j ∧ j ≠ i := by
    intro iq j hne hj
    unfold Has at hj
    rw [update_of_ne hne] at hj
    refine ⟨hj, ?_⟩
    rw [← hj.2]
    exact hother iq hne hj.1
  have hatp : ∀ {j}, Has (update t ip x) ip j → j = i := by
    intro j hj
    have hj2 := hj.2
    rw [hself, hx] at hj2
    exact hj2.symm
  refine ⟨⟨?_, ?_, ?_, ?_⟩, hkeep⟩
  · intro iq
    by_cases hne : iq = ip
    · rw [hne, hself]
      exact hok
    · rw [update_of_ne hne]
      exact (h.ok iq).congr (hother iq hne) hino hrc hL
  · intro j hj
    by_cases hji : j = i
    · subst hji
      exact ⟨ip, by rw [hself]; exact hpos hj, by rw [hself, hx]⟩
    · obtain ⟨iq, hiq⟩ := h.slot j (by rw [← hrc j hji]; exact hj)
      exact ⟨iq, hkeep iq j hiq hj⟩
  · intro ia ib j ha hb
    by_cases hna : ia = ip
    · by_cases hnb : ib = ip
      · rw [hna, hnb]
      · rw [hna] at ha
        exact absurd (hatp ha) (hat hnb hb).2
    · by_cases hnb : ib = ip
      · rw [hnb] at hb
        exact absurd (hatp hb) (hat hna ha).2
      · exact h.inj (hat hna ha).1 (hat hnb hb).1
  · intro j hj
    by_cases hji : j = i
    · rw [hji] at hj ⊢
      exact hheld hj
    · rw [hrc j hji]
      exact h.held j ((hL j hji).mp hj)

def gain (rc : ℕ → ℕ) (i : ℕ) : ℕ → ℕ := update rc i (rc i + 1)

def lose (rc : ℕ → ℕ) (i : ℕ) : ℕ → ℕ := update rc i (rc i - 1)

@[simp]
theorem gain_self : gain rc i i = rc i + 1 := update_self ..

theorem gain_of_ne (h : j ≠ i) : gain rc i j = rc j := update_of_ne h ..

@[simp]
lemma lose_self : lose rc i i = rc i - 1 := update_self ..

lemma lose_of_ne (h : j ≠ i) : lose rc i j = rc j := update_of_ne h ..

@[simp]
theorem lose_gain : lose (gain rc i) i = rc := by
  funext j
  by_cases hj : j = i
  · subst hj
    simp
  · rw [lose_of_ne hj, gain_of_ne hj]

theorem le_gain (j : ℕ) : rc j ≤ gain rc i j := by
  by_cases hj : j = i
  · subst hj
    simp
  · rw [gain_of_ne hj]

section
variable (h : Slots sb ino rc L t)
include h

lemma Slots.addRef (hi : Has t ip i) :
    Slots sb ino (gain rc i) L (update t ip { t ip with ref := (t ip).ref + 1 }) ∧
      Retains (gain rc i) t (update t ip { t ip with ref := (t ip).ref + 1 }) := by
  have hok := h.ok ip
  have hr := hi.1
  refine h.set (fun _ => hi.2) (fun h0 => by omega) (fun _ _ => rfl) (fun j hj => gain_of_ne hj)
    (fun _ _ => Iff.rfl) hi.2 ?_ (fun _ => by simp only; omega) fun _ => by rw [gain_self]; omega
  refine ⟨by simp only; omega, fun _ => hok.dev hr, fun _ => ?_, fun _ hv => hok.copy hr hv, ?_,
    fun _ hl => hok.loaded hr hl⟩
  · change (t ip).ref + 1 = (gain rc i (t ip).inum : ℕ)
    rw [hi.2, gain_self, h.count hi]
    norm_cast
  · change (t ip).locked = true ↔ 0 < (t ip).ref + 1 ∧ _
    rw [hok.locked]
    exact ⟨fun hl => ⟨by omega, hl.2⟩, fun hl => ⟨hr, hl.2⟩⟩

lemma Slots.dropRef (hi : Has t ip i) (hl : i ∈ L → rc i ≠ 1) :
    Slots sb ino (lose rc i) L (update t ip { t ip with ref := (t ip).ref - 1 }) ∧
      Retains (lose rc i) t (update t ip { t ip with ref := (t ip).ref - 1 }) := by
  have hok := h.ok ip
  have hr := hi.1
  have hcount := h.count hi
  have hpos := h.pos hi
  refine h.set (fun _ => hi.2) (fun h0 => by omega) (fun _ _ => rfl) (fun j hj => lose_of_ne hj)
    (fun _ _ => Iff.rfl) hi.2 ?_ (fun h0 => ?_) fun hm => ?_
  · refine ⟨by simp only; omega, fun _ => hok.dev hr, fun _ => ?_, fun _ hv => hok.copy hr hv, ?_,
      fun _ hm => hok.loaded hr hm⟩
    · change (t ip).ref - 1 = (lose rc i (t ip).inum : ℕ)
      rw [hi.2, lose_self, hcount]
      omega
    · change (t ip).locked = true ↔ 0 < (t ip).ref - 1 ∧ (t ip).inum ∈ L
      rw [hok.locked, hi.2]
      refine ⟨fun hm => ⟨?_, hm.2⟩, fun hm => ⟨hr, hm.2⟩⟩
      have h1 := hl hm.2
      omega
  · rw [lose_self] at h0
    simp only
    omega
  · have h1 := hl hm
    rw [lose_self]
    omega

theorem Slots.take (h0 : (t ip).ref = 0) (hz : rc i = 0) :
    Slots sb ino (gain rc i) L (update t ip
        { t ip with dev := rootDev, inum := i, ref := 1, valid := false }) ∧
      Retains (gain rc i) t (update t ip
        { t ip with dev := rootDev, inum := i, ref := 1, valid := false }) := by
  have hnl : i ∉ L := by
    intro hl
    have hpos := h.held i hl
    omega
  refine h.set (fun hr => by omega) (fun _ => hz) (fun _ _ => rfl) (fun j hj => gain_of_ne hj)
    (fun _ _ => Iff.rfl) rfl ?_ (fun _ => (zero_lt_one : (0 : ℤ) < 1)) fun hm => absurd hm hnl
  refine ⟨(zero_le_one : (0 : ℤ) ≤ 1), fun _ => rfl, fun _ => ?_,
    fun _ hv => absurd hv Bool.false_ne_true, ?_,
    fun _ hl => absurd hl hnl⟩
  · change (1 : ℤ) = (gain rc i i : ℕ)
    rw [gain_self, hz]
    rfl
  · change (t ip).locked = true ↔ (0 : ℤ) < 1 ∧ i ∈ L
    rw [(h.ok ip).locked]
    exact ⟨fun hl => by omega, fun hl => absurd hl.2 hnl⟩

theorem Slots.lock (hi : Has t ip i) (hlt : i < sb.ninodes) :
    Slots sb ino rc (insert i L) (update t ip
        { t ip with locked := true, valid := true, din := ino i }) ∧
      Retains rc t (update t ip { t ip with locked := true, valid := true, din := ino i }) := by
  have hok := h.ok ip
  have hr := hi.1
  refine h.set (fun _ => hi.2) (fun h0 => by omega) (fun _ _ => rfl) (fun _ _ => rfl)
    (fun j hj => by rw [mem_insert, or_iff_right hj]) hi.2 ?_ (fun _ => hr)
    fun _ => h.pos hi
  refine ⟨hok.nonneg, hok.dev, hok.count, fun _ _ => ?_, ?_, fun _ _ => rfl⟩
  · rw [hi.2]
    exact ⟨hlt, rfl⟩
  · change true = true ↔ 0 < (t ip).ref ∧ (t ip).inum ∈ insert i L
    rw [hi.2]
    exact ⟨fun _ => ⟨hr, mem_insert_self i L⟩, fun _ => rfl⟩

lemma Slots.unlock (hi : Has t ip i) :
    Slots sb ino rc (L.erase i) (update t ip { t ip with locked := false }) ∧
      Retains rc t (update t ip { t ip with locked := false }) := by
  have hok := h.ok ip
  have hr := hi.1
  refine h.set (fun _ => hi.2) (fun h0 => by omega) (fun _ _ => rfl) (fun _ _ => rfl)
    (fun j hj => by rw [mem_erase, and_iff_right hj]) hi.2 ?_ (fun _ => hr)
    fun hm => absurd hm (notMem_erase i L)
  refine ⟨hok.nonneg, hok.dev, hok.count, hok.copy, ?_, fun hr hm => ?_⟩
  · change false = true ↔ 0 < (t ip).ref ∧ (t ip).inum ∈ L.erase i
    rw [hi.2]
    exact ⟨fun hf => absurd hf (by decide), fun hm => absurd hm.2 (notMem_erase i L)⟩
  · exact hok.loaded hr (mem_of_mem_erase hm)

theorem Slots.setDin {z : Dinode} (hi : Has t ip i) :
    Slots sb (update ino i z) rc L (update t ip { t ip with din := z }) ∧
      Retains rc t (update t ip { t ip with din := z }) := by
  have hok := h.ok ip
  have hr := hi.1
  refine h.set (fun _ => hi.2) (fun h0 => by omega) (fun j hj => update_of_ne hj ..)
    (fun _ _ => rfl) (fun _ _ => Iff.rfl) hi.2 ?_ (fun _ => hr) fun _ => h.pos hi
  refine ⟨hok.nonneg, hok.dev, hok.count, fun _ hv => ⟨(hok.copy hr hv).1, ?_⟩, hok.locked, hok.loaded⟩
  change z = update ino i z (t ip).inum
  rw [hi.2, update_self]

theorem Slots.congr (hino : ∀ i < sb.ninodes, ino' i = ino i) : Slots sb ino' rc L t := by
  refine ⟨fun ip => ?_, h.slot, h.inj, h.held⟩
  have hok := h.ok ip
  refine ⟨hok.nonneg, hok.dev, hok.count, fun hr hv => ?_, hok.locked, hok.loaded⟩
  obtain ⟨hlt, hd⟩ := hok.copy hr hv
  exact ⟨hlt, by rw [hino _ hlt, hd]⟩

end

/-- The state of the file system between calls of `fs.c`: the inodes on disk are current, every
used block has an owner, no file has holes, and `rc` counts the references to inodes. -/
structure Steady (sb : Superblock) (T : Prop) (c : ℕ → Block) (loose : Set ℕ) (rc : ℕ → ℕ)
    (L : Finset ℕ) (s : Fs) : Prop where
  super : s.sb = sb
  size : 0 < sb.size
  disk : Disk sb (dinodeAt sb c) ∅ c loose ∅ s.kernel
  slots : Slots sb (dinodeAt sb c) rc L s.itable
  backed : ∀ i < sb.ninodes, (dinodeAt sb c i).type ≠ 0 →
    (dinodeAt sb c i).Backed c (dinodeAt sb c i).size
  sure : T → loose = ∅

namespace Steady

theorem setTable (h : Steady sb T c loose rc L s) (hsb : s'.sb = s.sb)
    (hk : s'.kernel = s.kernel) (hs : Slots sb (dinodeAt sb c) rc' L' s'.itable) :
    Steady sb T c loose rc' L' s' :=
  ⟨by rw [hsb, h.super], h.size, by rw [hk]; exact h.disk, hs, h.backed, h.sure⟩

theorem setKernel (h : Steady sb T c loose rc L s) (hsb : s'.sb = s.sb)
    (ht : s'.itable = s.itable) (hd : Disk sb (dinodeAt sb c) ∅ c loose ∅ s'.kernel) :
    Steady sb T c loose rc L s' :=
  ⟨by rw [hsb, h.super], h.size, hd, by rw [ht]; exact h.slots, h.backed, h.sure⟩

end Steady

instance (t : Slot → Inode) (ip : Slot) (i : ℕ) : Decidable (Has t ip i) :=
  inferInstanceAs (Decidable (0 < (t ip).ref ∧ (t ip).inum = i))

def Fs.refs (s : Fs) (i : ℕ) : ℤ := ∑ ip, if Has s.itable ip i then (s.itable ip).ref else 0

theorem Steady.refs (h : Steady sb T c loose rc L s) (i : ℕ) : s.refs i = rc i := by
  unfold Fs.refs
  by_cases hp : 0 < rc i
  · obtain ⟨ip, hi⟩ := h.slots.slot i hp
    rw [sum_eq_single ip, if_pos hi, h.slots.count hi]
    · intro iq _ hne
      rw [if_neg fun hq => hne (h.slots.inj hq hi)]
    · exact fun hn => absurd (mem_univ ip) hn
  · have hz : rc i = 0 := by omega
    rw [hz]
    refine sum_eq_zero fun ip _ => if_neg fun hi => ?_
    exact hp (h.slots.pos hi)

lemma setInode_itable (s : Fs) (ip : Slot) (f : Inode → Inode) :
    (s.setInode ip f).itable = update s.itable ip (f (s.itable ip)) := rfl

def Disk.reader (sb : Superblock) (ino : ℕ → Dinode) (X : Set ℕ) (c : ℕ → Block) (loose : Set ℕ)
    (log : Log) : Reader c {b | b ∉ loose} Spent where
  idle k := k.log = log ∧ Disk sb ino X c loose ∅ k
  busy b k := k.log = log ∧ (∃ k0, Disk sb ino X c loose ∅ k0) ∧ Store sb c loose (insert b ∅) k
  bread hb h := wp_post (h.2.store.bread_sure (notMem_empty _) hb)
    (fun _ _ hk => ⟨by rw [hk.1, h.1], ⟨_, h.2⟩, hk.2⟩)
  bdata h hQ := h.2.2.bdata (mem_insert_self _ _) hQ
  brelse h := by
    obtain ⟨hl, ⟨k0, hd⟩, hs⟩ := h
    refine wp_post (hs.release (notMem_empty _)) ?_
    rintro _ k' ⟨hl', hs'⟩
    exact ⟨by rw [hl', hl], hd.laid, hs', hd.blocks, hd.loose, hd.held⟩

section calls

theorem starved_of_spent (e : Stop) (s : Fs) (h : Spent e s.kernel) : Starved e s := .inl h

abbrev Steady.reader (sb : Superblock) (c : ℕ → Block) (loose : Set ℕ) (log : Log) :
    Reader c {b | b ∉ loose} Spent := Disk.reader sb (dinodeAt sb c) ∅ c loose log

section
variable (h : Steady sb T c loose rc L s)
include h

theorem Steady.idle :
    (Steady.reader sb c loose s.kernel.log).idle s.kernel := ⟨rfl, h.disk⟩

theorem Steady.read (hs : (Steady.reader sb c loose s.kernel.log).Read s s') :
    Steady sb T c loose rc L s' :=
  h.setKernel hs.sb hs.itable hs.idle.2

/-- The blocks of a directory, or of any file if all contents are certain, can be read. -/
theorem Steady.readable (hi : i < sb.ninodes) (ht : T ∨ (dinodeAt sb c i).type = tDir)
    (h0 : (dinodeAt sb c i).type ≠ 0) : (dinodeAt sb c i).Readable c {b | b ∉ loose} := by
  intro q hq hp hl
  rcases ht with hT | hd
  · rw [h.sure hT] at hl
    exact hl
  · have hheld : holds sb (dinodeAt sb c) c (i, q) = some ((dinodeAt sb c i).ptr c q) :=
      holds_eq_some.mpr ⟨hi, place_eq_some.mpr ⟨h0, hq, rfl, hp⟩⟩
    have hf := ((h.disk.loose _ hl).2 _ hheld).1
    rw [hd] at hf
    exact absurd hf (by decide)

theorem Steady.scannable (hi : i < sb.ninodes) (ht : (dinodeAt sb c i).type = tDir)
    (hw : direntSize ∣ (dinodeAt sb c i).size) : (dinodeAt sb c i).Scannable c {b | b ∉ loose} := by
  have h0 : (dinodeAt sb c i).type ≠ 0 := by
    rw [ht]
    decide
  exact ⟨h.readable hi (.inr ht) h0, h.backed i hi h0, hw⟩

theorem iget_spec (i : ℕ) :
    wp (iget rootDev i) (fun ip s' => Has s'.itable ip i ∧
      Steady sb T c loose (gain rc i) L s' ∧ Retains (gain rc i) s.itable s'.itable ∧
      s'.kernel = s.kernel ∧ (rc i = 0 → (s'.itable ip).valid = false)) Starved s := by
  unfold iget
  refine wp_bind (wp_get ?_)
  cases hfind : (List.finRange ninode).find? (fun ip =>
      0 < (s.itable ip).ref ∧ (s.itable ip).dev = rootDev ∧ (s.itable ip).inum = i) with
  | some ip =>
    have hfound := List.find?_some hfind
    obtain ⟨hr, -, hi⟩ := of_decide_eq_true hfound
    have hhas : Has s.itable ip i := ⟨hr, hi⟩
    obtain ⟨hs, hk⟩ := h.slots.addRef hhas
    refine wp_bind (wp_modifyInode (wp_pure ?_))
    refine ⟨hk ip i hhas (by rw [gain_self]; omega), h.setTable rfl rfl hs, hk, rfl, fun h0 => ?_⟩
    have hpos := h.slots.pos hhas
    omega
  | none =>
    have hzero : rc i = 0 := by
      by_contra hne
      obtain ⟨ip, hip⟩ := h.slots.slot i (Nat.pos_of_ne_zero hne)
      rw [List.find?_eq_none] at hfind
      exact hfind ip (List.mem_finRange ip)
        (decide_eq_true ⟨hip.1, (h.slots.ok ip).dev hip.1, hip.2⟩)
    cases hfree : (List.finRange ninode).find? (fun ip => (s.itable ip).ref = 0) with
    | none =>
      refine wp_throw (.inr ⟨rfl, fun ip h0 => ?_⟩)
      rw [List.find?_eq_none] at hfree
      exact hfree ip (List.mem_finRange ip) (decide_eq_true h0)
    | some ip =>
      have hfound := List.find?_some hfree
      obtain ⟨hs, hk⟩ := h.slots.take (of_decide_eq_true hfound) hzero
      refine wp_bind (wp_modifyInode (wp_pure ?_))
      refine ⟨⟨?_, ?_⟩, h.setTable rfl rfl hs, hk, rfl, fun _ => ?_⟩
      all_goals rw [setInode_itable, update_self]
      exact (zero_lt_one : (0 : ℤ) < 1)

end

variable {E : Stop → Fs → Prop}

section
variable (h : Steady sb T c loose rc L s) (hi : Has s.itable ip i)
include h hi

theorem idup_spec :
    wp (idup ip) (fun iq s' => iq = ip ∧ Has s'.itable ip i ∧
      Steady sb T c loose (gain rc i) L s' ∧ Retains (gain rc i) s.itable s'.itable ∧
      s'.kernel = s.kernel) E s := by
  obtain ⟨hs, hk⟩ := h.slots.addRef hi
  unfold idup
  exact wp_bind (wp_modifyInode (wp_pure
    ⟨rfl, hk ip i hi (by rw [gain_self]; omega), h.setTable rfl rfl hs, hk, rfl⟩))

theorem ilock_spec (hlt : i < sb.ninodes) (ht : (dinodeAt sb c i).type ≠ 0) (hl : i ∉ L) :
    wp (ilock ip) (fun _ s' => Steady sb T c loose rc (insert i L) s' ∧
      Retains rc s.itable s'.itable ∧ s'.kernel.log = s.kernel.log) Starved s := by
  have hok := h.slots.ok ip
  have hr := hi.1
  obtain ⟨hs, hk⟩ := h.slots.lock hi hlt
  have hnl : s.sb.iblock (s.itable ip).inum ∉ loose := by
    rw [h.super, hi.2]
    intro hm
    have hge := (h.disk.loose _ hm).1.1
    have hlt := (h.disk.laid.iblock hlt h.size).1
    omega
  have hunl : (s.itable ip).locked = false := by
    rw [Bool.eq_false_iff]
    intro hlk
    have hm := (hok.locked.mp hlk).2
    rw [hi.2] at hm
    exact hl hm
  have hload : (s.itable ip).loaded s.sb c =
      { s.itable ip with locked := true, valid := true, din := dinodeAt sb c i } := by
    have hdin : (if (s.itable ip).valid then (s.itable ip).din else
        dinodeAt s.sb c (s.itable ip).inum) = dinodeAt sb c i := by
      split_ifs with hv
      · rw [(hok.copy hr hv).2, hi.2]
      · rw [h.super, hi.2]
    unfold Inode.loaded
    rw [hdin]
  refine wp_post (ilock_rule starved_of_spent h.idle (hok.dev hr) (by omega) hunl hnl
    fun _ => by rw [h.super, hi.2]; exact ht) ?_
  rintro _ s' ⟨⟨hlog, hd⟩, hsb, hti⟩
  rw [hload] at hti
  refine ⟨⟨by rw [hsb, h.super], h.size, hd, by rw [hti]; exact hs, h.backed, h.sure⟩,
    by rw [hti]; exact hk, hlog⟩

theorem iunlock_spec (hl : i ∈ L) :
    wp (iunlock ip) (fun _ s' => Steady sb T c loose rc (L.erase i) s' ∧
      Retains rc s.itable s'.itable ∧ s'.kernel = s.kernel ∧
      (s'.itable ip).valid = (s.itable ip).valid) E s := by
  have hlk : (s.itable ip).locked = true :=
    (h.slots.ok ip).locked.mpr ⟨hi.1, by rw [hi.2]; exact hl⟩
  have hr := hi.1
  obtain ⟨hs, hk⟩ := h.slots.unlock hi
  unfold iunlock
  refine wp_bind (wp_inode ?_)
  rw [hlk, if_neg (by simp; omega)]
  refine wp_modifyInode ⟨h.setTable rfl rfl hs, hk, rfl, ?_⟩
  rw [setInode_itable, update_self]

/-- `iput` frees nothing if there is another reference, a link, or no valid copy. -/
theorem iput_spec (hl : i ∈ L → rc i ≠ 1)
    (hkeep : rc i ≠ 1 ∨ (s.itable ip).valid = false ∨ (dinodeAt sb c i).nlink ≠ 0) :
    wp (iput ip) (fun _ s' => Steady sb T c loose (lose rc i) L s' ∧
      Retains (lose rc i) s.itable s'.itable ∧ s'.kernel = s.kernel) E s := by
  obtain ⟨hs, hk⟩ := h.slots.dropRef hi hl
  have hcond : ¬ ((s.itable ip).ref = 1 ∧ (s.itable ip).valid ∧ (s.itable ip).din.nlink = 0) := by
    rintro ⟨h1, hv, hn⟩
    have hc := ((h.slots.ok ip).copy hi.1 hv).2
    rw [hi.2] at hc
    rw [hc] at hn
    rcases hkeep with hk | hk | hk
    · rw [h.slots.count hi] at h1
      omega
    · rw [hv] at hk
      cases hk
    · exact hk hn
  unfold iput
  refine wp_bind (wp_inode ?_)
  rw [if_neg hcond]
  unfold unref
  exact wp_modifyInode ⟨h.setTable rfl rfl hs, hk, rfl⟩

theorem iunlockput_spec (hl : i ∈ L) (hkeep : rc i ≠ 1 ∨ (dinodeAt sb c i).nlink ≠ 0) :
    wp (iunlockput ip) (fun _ s' => Steady sb T c loose (lose rc i) (L.erase i) s' ∧
      Retains (lose rc i) s.itable s'.itable ∧ s'.kernel = s.kernel) E s := by
  unfold iunlockput
  refine wp_seq (iunlock_spec h hi hl) ?_
  rintro _ s1 ⟨h1, hk1, hkern1, -⟩
  have hi1 := hk1 ip i hi (h.slots.pos hi)
  refine wp_post (iput_spec h1 hi1 (fun hm => absurd hm (notMem_erase i L))
    (hkeep.imp_right .inr)) ?_
  rintro _ s2 ⟨h2, hk2, hkern2⟩
  refine ⟨h2, fun iq j hj hp => ?_, by rw [hkern2, hkern1]⟩
  exact hk2 iq j (hk1 iq j hj (h.slots.pos hj)) hp

theorem Steady.work (hl : i ∈ L) (ht : (dinodeAt sb c i).type ≠ 0) :
    Work sb i ip (dinodeAt sb c) ∅ c loose s := by
  have hok := h.slots.ok ip
  obtain ⟨hlt, hc⟩ := hok.copy hi.1 (hok.loaded hi.1 (by rw [hi.2]; exact hl))
  rw [hi.2] at hlt hc
  exact ⟨⟨h.super, h.size, hlt, hi.2, hok.dev hi.1, hc, fun _ _ _ => rfl, h.disk⟩, ht⟩

theorem Steady.locked_lt (hl : i ∈ L) : i < sb.ninodes := by
  have hok := h.slots.ok ip
  have hlt := (hok.copy hi.1 (hok.loaded hi.1 (by rw [hi.2]; exact hl))).1
  rwa [hi.2] at hlt

end

def Alike (sb : Superblock) (T : Prop) (c c' : ℕ → Block) (j : ℕ) : Prop :=
  (dinodeAt sb c j).type ≠ 0 ∧ Same T (dinodeAt sb c j) c (dinodeAt sb c' j) c' ∨
    (dinodeAt sb c j).type = 0 ∧ (dinodeAt sb c' j).type = 0

theorem Alike.refl (j : ℕ) : Alike sb T c c j := by
  by_cases ht : (dinodeAt sb c j).type = 0
  · exact .inr ⟨ht, ht⟩
  · exact .inl ⟨ht, Same.refl⟩

theorem Alike.same {c' : ℕ → Block} (h : Alike sb T c c' j) (ht : (dinodeAt sb c j).type ≠ 0) :
    Same T (dinodeAt sb c j) c (dinodeAt sb c' j) c' := by
  rcases h with ⟨-, hs⟩ | ⟨h0, -⟩
  · exact hs
  · exact absurd h0 ht

structure FileWritten (sb : Superblock) (T : Prop) (i : ℕ) (src : Source) (off m : ℕ)
    (c c' : ℕ → Block) : Prop where
  others : ∀ j < sb.ninodes, j ≠ i → Alike sb T c c' j
  type : (dinodeAt sb c' i).type = (dinodeAt sb c i).type
  major : (dinodeAt sb c' i).major = (dinodeAt sb c i).major
  minor : (dinodeAt sb c' i).minor = (dinodeAt sb c i).minor
  nlink : (dinodeAt sb c' i).nlink = (dinodeAt sb c i).nlink
  size : (dinodeAt sb c' i).size = max (dinodeAt sb c i).size (off + m)
  bytes : T ∨ (dinodeAt sb c i).type = tDir → ∀ data, src = .kernel data →
    ∀ o < (dinodeAt sb c' i).size, (dinodeAt sb c' i).byteAt c' o =
      if off ≤ o ∧ o < off + m then data (o - off) else (dinodeAt sb c i).byteAt c o

theorem writei_steady {src : Source} {off n : ℕ} (h : Steady sb T c loose rc L s)
    (hi : Has s.itable ip i) (hl : i ∈ L) (ht : (dinodeAt sb c i).type ≠ 0)
    (hT : T → src.Sure) (hsrc : src.Sure ∨ (dinodeAt sb c i).type = tFile) (hn : n < 2 ^ 32) :
    wp (writei ip src off n) (fun r s' =>
      Refused (dinodeAt sb c i).size off n ∧ r = -1 ∧ s' = s ∨
      ¬ Refused (dinodeAt sb c i).size off n ∧ ∃ (m : ℕ) (c' : ℕ → Block) (loose' : Set ℕ),
        r = m ∧ m ≤ n ∧ Steady sb T c' loose' rc L s' ∧ Retains rc s.itable s'.itable ∧
        FileWritten sb T i src off m c c' ∧ (m < n → m = 0 ∨ (off + m) % bsize = 0) ∧
        (src.Sure → m < n → freeBlocks sb c' = ∅) ∧
        (src.Sure → 0 < n → (m = 0 ↔
          (freeBlocks sb c).card < (dinodeAt sb c i).missing c (off / bsize)))) Starved s := by
  have hlt := h.locked_lt hi hl
  refine wp_post (writei_spec (T := T) (h.work hi hl ht) h.backed
    (fun hT' => ⟨h.sure hT', hT hT'⟩) hsrc hn) ?_
  rintro r s' (hr | ⟨hnr, m, z, c', loose', hr, hle, hw, hend, hfull, hfirst⟩)
  · exact .inl hr
  have hz : dinodeAt sb c' i = z := by rw [hw.sync i hlt, update_self]
  have hzf := hw.fields
  obtain ⟨hs, hk⟩ := h.slots.setDin (z := z) hi
  have hothers : ∀ j < sb.ninodes, j ≠ i → dinodeAt sb c' j = dinodeAt sb c j := by
    intro j hj hji
    rw [hw.sync j hj, update_of_ne hji]
  have hstays : ∀ j < sb.ninodes, j ≠ i → (dinodeAt sb c j).type ≠ 0 →
      Stays T (dinodeAt sb c j).size (dinodeAt sb c j) c (dinodeAt sb c' j) c' := by
    intro j hj hji hj0
    rw [hothers j hj hji]
    exact hw.others j hj hji hj0
  refine .inr ⟨hnr, m, c', loose', hr, hle, ⟨?_, h.size, hw.disk, ?_, ?_, ?_⟩, ?_,
    ⟨?_, ?_, ?_, ?_, ?_, ?_, ?_⟩, hend, hfull, hfirst⟩
  · rw [hw.only.super, h.super]
  · rw [hw.only.itable]
    exact hs.congr hw.sync
  · intro j hj hj0
    by_cases hji : j = i
    · subst hji
      rw [hz]
      exact hw.backed
    · rw [hothers j hj hji] at hj0
      have hst := hstays j hj hji hj0
      rw [hst.size]
      exact hst.backed (h.backed j hj hj0)
  · intro hT'
    have hsub := hw.sub (hT hT')
    rw [h.sure hT'] at hsub
    exact Set.subset_empty_iff.mp hsub
  · rw [hw.only.itable]
    exact hk
  · intro j hj hji
    by_cases hj0 : (dinodeAt sb c j).type = 0
    · exact .inr ⟨hj0, by rw [hothers j hj hji]; exact hj0⟩
    · exact .inl ⟨hj0, (hstays j hj hji hj0).same le_rfl⟩
  all_goals rw [hz]
  · rw [hzf]
  · rw [hzf]
  · rw [hzf]
  · rw [hzf]
  · rw [hzf]
  · exact hw.bytes

end calls

end Xv6
