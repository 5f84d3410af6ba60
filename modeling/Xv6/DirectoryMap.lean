import Xv6.FileBytes
import Xv6.Name

/-! Directories as maps from names to inode numbers. -/
namespace Xv6

open Program Dinode Function List

variable {sb : Superblock} {c c' : ℕ → Block} {T : Prop} {s s' : Fs} {ip iq : Slot}
  {i e e' : ℕ} {x y : Dinode} {de : Dirent} {a : List Byte} {m : List Byte → Option ℕ}

def Dinode.Live (x : Dinode) (c : ℕ → Block) (e : ℕ) : Prop :=
  e < x.size / direntSize ∧ (x.direntAt c e).inum ≠ 0

structure Represents (x : Dinode) (c : ℕ → Block) (m : List Byte → Option ℕ) : Prop where
  uniq : ∀ e e', x.Live c e → x.Live c e' →
    nameIn (x.direntAt c e).name = nameIn (x.direntAt c e').name → e = e'
  maps : ∀ a n, m a = some n ↔
    ∃ e, x.Live c e ∧ (x.direntAt c e).inum = n ∧ nameIn (x.direntAt c e).name = a

lemma terminated_direntAt (x : Dinode) (c : ℕ → Block) (e : ℕ) :
    Terminated (x.direntAt c e).name := .inr (fits_direntOf (by simp)).name.ge

lemma matches_iff (ha : Terminated a) : (x.direntAt c e).Matches a ↔
    (x.direntAt c e).inum ≠ 0 ∧ nameIn (x.direntAt c e).name = nameIn a := by
  unfold Dirent.Matches
  rw [namecmp_eq_zero ha (terminated_direntAt x c e), eq_comm]

lemma lookup_eq_none (ha : Terminated a) : x.lookup c a = none ↔
    ∀ e, x.Live c e → nameIn (x.direntAt c e).name ≠ nameIn a := by
  unfold Dinode.lookup Dinode.Live
  rw [find?_eq_none]
  constructor
  · intro h e he hn
    exact h e (mem_range.mpr he.1) (decide_eq_true ((matches_iff ha).mpr ⟨he.2, hn⟩))
  · intro h e he hm
    obtain ⟨h0, hn⟩ := (matches_iff ha).mp (of_decide_eq_true hm)
    exact h e ⟨mem_range.mp he, h0⟩ hn

lemma lookup_eq_some (ha : Terminated a) (h : x.lookup c a = some e) :
    x.Live c e ∧ nameIn (x.direntAt c e).name = nameIn a := by
  unfold Dinode.lookup at h
  have hm := find?_some h
  obtain ⟨h0, hn⟩ := (matches_iff ha).mp (of_decide_eq_true hm)
  exact ⟨⟨mem_range.mp (mem_of_find?_eq_some h), h0⟩, hn⟩

lemma Represents.lookup_none (h : Represents x c m) (ha : Terminated a) :
    x.lookup c a = none ↔ m (nameIn a) = none := by
  rw [lookup_eq_none ha, Option.eq_none_iff_forall_not_mem]
  constructor
  · intro hn n hm
    obtain ⟨e, he, -, hname⟩ := (h.maps _ n).mp hm
    exact hn e he hname
  · intro hn e he hname
    exact hn _ ((h.maps _ _).mpr ⟨e, he, rfl, hname⟩)

lemma Represents.lookup_some (h : Represents x c m) (ha : Terminated a)
    (hf : x.lookup c a = some e) : m (nameIn a) = some (x.direntAt c e).inum := by
  obtain ⟨he, hname⟩ := lookup_eq_some ha hf
  exact (h.maps _ _).mpr ⟨e, he, rfl, hname⟩

lemma Represents.empty (h0 : x.size = 0) : Represents x c fun _ => none := by
  have hlive : ∀ e, ¬ x.Live c e := by
    intro e he
    have hlt := he.1
    rw [h0] at hlt
    exact absurd hlt (by simp)
  refine ⟨fun e _ he => absurd he (hlive e), fun a n => iff_of_false (Option.some_ne_none n).symm ?_⟩
  rintro ⟨e, he, -⟩
  exact hlive e he

lemma Represents.congr (h : Represents x c m) (hsize : y.size = x.size)
    (hent : ∀ e < x.size / direntSize, y.direntAt c' e = x.direntAt c e) : Represents y c' m := by
  have hlive : ∀ e, y.Live c' e ↔ x.Live c e := by
    intro e
    unfold Dinode.Live
    rw [hsize]
    exact and_congr_right fun he => by rw [hent e he]
  constructor
  · intro e e' he he'
    rw [hlive] at he he'
    rw [hent e he.1, hent e' he'.1]
    exact h.uniq e e' he he'
  · intro a n
    rw [h.maps]
    refine exists_congr fun e => ?_
    rw [hlive]
    exact and_congr_right fun he => by rw [hent e he.1]

lemma EntryWritten.live (h : EntryWritten sb T i e de c c') (hde : de.Fits)
    (hw : direntSize ∣ (dinodeAt sb c i).size) (he : e ≤ (dinodeAt sb c i).size / direntSize) :
    (dinodeAt sb c' i).Live c' e' ↔
      if e' = e then de.inum ≠ 0 else (dinodeAt sb c i).Live c e' := by
  have hs : direntSize = 16 := rfl
  have hm : ∀ n, n * direntSize = n * 16 := fun _ => rfl
  have hsize := h.size
  rw [hs] at hw he
  rw [hm] at hsize
  unfold Dinode.Live
  rw [hs]
  split_ifs with hee
  · rw [hee, h.entry hde]
    exact and_iff_right (by omega)
  · constructor
    · rintro ⟨hlt, h0⟩
      have hlt' : e' < (dinodeAt sb c i).size / 16 := by omega
      rw [h.rest e' hlt' hee] at h0
      exact ⟨hlt', h0⟩
    · rintro ⟨hlt, h0⟩
      rw [h.rest e' hlt hee]
      exact ⟨by omega, h0⟩

section
variable (h : Represents (dinodeAt sb c i) c m) (hw : EntryWritten sb T i e de c c') (hde : de.Fits)
  (hdvd : direntSize ∣ (dinodeAt sb c i).size)
include h hw hde hdvd

lemma Represents.link (he : e ≤ (dinodeAt sb c i).size / direntSize)
    (hfree : ¬ (dinodeAt sb c i).Live c e) (h0 : de.inum ≠ 0) (hnew : m (nameIn de.name) = none) :
    Represents (dinodeAt sb c' i) c'
      (update m (nameIn de.name) (some de.inum)) := by
  have hlive : ∀ e', (dinodeAt sb c' i).Live c' e' ↔
      if e' = e then de.inum ≠ 0 else (dinodeAt sb c i).Live c e' := fun e' => hw.live hde hdvd he
  have hother : ∀ e', e' ≠ e → (dinodeAt sb c' i).Live c' e' →
      nameIn ((dinodeAt sb c i).direntAt c e').name ≠ nameIn de.name := by
    intro e' hne hl hn
    rw [hlive, if_neg hne] at hl
    have hm := (h.maps _ _).mpr ⟨e', hl, rfl, hn⟩
    rw [hnew] at hm
    cases hm
  constructor
  · intro e1 e2 h1 h2 hn
    by_cases he1 : e1 = e
    · by_cases he2 : e2 = e
      · rw [he1, he2]
      · have hlt := ((hlive e2).mp h2)
        rw [if_neg he2] at hlt
        rw [he1, hw.entry hde, hw.rest e2 hlt.1 he2] at hn
        exact absurd hn.symm (hother e2 he2 h2)
    · have hlt1 := ((hlive e1).mp h1)
      rw [if_neg he1] at hlt1
      rw [hw.rest e1 hlt1.1 he1] at hn
      by_cases he2 : e2 = e
      · rw [he2, hw.entry hde] at hn
        exact absurd hn (hother e1 he1 h1)
      · have hlt2 := ((hlive e2).mp h2)
        rw [if_neg he2] at hlt2
        rw [hw.rest e2 hlt2.1 he2] at hn
        exact h.uniq e1 e2 hlt1 hlt2 hn
  · intro a n
    by_cases ha : a = nameIn de.name
    · subst ha
      rw [update_self]
      constructor
      · intro hn
        cases hn
        exact ⟨e, (hlive e).mpr (by rw [if_pos rfl]; exact h0), by rw [hw.entry hde],
          by rw [hw.entry hde]⟩
      · rintro ⟨e1, h1, hn, hname⟩
        by_cases he1 : e1 = e
        · rw [he1, hw.entry hde] at hn
          rw [hn]
        · have hlt1 := ((hlive e1).mp h1)
          rw [if_neg he1] at hlt1
          rw [hw.rest e1 hlt1.1 he1] at hname
          exact absurd hname (hother e1 he1 h1)
    · rw [update_of_ne ha, h.maps]
      refine exists_congr fun e1 => ?_
      by_cases he1 : e1 = e
      · subst he1
        rw [hw.entry hde]
        exact iff_of_false (fun h1 => hfree h1.1) fun h1 => ha h1.2.2.symm
      · rw [hlive, if_neg he1]
        exact and_congr_right fun hl => by rw [hw.rest e1 hl.1 he1]

lemma Represents.clear (hl : (dinodeAt sb c i).Live c e) (h0 : de.inum = 0) :
    Represents (dinodeAt sb c' i) c'
      (update m (nameIn ((dinodeAt sb c i).direntAt c e).name) none) := by
  have hlive : ∀ e', (dinodeAt sb c' i).Live c' e' ↔ e' ≠ e ∧ (dinodeAt sb c i).Live c e' := by
    intro e'
    rw [hw.live hde hdvd hl.1.le]
    split_ifs with hee
    · simp [hee, h0]
    · simp [hee]
  constructor
  · intro e1 e2 h1 h2 hn
    rw [hlive] at h1 h2
    rw [hw.rest e1 h1.2.1 h1.1, hw.rest e2 h2.2.1 h2.1] at hn
    exact h.uniq e1 e2 h1.2 h2.2 hn
  · intro a n
    by_cases ha : a = nameIn ((dinodeAt sb c i).direntAt c e).name
    · subst ha
      rw [update_self]
      refine iff_of_false (Option.some_ne_none n).symm ?_
      rintro ⟨e1, h1, -, hname⟩
      rw [hlive] at h1
      rw [hw.rest e1 h1.2.1 h1.1] at hname
      exact absurd (h.uniq e1 e h1.2 hl hname) h1.1
    · rw [update_of_ne ha, h.maps]
      refine exists_congr fun e1 => ?_
      rw [hlive]
      constructor
      · rintro ⟨h1, hn, hname⟩
        have hne : e1 ≠ e := fun hee => ha (by rw [← hname, hee])
        rw [hw.rest e1 h1.1 hne]
        exact ⟨⟨hne, h1⟩, hn, hname⟩
      · rintro ⟨⟨hne, h1⟩, hn, hname⟩
        rw [hw.rest e1 h1.1 hne] at hn hname
        exact ⟨h1, hn, hname⟩

end

structure LockedDir (sb : Superblock) (i : ℕ) (ip : Slot) (s : Fs) : Prop where
  steady : ∃ rc L, i ∈ L ∧ Steady sb True s.blocks ∅ rc L s
  slot : Has s.itable ip i
  dir : (dinodeAt sb s.blocks i).type = tDir

def Undisturbed (sb : Superblock) (i : ℕ) (s : Fs) (iq : Slot) (s' : Fs) : Prop :=
  LockedDir sb i iq s' ∧
    Same True (dinodeAt sb s.blocks i) s.blocks (dinodeAt sb s'.blocks i) s'.blocks

/-- Directory `i`, from the empty one on, with the map of the names linked and not cleared since.
In between, others may change anything else. -/
inductive DirRun (sb : Superblock) (i : ℕ) : Slot → Fs → (List Byte → Option ℕ) → Prop
  | empty {ip : Slot} {s : Fs} (h : LockedDir sb i ip s)
      (h0 : (dinodeAt sb s.blocks i).size = 0) : DirRun sb i ip s fun _ => none
  | link {ip : Slot} {s s' : Fs} {m : List Byte → Option ℕ} {a : List Byte} {inum : ℕ} {b : Bool}
      (h : DirRun sb i ip s m) (ha : Terminated a) (h0 : inum ≠ 0) (h16 : inum < 2 ^ 16)
      (hrun : (dirlink ip a inum).run s = (.ok b, s')) :
      DirRun sb i ip s' (if b then update m (nameIn a) (some inum) else m)
  | clear {ip iq q : Slot} {s s1 s2 s' : Fs} {m : List Byte → Option ℕ} {a : List Byte} {off : ℕ}
      {b : Bool} (h : DirRun sb i ip s m) (ha : Terminated a)
      (hfind : (dirlookup ip a).run s = (.ok (some (q, off)), s1))
      (hkeep : Undisturbed sb i s1 iq s2)
      (hrun : (writeDirent iq off Dirent.zero).run s2 = (.ok b, s')) :
      DirRun sb i iq s' (update m (nameIn a) none)
  | other {ip iq : Slot} {s s' : Fs} {m : List Byte → Option ℕ} (h : DirRun sb i ip s m)
      (hkeep : Undisturbed sb i s iq s') : DirRun sb i iq s' m

structure Directory (sb : Superblock) (i : ℕ) (ip : Slot) (s : Fs) (m : List Byte → Option ℕ) :
    Prop extends LockedDir sb i ip s where
  whole : direntSize ∣ (dinodeAt sb s.blocks i).size
  map : Represents (dinodeAt sb s.blocks i) s.blocks m

lemma Undisturbed.direntAt (h : LockedDir sb i ip s) (hk : Undisturbed sb i s iq s')
    (he : e < (dinodeAt sb s.blocks i).size / direntSize) :
    (dinodeAt sb s'.blocks i).direntAt s'.blocks e =
      (dinodeAt sb s.blocks i).direntAt s.blocks e :=
  hk.2.direntAt h.dir ((Nat.le_div_iff_mul_le (by decide)).mp he)

lemma Directory.keep (h : Directory sb i ip s m) (hk : Undisturbed sb i s iq s') :
    Directory sb i iq s' m :=
  ⟨hk.1, by rw [hk.2.size]; exact h.whole, h.map.congr hk.2.size fun _ he => hk.direntAt h.1 he⟩

def Finds (sb : Superblock) (i : ℕ) (m : List Byte → Option ℕ) (a : List Byte) (s : Fs)
    (r : Option (Slot × ℕ)) (s' : Fs) : Prop :=
  match m (nameIn a) with
  | none => r = none
  | some n => ∃ (q : Slot) (e : ℕ), r = some (q, e * direntSize) ∧ Has s'.itable q n ∧
      (dinodeAt sb s.blocks i).Live s.blocks e ∧
      ((dinodeAt sb s.blocks i).direntAt s.blocks e).inum = n ∧
      nameIn ((dinodeAt sb s.blocks i).direntAt s.blocks e).name = nameIn a

lemma Directory.dirlookup (h : Directory sb i ip s m) (ha : Terminated a) :
    wp (dirlookup ip a) (fun r s' => Finds sb i m a s r s' ∧ Undisturbed sb i s ip s')
      Starved s := by
  obtain ⟨rc, L, hl, hs⟩ := h.steady
  refine wp_post (dirlookup_spec hs h.slot hl h.dir h.whole a) ?_
  intro r s' hr
  have hkeep : ∀ {rc'}, Steady sb True s.blocks ∅ rc' L s' → Retains rc' s.itable s'.itable →
      rc i ≤ rc' i → Undisturbed sb i s ip s' := by
    intro rc' hs' hk hle
    have hb := hs'.blocks_eq
    have hp := hs.slots.pos h.slot
    refine ⟨⟨⟨rc', L, hl, by rw [hb]; exact hs'⟩, hk ip i h.slot (by omega), ?_⟩, ?_⟩
    all_goals rw [hb]
    · exact h.dir
    · exact Same.refl
  unfold LookedUp at hr
  unfold Finds
  cases hf : (dinodeAt sb s.blocks i).lookup s.blocks a with
  | none =>
    rw [hf] at hr
    rw [(h.map.lookup_none ha).mp hf]
    exact ⟨hr.1, hkeep hr.2.1 hr.2.2 le_rfl⟩
  | some e =>
    rw [hf] at hr
    obtain ⟨q, hq, hhas, hs', hk, -⟩ := hr
    obtain ⟨hlive, hname⟩ := lookup_eq_some ha hf
    rw [h.map.lookup_some ha hf]
    exact ⟨⟨q, e, hq, hhas, hlive, rfl, hname⟩, hkeep hs' hk (le_gain i)⟩

def Extendable (sb : Superblock) (i : ℕ) (s : Fs) : Prop :=
  (∃ e < (dinodeAt sb s.blocks i).size / direntSize,
      ((dinodeAt sb s.blocks i).direntAt s.blocks e).inum = 0) ∨
    Room sb s.blocks (dinodeAt sb s.blocks i) ((dinodeAt sb s.blocks i).size / direntSize)

lemma room_newEntry_iff (hb : x.Backed c x.size) : Room sb c x (x.newEntry c) ↔
    (∃ e < x.size / direntSize, (x.direntAt c e).inum = 0) ∨
      Room sb c x (x.size / direntSize) := by
  unfold Dinode.newEntry
  cases hf : x.firstFree c with
  | none =>
    unfold Dinode.firstFree at hf
    rw [find?_eq_none] at hf
    refine (or_iff_right ?_).symm
    rintro ⟨e, he, h0⟩
    exact hf e (mem_range.mpr he) (decide_eq_true h0)
  | some e =>
    have hlt := mem_range.mp (mem_of_find?_eq_some hf)
    have h0 := find?_some hf
    refine iff_of_true ?_ (.inl ⟨e, hlt, of_decide_eq_true h0⟩)
    exact room_of_backed hb ((Nat.le_div_iff_mul_le (by decide)).mp hlt)

lemma newEntry_not_live : ¬ x.Live c (x.newEntry c) := by
  unfold Dinode.newEntry
  rintro ⟨hlt, h0⟩
  cases hf : x.firstFree c with
  | none =>
    rw [hf] at hlt
    exact absurd hlt (lt_irrefl _)
  | some e =>
    rw [hf] at h0
    have hz := find?_some hf
    exact h0 (of_decide_eq_true hz)

lemma Directory.dirlink {inum : ℕ} (h : Directory sb i ip s m) (ha : Terminated a)
    (h0 : inum ≠ 0) (h16 : inum < 2 ^ 16) :
    wp (dirlink ip a inum) (fun b s' =>
      (b = false ↔ m (nameIn a) ≠ none ∨ ¬ Extendable sb i s) ∧
      Directory sb i ip s' (if b then update m (nameIn a) (some inum) else m))
      Starved s := by
  obtain ⟨rc, L, hl, hs⟩ := h.steady
  have hlt := hs.locked_lt h.slot hl
  have hty : (dinodeAt sb s.blocks i).type ≠ 0 := by
    rw [h.dir]
    decide
  have hext : Room sb s.blocks _ _ ↔ Extendable sb i s :=
    room_newEntry_iff (hs.backed i hlt hty)
  have hnone := h.map.lookup_none ha
  refine wp_post (dirlink_spec hs h.slot hl h.dir h.whole a inum) ?_
  rintro b s' ⟨c', loose', hs', hk, hb⟩
  have hc' := hs'.blocks_eq
  have hloose : loose' = ∅ := hs'.sure trivial
  subst hloose
  rw [← hc'] at hs' hb
  have hslot := hk ip i h.slot (hs.slots.pos h.slot)
  rcases hb with ⟨rfl, hf, hroom, hw⟩ | ⟨rfl, hwhy, hall⟩
  · have hfits : (newDirent a inum).Fits := ⟨h16, length_nameOf _⟩
    have hname : nameIn (newDirent a inum).name = nameIn a := nameIn_stored a
    have hmap := h.map.link hw hfits h.whole newEntry_le newEntry_not_live h0
      (by rw [hname]; exact hnone.mp hf)
    rw [hname] at hmap
    refine ⟨iff_of_false (by simp) ?_, ⟨⟨rc, L, hl, hs'⟩, hslot, by rw [hw.type]; exact h.dir⟩,
      hw.whole h.whole, hmap⟩
    rintro (hin | hno)
    · exact hin (hnone.mp hf)
    · exact hno (hext.mp hroom)
  · have hsame := (hall i hlt).same hty
    refine ⟨iff_of_true rfl ?_, h.keep ⟨⟨⟨rc, L, hl, hs'⟩, hslot, ?_⟩, hsame⟩⟩
    · rcases hwhy with hin | hno
      · exact .inl (mt hnone.mpr hin)
      · exact .inr (mt hext.mpr hno)
    · rw [hsame.type]
      exact h.dir

lemma Directory.clearEntry (h : Directory sb i ip s m)
    (hl : (dinodeAt sb s.blocks i).Live s.blocks e)
    (hn : nameIn ((dinodeAt sb s.blocks i).direntAt s.blocks e).name = nameIn a)
    (hk : Undisturbed sb i s iq s') :
    wp (writeDirent iq (e * direntSize) Dirent.zero) (fun b s'' => b = true ∧
      Directory sb i iq s'' (update m (nameIn a) none)) Starved s' := by
  have h' := h.keep hk
  obtain ⟨rc, L, hm, hs⟩ := h'.steady
  have hlt := hs.locked_lt h'.slot hm
  have hty : (dinodeAt sb s'.blocks i).type ≠ 0 := by
    rw [h'.dir]
    decide
  have hent := hk.direntAt h.1 hl.1
  have hlive : (dinodeAt sb s'.blocks i).Live s'.blocks e := by
    unfold Dinode.Live
    rw [hk.2.size, hent]
    exact hl
  rw [← hent] at hn
  have hend : (e + 1) * direntSize ≤ (dinodeAt sb s'.blocks i).size :=
    (Nat.le_div_iff_mul_le (by decide)).mp hlive.1
  have hle : e * direntSize ≤ (dinodeAt sb s'.blocks i).size :=
    (Nat.mul_le_mul_right _ (Nat.le_succ e)).trans hend
  refine wp_post (writeDirent_spec hs h'.slot hm h'.dir hle) ?_
  rintro b s'' ⟨c', loose', hs'', hr, ⟨rfl, -, hw⟩ | ⟨-, hno, -⟩⟩
  · have hc' := hs''.blocks_eq
    have hloose : loose' = ∅ := hs''.sure trivial
    subst hloose
    rw [← hc'] at hs'' hw
    have hmap := h'.map.clear hw ⟨by decide, rfl⟩ h'.whole hlive rfl
    rw [hn] at hmap
    exact ⟨rfl, ⟨⟨rc, L, hm, hs''⟩, hr iq i h'.slot (hs.slots.pos h'.slot),
      by rw [hw.type]; exact h'.dir⟩, hw.whole h'.whole, hmap⟩
  · exact absurd (room_of_backed (hs.backed i hlt hty) hend) hno

lemma DirRun.directory (h : DirRun sb i ip s m) : Directory sb i ip s m := by
  induction h with
  | empty h h0 =>
    exact ⟨h, by rw [h0]; exact dvd_zero _, Represents.empty h0⟩
  | link _ ha h0 h16 hrun ih => exact (of_wp_run (ih.dirlink ha h0 h16) hrun).2
  | @clear ip iq q s s1 s2 s' m a off b _ ha hfind hkeep hrun ih =>
    obtain ⟨hf, hd⟩ := of_wp_run (ih.dirlookup ha) hfind
    have hkeep' : Undisturbed sb i s iq s2 := ⟨hkeep.1, hd.2.trans hkeep.2⟩
    unfold Finds at hf
    cases hm : m (nameIn a) with
    | none =>
      rw [hm] at hf
      cases hf
    | some n =>
      rw [hm] at hf
      obtain ⟨q', e, hq, -, hlive, -, hname⟩ := hf
      cases hq
      exact (of_wp_run (ih.clearEntry hlive hname hkeep') hrun).2
  | other _ hkeep ih => exact ih.keep hkeep

def Answers (sb : Superblock) (i : ℕ) (ip : Slot) (s : Fs) (m : List Byte → Option ℕ) : Prop :=
  ∀ a, Terminated a → wp (dirlookup ip a) (Finds sb i m a s) Starved s

lemma Directory.answers (h : Directory sb i ip s m) : Answers sb i ip s m :=
  fun _ ha => wp_post (h.dirlookup ha) (fun _ _ hr => hr.1)

/-- A directory is a map from names to inode numbers: no name has two entries, `dirlookup` answers
as the map, `dirlink` adds to it unless the name is there or the directory cannot grow, and clearing
an entry takes its name out. The calls stop only for want of buffers, log space, a transaction or a
slot of the inode table. -/
theorem directory_refines_map (h : DirRun sb i ip s m) :
    (∀ e e', (dinodeAt sb s.blocks i).Live s.blocks e → (dinodeAt sb s.blocks i).Live s.blocks e' →
      nameIn ((dinodeAt sb s.blocks i).direntAt s.blocks e).name =
        nameIn ((dinodeAt sb s.blocks i).direntAt s.blocks e').name → e = e') ∧
    Answers sb i ip s m ∧
    (∀ a inum, Terminated a → inum ≠ 0 → inum < 2 ^ 16 → wp (dirlink ip a inum) (fun b s' =>
      (b = false ↔ m (nameIn a) ≠ none ∨ ¬ Extendable sb i s) ∧
      Answers sb i ip s' (if b then update m (nameIn a) (some inum) else m)) Starved s) ∧
    ∀ a e iq s', (dinodeAt sb s.blocks i).lookup s.blocks a = some e → Terminated a →
      Undisturbed sb i s iq s' → wp (writeDirent iq (e * direntSize) Dirent.zero) (fun b s'' =>
        b = true ∧ Answers sb i iq s'' (update m (nameIn a) none)) Starved s' := by
  have hd := h.directory
  refine ⟨hd.map.uniq, hd.answers, fun a inum ha h0 h16 => ?_, fun a e iq s' hf ha hk => ?_⟩
  · exact wp_post (hd.dirlink ha h0 h16) (fun _ _ hb => ⟨hb.1, hb.2.answers⟩)
  · obtain ⟨hlive, hname⟩ := lookup_eq_some ha hf
    exact wp_post (hd.clearEntry hlive hname hk) (fun _ _ hb => ⟨hb.1, hb.2.answers⟩)

lemma exists_emptyDir : ∃ (s : Fs) (ip : Slot), LockedDir Mkfs.sb 2 ip s ∧
    (dinodeAt Mkfs.sb s.blocks 2).size = 0 := by
  obtain ⟨d, hm⟩ := Mkfs.mkfs_isSome (Nat.zero_le _) (Mkfs.acceptable_replicate 0 (by decide))
  obtain ⟨ino, hmade⟩ := Mkfs.made_of_mkfs hm (by decide)
  have hfree : (dinodeAt Mkfs.sb d.disk 2).type = 0 := by
    rw [hmade.sync 2 (by decide), hmade.free 2 (by decide) (.inr (by rw [hmade.inodes]; decide))]
    rfl
  obtain ⟨y, hy⟩ : ∃ y, y = { Dinode.zero with type := tDir } := ⟨_, rfl⟩
  obtain ⟨d', hd'⟩ : ∃ d', d' = update d.disk (Mkfs.sb.iblock 2)
    ((d.disk (Mkfs.sb.iblock 2)).putDinode 2 y) := ⟨_, rfl⟩
  obtain ⟨h, hst⟩ := Mkfs.steady_putDinode (hmade.steady (by decide) (by decide))
    (by decide : 2 < Mkfs.sb.ninodes) hfree hy hd'
  obtain ⟨s, -, hs, hip⟩ := h.exists_locked
    (rfl : ((Mkfs.operating d').itable 0).ref = 0) rfl (by decide : 2 < Mkfs.sb.ninodes)
  have hb := hs.blocks_eq
  rw [← hb] at hs hst
  refine ⟨s, 0, ⟨⟨_, _, Finset.mem_insert_self 2 ∅, hs⟩, hip, ?_⟩, ?_⟩
  · rw [hst, hy]
  · rw [hst, hy]
    rfl

/-- The name `a`, linked in a new directory on the image without files. -/
theorem directory_refines_map_new : ∃ (s : Fs) (ip : Slot), DirRun Mkfs.sb 2 ip s (fun _ => none) ∧
    wp (dirlink ip (nameOf [97]) 2) (fun b s' => (b = false ↔ ¬ Extendable Mkfs.sb 2 s) ∧
      Answers Mkfs.sb 2 ip s' (if b then update (fun _ => none) [97] (some 2)
        else fun _ => none)) Starved s := by
  obtain ⟨s, ip, h, h0⟩ := exists_emptyDir
  have hrun := DirRun.empty h h0
  refine ⟨s, ip, hrun, ?_⟩
  have hlink := (directory_refines_map hrun).2.2.1 (nameOf [97]) 2 (terminated_nameOf _) (by decide)
    (by decide)
  refine wp_post hlink ?_
  rintro b s' ⟨hb, ha⟩
  have hname : nameIn (nameOf [97]) = [97] := by decide
  rw [hname] at ha
  exact ⟨by simpa using hb, ha⟩

end Xv6
