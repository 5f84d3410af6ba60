import Xv6.Virtio

/-! Allocating, formatting and freeing the three descriptors of a request. -/
namespace Xv6.Virtio

open Function

variable {β : Type} {d d' : Disk β} {c : Chain} {r : Req β} {i : ℕ}

structure Owned (d : Disk β) (c : Chain) : Prop where
  lt : ∀ i ∈ c.toList, i < num
  nodup : c.toList.Nodup
  taken : ∀ i ∈ c.toList, d.free i = false

structure Linked (d : Disk β) (c : Chain) : Prop where
  head : (d.desc c.head).flags &&& descNext ≠ 0 ∧
    (d.desc c.head).next = BitVec.ofNat 16 c.data
  data : (d.desc c.data).flags &&& descNext ≠ 0 ∧
    (d.desc c.data).next = BitVec.ofNat 16 c.status
  status : (d.desc c.status).flags &&& descNext = 0 ∧ (d.desc c.status).addr = .status c.head

namespace Chain

lemma mem_toList : i ∈ c.toList ↔ i = c.head ∨ i = c.data ∨ i = c.status := by
  simp [toList]

theorem head_mem : c.head ∈ c.toList := mem_toList.mpr (.inl rfl)

theorem data_mem : c.data ∈ c.toList := mem_toList.mpr (.inr (.inl rfl))

theorem status_mem : c.status ∈ c.toList := mem_toList.mpr (.inr (.inr rfl))

lemma nodup_iff : c.toList.Nodup ↔ c.head ≠ c.data ∧ c.head ≠ c.status ∧ c.data ≠ c.status := by
  simp [toList, and_assoc]

end Chain

theorem Owned.frame (h : Owned d c) (hf : ∀ i ∈ c.toList, d'.free i = d.free i) : Owned d' c :=
  ⟨h.lt, h.nodup, fun i hi => (hf i hi).trans (h.taken i hi)⟩

theorem Linked.frame (h : Linked d c) (hf : ∀ i ∈ c.toList, d'.desc i = d.desc i) :
    Linked d' c := by
  refine ⟨?_, ?_, ?_⟩
  · rw [hf c.head Chain.head_mem]
    exact h.head
  · rw [hf c.data Chain.data_mem]
    exact h.data
  · rw [hf c.status Chain.status_mem]
    exact h.status

theorem Owned.toNat (h : Owned d c) (hi : i ∈ c.toList) : (BitVec.ofNat 16 i).toNat = i := by
  have hlt := h.lt i hi
  rw [BitVec.toNat_ofNat, Nat.mod_eq_of_lt]
  exact hlt.trans (by decide)

lemma allocDesc_some (h : allocDesc d = some (i, d')) :
    i < num ∧ d.free i = true ∧ d' = { d with free := update d.free i false } := by
  obtain ⟨j, hj, he⟩ := Option.map_eq_some_iff.mp h
  cases he
  exact ⟨List.mem_range.mp (List.mem_of_find?_eq_some hj), List.find?_some hj, rfl⟩

def Disk.release (d : Disk β) (i : ℕ) : Disk β :=
  { d with
    desc := update d.desc i ⟨.null, 0, 0, 0⟩
    free := update d.free i true }

lemma freeDesc_eq (hi : i < num) (hf : d.free i = false) : freeDesc i d = .ok (d.release i) := by
  rw [freeDesc, if_neg (by omega), if_neg (by simp [hf])]
  rfl

lemma release_desc {j : ℕ} (h : j ≠ i) : (d.release i).desc j = d.desc j :=
  update_of_ne h _ _

lemma release_free {j : ℕ} (h : j ≠ i) : (d.release i).free j = d.free j :=
  update_of_ne h _ _

lemma freeChain_next {n : ℕ} (hi : i < num) (hf : d.free i = false)
    (hflag : (d.desc i).flags &&& descNext ≠ 0) :
    freeChain (n + 1) i d = freeChain n (d.desc i).next.toNat (d.release i) := by
  rw [freeChain, freeDesc_eq hi hf]
  exact if_pos hflag

lemma freeChain_last {n : ℕ} (hi : i < num) (hf : d.free i = false)
    (hflag : (d.desc i).flags &&& descNext = 0) :
    freeChain (n + 1) i d = .ok (d.release i) := by
  rw [freeChain, freeDesc_eq hi hf]
  exact if_neg (not_not.mpr hflag)

lemma of_update_free {f : ℕ → Bool} {j : ℕ} (h : update f j false i = true) :
    i ≠ j ∧ f i = true := by
  by_cases hij : i = j
  · subst hij
    rw [update_self] at h
    cases h
  · rw [update_of_ne hij] at h
    exact ⟨hij, h⟩

/-- Three free descriptors are taken, or none; in that case free ones may have been reset. -/
theorem alloc3Desc_cases (d : Disk β) :
    (∃ c : Chain, alloc3Desc d =
        .ok (some c, { d with free := fun i => d.free i && decide (i ∉ c.toList) }) ∧
      c.toList.Nodup ∧ ∀ i ∈ c.toList, i < num ∧ d.free i = true) ∨
    ∃ desc, alloc3Desc d = .ok (none, { d with desc := desc }) ∧
      ∀ i, d.free i = false → desc i = d.desc i := by
  rw [alloc3Desc]
  cases h0 : allocDesc d with
  | none => exact .inr ⟨d.desc, rfl, fun _ _ => rfl⟩
  | some a =>
    obtain ⟨i0, d0⟩ := a
    obtain ⟨hlt0, hf0, rfl⟩ := allocDesc_some h0
    dsimp only
    cases h1 : allocDesc { d with free := update d.free i0 false } with
    | none =>
      rw [freeDesc_eq hlt0 (update_self ..)]
      refine .inr ⟨update d.desc i0 ⟨.null, 0, 0, 0⟩, ?_, fun i hi => ?_⟩
      · simp only [Except.map, Disk.release, update_idem]
        rw [← hf0, update_eq_self]
      · refine update_of_ne ?_ _ _
        rintro rfl
        simp [hf0] at hi
    | some a =>
      obtain ⟨i1, d1⟩ := a
      obtain ⟨hlt1, hf1, rfl⟩ := allocDesc_some h1
      obtain ⟨hne, hf1⟩ := of_update_free hf1
      dsimp only
      cases h2 : allocDesc { d with
          free := update (update d.free i0 false) i1 false } with
      | none =>
        rw [freeDesc_eq hlt0 (by simp [Ne.symm hne]), Except.bind,
          freeDesc_eq hlt1 (by rw [release_free hne]; simp)]
        refine .inr ⟨((d.release i0).release i1).desc, ?_, fun i hi => ?_⟩
        · refine congrArg (fun f => Except.ok (none, { d with
            desc := ((d.release i0).release i1).desc, free := f })) ?_
          funext i
          simp only [Disk.release]
          grind
        · have hi0 : i ≠ i0 := by
            rintro rfl
            simp [hf0] at hi
          have hi1 : i ≠ i1 := by
            rintro rfl
            simp [hf1] at hi
          rw [release_desc hi1, release_desc hi0]
      | some a =>
        obtain ⟨i2, d2⟩ := a
        obtain ⟨hlt2, hf2, rfl⟩ := allocDesc_some h2
        obtain ⟨hne1, hf2⟩ := of_update_free hf2
        obtain ⟨hne0, hf2⟩ := of_update_free hf2
        refine .inl ⟨⟨i0, i1, i2⟩, ?_, ?_, ?_⟩
        · refine congrArg
            (fun f => Except.ok (some (Chain.mk i0 i1 i2), { d with free := f })) ?_
          funext i
          simp only [Chain.mem_toList]
          grind
        · exact Chain.nodup_iff.mpr ⟨Ne.symm hne, Ne.symm hne0, Ne.symm hne1⟩
        · simp [Chain.toList, hlt0, hlt1, hlt2, hf0, hf1, hf2]

theorem format_desc (hi : i ∉ c.toList) : (format r c d).desc i = d.desc i := by
  obtain ⟨hh, hd, hs⟩ : i ≠ c.head ∧ i ≠ c.data ∧ i ≠ c.status := by
    simpa [Chain.mem_toList] using hi
  simp [format, hh, hd, hs]

theorem format_info (hi : i ≠ c.head) : (format r c d).info i = d.info i :=
  update_of_ne hi _ _

theorem format_info_head (r : Req β) (c : Chain) (d : Disk β) :
    ((format r c d).info c.head).b = some r.b := by
  simp [format]

theorem format_linked (h : c.toList.Nodup) : Linked (format r c d) c := by
  obtain ⟨hd, hs, hds⟩ := Chain.nodup_iff.mp h
  refine ⟨?_, ?_, ?_⟩
  · simp [format, hd, hs, descNext]
  · refine ⟨?_, by simp [format, hds]⟩
    cases hw : r.write <;> simp [format, hds, hw, descNext, descWrite]
  · simp [format, descNext, descWrite]

/-- The loop turns three times, and stops at the descriptor without a `next` flag. -/
theorem freeChain_ok (ho : Owned d c) (hl : Linked d c) :
    ∃ desc, freeChain num c.head d =
        .ok { d with desc := desc, free := fun i => d.free i || decide (i ∈ c.toList) } ∧
      ∀ i ∉ c.toList, desc i = d.desc i := by
  obtain ⟨hhd, hhs, hds⟩ := Chain.nodup_iff.mp ho.nodup
  have hdata : (d.release c.head).free c.data = false := by
    rw [release_free (Ne.symm hhd), ho.taken c.data Chain.data_mem]
  have hstatus : ((d.release c.head).release c.data).free c.status = false := by
    rw [release_free (Ne.symm hds), release_free (Ne.symm hhs), ho.taken c.status Chain.status_mem]
  have hfree : (((d.release c.head).release c.data).release c.status).free =
      fun i => d.free i || decide (i ∈ c.toList) := by
    funext i
    simp only [Disk.release, update_apply, Chain.mem_toList]
    grind
  refine ⟨(((d.release c.head).release c.data).release c.status).desc, ?_, fun i hi => ?_⟩
  · rw [num, freeChain_next (ho.lt _ Chain.head_mem) (ho.taken _ Chain.head_mem) hl.head.1,
      hl.head.2, ho.toNat Chain.data_mem, freeChain_next (ho.lt _ Chain.data_mem) hdata,
      release_desc (Ne.symm hhd), hl.data.2, ho.toNat Chain.status_mem,
      freeChain_last (ho.lt _ Chain.status_mem) hstatus, ← hfree]
    · rfl
    · rw [release_desc (Ne.symm hds), release_desc (Ne.symm hhs)]
      exact hl.status.1
    · rw [release_desc (Ne.symm hhd)]
      exact hl.data.1
  · obtain ⟨hih, hid, his⟩ : i ≠ c.head ∧ i ≠ c.data ∧ i ≠ c.status := by
      simpa [Chain.mem_toList] using hi
    rw [release_desc his, release_desc hid, release_desc hih]

end Xv6.Virtio
