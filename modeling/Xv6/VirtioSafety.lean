import Xv6.Descriptors

/-! The chains of the requests in flight stay apart, and every request that has been handed to the
device is in exactly one place: the avail ring, the device, or the used ring. -/
namespace Xv6.Virtio

open Function List

variable {ι β : Type}

def Pc.inside : Pc β → Bool
  | .alloc _ | .format _ _ | .avail _ _ | .notify _ _ | .wait _ _ | .finish _ _ | .intr => true
  | .idle | .enter _ | .asleep _ _ | .intrEnter => false

def Pc.waits : Pc β → Option (Req β × Chain)
  | .wait r c | .asleep r c => some (r, c)
  | _ => none

namespace Sys

section
variable (s : Sys ι β)

def availHeads : List ℕ :=
  (Ring.contents s.disk.avail.ring s.devIdx s.disk.avail.idx).map BitVec.toNat

def usedHeads : List ℕ :=
  (Ring.contents s.disk.used.ring s.disk.usedIdx s.disk.used.idx).map BitVec.toNat

def pending : List ℕ := s.availHeads ++ s.taken ++ s.usedHeads

structure Fresh (p : ι) (r : Req β) : Prop where
  lock : s.bufLock r.b = some p
  published : s.published p = false
  cleared : s.cleared p = 0

structure Ready (c : Chain) (r : Req β) : Prop where
  owned : Owned s.disk c
  linked : Linked s.disk c
  info : (s.disk.info c.head).b = some r.b

structure Done (p : ι) : Prop where
  published : s.published p = true
  cleared : s.cleared p = 1

def At (p : ι) : Pc β → Prop
  | .idle | .intrEnter | .intr => True
  | .enter r | .alloc r => s.Fresh p r
  | .format r c => s.Fresh p r ∧ Owned s.disk c
  | .avail r c => s.Fresh p r ∧ s.Ready c r ∧ s.busy r.b = true
  | .notify r c => s.Fresh p r ∧ s.Ready c r ∧ s.busy r.b = true ∧
      (s.disk.avail.ring (Ring.slot num s.disk.avail.idx)).toNat = c.head
  | .wait r c | .asleep r c => s.bufLock r.b = some p ∧ s.Ready c r ∧
      (s.busy r.b = true → s.cleared p = 0 ∧ c.head ∈ s.pending ∧
        (c.head ∈ s.usedHeads → s.published p = true)) ∧
      (s.busy r.b = false → s.Done p)
  | .finish r c => s.bufLock r.b = some p ∧ s.Ready c r ∧ s.busy r.b = false ∧ s.Done p

def Waits (h : ℕ) (p : ι) : Prop :=
  ∃ r c, (s.pc p).waits = some (r, c) ∧ c.head = h ∧ s.busy r.b = true

end

end Sys

structure Inv (s : Sys ι β) : Prop where
  lock : ∀ p, s.lock = some p ↔ (s.pc p).inside = true
  place : ∀ p, s.At p (s.pc p)
  disjoint : ∀ p q c c', p ≠ q → (s.pc p).chain = some c → (s.pc q).chain = some c' →
    c.toList.Disjoint c'.toList
  cover : ∀ i < num, s.disk.free i = false → ∃ p c, (s.pc p).chain = some c ∧ i ∈ c.toList
  nodup : s.pending.Nodup
  waits : ∀ h ∈ s.pending, ∃ p, s.Waits h p
  status : ∀ h ∈ s.usedHeads, (s.disk.info h).status = 0

structure Unseen (s t : Sys ι β) (q : ι) (x : Pc β) : Prop where
  published : t.published q = s.published q
  cleared : t.cleared q = s.cleared q
  buf : ∀ r, x.req = some r → t.bufLock r.b = s.bufLock r.b ∧ t.busy r.b = s.busy r.b
  desc : ∀ c, x.chain = some c → ∀ i ∈ c.toList, t.disk.desc i = s.disk.desc i
  free : ∀ c, x.chain = some c → ∀ i ∈ c.toList, t.disk.free i = s.disk.free i
  info : ∀ c, x.chain = some c → (t.disk.info c.head).b = (s.disk.info c.head).b
  pending : ∀ c, x.chain = some c → (c.head ∈ t.pending ↔ c.head ∈ s.pending)
  used : ∀ c, x.chain = some c → (c.head ∈ t.usedHeads ↔ c.head ∈ s.usedHeads)
  slot : ∀ r c, x = .notify r c → t.disk.avail = s.disk.avail

variable {s t : Sys ι β} {p q : ι} {r : Req β} {c : Chain} {x : Pc β}

namespace Unseen

section
variable (h : Unseen s t q x)
include h

theorem owned (hc : x.chain = some c) (ho : Owned s.disk c) :
    Owned t.disk c := ho.frame fun i hi => h.free c hc i hi

lemma ready (hc : x.chain = some c) (hr : s.Ready c r) : t.Ready c r :=
  ⟨h.owned hc hr.owned, hr.linked.frame fun i hi => h.desc c hc i hi,
    (h.info c hc).trans hr.info⟩

lemma fresh (hr : x.req = some r) (hf : s.Fresh q r) : t.Fresh q r :=
  ⟨(h.buf r hr).1.trans hf.lock, h.published.trans hf.published, h.cleared.trans hf.cleared⟩

lemma done (hd : s.Done q) : t.Done q :=
  ⟨h.published.trans hd.published, h.cleared.trans hd.cleared⟩

lemma waitsFor (hr : x.req = some r) (hc : x.chain = some c) (ha : s.At q (.wait r c)) :
    t.At q (.wait r c) := by
  obtain ⟨hlock, hready, hbusy, hdone⟩ := ha
  obtain ⟨hbuf, hb⟩ := h.buf r hr
  refine ⟨hbuf.trans hlock, h.ready hc hready, fun hbt => ?_, fun hbt => h.done (hdone (hb ▸ hbt))⟩
  obtain ⟨hcl, hmem, hpub⟩ := hbusy (hb ▸ hbt)
  refine ⟨h.cleared.trans hcl, (h.pending c hc).mpr hmem, fun hu => ?_⟩
  exact h.published.trans (hpub ((h.used c hc).mp hu))

theorem place (ha : s.At q x) : t.At q x := by
  cases x with
  | idle | intrEnter | intr => trivial
  | enter r | alloc r => exact h.fresh rfl ha
  | format r c => exact ⟨h.fresh rfl ha.1, h.owned rfl ha.2⟩
  | avail r c =>
    obtain ⟨hfresh, hready, hbusy⟩ := ha
    exact ⟨h.fresh rfl hfresh, h.ready rfl hready, (h.buf r rfl).2.trans hbusy⟩
  | notify r c =>
    obtain ⟨hfresh, hready, hbusy, hslot⟩ := ha
    refine ⟨h.fresh rfl hfresh, h.ready rfl hready, (h.buf r rfl).2.trans hbusy, ?_⟩
    rw [h.slot r c rfl]
    exact hslot
  | wait r c | asleep r c => exact h.waitsFor rfl rfl ha
  | finish r c =>
    obtain ⟨hlock, hready, hbusy, hdone⟩ := ha
    exact ⟨(h.buf r rfl).1.trans hlock, h.ready rfl hready, (h.buf r rfl).2.trans hbusy,
      h.done hdone⟩

end

end Unseen

lemma Pc.req_of_waits (h : x.waits = some (r, c)) : x.req = some r ∧ x.chain = some c := by
  cases x <;> cases h <;> exact ⟨rfl, rfl⟩

lemma Sys.Waits.frame {n : ℕ} (hw : s.Waits n q) (hpc : t.pc q = s.pc q)
    (h : Unseen s t q (s.pc q)) : t.Waits n q := by
  obtain ⟨r, c, hp, hc, hb⟩ := hw
  exact ⟨r, c, by rw [hpc]; exact hp, hc, (h.buf r (Pc.req_of_waits hp).1).2.trans hb⟩

namespace Sys.At

lemma bufLock (h : s.At p x) (hr : x.req = some r) : s.bufLock r.b = some p := by
  cases x with
  | idle | intrEnter | intr => cases hr
  | enter r' | alloc r' =>
    cases hr
    exact h.lock
  | format r' c | avail r' c | notify r' c =>
    cases hr
    exact h.1.lock
  | wait r' c | asleep r' c | finish r' c =>
    cases hr
    exact h.1

theorem owned (h : s.At p x) (hc : x.chain = some c) : Owned s.disk c := by
  cases x with
  | idle | intrEnter | intr | enter r | alloc r => cases hc
  | format r c' =>
    cases hc
    exact h.2
  | avail r c' | notify r c' | wait r c' | asleep r c' | finish r c' =>
    cases hc
    exact h.2.1.owned

theorem iff_wait (hw : x.waits = some (r, c)) : s.At p x ↔ s.At p (.wait r c) := by
  cases x <;> cases hw <;> exact Iff.rfl

end Sys.At

lemma Sys.Waits.chain {n : ℕ} (h : s.Waits n p) : ∃ c, (s.pc p).chain = some c ∧ c.head = n := by
  obtain ⟨r, c, hp, hc, _⟩ := h
  exact ⟨c, (Pc.req_of_waits hp).2, hc⟩

namespace Inv

section
variable (h : Inv s)
include h

theorem owned (hc : (s.pc p).chain = some c) : Owned s.disk c := (h.place p).owned hc

lemma buf_ne {r' : Req β} (hpq : p ≠ q) (hr : (s.pc p).req = some r) (hr' : (s.pc q).req = some r') :
    r.b ≠ r'.b := by
  intro hb
  have hp := (h.place p).bufLock hr
  have hq := (h.place q).bufLock hr'
  rw [hb, hq] at hp
  exact hpq (Option.some.inj hp).symm

lemma head_ne {c' : Chain} (hpq : p ≠ q) (hc : (s.pc p).chain = some c)
    (hc' : (s.pc q).chain = some c') : c.head ≠ c'.head := by
  intro he
  refine h.disjoint p q c c' hpq hc hc' (a := c.head) ?_ ?_
  · exact Chain.head_mem
  · exact he ▸ Chain.head_mem

lemma not_mem {c' : Chain} (hq : q ≠ p) (hc : (s.pc p).chain = some c)
    (hc' : (s.pc q).chain = some c') {i : ℕ} (hi : i ∈ c'.toList) : i ∉ c.toList :=
  fun hm => h.disjoint p q c c' (Ne.symm hq) hc hc' hm hi

lemma lt_of_pending {n : ℕ} (hn : n ∈ s.pending) : n < num := by
  obtain ⟨p, hp⟩ := h.waits n hn
  obtain ⟨c, hc, rfl⟩ := hp.chain
  exact (h.owned hc).lt c.head Chain.head_mem

lemma not_pending (hc : (s.pc p).chain = some c) (hno : ¬s.Waits c.head p) :
    c.head ∉ s.pending := by
  intro hn
  obtain ⟨q, hq⟩ := h.waits c.head hn
  by_cases hpq : q = p
  · exact hno (hpq ▸ hq)
  · obtain ⟨c', hc', he⟩ := hq.chain
    exact h.head_ne hpq hc' hc he

lemma room (hc : (s.pc p).chain = some c) (hno : ¬s.Waits c.head p) : s.pending.length < num := by
  have hnodup : (c.head :: s.pending).Nodup :=
    nodup_cons.mpr ⟨h.not_pending hc hno, h.nodup⟩
  have hsub : c.head :: s.pending ⊆ range num := by
    intro n hn
    rcases mem_cons.mp hn with rfl | hn
    · exact mem_range.mpr ((h.owned hc).lt c.head Chain.head_mem)
    · exact mem_range.mpr (h.lt_of_pending hn)
  simpa using (hnodup.subperm hsub).length_le

lemma length_pending : s.pending.length ≤ num := by
  have hsub : s.pending ⊆ range num := fun n hn => mem_range.mpr (h.lt_of_pending hn)
  simpa using (h.nodup.subperm hsub).length_le

end

lemma length_pending_eq (s : Sys ι β) :
    s.pending.length = Ring.count s.devIdx s.disk.avail.idx + s.taken.length +
      Ring.count s.disk.usedIdx s.disk.used.idx := by
  simp only [Sys.pending, Sys.availHeads, Sys.usedHeads, length_append, length_map,
    Ring.length_contents]

lemma update (h : Inv s) (hpc : ∀ q ≠ p, t.pc q = s.pc q)
    (hothers : ∀ q ≠ p, Unseen s t q (s.pc q))
    (hlock : ∀ q, t.lock = some q ↔ (t.pc q).inside = true) (hplace : t.At p (t.pc p))
    (hchain : ∀ c, (t.pc p).chain = some c → ∀ q ≠ p, ∀ c', (s.pc q).chain = some c' →
      c.toList.Disjoint c'.toList)
    (hcover : ∀ i < num, t.disk.free i = false → (∃ c, (t.pc p).chain = some c ∧ i ∈ c.toList) ∨
      s.disk.free i = false ∧ ∀ c, (s.pc p).chain = some c → i ∉ c.toList)
    (hnodup : t.pending.Nodup)
    (hwaits : ∀ n ∈ t.pending, t.Waits n p ∨ n ∈ s.pending ∧ ¬s.Waits n p)
    (hstatus : ∀ n ∈ t.usedHeads, (t.disk.info n).status = 0) : Inv t := by
  refine ⟨hlock, ?_, ?_, ?_, hnodup, ?_, hstatus⟩
  · intro q
    by_cases hq : q = p
    · exact hq ▸ hplace
    · rw [hpc q hq]
      exact (hothers q hq).place (h.place q)
  · intro q q' c c' hne hc hc'
    by_cases hq : q = p
    · subst hq
      rw [hpc q' (Ne.symm hne)] at hc'
      exact hchain c hc q' (Ne.symm hne) c' hc'
    · rw [hpc q hq] at hc
      by_cases hq' : q' = p
      · subst hq'
        exact (hchain c' hc' q hq c hc).symm
      · rw [hpc q' hq'] at hc'
        exact h.disjoint q q' c c' hne hc hc'
  · intro i hi hf
    rcases hcover i hi hf with ⟨c, hc, hm⟩ | ⟨hf, hno⟩
    · exact ⟨p, c, hc, hm⟩
    · obtain ⟨q, c, hc, hm⟩ := h.cover i hi hf
      have hq : q ≠ p := by
        rintro rfl
        exact hno c hc hm
      exact ⟨q, c, by rw [hpc q hq, hc], hm⟩
  · intro n hn
    rcases hwaits n hn with hw | ⟨hn, hno⟩
    · exact ⟨p, hw⟩
    · obtain ⟨q, hw⟩ := h.waits n hn
      have hq : q ≠ p := by
        rintro rfl
        exact hno hw
      exact ⟨q, hw.frame (hpc q hq) (hothers q hq)⟩

lemma keep (h : Inv s) (hpc : t.pc = s.pc) (hlock : t.lock = s.lock)
    (hplace : ∀ q, t.At q (s.pc q)) (hfree : t.disk.free = s.disk.free) (hbusy : t.busy = s.busy)
    (hpending : t.pending.Perm s.pending)
    (hstatus : ∀ n ∈ t.usedHeads, (t.disk.info n).status = 0) : Inv t := by
  refine ⟨?_, ?_, ?_, ?_, hpending.nodup_iff.mpr h.nodup, ?_, hstatus⟩
  · rw [hlock, hpc]
    exact h.lock
  · rw [hpc]
    exact hplace
  · rw [hpc]
    exact h.disjoint
  · rw [hpc, hfree]
    exact h.cover
  · intro n hn
    obtain ⟨q, hq⟩ := h.waits n (hpending.mem_iff.mp hn)
    refine ⟨q, ?_⟩
    rw [Sys.Waits, hpc, hbusy]
    exact hq

lemma cover_or {i : ℕ} (hf : s.disk.free i = false) :
    (∃ c, (s.pc p).chain = some c ∧ i ∈ c.toList) ∨
      s.disk.free i = false ∧ ∀ c, (s.pc p).chain = some c → i ∉ c.toList := by
  by_cases hi : ∃ c, (s.pc p).chain = some c ∧ i ∈ c.toList
  · exact .inl hi
  · exact .inr ⟨hf, fun c hc hm => hi ⟨c, hc, hm⟩⟩

lemma not_waits (h : (s.pc p).waits = none) (n : ℕ) : ¬s.Waits n p := by
  rintro ⟨r, c, hw, _⟩
  rw [h] at hw
  cases hw

lemma alone (h : Inv s) (hp : (s.pc p).inside = true) (hq : q ≠ p) :
    (s.pc q).inside = false := by
  have hlock := (h.lock p).mpr hp
  cases hin : (s.pc q).inside with
  | false => rfl
  | true =>
    have hlock' := (h.lock q).mpr hin
    rw [hlock] at hlock'
    exact absurd (Option.some.inj hlock').symm hq

lemma slot_unseen (h : Inv s) (hp : (s.pc p).inside = true) (hq : q ≠ p) :
    ∀ r c, s.pc q = .notify r c → t.disk.avail = s.disk.avail := by
  intro r c hn
  have hin := h.alone hp hq
  rw [hn] at hin
  cases hin

lemma bufLock (h : Inv s) [DecidableEq β] {b : β} (v : Option ι)
    (hb : ∀ q r, (s.pc q).req = some r → r.b ≠ b) :
    Inv { s with bufLock := Function.update s.bufLock b v } := by
  refine h.keep rfl rfl (fun q => ?_) rfl rfl (.refl _) h.status
  have hq : Unseen s { s with bufLock := Function.update s.bufLock b v } q (s.pc q) :=
    ⟨rfl, rfl, fun r hr => ⟨update_of_ne (hb q r hr) _ _, rfl⟩, fun _ _ _ _ => rfl,
      fun _ _ _ _ => rfl, fun _ _ => rfl, fun _ _ => .rfl, fun _ _ => .rfl, fun _ _ _ => rfl⟩
  exact hq.place (h.place q)

theorem acquiresleep (h : Inv s) [DecidableEq β] {b : β} (hb : s.bufLock b = none) :
    Inv { s with bufLock := Function.update s.bufLock b (some p) } := by
  refine h.bufLock _ fun q r hr he => ?_
  have hlock := (h.place q).bufLock hr
  rw [he, hb] at hlock
  cases hlock

theorem releasesleep (h : Inv s) [DecidableEq β] {b : β} (hp : s.pc p = .idle) (hb : s.bufLock b = some p) :
    Inv { s with bufLock := Function.update s.bufLock b none } := by
  refine h.bufLock _ fun q r hr he => ?_
  have hlock := (h.place q).bufLock hr
  rw [he, hb] at hlock
  cases hlock
  rw [hp] at hr
  cases hr

section
variable [DecidableEq ι]

lemma goto_self (s : Sys ι β) (p : ι) (x : Pc β) : (s.goto p x).pc p = x :=
  update_self ..

lemma goto_of_ne (s : Sys ι β) (x : Pc β) (h : q ≠ p) : (s.goto p x).pc q = s.pc q :=
  update_of_ne h _ _

section
variable (h : Inv s)
include h

lemma lock_keep (hx : x.inside = (s.pc p).inside) (q : ι) :
    s.lock = some q ↔ (Function.update s.pc p x q).inside = true := by
  rw [h.lock q]
  by_cases hq : q = p
  · subst hq
    rw [update_self, hx]
  · rw [update_of_ne hq]

lemma lock_acquire (hl : s.lock = none) (hx : x.inside = true) (q : ι) :
    some p = some q ↔ (Function.update s.pc p x q).inside = true := by
  by_cases hq : q = p
  · subst hq
    simp [hx]
  · rw [update_of_ne hq, ← h.lock q, hl]
    simp [Ne.symm hq]

lemma lock_release (hl : (s.pc p).inside = true) (hx : x.inside = false) (q : ι) :
    none = some q ↔ (Function.update s.pc p x q).inside = true := by
  by_cases hq : q = p
  · subst hq
    simp [hx]
  · have hp := (h.lock p).mpr hl
    rw [update_of_ne hq, ← h.lock q, hp]
    simp [Ne.symm hq]

lemma advance {u : Sys ι β} (hpc : u.pc = s.pc) (hfree : u.disk.free = s.disk.free)
    (hchain : x.chain = (s.pc p).chain) (hothers : ∀ q ≠ p, Unseen s (u.goto p x) q (s.pc q))
    (hlock : ∀ q, u.lock = some q ↔ (Function.update s.pc p x q).inside = true)
    (hplace : (u.goto p x).At p x) (hnodup : u.pending.Nodup)
    (hwaits : ∀ n ∈ u.pending, (u.goto p x).Waits n p ∨ n ∈ s.pending ∧ ¬s.Waits n p)
    (hstatus : ∀ n ∈ u.usedHeads, (u.disk.info n).status = 0) : Inv (u.goto p x) := by
  refine h.update (p := p) ?_ hothers ?_ ?_ ?_ ?_ hnodup hwaits hstatus
  · intro q hq
    rw [goto_of_ne _ _ hq, hpc]
  · rw [Sys.goto, hpc]
    exact hlock
  · rw [goto_self]
    exact hplace
  · intro c hc q hq c' hc'
    rw [goto_self, hchain] at hc
    exact h.disjoint p q c c' (Ne.symm hq) hc hc'
  · intro i _ hf
    rw [goto_self, hchain]
    exact cover_or (hfree ▸ hf)

lemma move {l : Option ι} (hx : s.At p x) (hchain : x.chain = (s.pc p).chain)
    (hw : ∀ r c, (s.pc p).waits = some (r, c) → s.busy r.b = true → x.waits = some (r, c))
    (hlock : ∀ q, l = some q ↔ (Function.update s.pc p x q).inside = true) :
    Inv ({ s with lock := l }.goto p x) := by
  have hsame : ∀ q y, Unseen s ({ s with lock := l }.goto p x) q y := fun q y =>
    ⟨rfl, rfl, fun _ _ => ⟨rfl, rfl⟩, fun _ _ _ _ => rfl, fun _ _ _ _ => rfl, fun _ _ => rfl,
      fun _ _ => .rfl, fun _ _ => .rfl, fun _ _ _ => rfl⟩
  refine h.advance rfl rfl hchain (fun q _ => hsame q _) hlock ((hsame p x).place hx) h.nodup
    ?_ h.status
  intro n hn
  by_cases hp : s.Waits n p
  · obtain ⟨r, c, hp, hc, hb⟩ := hp
    refine .inl ⟨r, c, ?_, hc, hb⟩
    rw [goto_self]
    exact hw r c hp hb
  · exact .inr ⟨hn, hp⟩

theorem rw (hp : s.pc p = .idle) (hb : s.bufLock r.b = some p) :
    Inv ({ s with
      published := Function.update s.published p false
      cleared := Function.update s.cleared p 0 }.goto p (.enter r)) := by
  have hghost : Inv { s with
      published := Function.update s.published p false
      cleared := Function.update s.cleared p 0 } := by
    refine h.keep rfl rfl (fun q => ?_) rfl rfl (.refl _) h.status
    by_cases hq : q = p
    · rw [hq, hp]
      trivial
    · have hun : Unseen s { s with
          published := Function.update s.published p false
          cleared := Function.update s.cleared p 0 } q (s.pc q) :=
        ⟨update_of_ne hq _ _, update_of_ne hq _ _, fun _ _ => ⟨rfl, rfl⟩, fun _ _ _ _ => rfl,
          fun _ _ _ _ => rfl, fun _ _ => rfl, fun _ _ => .rfl, fun _ _ => .rfl, fun _ _ _ => rfl⟩
      exact hun.place (h.place q)
  refine hghost.move (l := s.lock) ?_ ?_ ?_ ?_
  · exact ⟨hb, update_self .., update_self ..⟩
  · exact (congrArg Pc.chain hp).symm
  · intro r c hw
    exact absurd ((congrArg Pc.waits hp).symm.trans hw) nofun
  · exact hghost.lock_keep (congrArg Pc.inside hp).symm

theorem enter (hp : s.pc p = .enter r) (hl : s.lock = none) :
    Inv ({ s with lock := some p }.goto p (.alloc r)) := by
  have hplace := h.place p
  rw [hp] at hplace
  refine h.move hplace (by rw [hp]; rfl) ?_ (h.lock_acquire hl rfl)
  intro r c hw
  rw [hp] at hw
  cases hw

theorem alloc_none (hp : s.pc p = .alloc r) {desc : ℕ → Desc β}
    (hd : ∀ i, s.disk.free i = false → desc i = s.disk.desc i) :
    Inv ({ s with disk := { s.disk with desc := desc }, lock := none }.goto p (.enter r)) := by
  have hdesc : Inv { s with disk := { s.disk with desc := desc } } := by
    refine h.keep rfl rfl (fun q => ?_) rfl rfl (.refl _) h.status
    have hun : Unseen s { s with disk := { s.disk with desc := desc } } q (s.pc q) :=
      ⟨rfl, rfl, fun _ _ => ⟨rfl, rfl⟩, fun c hc i hi => hd i ((h.owned hc).taken i hi),
        fun _ _ _ _ => rfl, fun _ _ => rfl, fun _ _ => .rfl, fun _ _ => .rfl, fun _ _ _ => rfl⟩
    exact hun.place (h.place q)
  have hplace := hdesc.place p
  have hpc : ({ s with disk := { s.disk with desc := desc } } : Sys ι β).pc p = .alloc r := hp
  rw [hpc] at hplace
  refine hdesc.move hplace (by rw [hpc]; rfl) ?_ (hdesc.lock_release (by rw [hpc]; rfl) rfl)
  intro r c hw
  rw [hpc] at hw
  cases hw

theorem alloc_some (hp : s.pc p = .alloc r) (hnodup : c.toList.Nodup)
    (hc : ∀ i ∈ c.toList, i < num ∧ s.disk.free i = true) :
    Inv ({ s with disk := { s.disk with
      free := fun i => s.disk.free i && decide (i ∉ c.toList) } }.goto p (.format r c)) := by
  have hfresh := h.place p
  rw [hp] at hfresh
  refine h.update (p := p) (fun q hq => goto_of_ne _ _ hq) ?_
    (h.lock_keep (by rw [hp]; rfl)) ?_ ?_ ?_ h.nodup ?_ h.status
  · intro q hq
    refine ⟨rfl, rfl, fun _ _ => ⟨rfl, rfl⟩, fun _ _ _ _ => rfl, fun c' hc' i hi => ?_,
      fun _ _ => rfl, fun _ _ => .rfl, fun _ _ => .rfl, fun _ _ _ => rfl⟩
    have hf := (h.owned hc').taken i hi
    change (s.disk.free i && _) = s.disk.free i
    rw [hf, Bool.false_and]
  · rw [goto_self]
    exact ⟨⟨hfresh.lock, hfresh.published, hfresh.cleared⟩, fun i hi => (hc i hi).1, hnodup,
      fun i hi => by simp [Sys.goto, hi]⟩
  · intro c' hc' q hq c'' hc''
    rw [goto_self] at hc'
    cases hc'
    intro i hi hi'
    have hf := (h.owned hc'').taken i hi'
    rw [(hc i hi).2] at hf
    cases hf
  · intro i _ hf
    rw [goto_self]
    by_cases hi : i ∈ c.toList
    · exact .inl ⟨c, rfl, hi⟩
    · refine .inr ⟨by simpa [Sys.goto, hi] using hf, fun c' hc' => ?_⟩
      rw [hp] at hc'
      cases hc'
  · exact fun n hn => .inr ⟨hn, not_waits (by rw [hp]; rfl) n⟩

def usedHead (s : Sys ι β) : ℕ := (s.disk.used.ring (Ring.slot num s.disk.usedIdx)).toNat

theorem format [DecidableEq β] (hp : s.pc p = .format r c) :
    Inv ({ s with
      disk := Virtio.format r c s.disk
      busy := Function.update s.busy r.b true }.goto p (.avail r c)) := by
  have hplace := h.place p
  rw [hp] at hplace
  obtain ⟨hfresh, howned⟩ := hplace
  have hreq : (s.pc p).req = some r := by rw [hp]; rfl
  have hchain : (s.pc p).chain = some c := by rw [hp]; rfl
  have hnot : ∀ n, ¬s.Waits n p := not_waits (by rw [hp]; rfl)
  refine h.advance (p := p) rfl rfl hchain.symm ?_ (h.lock_keep (by rw [hp]; rfl)) ?_ h.nodup
    (fun n hn => .inr ⟨hn, hnot n⟩) ?_
  · intro q hq
    refine ⟨rfl, rfl, ?_, ?_, fun _ _ _ _ => rfl, ?_, fun _ _ => .rfl, fun _ _ => .rfl,
      fun _ _ _ => rfl⟩
    · intro r' hr'
      exact ⟨rfl, update_of_ne (h.buf_ne hq hr' hreq) _ _⟩
    · intro c' hc' i hi
      exact format_desc (h.not_mem hq hchain hc' hi)
    · intro c' hc'
      exact congrArg Info.b (format_info (h.head_ne hq hc' hchain))
  · refine ⟨⟨hfresh.lock, hfresh.published, hfresh.cleared⟩, ⟨?_, ?_, ?_⟩, ?_⟩
    · exact howned.frame fun _ _ => rfl
    · exact format_linked howned.nodup
    · exact format_info_head r c s.disk
    · exact update_self ..
  · -- no head in the used ring is that of a chain being formatted
    intro n hn
    have hne : n ≠ c.head := by
      rintro rfl
      exact h.not_pending hchain (hnot _) (mem_append_right _ hn)
    exact (congrArg Info.status (format_info hne)).trans (h.status n hn)

theorem avail (hp : s.pc p = .avail r c) :
    Inv ({ s with disk := { s.disk with avail := { s.disk.avail with
      ring := Function.update s.disk.avail.ring (Ring.slot num s.disk.avail.idx)
        (BitVec.ofNat 16 c.head) } } }.goto p (.notify r c)) := by
  have hplace := h.place p
  rw [hp] at hplace
  obtain ⟨hfresh, hready, hbusy⟩ := hplace
  have hchain : (s.pc p).chain = some c := by rw [hp]; rfl
  have hinside : (s.pc p).inside = true := by rw [hp]; rfl
  have hnot : ∀ n, ¬s.Waits n p := not_waits (by rw [hp]; rfl)
  -- the slot is not one that the device has yet to read
  have hpending : ({ s with disk := { s.disk with avail := { s.disk.avail with
      ring := Function.update s.disk.avail.ring (Ring.slot num s.disk.avail.idx)
        (BitVec.ofNat 16 c.head) } } } : Sys ι β).pending = s.pending := by
    refine congrArg (fun l => map BitVec.toNat l ++ s.taken ++ s.usedHeads) ?_
    have hroom := h.room hchain (hnot _)
    rw [length_pending_eq] at hroom
    have hlt : Ring.count s.devIdx s.disk.avail.idx < num := by omega
    exact Ring.contents_update (by decide) hlt _
  refine h.advance (p := p) rfl rfl hchain.symm ?_ (h.lock_keep (by rw [hp]; rfl)) ?_ ?_ ?_ h.status
  · intro q hq
    exact ⟨rfl, rfl, fun _ _ => ⟨rfl, rfl⟩, fun _ _ _ _ => rfl, fun _ _ _ _ => rfl, fun _ _ => rfl,
      fun c' _ => iff_of_eq (congrArg (c'.head ∈ ·) hpending), fun _ _ => .rfl,
      h.slot_unseen hinside hq⟩
  · refine ⟨⟨hfresh.lock, hfresh.published, hfresh.cleared⟩,
      ⟨hready.owned.frame fun _ _ => rfl, hready.linked.frame fun _ _ => rfl, hready.info⟩, hbusy, ?_⟩
    change (Function.update s.disk.avail.ring (Ring.slot num s.disk.avail.idx)
      (BitVec.ofNat 16 c.head) (Ring.slot num s.disk.avail.idx)).toNat = c.head
    rw [update_self]
    exact hready.owned.toNat Chain.head_mem
  · rw [hpending]
    exact h.nodup
  · intro n hn
    rw [hpending] at hn
    exact .inr ⟨hn, hnot n⟩

theorem notify (hp : s.pc p = .notify r c) :
    Inv ({ s with disk := { s.disk with avail := { s.disk.avail with
      idx := s.disk.avail.idx + 1 } } }.goto p (.wait r c)) := by
  have hplace := h.place p
  rw [hp] at hplace
  obtain ⟨hfresh, hready, hbusy, hslot⟩ := hplace
  have hchain : (s.pc p).chain = some c := by rw [hp]; rfl
  have hinside : (s.pc p).inside = true := by rw [hp]; rfl
  have hnot : ∀ n, ¬s.Waits n p := not_waits (by rw [hp]; rfl)
  have hhead := h.not_pending hchain (hnot _)
  -- the head comes last in the avail ring
  have hpending : List.Perm ({ s with disk := { s.disk with avail := { s.disk.avail with
      idx := s.disk.avail.idx + 1 } } } : Sys ι β).pending (c.head :: s.pending) := by
    have hroom := h.room hchain (hnot _)
    rw [length_pending_eq] at hroom
    have hlt : num + 1 < 2 ^ 16 := by decide
    have hcontents : Ring.contents s.disk.avail.ring s.devIdx (s.disk.avail.idx + 1) = _ :=
      Ring.contents_succ (by omega)
    have hheads : ({ s with disk := { s.disk with avail := { s.disk.avail with
        idx := s.disk.avail.idx + 1 } } } : Sys ι β).availHeads = s.availHeads ++ [c.head] := by
      refine (congrArg (map BitVec.toNat) hcontents).trans ?_
      rw [map_append, map_singleton, hslot]
      rfl
    rw [Sys.pending, hheads, append_assoc, append_assoc, singleton_append]
    refine perm_middle.trans (.cons _ ?_)
    rw [← append_assoc]
    rfl
  refine h.advance (p := p) rfl rfl hchain.symm ?_ (h.lock_keep (by rw [hp]; rfl)) ?_ ?_ ?_ h.status
  · intro q hq
    refine ⟨rfl, rfl, fun _ _ => ⟨rfl, rfl⟩, fun _ _ _ _ => rfl, fun _ _ _ _ => rfl, fun _ _ => rfl,
      fun c' hc' => ?_, fun _ _ => .rfl, h.slot_unseen hinside hq⟩
    refine hpending.mem_iff.trans ?_
    rw [mem_cons, or_iff_right (h.head_ne hq hc' hchain)]
  · refine ⟨hfresh.lock, ⟨hready.owned.frame fun _ _ => rfl, hready.linked.frame fun _ _ => rfl,
      hready.info⟩, fun _ => ⟨hfresh.cleared, ?_, fun hu => ?_⟩, fun hf => ?_⟩
    · exact hpending.mem_iff.mpr mem_cons_self
    · exact absurd (mem_append_right _ hu) hhead
    · rw [show s.busy r.b = false from hf] at hbusy
      cases hbusy
  · exact hpending.nodup_iff.mpr (nodup_cons.mpr ⟨hhead, h.nodup⟩)
  · intro n hn
    rcases mem_cons.mp (hpending.mem_iff.mp hn) with rfl | hn
    · exact .inl ⟨r, c, by rw [goto_self]; rfl, rfl, hbusy⟩
    · exact .inr ⟨hn, hnot n⟩

theorem wait_busy (hp : s.pc p = .wait r c) :
    Inv ({ s with lock := none }.goto p (.asleep r c)) := by
  have hplace := h.place p
  rw [hp] at hplace
  refine h.move hplace (by rw [hp]; rfl) ?_ (h.lock_release (by rw [hp]; rfl) rfl)
  intro r' c' hw _
  rw [hp] at hw
  exact hw

theorem wait_done (hp : s.pc p = .wait r c) (hb : s.busy r.b = false) :
    Inv (s.goto p (.finish r c)) := by
  have hplace := h.place p
  rw [hp] at hplace
  obtain ⟨hlock, hready, _, hdone⟩ := hplace
  refine h.move (l := s.lock) ⟨hlock, hready, hb, hdone hb⟩ (by rw [hp]; rfl) ?_
    (h.lock_keep (by rw [hp]; rfl))
  intro r' c' hw hbusy
  rw [hp] at hw
  cases hw
  rw [hb] at hbusy
  cases hbusy

theorem asleep (hp : s.pc p = .asleep r c) (hl : s.lock = none) :
    Inv ({ s with lock := some p }.goto p (.wait r c)) := by
  have hplace := h.place p
  rw [hp] at hplace
  refine h.move hplace (by rw [hp]; rfl) ?_ (h.lock_acquire hl rfl)
  intro r' c' hw _
  rw [hp] at hw
  exact hw

theorem finish (hp : s.pc p = .finish r c) {desc : ℕ → Desc β}
    (hd : ∀ i ∉ c.toList, desc i = s.disk.desc i) :
    Inv ({ s with
      disk := { s.disk with
        info := Function.update s.disk.info c.head { s.disk.info c.head with b := none }
        desc := desc
        free := fun i => s.disk.free i || decide (i ∈ c.toList) }
      lock := none }.goto p .idle) := by
  have hchain : (s.pc p).chain = some c := by rw [hp]; rfl
  refine h.update (p := p) (fun q hq => goto_of_ne _ _ hq) ?_
    (h.lock_release (by rw [hp]; rfl) rfl) ?_ ?_ ?_ h.nodup
    (fun n hn => .inr ⟨hn, not_waits (by rw [hp]; rfl) n⟩) ?_
  · intro q hq
    refine ⟨rfl, rfl, fun _ _ => ⟨rfl, rfl⟩, ?_, ?_, ?_, fun _ _ => .rfl, fun _ _ => .rfl,
      fun _ _ _ => rfl⟩
    · intro c' hc' i hi
      exact hd i (h.not_mem hq hchain hc' hi)
    · intro c' hc' i hi
      change (s.disk.free i || _) = s.disk.free i
      rw [decide_eq_false (h.not_mem hq hchain hc' hi), Bool.or_false]
    · intro c' hc'
      exact congrArg Info.b (update_of_ne (h.head_ne hq hc' hchain) _ _)
  · rw [goto_self]
    trivial
  · intro c' hc'
    rw [goto_self] at hc'
    cases hc'
  · intro i _ hf
    obtain ⟨hf, hi⟩ := Bool.or_eq_false_iff.mp hf
    refine .inr ⟨hf, fun c' hc' => ?_⟩
    rw [hchain] at hc'
    cases hc'
    exact of_decide_eq_false hi
  · intro n hn
    refine Eq.trans ?_ (h.status n hn)
    change (Function.update s.disk.info c.head _ n).status = _
    by_cases hnc : n = c.head
    · rw [hnc, update_self]
    · rw [update_of_ne hnc]

theorem intr (hp : s.pc p = .idle) : Inv (s.goto p .intrEnter) := by
  refine h.move (l := s.lock) trivial (by rw [hp]; rfl) ?_ (h.lock_keep (by rw [hp]; rfl))
  intro r c hw
  rw [hp] at hw
  cases hw

theorem intrEnter (hp : s.pc p = .intrEnter) (hl : s.lock = none) :
    Inv ({ s with lock := some p }.goto p .intr) := by
  refine h.move trivial (by rw [hp]; rfl) ?_ (h.lock_acquire hl rfl)
  intro r c hw
  rw [hp] at hw
  cases hw

theorem intr_return (hp : s.pc p = .intr) : Inv ({ s with lock := none }.goto p .idle) := by
  refine h.move trivial (by rw [hp]; rfl) ?_ (h.lock_release (by rw [hp]; rfl) rfl)
  intro r c hw
  rw [hp] at hw
  cases hw

end

end

theorem intr_turn [DecidableEq β] (h : Inv s) (hne : s.disk.usedIdx ≠ s.disk.used.idx) :
    (s.disk.info (usedHead s)).status = 0 ∧ ∃ b, (s.disk.info (usedHead s)).b = some b ∧
      Inv { s.clear b with disk := { s.disk with usedIdx := s.disk.usedIdx + 1 } } := by
  have hheads : s.usedHeads = usedHead s ::
      ({ s with disk := { s.disk with usedIdx := s.disk.usedIdx + 1 } } : Sys ι β).usedHeads := by
    rw [Sys.usedHeads, Ring.contents_take hne, map_cons]
    rfl
  have hmem : usedHead s ∈ s.usedHeads := by
    rw [hheads]
    exact mem_cons_self
  obtain ⟨q, r, c, hw, hc, hb⟩ := h.waits _ (mem_append_right _ hmem)
  obtain ⟨hreq, hchain⟩ := Pc.req_of_waits hw
  obtain ⟨hlock, hready, hbusy, _⟩ := (Sys.At.iff_wait hw).mp (h.place q)
  obtain ⟨hcleared, _, hpublished⟩ := hbusy hb
  refine ⟨h.status _ hmem, r.b, hc ▸ hready.info, ?_⟩
  set t : Sys ι β := { s.clear r.b with disk := { s.disk with usedIdx := s.disk.usedIdx + 1 } }
  have hpending : s.pending.Perm (usedHead s :: t.pending) := by
    rw [Sys.pending, hheads]
    exact perm_middle
  obtain ⟨hgone, hnodup⟩ := nodup_cons.mp (hpending.nodup_iff.mp h.nodup)
  refine h.update (p := q) (fun _ _ => rfl) ?_ h.lock ?_ ?_ (fun i _ hf => cover_or hf) hnodup ?_ ?_
  · intro q' hq
    refine ⟨rfl, ?_, ?_, fun _ _ _ _ => rfl, fun _ _ _ _ => rfl, fun _ _ => rfl, ?_, ?_,
      fun _ _ _ => rfl⟩
    · refine if_neg ?_
      cases hr' : (s.pc q').req with
      | none => simp
      | some r' => simpa using h.buf_ne hq hr' hreq
    · exact fun r' hr' => ⟨rfl, update_of_ne (h.buf_ne hq hr' hreq) _ _⟩
    · intro c' hc'
      rw [hpending.mem_iff, mem_cons, or_iff_right (hc ▸ h.head_ne hq hc' hchain)]
    · intro c' hc'
      rw [hheads, mem_cons, or_iff_right (hc ▸ h.head_ne hq hc' hchain)]
      rfl
  · refine (Sys.At.iff_wait hw).mpr ⟨hlock, ⟨hready.owned.frame fun _ _ => rfl,
      hready.linked.frame fun _ _ => rfl, hready.info⟩, fun hbt => ?_, fun _ => ⟨?_, ?_⟩⟩
    · have hbf : t.busy r.b = false := update_self ..
      rw [hbf] at hbt
      cases hbt
    · exact hpublished (hc ▸ hmem)
    · refine (if_pos ?_).trans (congrArg (· + 1) hcleared)
      rw [hreq]
      simp
  · exact fun c' hc' q' hq c'' hc'' => h.disjoint q q' c' c'' (Ne.symm hq) hc' hc''
  · intro n hn
    refine .inr ⟨hpending.mem_iff.mpr (mem_cons_of_mem _ hn), ?_⟩
    rintro ⟨r', c', hw', rfl, _⟩
    rw [hw] at hw'
    cases hw'
    exact hgone (hc ▸ hn)
  · intro n hn
    exact h.status n (by rw [hheads]; exact mem_cons_of_mem _ hn)

theorem take (h : Inv s) (hne : s.devIdx ≠ s.disk.avail.idx) :
    Inv { s with
      taken := s.taken ++ [(s.disk.avail.ring (Ring.slot num s.devIdx)).toNat]
      devIdx := s.devIdx + 1 } := by
  set t : Sys ι β := { s with
    taken := s.taken ++ [(s.disk.avail.ring (Ring.slot num s.devIdx)).toNat]
    devIdx := s.devIdx + 1 }
  have hheads : s.availHeads = (s.disk.avail.ring (Ring.slot num s.devIdx)).toNat :: t.availHeads := by
    rw [Sys.availHeads, Ring.contents_take hne, map_cons]
    rfl
  have hpending : t.pending.Perm s.pending := by
    rw [Sys.pending, Sys.pending, hheads]
    refine List.Perm.append_right _ ?_
    rw [← append_assoc]
    exact perm_append_singleton _ _
  refine h.keep rfl rfl (fun q => ?_) rfl rfl hpending h.status
  have hun : Unseen s t q (s.pc q) :=
    ⟨rfl, rfl, fun _ _ => ⟨rfl, rfl⟩, fun _ _ _ _ => rfl, fun _ _ _ _ => rfl, fun _ _ => rfl,
      fun _ _ => hpending.mem_iff, fun _ _ => .rfl, fun _ _ _ => rfl⟩
  exact hun.place (h.place q)

lemma publish_info (h : Inv s) {n : ℕ} (hn : n ∈ s.pending) :
    (Virtio.publish n s.disk).info =
      Function.update s.disk.info n { s.disk.info n with status := 0 } := by
  obtain ⟨q, r, c, hw, rfl, _⟩ := h.waits n hn
  obtain ⟨_, hready, _⟩ := (Sys.At.iff_wait hw).mp (h.place q)
  have haddr : (s.disk.desc (s.disk.desc (s.disk.desc c.head).next.toNat).next.toNat).addr =
      .status c.head := by
    rw [hready.linked.head.2, hready.owned.toNat Chain.data_mem, hready.linked.data.2,
      hready.owned.toNat Chain.status_mem, hready.linked.status.2]
  simp only [Virtio.publish, haddr]

theorem publish (h : Inv s) {n : ℕ} (hn : n ∈ s.taken) :
    Inv { s with
      disk := Virtio.publish n s.disk
      taken := s.taken.erase n
      published := fun q => s.published q || (s.pc q).chain.any fun c => c.head = n } := by
  have hmem : n ∈ s.pending := mem_append_left _ (mem_append_right _ hn)
  have hinfo := h.publish_info hmem
  set t : Sys ι β := { s with
    disk := Virtio.publish n s.disk
    taken := s.taken.erase n
    published := fun q => s.published q || (s.pc q).chain.any fun c => c.head = n }
  have hheads : t.usedHeads = s.usedHeads ++ [n] := by
    have hlen := h.length_pending
    have hpos := length_pos_of_mem hn
    rw [length_pending_eq] at hlen
    have hroom : Ring.count s.disk.usedIdx s.disk.used.idx < num := by omega
    have hput : Ring.contents (Function.update s.disk.used.ring _ (BitVec.ofNat 32 n)) _ _ = _ :=
      Ring.contents_put (by decide) (by decide) hroom _
    have hlt : n < 2 ^ 32 := (h.lt_of_pending hmem).trans (by decide)
    refine (congrArg (map BitVec.toNat) hput).trans ?_
    rw [map_append, map_singleton, BitVec.toNat_ofNat, Nat.mod_eq_of_lt hlt]
    rfl
  have hpending : t.pending.Perm s.pending := by
    have htaken : s.taken.Perm (n :: s.taken.erase n) := perm_cons_erase hn
    have hlast : t.pending.Perm (n :: (s.availHeads ++ (s.taken.erase n ++ s.usedHeads))) := by
      rw [Sys.pending, hheads, ← append_assoc, ← append_assoc]
      exact perm_append_singleton _ _
    refine hlast.trans (perm_middle.symm.trans ?_)
    rw [Sys.pending, append_assoc]
    exact .append_left _ (.append_right _ htaken.symm)
  have hb : ∀ i, (t.disk.info i).b = (s.disk.info i).b := by
    intro i
    rw [show t.disk.info = _ from hinfo]
    by_cases hi : i = n
    · rw [hi, update_self]
    · rw [update_of_ne hi]
  refine h.keep rfl rfl (fun q => ?_) rfl rfl hpending ?_
  · by_cases hq : s.Waits n q
    · -- the request of `q` is published
      obtain ⟨r, c, hw, hc, hbusy⟩ := hq
      have hpub : t.published q = true := by
        change (s.published q || (s.pc q).chain.any fun c => c.head = n) = true
        rw [(Pc.req_of_waits hw).2]
        simp [hc]
      obtain ⟨hlock, hready, hwait, _⟩ := (Sys.At.iff_wait hw).mp (h.place q)
      refine (Sys.At.iff_wait hw).mpr ⟨hlock, ⟨hready.owned.frame fun _ _ => rfl,
        hready.linked.frame fun _ _ => rfl, (hb _).trans hready.info⟩, fun _ => ?_, fun hf => ?_⟩
      · exact ⟨(hwait hbusy).1, hpending.mem_iff.mpr (hwait hbusy).2.1, fun _ => hpub⟩
      · rw [show s.busy r.b = false from hf] at hbusy
        cases hbusy
    · have hhead : ∀ c, (s.pc q).chain = some c → c.head ≠ n := by
        rintro c hc rfl
        exact h.not_pending hc hq hmem
      have hpub : t.published q = s.published q := by
        change (s.published q || (s.pc q).chain.any fun c => c.head = n) = s.published q
        cases hc : (s.pc q).chain with
        | none => simp
        | some c => simp [hhead c hc]
      have hun : Unseen s t q (s.pc q) :=
        ⟨hpub, rfl, fun _ _ => ⟨rfl, rfl⟩, fun _ _ _ _ => rfl, fun _ _ _ _ => rfl, fun _ _ => hb _,
          fun _ _ => hpending.mem_iff, fun c hc => by simp [hheads, hhead c hc], fun _ _ _ => rfl⟩
      exact hun.place (h.place q)
  · intro i hi
    rw [show t.disk.info = _ from hinfo]
    by_cases hin : i = n
    · rw [hin, update_self]
    · rw [update_of_ne hin]
      refine h.status i ?_
      simpa [hheads, hin] using hi

end Inv

end Xv6.Virtio
