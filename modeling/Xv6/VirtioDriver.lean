import Xv6.VirtioSafety

/-! Safety of the disk driver in every run with its device. -/
namespace Xv6.Virtio

open Transition

variable {ι β : Type} {s t : Sys ι β} {p : ι} {r : Req β} {c : Chain}

lemma inv_boot : Inv (boot : Sys ι β) := by
  refine ⟨?_, fun _ => trivial, ?_, ?_, ?_, ?_, ?_⟩
  · intro p
    simp [boot, Pc.inside]
  · rintro p q c c' _ hc _
    cases hc
  · intro i hi hf
    simp [boot, hi] at hf
  · simp [Sys.pending, Sys.availHeads, Sys.usedHeads, boot, Ring.contents_empty]
  · simp [Sys.pending, Sys.availHeads, Sys.usedHeads, boot, Ring.contents_empty]
  · simp [boot]

variable [DecidableEq ι] [DecidableEq β]

lemma Inv.runStep (h : Inv s) {o : Except Halt (Sys ι β)}
    (ho : Virtio.runStep s p (s.pc p) = some o) : ∃ t, o = .ok t ∧ Inv t := by
  cases hp : s.pc p with
  | idle =>
    rw [hp] at ho
    cases ho
  | enter r =>
    rw [hp] at ho
    obtain ⟨hl, ho⟩ := Option.ite_none_right_eq_some.mp ho
    cases ho
    exact ⟨_, rfl, h.enter hp hl⟩
  | alloc r =>
    rw [hp] at ho
    cases ho
    rcases alloc3Desc_cases s.disk with ⟨c, hc, hnodup, hfree⟩ | ⟨desc, hd, hdesc⟩
    · rw [hc]
      exact ⟨_, rfl, h.alloc_some hp hnodup hfree⟩
    · rw [hd]
      exact ⟨_, rfl, h.alloc_none hp hdesc⟩
  | format r c =>
    rw [hp] at ho
    cases ho
    exact ⟨_, rfl, h.format hp⟩
  | avail r c =>
    rw [hp] at ho
    cases ho
    exact ⟨_, rfl, h.avail hp⟩
  | notify r c =>
    rw [hp] at ho
    cases ho
    exact ⟨_, rfl, h.notify hp⟩
  | wait r c =>
    rw [hp] at ho
    cases ho
    cases hb : s.busy r.b with
    | true => exact ⟨_, rfl, h.wait_busy hp⟩
    | false => exact ⟨_, rfl, h.wait_done hp hb⟩
  | asleep r c =>
    rw [hp] at ho
    obtain ⟨hl, ho⟩ := Option.ite_none_right_eq_some.mp ho
    cases ho
    exact ⟨_, rfl, h.asleep hp hl⟩
  | finish r c =>
    rw [hp] at ho
    cases ho
    have hplace := h.place p
    rw [hp] at hplace
    obtain ⟨_, hready, _⟩ := hplace
    obtain ⟨desc, hrun, hdesc⟩ := freeChain_ok (d := { s.disk with
      info := Function.update s.disk.info c.head { s.disk.info c.head with b := none } })
      (hready.owned.frame fun _ _ => rfl) (hready.linked.frame fun _ _ => rfl)
    rw [hrun]
    exact ⟨_, rfl, h.finish hp hdesc⟩
  | intrEnter =>
    rw [hp] at ho
    obtain ⟨hl, ho⟩ := Option.ite_none_right_eq_some.mp ho
    cases ho
    exact ⟨_, rfl, h.intrEnter hp hl⟩
  | intr =>
    rw [hp] at ho
    cases ho
    unfold intrStep
    by_cases hne : s.disk.usedIdx = s.disk.used.idx
    · rw [if_neg (not_not.mpr hne)]
      exact ⟨_, rfl, h.intr_return hp⟩
    · obtain ⟨hstatus, b, hb, hinv⟩ := h.intr_turn hne
      unfold Inv.usedHead at hstatus hb
      rw [if_pos hne]
      rw [if_neg (not_not.mpr hstatus), hb]
      exact ⟨_, rfl, hinv⟩

lemma Inv.step (h : Inv s) {e : Event ι β} {o : Except Halt (Sys ι β)}
    (ho : Virtio.step s e = some o) : ∃ t, o = .ok t ∧ Inv t := by
  cases e with
  | run p => exact h.runStep ho
  | take =>
    obtain ⟨hne, ho⟩ := Option.ite_none_right_eq_some.mp ho
    cases ho
    exact ⟨_, rfl, h.take hne⟩
  | publish n =>
    obtain ⟨hn, ho⟩ := Option.ite_none_right_eq_some.mp ho
    cases ho
    exact ⟨_, rfl, h.publish hn⟩
  | acquiresleep p b =>
    cases hp : s.pc p <;> simp only [Virtio.step, hp] at ho <;> try cases ho
    obtain ⟨hb, ho⟩ := Option.ite_none_right_eq_some.mp ho
    cases ho
    exact ⟨_, rfl, h.acquiresleep hb⟩
  | releasesleep p b =>
    cases hp : s.pc p <;> simp only [Virtio.step, hp] at ho <;> try cases ho
    obtain ⟨hb, ho⟩ := Option.ite_none_right_eq_some.mp ho
    cases ho
    exact ⟨_, rfl, h.releasesleep hp hb⟩
  | rw p b blockno write =>
    cases hp : s.pc p <;> simp only [Virtio.step, hp] at ho <;> try cases ho
    obtain ⟨hb, ho⟩ := Option.ite_none_right_eq_some.mp ho
    cases ho
    exact ⟨_, rfl, h.rw hp hb⟩
  | intr p =>
    cases hp : s.pc p <;> simp only [Virtio.step, hp] at ho <;> try cases ho
    exact ⟨_, rfl, h.intr hp⟩

lemma Inv.next (h : Inv s) {e : Event ι β} (ht : Virtio.next s e = some t) : Inv t := by
  unfold Virtio.next at ht
  cases ho : Virtio.step s e with
  | none =>
    rw [ho] at ht
    cases ht
  | some o =>
    obtain ⟨t', rfl, hinv⟩ := h.step ho
    rw [ho] at ht
    cases ht
    exact hinv

/-- The interrupt handler clears `b->disk` of a request that waits for it, and whose completion the
device has published. -/
def ClearsWaiting (s : Sys ι β) : Prop :=
  s.disk.usedIdx ≠ s.disk.used.idx → ∃ q r c, (s.pc q).waits = some (r, c) ∧
    (s.disk.used.ring (Ring.slot num s.disk.usedIdx)).toNat = c.head ∧
    s.disk.info c.head = ⟨some r.b, 0⟩ ∧ s.busy r.b = true ∧ s.published q = true ∧
    s.cleared q = 0

/-- A request that returns has been completed by the device, its `b->disk` has been cleared once,
and its descriptors are the ones that become free. -/
def Returns (s : Sys ι β) (p : ι) (c : Chain) : Prop :=
  s.published p = true ∧ s.cleared p = 1 ∧ ∃ t, next s (.run p) = some t ∧
    ∀ i, t.disk.free i = true ↔ s.disk.free i = true ∨ i ∈ c.toList

omit [DecidableEq ι] [DecidableEq β] in
lemma Inv.clearsWaiting (h : Inv s) : ClearsWaiting s := by
  intro hne
  have hmem : Inv.usedHead s ∈ s.usedHeads := by
    rw [Sys.usedHeads, Ring.contents_take hne]
    exact List.mem_cons_self
  obtain ⟨q, r, c, hw, hc, hb⟩ := h.waits _ (List.mem_append_right _ hmem)
  obtain ⟨_, hready, hbusy, _⟩ := (Sys.At.iff_wait hw).mp (h.place q)
  obtain ⟨hcleared, _, hpublished⟩ := hbusy hb
  have hstatus := h.status _ hmem
  have hinfo := hready.info
  refine ⟨q, r, c, hw, hc.symm, ?_, hb, hpublished (hc ▸ hmem), hcleared⟩
  rw [← hc] at hstatus
  cases hi : s.disk.info c.head with
  | mk b status =>
    rw [hi] at hstatus hinfo
    exact congrArg₂ Info.mk hinfo hstatus

omit [DecidableEq ι] [DecidableEq β] in
lemma Inv.cleared_le (h : Inv s) (hr : (s.pc p).req = some r) : s.cleared p ≤ 1 := by
  have hplace := h.place p
  cases hp : s.pc p with
  | idle | intrEnter | intr =>
    rw [hp] at hr
    cases hr
  | enter r' | alloc r' =>
    rw [hp] at hplace
    exact hplace.cleared.le.trans zero_le_one
  | format r' c | avail r' c | notify r' c =>
    rw [hp] at hplace
    exact hplace.1.cleared.le.trans zero_le_one
  | wait r' c | asleep r' c =>
    rw [hp] at hplace
    obtain ⟨_, _, hbusy, hdone⟩ := hplace
    cases hb : s.busy r'.b with
    | true => exact (hbusy hb).1.le.trans zero_le_one
    | false => exact (hdone hb).cleared.le
  | finish r' c =>
    rw [hp] at hplace
    exact hplace.2.2.2.cleared.le

lemma Inv.returns (h : Inv s) (hp : s.pc p = .finish r c) : Returns s p c := by
  have hplace := h.place p
  rw [hp] at hplace
  obtain ⟨_, hready, _, hdone⟩ := hplace
  obtain ⟨desc, hrun, _⟩ := freeChain_ok (d := { s.disk with
    info := Function.update s.disk.info c.head { s.disk.info c.head with b := none } })
    (hready.owned.frame fun _ _ => rfl) (hready.linked.frame fun _ _ => rfl)
  refine ⟨hdone.published, hdone.cleared, ?_⟩
  simp only [Virtio.next, Virtio.step, Virtio.runStep, hp, hrun]
  refine ⟨_, rfl, fun i => ?_⟩
  simp [Sys.goto]

/-- For every device and every interleaving of requests and interrupts: the chains of the requests
are disjoint, a descriptor that is not free is in exactly one of them, no panic is reachable and
`free_chain` ends, and a request returns only once the device has completed it. -/
theorem driver_safe {es : List (Event ι β)}
    (h : Run (fun s e t => next s e = some t) boot es s) :
    (∀ p c, (s.pc p).chain = some c → Owned s.disk c) ∧
    (∀ p q c c', p ≠ q → (s.pc p).chain = some c → (s.pc q).chain = some c' →
      c.toList.Disjoint c'.toList) ∧
    (∀ i < num, s.disk.free i = true ∨ ∃! p, ∃ c, (s.pc p).chain = some c ∧ i ∈ c.toList) ∧
    (∀ e halt, step s e ≠ some (.error halt)) ∧
    ClearsWaiting s ∧ (∀ p r, (s.pc p).req = some r → s.cleared p ≤ 1) ∧
    ∀ p r c, s.pc p = .finish r c → Returns s p c := by
  have hinv : Inv s := h.invariant (I := Inv) (fun _ _ _ hs ht => hs.next ht) inv_boot
  refine ⟨fun p c hc => hinv.owned hc, hinv.disjoint, ?_, ?_, hinv.clearsWaiting,
    fun p r hr => hinv.cleared_le hr, fun p r c hp => hinv.returns hp⟩
  · intro i hi
    cases hf : s.disk.free i with
    | true => exact .inl rfl
    | false =>
      obtain ⟨p, c, hc, hm⟩ := hinv.cover i hi hf
      refine .inr ⟨p, ⟨c, hc, hm⟩, ?_⟩
      rintro q ⟨c', hc', hm'⟩
      by_contra hq
      exact hinv.disjoint q p c' c hq hc' hc hm' hm
  · intro e halt hstep
    obtain ⟨t, ht, _⟩ := hinv.step hstep
    cases ht

attribute [local instance] neZero_three in
/-- Two requests; the device completes the second one first, and the handler sees both. -/
def outOfOrder : List (Event (Fin 3) Bool) :=
  [.acquiresleep 0 false, .acquiresleep 1 true, .rw 0 false 5 false, .rw 1 true 6 true,
    .run 0, .run 0, .run 0, .run 0, .run 0, .run 0, .run 1, .run 1, .run 1, .run 1, .run 1, .run 1,
    .take, .take, .publish 3, .publish 0, .intr 2, .run 2, .run 2, .run 2, .run 2, .run 1, .run 1]

theorem driver_safe_two : ∃ s : Sys (Fin 3) Bool,
    Run (fun s e t => next s e = some t) boot outOfOrder s ∧
    ((s.pc 0).chain = some ⟨0, 1, 2⟩ ∧ (s.pc 1).chain = some ⟨3, 4, 5⟩ ∧ s.busy true = false ∧
      s.cleared 1 = 1) ∧
    (∀ e halt, step s e ≠ some (.error halt)) ∧
    ∀ p r c, s.pc p = .finish r c → Returns s p c := by
  obtain ⟨s, hrun, hs⟩ := exists_run_of_replay
    (f := next) (G := fun _ _ => True)
    (P := fun s : Sys (Fin 3) Bool => (s.pc 0).chain = some ⟨0, 1, 2⟩ ∧
      (s.pc 1).chain = some ⟨3, 4, 5⟩ ∧ s.busy true = false ∧ s.cleared 1 = 1)
    (s := boot) (l := outOfOrder) (by decide +kernel)
  obtain ⟨_, _, _, herr, _, _, hret⟩ := driver_safe (hrun.mono fun _ _ _ h => h.2)
  exact ⟨s, hrun.mono fun _ _ _ h => h.2, of_decide_eq_true hs, herr, hret⟩

end Xv6.Virtio
