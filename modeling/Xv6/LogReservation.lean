import Xv6.LogProtocolSafety

/-! The log space that `begin_op` reserves against the limit that `log_write` checks.
`mkfs` gives the log `logSize` blocks, header included, so `log_write` refuses a
transaction one block earlier than `begin_op` assumes. -/
namespace Xv6.LogProtocol

open Function Transition List

variable {ι : Type*}

def Pc.logged : Pc ι → List ℕ
  | .inOp used | .endAcquire used | .endBody used => used
  | .writeAcquire used b | .writeBody used b => used.insert b
  | _ => []

def Pc.used : Pc ι → List ℕ
  | .inOp used | .endAcquire used | .endBody used | .writeAcquire used _ | .writeBody used _ =>
      used
  | _ => []

def Pc.unused (c : Pc ι) : ℕ := if c.active = true then maxOpBlocks - c.used.length else 0

variable [DecidableEq ι] [Fintype ι]

def reserved (s : Sys ι) : ℕ := ∑ p, (s.pc p).unused

def Bounded (s : Sys ι) : Event ι → Prop
  | .callLogWrite p b => ((s.pc p).used.insert b).length ≤ maxOpBlocks
  | _ => True

instance (s : Sys ι) (e : Event ι) : Decidable (Bounded s e) := by
  cases e <;> unfold Bounded <;> infer_instance

/-- `begin_op` admits an operation only while the log and all reservations, the new one
included, stay within what `log_write` accepts. -/
def Admissible (s : Sys ι) : Event ι → Prop
  | .run p => s.pc p = .beginTest → ¬ s.log.mustWait →
      s.log.n + reserved s + maxOpBlocks ≤ logSize - 2
  | _ => True

structure SpaceInv (s : Sys ι) : Prop where
  size : s.log.size = logSize
  fits : s.log.n + reserved s ≤ logSize - 2
  logged : ∀ p, (s.pc p).logged.length ≤ maxOpBlocks
  used_nodup : ∀ p, (s.pc p).used.Nodup
  used_logged : ∀ p, (s.pc p).used ⊆ s.log.lh
  panic : s.panic = none

omit [DecidableEq ι] in
lemma boot_space (start : ℕ) : SpaceInv (boot start logSize : Sys ι) := by
  constructor <;> simp [boot, reserved, Log.n, Pc.unused, Pc.active, Pc.logged, Pc.used]

variable {s t : Sys ι} {p : ι} {c : Pc ι}

lemma SpaceInv.move (hI : SpaceInv s)
    (hpc : t.pc = update s.pc p c) (hsize : t.log.size = s.log.size)
    (hfit : t.log.n + (reserved s + c.unused) ≤ logSize - 2 + (s.pc p).unused)
    (hlogged : c.logged.length ≤ maxOpBlocks) (hnd : c.used.Nodup) (hsub : c.used ⊆ t.log.lh)
    (hlh : ∀ q, q ≠ p → (s.pc q).used ⊆ t.log.lh) (hpanic : t.panic = none) : SpaceInv t := by
  have hsum := sum_update_add Pc.unused s.pc p c
  refine ⟨hsize.trans hI.size, ?_, ?_, ?_, ?_, hpanic⟩
  · simp only [reserved, hpc] at hfit ⊢
    omega
  all_goals rw [hpc]
  · exact (forall_update_iff s.pc fun _ c => c.logged.length ≤ maxOpBlocks).mpr
      ⟨hlogged, fun q _ => hI.logged q⟩
  · exact (forall_update_iff s.pc fun _ c => c.used.Nodup).mpr
      ⟨hnd, fun q _ => hI.used_nodup q⟩
  · exact (forall_update_iff s.pc fun _ c => c.used ⊆ t.log.lh).mpr ⟨hsub, hlh⟩

omit [DecidableEq ι] [Fintype ι] in
lemma blocks_of_not_active (h : c.active = false) :
    c.used = [] ∧ c.logged = [] ∧ c.unused = 0 := by
  refine ⟨?_, ?_, by simp [Pc.unused, h]⟩ <;> revert h <;>
    cases c <;> simp [Pc.active, Pc.used, Pc.logged]

lemma SpaceInv.leave (hI : SpaceInv s)
    (hpc : t.pc = update s.pc p c) (hsize : t.log.size = s.log.size)
    (hlh : t.log.lh = s.log.lh) (hact : c.active = false) (hpanic : t.panic = s.panic) :
    SpaceInv t := by
  obtain ⟨hu, hl, hz⟩ := blocks_of_not_active hact
  have hf := hI.fits
  refine hI.move hpc hsize ?_ (by simp [hl]) (by simp [hu]) (by simp [hu]) ?_
    (hpanic.trans hI.panic)
  · simp only [Log.n, hlh] at hf ⊢
    omega
  · rw [hlh]
    exact fun q _ => hI.used_logged q

lemma SpaceInv.keep (hI : SpaceInv s)
    (hpc : t.pc = update s.pc p c) (hlog : t.log = s.log)
    (hact : c.active = (s.pc p).active) (hused : c.used = (s.pc p).used)
    (hlogged : c.logged.length ≤ maxOpBlocks) (hpanic : t.panic = s.panic) : SpaceInv t := by
  have hf := hI.fits
  refine hI.move hpc (by rw [hlog]) ?_ hlogged ?_ ?_ ?_ (hpanic.trans hI.panic)
  · rw [hlog, Pc.unused, Pc.unused, hact, hused]
    omega
  · rw [hused]; exact hI.used_nodup p
  · rw [hused, hlog]; exact hI.used_logged p
  · rw [hlog]; exact fun q _ => hI.used_logged q

variable {d : Pc ι}

omit [DecidableEq ι] [Fintype ι] in
lemma acquired_blocks (h : c.acquired = some d) :
    d.used = c.used ∧ d.logged = c.logged := by
  cases c <;> simp only [Pc.acquired, Option.some.injEq, reduceCtorEq] at h <;> subst h <;>
    simp [Pc.used, Pc.logged]

omit [DecidableEq ι] [Fintype ι] in
lemma silent_not_active {log : Log} (h : c.silent log = some d) :
    d.active = false := by
  cases c with
  | endWake todo | commitWake todo => cases todo <;> simp_all [Pc.silent]; subst h; rfl
  | commit phase => cases phase <;> simp_all [Pc.silent] <;> subst h <;> rfl
  | beginTest | commitTest =>
    simp only [Pc.silent] at h
    split_ifs at h <;> cases h <;> rfl
  | _ => simp [Pc.silent] at h

omit [DecidableEq ι] [Fintype ι] in
lemma released_not_active (h : c.released = some d) : d.active = false := by
  cases c <;> simp only [Pc.released, Option.some.injEq, reduceCtorEq] at h <;> subst h
  case endRelease b => cases b <;> rfl
  all_goals rfl

omit [DecidableEq ι] in
lemma SpaceInv.write {used : List ℕ} {b : ℕ} (hI : SpaceInv s)
    (hc : s.pc p = .writeBody used b) :
    (Log.absorb s.log.lh b).length + (maxOpBlocks - (used.insert b).length) ≤
      s.log.n + (maxOpBlocks - used.length) := by
  have hsub := hI.used_logged p
  have hle := hI.logged p
  simp only [hc, Pc.logged] at hsub hle
  rw [Log.absorb_length, Log.n]
  by_cases hb : b ∈ s.log.lh
  · have : used.length ≤ (used.insert b).length := by
      rw [length_insert]
      split_ifs <;> omega
    simp only [hb, if_true]
    omega
  · have hbu : b ∉ used := fun h => hb (hsub h)
    rw [length_insert, if_neg hbu] at hle ⊢
    simp only [hb, if_false]
    omega

lemma space_move {procs : List ι} (hI : Inv s) (hT : Inv t)
    (hS : SpaceInv s) (ha : Admissible s (.run p)) (hm : Move procs s p t) : SpaceInv t := by
  have hf := hS.fits
  cases hm with
  | acquire hc hl =>
    obtain ⟨_, _, _, _, hact, _⟩ := acquired_spec hc
    obtain ⟨hu, hl⟩ := acquired_blocks hc
    exact hS.keep rfl rfl hact hu (by rw [hl]; exact hS.logged p) rfl
  | silent hc => exact hS.leave rfl rfl rfl (silent_not_active hc) rfl
  | release hc => exact hS.leave rfl rfl rfl (released_not_active hc) rfl
  | wakeSkip hc | wakeOne hc =>
    obtain ⟨_, _, _, _, _, ha', _⟩ := waking_spec hc
    exact hS.leave rfl rfl rfl ha' rfl
  | lockProc | fallAsleep | sched | tidy | done | endLast | endMore =>
    exact hS.leave rfl rfl rfl rfl rfl
  | enter hc hw =>
    have hfit := ha hc hw
    refine hS.move rfl rfl ?_ (by simp [Pc.logged]) (by simp [Pc.used]) (by simp [Pc.used])
      (fun q _ => hS.used_logged q) hS.panic
    simp only [Sys.goto, Sys.setLog, Sys.setLock, hc, Pc.unused, Pc.active, Log.n]
      at hfit ⊢
    simp
    omega
  | @write used b log hc hw =>
    obtain ⟨_, _, ho, rfl⟩ := Log.logWrite_ok hw
    have hcost := hS.write hc
    have hle := hS.logged p
    have hnd := hS.used_nodup p
    have hsub := hS.used_logged p
    simp only [hc] at hle hnd hsub
    refine hS.move rfl rfl ?_ hle hnd.insert ?_ ?_ hS.panic
    · simp only [Sys.goto, Sys.setLog, Sys.setLock, hc, Pc.unused, Pc.active, Pc.used, Log.n]
        at hcost hf ⊢
      simp only [if_true]
      omega
    · intro x hx
      simp only [Sys.goto, Sys.setLog, Sys.setLock, Log.mem_absorb]
      rcases mem_insert_iff.mp hx with rfl | hx
      · exact .inr rfl
      · exact .inl (hsub hx)
    · intro q _ x hx
      exact Log.mem_absorb.mpr (.inl (hS.used_logged q hx))
  | writePanic hc hw =>
    have hsz := hS.size
    unfold Log.logWrite at hw
    split_ifs at hw with h1 h2 <;> cases hw
    · rw [hsz] at h1
      simp only [logSize, maxOpBlocks] at h1 hf
      omega
    · have := hT.panic
      simp [Sys.setPanic] at this
  | endPanic hc hw =>
    have := hT.panic
    simp [Sys.setPanic] at this
  | clear hc =>
    -- nobody is in an operation while the log is emptied
    have hz := hI.commits.alone (hI.commits.committing p (by rw [hc]; rfl))
    rw [hI.commits.outstanding] at hz
    have hnone := countActive_eq_zero.mp (by exact_mod_cast hz)
    refine hS.move rfl rfl ?_ (by simp [Pc.logged]) (by simp [Pc.used]) (by simp [Pc.used])
      (fun q _ => by simp [(blocks_of_not_active (hnone q)).1]) hS.panic
    simp only [Sys.goto, Sys.setLog, Log.n, hc, Pc.unused, Pc.active] at hf ⊢
    simp
    omega

lemma space_step {procs : List ι} {e : Event ι} (hprocs : ∀ q, q ∈ procs)
    (hI : Inv s) (hS : SpaceInv s) (hb : Bounded s e) (ha : Admissible s e)
    (h : Step procs s e t) : SpaceInv t := by
  have hT := inv_step hprocs hI h
  unfold Step at h
  cases e with
  | callBeginOp p =>
    simp only [next] at h
    split_ifs at h with hc
    cases h
    exact hS.leave rfl rfl rfl rfl rfl
  | callLogWrite p b =>
    simp only [next] at h
    split_ifs at h
    split at h <;> cases h
    rename_i used hc
    simp only [Bounded, hc] at hb
    exact hS.keep rfl rfl (by rw [hc]; rfl) (by rw [hc]; rfl) hb rfl
  | callEndOp p =>
    simp only [next] at h
    split_ifs at h
    split at h <;> cases h
    rename_i used hc
    have hle := hS.logged p
    simp only [hc] at hle
    exact hS.keep rfl rfl (by rw [hc]; rfl) (by rw [hc]; rfl) hle rfl
  | run p =>
    simp only [next] at h
    split_ifs at h
    exact space_move hI hT hS ha (runPc_move h)
  | dispatch p =>
    simp only [next] at h
    split_ifs at h
    cases h
    exact hS.leave rfl rfl rfl rfl rfl
  | kill p =>
    simp only [next] at h
    split_ifs at h
    cases h
    exact ⟨hS.1, hS.2, hS.3, hS.4, hS.5, hS.6⟩

/-- In every run whose admissions leave the two blocks of slack, no `log_write` panics,
neither when it appends a block nor when it absorbs one. -/
theorem reservation_suffices {n start : ℕ} {es : List (Event (Fin n))} {s : Sys (Fin n)}
    (h : Run (Guarded (next (finRange n))
      fun s e => Bounded s e ∧ Admissible s e) (boot start logSize) es s) :
    s.panic ≠ some .tooBigTransaction := by
  have hboth := h.invariant (I := fun s => Inv s ∧ SpaceInv s)
    (fun s e t hs hst => ⟨inv_step mem_finRange hs.1 hst.2,
      space_step mem_finRange hs.1 hs.2 hst.1.1 hst.1.2 hst.2⟩)
    ⟨boot_inv start logSize, boot_space start⟩
  simp [hboth.2.panic]

instance (s : Sys ι) (e : Event ι) : Decidable (Admissible s e) := by
  cases e <;> unfold Admissible <;> infer_instance

def opBegin (p : ι) : List (Event ι) := [.callBeginOp p, .run p, .run p]

def opWrites (p : ι) (bs : List ℕ) : List (Event ι) :=
  bs.flatMap fun b => [.callLogWrite p b, .run p, .run p]

/-- Two operations that overlap and share a block. -/
theorem reservation_suffices_two : ∃ s : Sys (Fin 2),
    Run (Guarded (next (finRange 2))
      fun s e => Bounded s e ∧ Admissible s e) (boot 2 logSize)
      (opBegin 0 ++ opBegin 1 ++ opWrites 0 [40, 41] ++ opWrites 1 [41, 42]) s ∧
    s.log.lh = [40, 41, 42] ∧ s.panic ≠ some .tooBigTransaction := by
  obtain ⟨s, hrun, hlh⟩ := exists_run_of_replay
    (f := next (finRange 2)) (G := fun s e => Bounded s e ∧ Admissible s e)
    (P := fun s => s.log.lh = [40, 41, 42]) (s := boot 2 logSize)
    (l := opBegin 0 ++ opBegin 1 ++ opWrites 0 [40, 41] ++ opWrites 1 [41, 42]) (by decide +kernel)
  exact ⟨s, hrun, by simpa using hlh, reservation_suffices hrun⟩

/-- Three operations that all use their ten blocks: `begin_op` admits them and the last
`log_write` panics. -/
theorem three_full_operations_panic : ¬ ∀ (n start : ℕ) (es : List (Event (Fin n)))
    (s : Sys (Fin n)), Run (Guarded (next (finRange n)) Bounded)
      (boot start logSize) es s → s.panic ≠ some .tooBigTransaction := by
  intro hall
  obtain ⟨s, hrun, hp⟩ := exists_run_of_replay
    (f := next (finRange 3)) (G := Bounded)
    (P := fun s => s.panic = some .tooBigTransaction) (s := boot 2 logSize)
    (l := opBegin 0 ++ opBegin 1 ++ opBegin 2 ++ opWrites 0 (range' 100 10) ++
      opWrites 1 (range' 110 10) ++ opWrites 2 (range' 120 10)) (by decide +kernel)
  exact hall 3 2 _ s hrun (by simpa using hp)

end Xv6.LogProtocol
