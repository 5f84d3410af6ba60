import Xv6.LogProtocol

/-! The invariant of the group-commit protocol and its consequences. -/
namespace Xv6.LogProtocol

variable {ι : Type*}

def Pc.holdsLog : Pc ι → Bool
  | .beginTest | .sleepAcquire | .sleepRelease | .writeBody _ _ | .endBody _ | .endWake _
  | .endRelease _ | .commitDone | .commitWake _ | .commitRelease => true
  | _ => false

def Pc.holdsProc : Pc ι → Bool
  | .sleepRelease | .sleepSet | .sleepSched | .sleepTidy => true
  | _ => false

def Pc.active : Pc ι → Bool
  | .inOp _ | .writeAcquire _ _ | .writeBody _ _ | .endAcquire _ | .endBody _ => true
  | _ => false

def Pc.committer : Pc ι → Bool
  | .endRelease b => b
  | .commitTest | .commit _ | .commitAcquire | .commitDone => true
  | _ => false

def Pc.inCommit : Pc ι → Bool
  | .commitTest | .commit _ => true
  | _ => false

def Pc.cleared : Pc ι → Bool
  | .commit .eraseHead | .commitAcquire | .commitDone => true
  | _ => false

def Pc.wakes [DecidableEq ι] (c : Pc ι) (q : ι) : Bool :=
  match c with
  | .commitWake todo => q ∈ todo
  | _ => false

def Pc.dozing : Pc ι → Bool
  | .sleepAcquire | .sleepRelease | .sleepSet => true
  | _ => false

def Pc.parked : Pc ι → Bool
  | .sleepSched | .asleep => true
  | _ => false

variable [DecidableEq ι] [Fintype ι]

def countActive (pc : ι → Pc ι) : ℕ := ∑ p, ((pc p).active).toNat

section
variable (s : Sys ι)

def Waits (p : ι) : Prop := (s.pc p).dozing = true ∨ s.state p = .sleeping

def WakePending (p : ι) : Prop := ∃ q, s.lock = some q ∧ (s.pc q).wakes p = true

structure LockInv : Prop where
  holder : ∀ p, s.lock = some p ↔ (s.pc p).holdsLog = true
  plock : ∀ p, s.plock p = (s.pc p).holdsProc

structure CommitInv : Prop where
  outstanding : s.log.outstanding = countActive s.pc
  committing : ∀ p, (s.pc p).committer = true → s.log.committing = true
  committer : s.log.committing = true → ∃ p, (s.pc p).committer = true
  unique : ∀ p q, (s.pc p).committer = true → (s.pc q).committer = true → p = q
  alone : s.log.committing = true → s.log.outstanding = 0
  idle : s.log.committing = false → s.log.outstanding = 0 → s.log.lh = []
  cleared : ∀ p, (s.pc p).cleared = true → s.log.lh = []
  nodup : s.log.lh.Nodup

structure SleepInv : Prop where
  parked : ∀ p, s.state p = .sleeping → (s.pc p).parked = true
  chan : ∀ p, (s.pc p).parked = true → s.chan p = true
  awaited : ∀ p, Waits s p → s.log.committing = true ∨ 0 < s.log.outstanding ∨ WakePending s p

structure Inv : Prop where
  locks : LockInv s
  commits : CommitInv s
  sleeps : SleepInv s
  panic : s.panic = none ∨ s.panic = some .tooBigTransaction

end

omit [DecidableEq ι] in
theorem countActive_eq_zero {pc : ι → Pc ι} : countActive pc = 0 ↔ ∀ p, (pc p).active = false := by
  simp [countActive]

theorem boot_inv (start size : ℕ) : Inv (boot start size : Sys ι) := by
  refine ⟨⟨?_, ?_⟩, ⟨?_, ?_, ?_, ?_, ?_, ?_, ?_, ?_⟩, ⟨?_, ?_, ?_⟩, ?_⟩ <;>
    simp [boot, Pc.holdsLog, Pc.holdsProc, countActive, Pc.active, Pc.committer,
      Pc.cleared, Pc.parked, Waits, Pc.dozing]

theorem countActive_update (pc : ι → Pc ι) (p : ι) (c : Pc ι) :
    countActive (Function.update pc p c) + ((pc p).active).toNat =
      countActive pc + (c.active).toNat :=
  Transition.sum_update_add (fun c : Pc ι => c.active.toNat) pc p c

def Pc.acquired : Pc ι → Option (Pc ι)
  | .beginAcquire | .sleepReacquire => some .beginTest
  | .writeAcquire used b => some (.writeBody used b)
  | .endAcquire used => some (.endBody used)
  | .commitAcquire => some .commitDone
  | _ => none

def Pc.silent (log : Log) : Pc ι → Option (Pc ι)
  | .beginTest => if log.mustWait then some .sleepAcquire else none
  | .endWake [] => some (.endRelease false)
  | .commitTest => some (if log.n > 0 then .commit .writeLog else .commitAcquire)
  | .commit .writeLog => some (.commit .writeHead)
  | .commit .writeHead => some (.commit .installTrans)
  | .commit .installTrans => some (.commit .clear)
  | .commit .eraseHead => some .commitAcquire
  | .commitWake [] => some .commitRelease
  | _ => none

def Pc.released : Pc ι → Option (Pc ι)
  | .sleepRelease => some .sleepSet
  | .endRelease b => some (if b then .commitTest else .user)
  | .commitRelease => some .user
  | _ => none

def Pc.waking : Pc ι → Option (ι × Pc ι)
  | .endWake (q :: todo) => some (q, .endWake todo)
  | .commitWake (q :: todo) => some (q, .commitWake todo)
  | _ => none

inductive Move (procs : List ι) (s : Sys ι) (p : ι) : Sys ι → Prop
  | acquire {c} (hc : (s.pc p).acquired = some c) (hl : s.lock = none) :
      Move procs s p ((s.setLock (some p)).goto p c)
  | silent {c} (hc : (s.pc p).silent s.log = some c) : Move procs s p (s.goto p c)
  | release {c} (hc : (s.pc p).released = some c) : Move procs s p ((s.setLock none).goto p c)
  | enter (hc : s.pc p = .beginTest) (hw : ¬ s.log.mustWait) :
      Move procs s p (((s.setLog { s.log with outstanding := s.log.outstanding + 1 }).setLock
        none).goto p (.inOp []))
  | lockProc (hc : s.pc p = .sleepAcquire) :
      Move procs s p ((s.setPlock p true).goto p .sleepRelease)
  | fallAsleep (hc : s.pc p = .sleepSet) :
      Move procs s p (((s.setChan p true).setState p .sleeping).goto p .sleepSched)
  | sched (hc : s.pc p = .sleepSched) : Move procs s p ((s.setPlock p false).goto p .asleep)
  | tidy (hc : s.pc p = .sleepTidy) :
      Move procs s p (((s.setChan p false).setPlock p false).goto p .sleepReacquire)
  | write {used b log} (hc : s.pc p = .writeBody used b) (hw : s.log.logWrite b = .ok log) :
      Move procs s p (((s.setLog log).setLock none).goto p (.inOp (used.insert b)))
  | writePanic {used b e} (hc : s.pc p = .writeBody used b) (hw : s.log.logWrite b = .error e) :
      Move procs s p (s.setPanic e)
  | endPanic {used} (hc : s.pc p = .endBody used) (hw : s.log.committing = true) :
      Move procs s p ((s.setLog { s.log with outstanding := s.log.outstanding - 1 }).setPanic
        .logCommitting)
  | endLast {used} (hc : s.pc p = .endBody used) (hw : s.log.committing = false)
      (ho : s.log.outstanding - 1 = 0) :
      Move procs s p ((s.setLog
        { s.log with outstanding := s.log.outstanding - 1, committing := true }).goto p
          (.endRelease true))
  | endMore {used} (hc : s.pc p = .endBody used) (hw : s.log.committing = false)
      (ho : s.log.outstanding - 1 ≠ 0) :
      Move procs s p ((s.setLog { s.log with outstanding := s.log.outstanding - 1 }).goto p
        (.endWake procs))
  | wakeSkip {q c} (hc : (s.pc p).waking = some (q, c))
      (hq : q = p ∨ s.plock q = false ∧ ¬ (s.state q = .sleeping ∧ s.chan q = true)) :
      Move procs s p (s.goto p c)
  | wakeOne {q c} (hc : (s.pc p).waking = some (q, c)) (hq : q ≠ p)
      (hs : s.state q = .sleeping) :
      Move procs s p ((s.setState q .runnable).goto p c)
  | clear (hc : s.pc p = .commit .clear) :
      Move procs s p ((s.setLog { s.log with lh := [] }).goto p (.commit .eraseHead))
  | done (hc : s.pc p = .commitDone) :
      Move procs s p ((s.setLog { s.log with committing := false }).goto p (.commitWake procs))

omit [Fintype ι] in
lemma acquireLog_eq_some {s t : Sys ι} {p : ι} {c : Pc ι} (h : s.acquireLog p c = some t) :
    s.lock = none ∧ t = (s.setLock (some p)).goto p c := by
  unfold Sys.acquireLog at h
  split_ifs at h with hl
  exact ⟨hl, (Option.some.inj h).symm⟩

omit [Fintype ι] in
lemma wakeOne_eq_some {s u : Sys ι} {p q : ι} (h : s.wakeOne p q = some u) :
    (u = s ∧ (q = p ∨ s.plock q = false ∧ ¬ (s.state q = .sleeping ∧ s.chan q = true))) ∨
      (q ≠ p ∧ s.state q = .sleeping ∧ u = s.setState q .runnable) := by
  unfold Sys.wakeOne at h
  split_ifs at h with h1 h2 h3
  · exact .inl ⟨(Option.some.inj h).symm, .inl h1⟩
  · exact .inr ⟨h1, h3.1, (Option.some.inj h).symm⟩
  · exact .inl ⟨(Option.some.inj h).symm, .inr ⟨by simpa using h2, h3⟩⟩

omit [Fintype ι] in
lemma wake_move {procs : List ι} {s t : Sys ι} {p q : ι} {c : Pc ι}
    (hc : (s.pc p).waking = some (q, c)) (h : (s.wakeOne p q).map (fun t => t.goto p c) = some t) :
    Move procs s p t := by
  obtain ⟨u, hu, rfl⟩ := Option.map_eq_some_iff.mp h
  rcases wakeOne_eq_some hu with ⟨rfl, hq⟩ | ⟨hq, hs, rfl⟩
  · exact .wakeSkip hc hq
  · exact .wakeOne hc hq hs

omit [Fintype ι] in
theorem runPc_move {procs : List ι} {s t : Sys ι} {p : ι} (h : runPc procs s p = some t) :
    Move procs s p t := by
  have acquire : ∀ c, (s.pc p).acquired = some c → s.acquireLog p c = some t →
      Move procs s p t := by
    intro c hc ha
    obtain ⟨hl, rfl⟩ := acquireLog_eq_some ha
    exact .acquire hc hl
  unfold runPc at h
  cases hc : s.pc p with
  | user | asleep | inOp => simp [hc] at h
  | beginAcquire | sleepReacquire | writeAcquire | endAcquire | commitAcquire =>
    rw [hc] at h
    exact acquire _ (by rw [hc]; rfl) h
  | beginTest =>
    simp only [hc] at h
    split_ifs at h with hw <;> cases h
    · exact .silent (by simp [hc, Pc.silent, hw])
    · exact .enter hc hw
  | sleepAcquire =>
    simp only [hc] at h
    split_ifs at h
    cases h
    exact .lockProc hc
  | sleepRelease => simp only [hc] at h; cases h; exact .release (by simp [hc, Pc.released])
  | sleepSet => simp only [hc] at h; cases h; exact .fallAsleep hc
  | sleepSched => simp only [hc] at h; cases h; exact .sched hc
  | sleepTidy => simp only [hc] at h; cases h; exact .tidy hc
  | writeBody used b =>
    simp only [hc] at h
    split at h <;> rename_i hw <;> cases h
    · exact .writePanic hc hw
    · exact .write hc hw
  | endBody used =>
    simp only [hc] at h
    split_ifs at h with hw ho <;> cases h
    · exact .endPanic hc hw
    · exact .endLast hc (by simpa using hw) ho
    · exact .endMore hc (by simpa using hw) ho
  | endWake todo =>
    cases todo with
    | nil => simp only [hc] at h; cases h; exact .silent (by simp [hc, Pc.silent])
    | cons q todo => simp only [hc] at h; exact wake_move (by rw [hc]; rfl) h
  | endRelease b => simp only [hc] at h; cases h; exact .release (by simp [hc, Pc.released])
  | commitTest => simp only [hc] at h; cases h; exact .silent (by simp [hc, Pc.silent])
  | commit phase =>
    cases phase <;> simp only [hc] at h <;> cases h
    case clear.refl => exact .clear hc
    all_goals exact .silent (by simp [hc, Pc.silent])
  | commitDone => simp only [hc] at h; cases h; exact .done hc
  | commitWake todo =>
    cases todo with
    | nil => simp only [hc] at h; cases h; exact .silent (by simp [hc, Pc.silent])
    | cons q todo => simp only [hc] at h; exact wake_move (by rw [hc]; rfl) h
  | commitRelease => simp only [hc] at h; cases h; exact .release (by simp [hc, Pc.released])

end Xv6.LogProtocol
