import Xv6.ThreadMoves

/-! `kill` compares pids without looking at the state, and a free slot has pid 0, so `kill(0)`
marks a slot that no process has. `allocproc` does not clear the mark. -/
namespace Xv6.Scheduler

open Transition List Sys

def Task.killing {ι : Type*} : Task ι → Option ℤ
  | .kill pid _ | .killHold _ pid _ => some pid
  | _ => none

section
variable {ι κ : Type*}

def NoKillZero (e : Event ι κ) : Prop := ∀ c, e ≠ .call c (.kill 0)

structure KillInv (s : Sys ι κ) : Prop where
  unused : ∀ q, s.state q = .unused → s.killed q = false
  fresh : ∀ p np, (s.thread p).task = .allocprocFound np → s.killed np = false
  nonzero : ∀ p, (s.thread p).task.killing ≠ some 0

variable {procs : List ι} {init : ι} {s t : Sys ι κ} {e : Event ι κ} {a : Option κ} {c : κ}
  {p q : ι}

variable [DecidableEq ι]

omit [DecidableEq ι] in
lemma KillInv.kill_used (h : KillInv s) (hP : PidInv s.table) {pid : ℤ} {todo : List ι}
    (hat : At s c p (.killHold q pid todo)) (hpid : s.pid q = pid) : s.state q ≠ .unused := by
  intro hu
  have h0 : s.pid q = 0 := (hP.unused q).mp hu
  refine h.nonzero p ?_
  rw [hat.2.2, ← hpid, h0]
  rfl

lemma KillInv.effect {T : Table ι} (hI : Inv s) (hP : PidInv s.table) (h : KillInv s)
    (he : Effect init s a T) :
    (∀ q, T.state q = .unused → T.killed q = false) ∧
      ∀ p np, (s.thread p).task = .allocprocFound np → T.killed np = false := by
  have hset : ∀ q x, x ≠ ProcState.unused →
      ∀ r, (s.setState q x).state r = .unused → s.killed r = false := by
    intro q x hx r hr
    by_cases hrq : r = q
    · simp [setState, hrq] at hr
      exact absurd hr hx
    · exact h.unused r (by simpa [setState, hrq] using hr)
  cases he with
  | same => exact ⟨h.unused, h.fresh⟩
  | wake q hq => exact ⟨hset q _ (by simp), h.fresh⟩
  | @kill c p q pid todo hat hpid =>
    have hu := h.kill_used hP hat hpid
    have hkilled : (s.killBody q).killed = Function.update s.killed q true := by
      unfold killBody
      split <;> rfl
    have hstate : ∀ r, (s.killBody q).state r = .unused → s.state r = .unused := by
      intro r hr
      unfold killBody at hr
      split at hr
      next hq =>
        by_cases hrq : r = q
        · simp [setState, hrq] at hr
        · simpa [setState, hrq] using hr
      next => exact hr
    refine ⟨?_, ?_⟩
    · intro r hr
      have hr' := hstate r hr
      have hrq : r ≠ q := by
        rintro rfl
        exact hu hr'
      simpa [table, hkilled, hrq] using h.unused r hr'
    · intro p' np hx
      have hne : np ≠ q := by
        rintro rfl
        obtain ⟨c', hc'⟩ := hI.at_of_held (p := p') (by rw [hx]; simp [Task.held])
        rw [hx] at hc'
        have he := (hI.holder_unique hat hc' rfl rfl).2
        cases he
      simpa [table, hkilled, hne] using h.fresh p' np hx
  | @alloc c p q todo hat hq =>
    refine ⟨?_, h.fresh⟩
    intro r hr
    by_cases hrq : r = q
    · simp [table, allocprocFound, hrq] at hr
    · exact h.unused r (by simpa [table, allocprocFound, hrq] using hr)
  | create hat => exact ⟨h.unused, h.fresh⟩
  | @abort c p np hat =>
    refine ⟨?_, ?_⟩
    · intro r hr
      by_cases hrq : r = np
      · simp [table, freeproc, hrq]
      · have hu := h.unused r (by simpa [table, freeproc, hrq] using hr)
        simpa [table, freeproc, hrq] using hu
    · intro p' np' hx
      by_cases hrq : np' = np
      · simp [table, freeproc, hrq]
      · simpa [table, freeproc, hrq] using h.fresh p' np' hx
  | adopt hat => exact ⟨h.unused, h.fresh⟩
  | ready hat => exact ⟨hset _ _ (by simp), h.fresh⟩
  | @reap c p q todo hat hq =>
    refine ⟨?_, ?_⟩
    · intro r hr
      by_cases hrq : r = q
      · simp [table, freeproc, hrq]
      · have hu := h.unused r (by simpa [table, freeproc, hrq] using hr)
        simpa [table, freeproc, hrq] using hu
    · intro p' np' hx
      by_cases hrq : np' = q
      · simp [table, freeproc, hrq]
      · simpa [table, freeproc, hrq] using h.fresh p' np' hx
  | disown hat hq => exact ⟨h.unused, h.fresh⟩
  | @off c p w hc hsw =>
    cases w with
    | sleep ch lk => cases lk <;> exact ⟨hset p _ (by simp), h.fresh⟩
    | yield => exact ⟨hset p _ (by simp [Why.state]), h.fresh⟩
    | exit => exact ⟨hset p _ (by simp), h.fresh⟩
    | forkret => exact ⟨hset p _ (by simp [Why.state]), h.fresh⟩
  | @back c p w hc hsw => cases w <;> exact ⟨h.unused, h.fresh⟩
  | run hc hr => exact ⟨hset _ _ (by simp), h.fresh⟩
  | tick => exact ⟨h.unused, h.fresh⟩
  | mode m => exact ⟨h.unused, h.fresh⟩

lemma Effect.killed {T : Table ι} (he : Effect init s (some c) T)
    (hno : ∀ p q pid todo, ¬ At s c p (.killHold q pid todo)) (r : ι) (hr : s.killed r = false) :
    T.killed r = false := by
  cases he with
  | kill hat _ => exact absurd hat (hno _ _ _ _)
  | @abort _ _ np _ =>
    by_cases hrq : r = np
    · simp [table, freeproc, hrq]
    · simpa [table, freeproc, hrq] using hr
  | @reap _ _ q _ _ _ =>
    by_cases hrq : r = q
    · simp [table, freeproc, hrq]
    · simpa [table, freeproc, hrq] using hr
  | @off _ p w _ _ =>
    cases w with
    | sleep ch lk => cases lk <;> exact hr
    | _ => exact hr
  | @back _ p w _ _ => cases w <;> exact hr
  | _ => exact hr

lemma Moves.killing {d u : Thread ι} {w : Option κ} {T : Table ι} {pid : ℤ}
    (h : Moves procs init s e c p d u w T) (hu : u.task.killing = some pid) :
    d.task.killing = some pid ∨ e = .call c (.kill pid) := by
  cases h <;> simp_all [Task.killing]

lemma Moves.found {d u : Thread ι} {w : Option κ} {T : Table ι} {np : ι}
    (h : Moves procs init s e c p d u w T) (hu : u.task = .allocprocFound np) :
    d.task = .allocprocFound np ∨
      s.state np = .unused ∧ ∃ todo, d = ⟨.allocprocHold np todo, .none⟩ := by
  cases h <;> simp_all

lemma KillInv.step [DecidableEq κ] (hI : Inv s) (hP : PidInv s.table) (h : KillInv s)
    (hg : NoKillZero e) (ht : next procs init s e = some t) : KillInv t := by
  obtain ⟨hunused, hfresh⟩ := h.effect hI hP (next_effect ht)
  refine ⟨hunused, ?_, ?_⟩
  · intro r np hr
    rcases (next_control ht).thread_cases r with ⟨hth | ⟨_, hth⟩, _⟩ | ⟨_, _, _, _, hth⟩ | ⟨c, ha, hc, hm⟩
    · exact hfresh r np (by rw [← hth]; exact hr)
    · exact hfresh r np (by rw [hth] at hr; exact hr)
    · rw [hth] at hr
      cases hr
    · rcases hm.found hr with hs | ⟨hu, todo, hd⟩
      · exact hfresh r np hs
      · have he := next_effect ht
        rw [ha] at he
        refine he.killed ?_ np (h.unused np hu)
        intro p q pid todo hat
        have hp := hc.symm.trans hat.1
        cases hp
        have hx := hat.2.2
        rw [hd] at hx
        cases hx
  · refine (next_control ht).task_of_moves (P := fun x => x.killing ≠ some 0) (by simp [Task.killing])
      ?_ h.nonzero
    intro c r d u w T hm hd hu
    rcases hm.killing hu with hk | rfl
    · exact hd hk
    · exact hg c rfl

omit [DecidableEq ι] in
lemma boot_kill [DecidableEq ι] (init : ι) : KillInv (boot init : Sys ι κ) :=
  ⟨fun _ _ => rfl, fun _ _ _ => rfl, fun _ => by simp [boot, Task.killing]⟩

lemma killInv_run [DecidableEq κ] {es : List (Event ι κ)}
    (h : Run (Guarded (next procs init) fun _ e => NoKillZero e)
      (boot init) es s) : Inv s ∧ PidInv s.table ∧ KillInv s := by
  refine h.invariant (I := fun s => Inv s ∧ PidInv s.table ∧ KillInv s) ?_
    ⟨boot_inv init, boot_pid init, boot_kill init⟩
  rintro s e t ⟨hI, hP, hK⟩ ⟨hg, ht⟩
  exact ⟨inv_step hI ht, hP.step hI (next_effect ht), hK.step hI hP hg ht⟩

/-- A step of `kill(pid)` changes the table only if some process has the pid, `allocproc`
returns processes that are not killed, and no flag is left in a free slot. -/
def KillSafe [DecidableEq κ] (procs : List ι) (init : ι) (s : Sys ι κ) : Prop :=
  (∀ c p x pid t, At s c p x → x.killing = some pid → next procs init s (.step c) = some t →
    t.table ≠ s.table → ∃ q, s.pid q = pid ∧ s.state q ≠ .unused) ∧
  (∀ c p np t, At s c p (.allocprocFound np) → next procs init s (.step c) = some t →
    t.killed np = false) ∧
  ∀ q, s.state q = .unused → s.killed q = false

lemma kill_step [DecidableEq κ] {x : Task ι} {pid : ℤ} (hat : At s c p x)
    (hx : x.killing = some pid) (ht : next procs init s (.step c) = some t)
    (hne : t.table ≠ s.table) : ∃ q todo, x = .killHold q pid todo ∧ s.pid q = pid := by
  have htask : taskStep procs init s c p x = some t := by
    obtain ⟨hc, hsw, hx⟩ := hat
    simpa [next, cpuStep, hc, threadStep, hsw, hx] using ht
  cases x with
  | kill pid' todo =>
    cases todo with
    | nil =>
      cases htask
      exact absurd rfl hne
    | cons q todo => exact absurd (table_of_acquire htask fun _ => rfl) hne
  | killHold q pid' todo =>
    cases hx
    simp only [taskStep] at htask
    split at htask
    next hp => exact ⟨q, todo, rfl, hp⟩
    next =>
      cases htask
      exact absurd rfl hne
  | _ => cases hx

/-- In every run in which nobody calls `kill(0)`, a killed flag belongs to a process that
exists. -/
theorem killed_flag_has_process [DecidableEq κ] {es : List (Event ι κ)}
    (h : Run (Guarded (next procs init) fun _ e => NoKillZero e)
      (boot init) es s) : KillSafe procs init s := by
  obtain ⟨hI, hP, hK⟩ := killInv_run h
  refine ⟨?_, ?_, hK.unused⟩
  · intro c p x pid t hat hx ht hne
    obtain ⟨q, todo, rfl, hq⟩ := kill_step hat hx ht hne
    exact ⟨q, hq, hK.kill_used hP hat hq⟩
  · intro c p np t hat ht
    have hfresh := hK.fresh p np hat.2.2
    refine Effect.killed (c := c) (next_effect ht) ?_ np hfresh
    intro p' q pid todo hat'
    have hp := hat.1.symm.trans hat'.1
    cases hp
    have hx := hat.2.2.symm.trans hat'.2.2
    cases hx

end

instance (e : Event (Fin 2) Unit) : Decidable (NoKillZero e) :=
  inferInstanceAs (Decidable (∀ c, e ≠ .call c (.kill 0)))

/-- init is dispatched, calls `kill(pid)`, then `fork`, up to the slot `allocproc` has found. -/
def killThenFork (pid : ℤ) (steps : ℕ) : List (Event (Fin 2) Unit) :=
  replicate 6 (.step ()) ++ .call () (.kill pid) :: replicate steps (.step ()) ++
    .call () .fork :: replicate 4 (.step ())

theorem killed_flag_has_process_fork : ∃ s : Sys (Fin 2) Unit,
    Run (Guarded (next (finRange 2) 0) fun _ e => NoKillZero e)
      (boot 0) (killThenFork 1 2) s ∧
    (s.killed 0 = true ∧ s.cpu () = .thread 0 ∧ (s.thread 0).task = .allocprocFound 1) ∧
    KillSafe (finRange 2) 0 s := by
  obtain ⟨s, hrun, hs⟩ := exists_run_of_replay
    (f := next (finRange 2) (0 : Fin 2)) (G := fun _ e => NoKillZero e)
    (P := fun s : Sys (Fin 2) Unit => s.killed 0 = true ∧ s.cpu () = .thread 0 ∧
      (s.thread 0).task = .allocprocFound 1) (s := boot 0) (l := killThenFork 1 2)
    (by decide +kernel)
  exact ⟨s, hrun, by simpa using hs, killed_flag_has_process hrun⟩

/-- `kill(0)` marks a free slot, and the process made there next is born killed. -/
theorem kill_zero_marks_free_slot : ∃ s : Sys (Fin 2) Unit,
    Run (Step (finRange 2) 0) (boot 0) (killThenFork 0 4) s ∧
    At s () 0 (.allocprocFound 1) ∧
    ∃ t, next (finRange 2) 0 s (.step ()) = some t ∧ t.killed 1 = true := by
  obtain ⟨s, hrun, hs⟩ := exists_run_of_replay
    (f := next (finRange 2) (0 : Fin 2)) (G := fun _ _ => True)
    (P := fun s : Sys (Fin 2) Unit => (s.cpu () = .thread 0 ∧ (s.thread 0).sw = .none ∧
      (s.thread 0).task = .allocprocFound 1) ∧
      (next (finRange 2) 0 s (.step ())).any (fun t => t.killed 1)) (s := boot 0)
    (l := killThenFork 0 4) (by decide +kernel)
  have hs' : (s.cpu () = .thread 0 ∧ (s.thread 0).sw = .none ∧
      (s.thread 0).task = .allocprocFound 1) ∧
      (next (finRange 2) 0 s (.step ())).any (fun t => t.killed 1) = true := by simpa using hs
  obtain ⟨hat, hany⟩ := hs'
  refine ⟨s, hrun.mono fun _ _ _ h => h.2, hat, ?_⟩
  cases ht : next (finRange 2) 0 s (.step ()) with
  | none => simp [ht] at hany
  | some t => exact ⟨t, rfl, by simpa [ht] using hany⟩

end Xv6.Scheduler
