import Xv6.SchedulerInvariant

/-! Every step keeps the invariant, so a process runs on at most one CPU. -/
namespace Xv6.Scheduler

open Function Transition Option Sys

variable {ι κ : Type*}

def Cpu.process : Cpu ι → Option ι
  | .thread p | .back p => some p
  | _ => none

variable {s : Sys ι κ}

lemma onCpu_iff {c : κ} {p : ι} : OnCpu s c p ↔ (s.cpu c).process = some p := by
  unfold OnCpu
  cases s.cpu c <;> simp [Cpu.process]

theorem held_of_process {c : κ} (h : (s.cpu c).process = none) :
    held s c = (s.cpu c).held := by
  unfold held
  cases hc : s.cpu c with
  | thread p => simp [hc, Cpu.process] at h
  | _ => rfl

/-- A step of `scheduler()` that leaves every process entry but its locks alone. -/
structure SchedMove (s t : Sys ι κ) (c : κ) : Prop where
  before : (s.cpu c).process = none
  after : (t.cpu c).process = none
  cpu : ∀ c', c' ≠ c → t.cpu c' = s.cpu c'
  proc : t.proc = s.proc
  state : t.state = s.state
  thread : t.thread = s.thread

namespace SchedMove

variable {s t : Sys ι κ} {c : κ}

section
variable (m : SchedMove s t c)
include m

lemma process_eq (c' : κ) : (t.cpu c').process = (s.cpu c').process := by
  by_cases hc : c' = c
  · rw [hc, m.before, m.after]
  · rw [m.cpu c' hc]

lemma cpu_thread (c' : κ) (p : ι) : t.cpu c' = .thread p ↔ s.cpu c' = .thread p := by
  by_cases hc : c' = c
  · subst hc
    constructor
    · intro h
      have hn := m.after
      rw [h] at hn
      cases hn
    · intro h
      have hn := m.before
      rw [h] at hn
      cases hn
  · rw [m.cpu c' hc]

lemma held_other (c' : κ) (hc : c' ≠ c) : held t c' = held s c' := by
  unfold held
  rw [m.cpu c' hc, m.thread]

lemma table (h : TableInv s) : TableInv t := by
  have hon : ∀ c' q, OnCpu t c' q ↔ OnCpu s c' q := by
    intro c' q
    rw [onCpu_iff, onCpu_iff, m.process_eq]
  constructor
  · intro c' q
    rw [m.proc, hon]
    exact h.proc c' q
  · intro c1 c2 q h1 h2
    exact h.unique c1 c2 q ((hon c1 q).mp h1) ((hon c2 q).mp h2)
  · intro q hq
    rw [m.state] at hq
    obtain ⟨c', hc'⟩ := h.running q hq
    exact ⟨c', (m.cpu_thread c' q).mpr hc'⟩
  · intro c' q hc
    rw [m.thread, m.state]
    exact h.thread c' q ((m.cpu_thread c' q).mp hc)
  · intro q hq
    rw [m.thread]
    exact h.off q fun c' hc' => hq c' ((m.cpu_thread c' q).mpr hc')
  · rw [m.thread, m.state]
    exact h.child
  · rw [m.thread]
    exact h.parent
  · rw [m.thread]
    exact h.saved

lemma keep (h : Inv s) (hl : t.lock = s.lock) (hh : (t.cpu c).held = (s.cpu c).held) : Inv t := by
  refine ⟨h.locks.keep hl ?_, m.table h.table⟩
  intro c'
  by_cases hc : c' = c
  · subst hc
    rw [held_of_process m.after, held_of_process m.before, hh]
  · exact m.held_other c' hc

end

variable [DecidableEq ι]

lemma acquire (m : SchedMove s t c) (h : Inv s) {q : ι} (hq : s.lock q = none)
    (hl : t.lock = update s.lock q (some c))
    (hh : (t.cpu c).held = q :: (s.cpu c).held) : Inv t := by
  refine ⟨h.locks.acquire hq hl ?_ m.held_other, m.table h.table⟩
  rw [held_of_process m.after, held_of_process m.before, hh]

lemma release (m : SchedMove s t c) (h : Inv s) {q : ι} (hq : q ∈ (s.cpu c).held)
    (hl : t.lock = update s.lock q none)
    (hh : (t.cpu c).held = (s.cpu c).held.erase q) : Inv t := by
  refine ⟨h.locks.release ?_ hl ?_ m.held_other, m.table h.table⟩
  · rw [held_of_process m.before]
    exact hq
  · rw [held_of_process m.after, held_of_process m.before, hh]

end SchedMove

variable [DecidableEq ι]

variable (procs : List ι) (s : Sys ι κ) in
inductive Scans : Scan ι → Cpu ι → Prop
  | roundRobin : s.schedMode = .roundRobin → Scans .testRoundRobin (.choose (.rr procs))
  | notRoundRobin : s.schedMode ≠ .roundRobin → Scans .testRoundRobin (.choose .testFcfs)
  | fcfs : s.schedMode = .fcfs → Scans .testFcfs (.choose (.fcfs procs none))
  | notFcfs : s.schedMode ≠ .fcfs → Scans .testFcfs (.choose .testPriority)
  | priority : s.schedMode = .priority → Scans .testPriority (.choose (.stepA procs (-1)))
  | notPriority : s.schedMode ≠ .priority → Scans .testPriority .idle
  | rrEnd : Scans (.rr []) .idle
  | rrTake {p todo} : s.state p = .runnable → Scans (.rr (p :: todo)) (.chosen p)
  | rrNext {p todo} : s.state p ≠ .runnable →
      Scans (.rr (p :: todo)) (.choose (.rr todo))
  | fcfsEnd : Scans (.fcfs [] none) .idle
  | fcfsTake {m} : Scans (.fcfs [] (some m)) (.chosen m)
  | fcfsLock {p todo minProc} :
      Scans (.fcfs (p :: todo) minProc) (.choose (.fcfsHold p todo minProc))
  | fcfsFirst {p todo} : s.state p = .runnable →
      Scans (.fcfsHold p todo none) (.choose (.fcfs todo (some p)))
  | fcfsSkip {p todo} : s.state p ≠ .runnable →
      Scans (.fcfsHold p todo none) (.choose (.fcfs todo none))
  | fcfsOlder {p todo m} : s.state p = .runnable ∧ s.creationTime p < s.creationTime m →
      Scans (.fcfsHold p todo (some m)) (.choose (.fcfs todo (some p)))
  | fcfsKeep {p todo m} : ¬ (s.state p = .runnable ∧ s.creationTime p < s.creationTime m) →
      Scans (.fcfsHold p todo (some m)) (.choose (.fcfs todo (some m)))
  | stepAEnd : Scans (.stepA [] (-1)) .idle
  | stepADone {maxPrio} : maxPrio ≠ -1 →
      Scans (.stepA [] maxPrio) (.choose (.stepB procs maxPrio))
  | stepALock {p todo maxPrio} :
      Scans (.stepA (p :: todo) maxPrio) (.choose (.stepAHold p todo maxPrio))
  | stepARaise {p todo maxPrio} : s.state p = .runnable ∧ s.priority p > maxPrio →
      Scans (.stepAHold p todo maxPrio) (.choose (.stepA todo (s.priority p)))
  | stepAKeep {p todo maxPrio} : ¬ (s.state p = .runnable ∧ s.priority p > maxPrio) →
      Scans (.stepAHold p todo maxPrio) (.choose (.stepA todo maxPrio))
  | stepBEnd {maxPrio} : Scans (.stepB [] maxPrio) .idle
  | stepBLock {p todo maxPrio} :
      Scans (.stepB (p :: todo) maxPrio) (.choose (.stepBHold p todo maxPrio))
  | stepBTake {p todo maxPrio} : s.state p = .runnable ∧ s.priority p = maxPrio →
      Scans (.stepBHold p todo maxPrio) (.chosen p)
  | stepBNext {p todo maxPrio} : ¬ (s.state p = .runnable ∧ s.priority p = maxPrio) →
      Scans (.stepBHold p todo maxPrio) (.choose (.stepB todo maxPrio))

section scheduler
variable [DecidableEq κ] {procs : List ι} {s t : Sys ι κ} {c : κ} {q : ι}

variable {x : Cpu ι}

omit [DecidableEq ι] in
lemma setCpu_keep (h : Inv s) (hs : (s.cpu c).process = none)
    (hx : x.process = none) (hh : x.held = (s.cpu c).held) : Inv (s.setCpu c x) := by
  refine SchedMove.keep (c := c) ⟨hs, ?_, ?_, rfl, rfl, rfl⟩ h rfl ?_
  · simpa [setCpu] using hx
  · intro c' hc
    simp [setCpu, hc]
  · simpa [setCpu] using hh

section
variable (h : Inv s) (hs : (s.cpu c).process = none) (hx : x.process = none)
include h hs hx

lemma setCpu_release (hq : q ∈ (s.cpu c).held) (hh : x.held = (s.cpu c).held.erase q) :
    Inv ((s.release q).setCpu c x) := by
  refine SchedMove.release (c := c) ⟨hs, ?_, ?_, rfl, rfl, rfl⟩ h hq rfl ?_
  · simpa [setCpu, release, setLock] using hx
  · intro c' hc
    simp [setCpu, release, setLock, hc]
  · simpa [setCpu, release, setLock] using hh

lemma setCpu_acquire (hh : x.held = q :: (s.cpu c).held)
    (ht : (s.acquire c q).map (fun u => u.setCpu c x) = some t) : Inv t := by
  unfold acquire at ht
  split at ht
  next hq =>
    simp only [map_some, some.injEq] at ht
    subst ht
    refine SchedMove.acquire (c := c) ⟨hs, ?_, ?_, rfl, rfl, rfl⟩ h hq rfl ?_
    · simpa [setCpu, setLock] using hx
    · intro c' hc
      simp [setCpu, setLock, hc]
    · simpa [setCpu, setLock] using hh
  next => simp at ht

end

/-- What a step of `choose_next_process` does: it moves on in the scan and takes or releases at
most one lock. -/
structure ScanStep (procs : List ι) (c : κ) (scan : Scan ι) (s t : Sys ι κ) : Prop where
  scans : Scans procs s scan (t.cpu c)
  table : t.table = s.table
  thread : t.thread = s.thread
  proc : t.proc = s.proc
  waitLock : t.waitLock = s.waitLock
  cpu : t.cpu = update s.cpu c (t.cpu c)
  locks : t.lock = s.lock ∧ (t.cpu c).held = (Cpu.choose scan).held ∨
    (∃ p, s.lock p = none ∧ t.lock = update s.lock p (some c) ∧
      (t.cpu c).held = p :: (Cpu.choose scan).held) ∨
    ∃ p ∈ (Cpu.choose scan).held, t.lock = update s.lock p none ∧
      (t.cpu c).held = (Cpu.choose scan).held.erase p

variable {scan : Scan ι}

section
variable (hx : Scans procs s scan x)
include hx

lemma ScanStep.of_keep (hh : x.held = (Cpu.choose scan).held) :
    ScanStep procs c scan s (s.setCpu c x) := by
  have hcpu : (s.setCpu c x).cpu c = x := by simp [setCpu]
  refine ⟨by rwa [hcpu], rfl, rfl, rfl, rfl, ?_, .inl ⟨rfl, by rw [hcpu, hh]⟩⟩
  rw [hcpu]
  rfl

lemma ScanStep.of_acquire (hh : x.held = q :: (Cpu.choose scan).held)
    (ht : (s.acquire c q).map (fun u => u.setCpu c x) = some t) : ScanStep procs c scan s t := by
  unfold acquire at ht
  split at ht
  next hq =>
    simp only [map_some, some.injEq] at ht
    subst ht
    have hcpu : ((s.setLock q (some c)).setCpu c x).cpu c = x := by simp [setCpu, setLock]
    refine ⟨by rwa [hcpu], rfl, rfl, rfl, rfl, ?_, .inr (.inl ⟨q, hq, rfl, by rw [hcpu, hh]⟩)⟩
    rw [hcpu]
    rfl
  next => simp at ht

lemma ScanStep.of_release (hq : q ∈ (Cpu.choose scan).held)
    (hh : x.held = (Cpu.choose scan).held.erase q) :
    ScanStep procs c scan s ((s.release q).setCpu c x) := by
  have hcpu : ((s.release q).setCpu c x).cpu c = x := by
    simp [setCpu, release, setLock]
  refine ⟨by rwa [hcpu], rfl, rfl, rfl, rfl, ?_, .inr (.inr ⟨q, hq, rfl, by rw [hcpu, hh]⟩)⟩
  rw [hcpu]
  rfl

end

theorem chooseStep_scan
    (ht : chooseStep procs s c scan = some t) : ScanStep procs c scan s t := by
  cases scan with
  | testRoundRobin =>
    cases ht
    split
    next h => exact .of_keep (.roundRobin h) rfl
    next h => exact .of_keep (.notRoundRobin h) rfl
  | testFcfs =>
    cases ht
    split
    next h => exact .of_keep (.fcfs h) rfl
    next h => exact .of_keep (.notFcfs h) rfl
  | testPriority =>
    cases ht
    split
    next h => exact .of_keep (.priority h) rfl
    next h => exact .of_keep (.notPriority h) rfl
  | rr todo =>
    cases todo with
    | nil => cases ht; exact .of_keep .rrEnd rfl
    | cons p todo =>
      cases ht
      split
      next h => exact .of_keep (.rrTake h) rfl
      next h => exact .of_keep (.rrNext h) rfl
  | fcfs todo minProc =>
    cases todo with
    | nil =>
      cases minProc with
      | none => cases ht; exact .of_keep .fcfsEnd rfl
      | some m => cases ht; exact .of_release .fcfsTake (by simp [Cpu.held]) (by simp [Cpu.held])
    | cons p todo => exact .of_acquire .fcfsLock rfl ht
  | fcfsHold p todo minProc =>
    cases minProc with
    | none =>
      simp only [chooseStep] at ht
      split at ht
      next h => cases ht; exact .of_keep (.fcfsFirst h) rfl
      next h =>
        cases ht
        exact .of_release (.fcfsSkip h) (by simp [Cpu.held]) (by simp [Cpu.held])
    | some m =>
      simp only [chooseStep] at ht
      split at ht
      next h =>
        cases ht
        have hne : p ≠ m := by
          rintro rfl
          exact absurd h.2 (lt_irrefl _)
        exact .of_release (.fcfsOlder h) (by simp [Cpu.held]) (by simp [Cpu.held, hne])
      next h =>
        cases ht
        exact .of_release (.fcfsKeep h) (by simp [Cpu.held]) (by simp [Cpu.held])
  | stepA todo maxPrio =>
    cases todo with
    | nil =>
      cases ht
      split
      next h => exact .of_keep (h ▸ .stepAEnd) rfl
      next h => exact .of_keep (.stepADone h) rfl
    | cons p todo => exact .of_acquire .stepALock rfl ht
  | stepAHold p todo maxPrio =>
    cases ht
    split
    next h => exact .of_release (.stepARaise h) (by simp [Cpu.held]) (by simp [Cpu.held])
    next h => exact .of_release (.stepAKeep h) (by simp [Cpu.held]) (by simp [Cpu.held])
  | stepB todo maxPrio =>
    cases todo with
    | nil => cases ht; exact .of_keep .stepBEnd rfl
    | cons p todo => exact .of_acquire .stepBLock rfl ht
  | stepBHold p todo maxPrio =>
    cases ht
    split
    next h => exact .of_release (.stepBTake h) (by simp [Cpu.held]) (by simp [Cpu.held])
    next h => exact .of_release (.stepBNext h) (by simp [Cpu.held]) (by simp [Cpu.held])

omit [DecidableEq ι] [DecidableEq κ] in
lemma Scans.process (h : Scans procs s scan x) : x.process = none := by
  cases h <;> rfl

lemma chooseStep_inv (h : Inv s) (hc : s.cpu c = .choose scan)
    (ht : chooseStep procs s c scan = some t) : Inv t := by
  have m := chooseStep_scan ht
  have hheld : (s.cpu c).held = (Cpu.choose scan).held := by rw [hc]
  have hm : SchedMove s t c := by
    refine ⟨by rw [hc]; rfl, m.scans.process, ?_, m.proc, congrArg Table.state m.table, m.thread⟩
    intro c' hne
    rw [m.cpu, update_of_ne hne]
  rcases m.locks with ⟨hl, hh⟩ | ⟨q, hq, hl, hh⟩ | ⟨q, hq, hl, hh⟩
  · exact hm.keep h hl (hh.trans hheld.symm)
  · exact hm.acquire h hq hl (by rw [hh, hheld])
  · exact hm.release h (by rw [hheld]; exact hq) hl (by rw [hh, hheld])

end scheduler

section thread
variable {procs : List ι} {init : ι} {s t : Sys ι κ} {c : κ} {p : ι} {d : Thread ι}

lemma ThreadMove.of_same (hc : s.cpu c = .thread p) (hcpu : t.cpu = s.cpu)
    (hproc : t.proc = s.proc) (hst : t.state = s.state)
    (hth : t.thread = update s.thread p d) (hok : d.ok (s.state p))
    (hch : d.task.child = none ∨ d.task.child = (s.thread p).task.child)
    (hsv : d.sw ≠ .none → d.task.held = []) : ThreadMove s t c p := by
  have hp : t.thread p = d := by simp [hth]
  refine ⟨hc, hcpu, hproc, ?_, ?_, ?_, ?_, ?_, by rw [hp]; exact hsv⟩
  · intro q _
    exact .inl (by rw [hst])
  · rw [hp, hst]
    exact hok
  · intro q hq
    exact .inl (by simp [hth, hq])
  · intro np hnp
    rw [hp] at hnp
    rcases hch with hch | hch
    · rw [hch] at hnp
      cases hnp
    · exact .inl ⟨by rw [← hch]; exact hnp, by rw [hst]⟩
  · intro q hu hn
    rw [hst] at hn
    exact absurd hu hn

variable {q : ι}

/-- The thread of `p` writes the state of another process whose lock its CPU holds. -/
lemma ThreadMove.of_write (h : Inv s) (hc : s.cpu c = .thread p) (hcpu : t.cpu = s.cpu)
    (hproc : t.proc = s.proc) {x : ProcState}
    (hst : t.state = update s.state q x)
    (hth : t.thread = update s.thread p d) (hrun : s.state p = .running)
    (hok : d.ok .running) (hq : q ∈ held s c) (hold : s.state q ≠ .running)
    (hnew : x ≠ .running)
    (hch : d.task.child = none ∨ d.task.child = some q ∧ s.state q = .unused ∧ x = .used)
    (hused : s.state q = .used → (s.thread p).task.child = some q)
    (hsv : d.sw ≠ .none → d.task.held = []) : ThreadMove s t c p := by
  have hp : t.thread p = d := by simp [hth]
  have hqp : p ≠ q := by
    rintro rfl
    exact hold hrun
  refine ⟨hc, hcpu, hproc, ?_, ?_, ?_, ?_, ?_, by rw [hp]; exact hsv⟩
  · intro r _
    by_cases hr : r = q
    · subst hr
      exact .inr ⟨hold, by simpa [hst] using hnew, fun c' hc' => h.locks.owner_eq hq hc'⟩
    · exact .inl (by simp [hst, hr])
  · rw [hp, hst, update_of_ne hqp, hrun]
    exact hok
  · intro r hr
    exact .inl (by simp [hth, hr])
  · intro np hnp
    rw [hp] at hnp
    rcases hch with hch | ⟨hch, hu, hx⟩
    · rw [hch] at hnp
      cases hnp
    · rw [hch] at hnp
      cases hnp
      exact .inr ⟨hu, by simp [hst, hx]⟩
  · intro r hu hn
    by_cases hr : r = q
    · subst hr
      exact hused hu
    · simp [hst, hr, hu] at hn

omit [DecidableEq ι] in
theorem running_of_none (h : Inv s) (hc : s.cpu c = .thread p)
    (hsw : (s.thread p).sw = .none) : s.state p = .running := by
  have hok := h.table.thread c p hc
  simpa [Thread.ok, hsw] using hok

omit [DecidableEq ι] in
lemma held_of_none (hsw : (s.thread p).sw = .none) :
    (s.thread p).held p = (s.thread p).task.held := by
  simp [Thread.held, hsw]

omit [DecidableEq ι] in
theorem mem_held_of_task (hc : s.cpu c = .thread p) (hsw : (s.thread p).sw = .none)
    (hq : (s.thread p).task.held = [q]) : q ∈ held s c := by
  simp [held, hc, held_of_none hsw, hq]

lemma task_keep (h : Inv s) (hc : s.cpu c = .thread p) (hsw : (s.thread p).sw = .none)
    (hcpu : t.cpu = s.cpu) (hproc : t.proc = s.proc) (hst : t.state = s.state)
    (hl : t.lock = s.lock) (hth : t.thread = update s.thread p d)
    (hok : d.ok .running) (hh : d.held p = (s.thread p).task.held)
    (hch : d.task.child = none ∨ d.task.child = (s.thread p).task.child)
    (hsv : d.sw ≠ .none → d.task.held = []) : Inv t := by
  have hrun := running_of_none h hc hsw
  have hm : ThreadMove s t c p :=
    ThreadMove.of_same hc hcpu hproc hst hth (by rw [hrun]; exact hok) hch hsv
  exact hm.keep h hl (by rw [held_of_none hsw]; simpa [hth] using hh)

variable {x : Task ι}

section
variable (h : Inv s) (hc : s.cpu c = .thread p) (hsw : (s.thread p).sw = .none)
include h hc hsw

lemma task_goto (hcpu : t.cpu = s.cpu) (hproc : t.proc = s.proc) (hst : t.state = s.state)
    (hl : t.lock = s.lock) (hth : t.thread = update s.thread p ⟨x, .none⟩)
    (hh : x.held = (s.thread p).task.held)
    (hch : x.child = none ∨ x.child = (s.thread p).task.child) : Inv t :=
  task_keep h hc hsw hcpu hproc hst hl hth rfl hh hch fun hn => absurd rfl hn

lemma task_acquire (hs : (s.thread p).task.held = []) (hx : x.held = [q])
    (hch : x.child = none ∨ x.child = (s.thread p).task.child)
    (ht : (s.acquire c q).map (fun u => u.setTask p x) = some t) : Inv t := by
  have hrun := running_of_none h hc hsw
  unfold acquire at ht
  split at ht
  next hq =>
    simp only [map_some, some.injEq] at ht
    subst ht
    have hm : ThreadMove s ((s.setLock q (some c)).setTask p x) c p :=
      ThreadMove.of_same (d := ⟨x, .none⟩) hc rfl rfl rfl rfl (by rw [hrun]; rfl) hch
        (fun hn => absurd rfl hn)
    refine hm.acquire h hq rfl ?_
    rw [held_of_none hsw, hs]
    simp [setTask, setLock, Thread.held, hx]
  next => simp at ht

lemma task_release (hcpu : t.cpu = s.cpu) (hproc : t.proc = s.proc) (hst : t.state = s.state)
    (hl : t.lock = update s.lock q none) (hd : t.thread = update s.thread p ⟨x, .none⟩)
    (hs : (s.thread p).task.held = [q]) (hx : x.held = [])
    (hch : x.child = none ∨ x.child = (s.thread p).task.child) : Inv t := by
  have hrun := running_of_none h hc hsw
  have hm : ThreadMove s t c p :=
    ThreadMove.of_same (d := ⟨x, .none⟩) hc hcpu hproc hst hd (by rw [hrun]; rfl) hch
      (fun hn => absurd rfl hn)
  refine hm.release h hl (by rw [held_of_none hsw, hs]) ?_
  simp [hd, Thread.held, hx]

lemma task_write {y : ProcState} (hcpu : t.cpu = s.cpu) (hproc : t.proc = s.proc)
    (hst : t.state = update s.state q y) (hl : t.lock = update s.lock q none)
    (hd : t.thread = update s.thread p ⟨x, .none⟩) (hs : (s.thread p).task.held = [q])
    (hx : x.held = []) (hch : x.child = none) (hold : s.state q ≠ .running) (hnew : y ≠ .running)
    (hused : s.state q = .used → (s.thread p).task.child = some q) : Inv t := by
  have hrun := running_of_none h hc hsw
  have hm : ThreadMove s t c p :=
    ThreadMove.of_write (d := ⟨x, .none⟩) h hc hcpu hproc hst hd hrun rfl
      (mem_held_of_task hc hsw hs) hold hnew (.inl hch) hused (fun hn => absurd rfl hn)
  refine hm.release h hl (by rw [held_of_none hsw, hs]) ?_
  simp [hd, Thread.held, hx]

lemma task_acquireWait (hh : x.held = (s.thread p).task.held)
    (hch : x.child = none ∨ x.child = (s.thread p).task.child)
    (ht : (s.acquireWait c).map (fun u => u.setTask p x) = some t) : Inv t := by
  unfold acquireWait at ht
  split at ht
  next =>
    simp only [map_some, some.injEq] at ht
    subst ht
    exact task_goto h hc hsw rfl rfl rfl rfl rfl hh hch
  next => simp at ht

end

end thread

section steps
variable {procs : List ι} {init : ι} {s t : Sys ι κ} {c : κ} {p : ι}

lemma taskStep_inv (h : Inv s) (hc : s.cpu c = .thread p) (hsw : (s.thread p).sw = .none)
    {x : Task ι} (hx : (s.thread p).task = x) (ht : taskStep procs init s c p x = some t) :
    Inv t := by
  cases x with
  | run => cases ht
  | wakeup ch todo after =>
    cases todo with
    | nil =>
      cases ht
      cases after with
      | run => exact task_goto h hc hsw rfl rfl rfl rfl rfl (by rw [hx]; rfl) (.inl rfl)
      | reparent todo =>
        exact task_goto h hc hsw rfl rfl rfl rfl rfl (by rw [hx]; rfl) (.inl rfl)
      | exit =>
        exact task_keep h hc hsw rfl rfl rfl rfl rfl rfl (by rw [hx]; rfl) (.inr rfl)
          (fun _ => by rw [hx]; rfl)
    | cons q todo =>
      simp only [taskStep] at ht
      split at ht
      · cases ht
        exact task_goto h hc hsw rfl rfl rfl rfl rfl (by rw [hx]; rfl) (.inl rfl)
      · exact task_acquire h hc hsw (by rw [hx]; rfl) rfl (.inl rfl) ht
  | wakeupHold q ch todo after =>
    cases ht
    unfold wakeBody
    split
    next hw =>
      exact task_write h hc hsw rfl rfl rfl rfl rfl (by rw [hx]; rfl) rfl rfl
        (by simp [hw.1]) (by simp) (by simp [hw.1])
    next => exact task_release h hc hsw rfl rfl rfl rfl rfl (by rw [hx]; rfl) rfl (.inl rfl)
  | kill pid todo =>
    cases todo with
    | nil =>
      cases ht
      exact task_goto h hc hsw rfl rfl rfl rfl rfl (by rw [hx]; rfl) (.inl rfl)
    | cons q todo => exact task_acquire h hc hsw (by rw [hx]; rfl) rfl (.inl rfl) ht
  | killHold q pid todo =>
    simp only [taskStep] at ht
    split at ht
    · cases ht
      unfold killBody
      split
      next hw =>
        exact task_write h hc hsw rfl rfl rfl rfl rfl (by rw [hx]; rfl) rfl rfl
          (by simp [hw]) (by simp) (by simp [hw])
      next => exact task_release h hc hsw rfl rfl rfl rfl rfl (by rw [hx]; rfl) rfl (.inl rfl)
    · cases ht
      exact task_release h hc hsw rfl rfl rfl rfl rfl (by rw [hx]; rfl) rfl (.inl rfl)
  | allocproc todo =>
    cases todo with
    | nil =>
      cases ht
      exact task_goto h hc hsw rfl rfl rfl rfl rfl (by rw [hx]; rfl) (.inl rfl)
    | cons q todo => exact task_acquire h hc hsw (by rw [hx]; rfl) rfl (.inl rfl) ht
  | allocprocHold q todo =>
    simp only [taskStep] at ht
    split at ht
    next hu =>
      cases ht
      have hq : q ∈ held s c := mem_held_of_task hc hsw (by rw [hx]; rfl)
      have hm : ThreadMove s ((s.allocprocFound q).setTask p (.allocprocFound q)) c p :=
        ThreadMove.of_write (d := ⟨.allocprocFound q, .none⟩) h hc rfl rfl rfl rfl
          (running_of_none h hc hsw) rfl hq (by simp [hu]) (by simp) (.inr ⟨rfl, hu, rfl⟩)
          (by simp [hu]) (fun hn => absurd rfl hn)
      refine hm.keep h rfl ?_
      rw [held_of_none hsw, hx]
      simp [setTask, Thread.held, Task.held]
    next =>
      cases ht
      exact task_release h hc hsw rfl rfl rfl rfl rfl (by rw [hx]; rfl) rfl (.inl rfl)
  | allocprocFound np =>
    cases ht
    have hu : s.state np = .used := h.table.child p np (by rw [hx]; rfl)
    have hrun := running_of_none h hc hsw
    have hnp : np ≠ p := by
      rintro rfl
      rw [hrun] at hu
      cases hu
    have hm : ThreadMove s ((s.allocprocInit np).setTask p (.forkCopy np)) c p := by
      refine ⟨hc, rfl, rfl, fun q _ => .inl rfl, ?_, ?_, ?_, fun q h1 h2 => absurd h1 h2, ?_⟩
      · simp [setTask, allocprocInit, Thread.ok, hrun]
      · intro q hq
        by_cases hqn : q = np
        · subst hqn
          exact .inr ⟨hu, by simp [setTask, allocprocInit, hq]⟩
        · exact .inl (by simp [setTask, allocprocInit, hq, hqn])
      · intro r hr
        refine .inl ⟨?_, rfl⟩
        rw [hx]
        simpa [setTask, Task.child] using hr
      · simp [setTask]
    refine hm.keep h rfl ?_
    rw [held_of_none hsw, hx]
    simp [setTask, Thread.held, Task.held]
  | forkCopy np =>
    cases ht
    exact task_release h hc hsw rfl rfl rfl rfl rfl (by rw [hx]; rfl) rfl (.inr (by rw [hx]; rfl))
  | forkWaitLock np =>
    exact task_acquireWait h hc hsw (by rw [hx]; rfl) (.inr (by rw [hx]; rfl)) ht
  | forkParent np =>
    cases ht
    exact task_goto h hc hsw rfl rfl rfl rfl rfl (by rw [hx]; rfl) (.inr (by rw [hx]; rfl))
  | forkReady np =>
    exact task_acquire h hc hsw (by rw [hx]; rfl) rfl (.inr (by rw [hx]; rfl)) ht
  | forkSet np =>
    cases ht
    have hu : s.state np = .used := h.table.child p np (by rw [hx]; rfl)
    exact task_write h hc hsw rfl rfl rfl rfl rfl (by rw [hx]; rfl) rfl rfl
      (by simp [hu]) (by simp) (fun _ => by rw [hx]; rfl)
  | waitLock => exact task_acquireWait h hc hsw (by rw [hx]; rfl) (.inl rfl) ht
  | wait todo havekids =>
    cases todo with
    | nil =>
      simp only [taskStep] at ht
      split at ht
      · cases ht
        refine task_keep (d := ⟨.waitLock, .acquire (.sleep (.slot p) true)⟩) h hc hsw rfl rfl
          rfl rfl ?_ rfl (by rw [hx]; rfl) (.inl rfl) (fun _ => rfl)
        simp [setSwitch, setTask]
      · cases ht
        exact task_goto h hc hsw rfl rfl rfl rfl rfl (by rw [hx]; rfl) (.inl rfl)
    | cons q todo =>
      simp only [taskStep] at ht
      split at ht
      · exact task_acquire h hc hsw (by rw [hx]; rfl) rfl (.inl rfl) ht
      · cases ht
        exact task_goto h hc hsw rfl rfl rfl rfl rfl (by rw [hx]; rfl) (.inl rfl)
  | waitHold q todo =>
    simp only [taskStep] at ht
    split at ht
    next hz =>
      cases ht
      exact task_write h hc hsw rfl rfl rfl rfl rfl (by rw [hx]; rfl) rfl rfl
        (by simp [hz]) (by simp) (by simp [hz])
    next =>
      cases ht
      exact task_release h hc hsw rfl rfl rfl rfl rfl (by rw [hx]; rfl) rfl (.inl rfl)
  | exitLock => exact task_acquireWait h hc hsw (by rw [hx]; rfl) (.inl rfl) ht
  | reparent todo =>
    cases todo with
    | nil =>
      cases ht
      exact task_goto h hc hsw rfl rfl rfl rfl rfl (by rw [hx]; rfl) (.inl rfl)
    | cons q todo =>
      simp only [taskStep] at ht
      split at ht
      · cases ht
        exact task_goto h hc hsw rfl rfl rfl rfl rfl (by rw [hx]; rfl) (.inl rfl)
      · cases ht
        exact task_goto h hc hsw rfl rfl rfl rfl rfl (by rw [hx]; rfl) (.inl rfl)

theorem goOff_frame (s : Sys ι κ) (p : ι) (w : Why ι) :
    (s.goOff p w).cpu = s.cpu ∧ (s.goOff p w).proc = s.proc ∧ (s.goOff p w).lock = s.lock ∧
      (s.goOff p w).thread = s.thread ∧
      (s.goOff p w).state = update s.state p w.state := by
  cases w with
  | sleep ch lkIsWaitLock => cases lkIsWaitLock <;> exact ⟨rfl, rfl, rfl, rfl, rfl⟩
  | _ => exact ⟨rfl, rfl, rfl, rfl, rfl⟩

theorem comeBack_frame (s : Sys ι κ) (p : ι) (w : Why ι) :
    (s.comeBack p w).cpu = s.cpu ∧ (s.comeBack p w).proc = s.proc ∧
      (s.comeBack p w).lock = s.lock ∧ (s.comeBack p w).thread = s.thread ∧
      (s.comeBack p w).state = s.state := by
  cases w <;> exact ⟨rfl, rfl, rfl, rfl, rfl⟩

variable {w : Why ι}

section
variable (h : Inv s) (hc : s.cpu c = .thread p)
include h hc

lemma switch_acquire_inv (hsw : (s.thread p).sw = .acquire w)
    (ht : (s.acquire c p).map (fun u => u.setSwitch p (.set w)) = some t) : Inv t := by
  have hrun : s.state p = .running := by
    simpa [Thread.ok, hsw] using h.table.thread c p hc
  unfold acquire at ht
  split at ht
  next hq =>
    simp only [map_some, some.injEq] at ht
    subst ht
    have hm : ThreadMove s ((s.setLock p (some c)).setSwitch p (.set w)) c p :=
      ThreadMove.of_same (d := ⟨(s.thread p).task, .set w⟩) hc rfl rfl rfl rfl
        (by rw [hrun]; rfl) (.inr rfl) (fun _ => h.table.saved p (by simp [hsw]))
    refine hm.acquire h hq rfl ?_
    simp [setSwitch, Thread.held, hsw]
  next => simp at ht

lemma switch_set_inv (hsw : (s.thread p).sw = .set w) :
    Inv ((s.goOff p w).setSwitch p (.sched w)) := by
  have hrun : s.state p = .running := by
    simpa [Thread.ok, hsw] using h.table.thread c p hc
  obtain ⟨e1, e2, e3, e4, e5⟩ := goOff_frame s p w
  have hchild : ∀ np, (s.thread p).task.child = some np → np ≠ p := by
    rintro np hnp rfl
    rw [h.table.child np np hnp] at hrun
    cases hrun
  have hm : ThreadMove s ((s.goOff p w).setSwitch p (.sched w)) c p := by
    refine ⟨hc, e1, e2, ?_, ?_, ?_, ?_, ?_, ?_⟩
    · intro q hq
      exact .inl (by simp [setSwitch, e5, hq])
    · simp [setSwitch, Thread.ok, e5]
    · intro q hq
      exact .inl (by simp [setSwitch, e4, hq])
    · intro np hnp
      have hs : (s.thread p).task.child = some np := by simpa [setSwitch, e4] using hnp
      exact .inl ⟨hs, by simp [setSwitch, e5, hchild np hs]⟩
    · intro q hu hn
      have hq : q ≠ p := by
        rintro rfl
        rw [hrun] at hu
        cases hu
      simp [setSwitch, e5, hq, hu] at hn
    · intro _
      simpa [setSwitch, e4] using h.table.saved p (by simp [hsw])
  refine hm.keep h e3 ?_
  simp [setSwitch, Thread.held, hsw]

lemma switch_resumed_inv (hsw : (s.thread p).sw = .resumed w) :
    Inv (((s.comeBack p w).release p).setSwitch p .none) := by
  have hrun : s.state p = .running := by
    simpa [Thread.ok, hsw] using h.table.thread c p hc
  obtain ⟨e1, e2, e3, e4, e5⟩ := comeBack_frame s p w
  have hm : ThreadMove s (((s.comeBack p w).release p).setSwitch p .none) c p :=
    ThreadMove.of_same (d := ⟨(s.thread p).task, .none⟩) hc e1 e2 e5
      (by simp [setSwitch, release, setLock, e4]) (by rw [hrun]; rfl) (.inr rfl)
      (fun hn => absurd rfl hn)
  have hfree := h.table.saved p (by simp [hsw])
  refine hm.release (q := p) h (by simp [setSwitch, release, setLock, e3]) ?_ ?_
  · simp [Thread.held, hsw]
  · simpa [setSwitch, release, setLock, Thread.held, e4] using hfree

end

end steps

/-- A step that brings `p` onto CPU `c` or takes it off, while no other CPU has it. -/
structure CpuSwitch (s t : Sys ι κ) (c : κ) (p : ι) : Prop where
  was : (s.cpu c).process = none ∨ (s.cpu c).process = some p
  alone : ∀ c', OnCpu s c' p → c' = c
  cpu : ∀ c', c' ≠ c → t.cpu c' = s.cpu c'
  now : (t.cpu c).process = none ∨ (t.cpu c).process = some p
  proc : t.proc c = (t.cpu c).process
  procs : ∀ c', c' ≠ c → t.proc c' = s.proc c'
  thread : ∀ q, q ≠ p → t.thread q = s.thread q
  task : (t.thread p).task = (s.thread p).task
  state : ∀ q, q ≠ p → t.state q = s.state q
  here : t.cpu c = .thread p → (t.thread p).ok (t.state p)
  gone : t.cpu c ≠ .thread p → t.state p ≠ .running ∧ ∃ w, (t.thread p).sw = .off w
  used : s.state p = .used → t.state p = .used
  saved : (s.thread p).sw ≠ .none

section dispatch
variable [DecidableEq κ] {procs : List ι} {init : ι} {s t : Sys ι κ} {c : κ} {p : ι}

omit [DecidableEq κ] [DecidableEq ι] in
lemma CpuSwitch.inv (m : CpuSwitch s t c p) (h : Inv s) (hl : t.lock = s.lock)
    (hh : held t c = held s c) : Inv t := by
  have hother : ∀ {c' q}, c' ≠ c → s.cpu c' = .thread q → q ≠ p := by
    rintro c' q hne hq rfl
    exact hne (m.alone c' (.inl hq))
  have hhere : ∀ {q}, q ≠ p → s.cpu c ≠ .thread q := by
    intro q hq hc
    have hw := m.was
    rw [hc] at hw
    rcases hw with hw | hw
    · cases hw
    · exact hq (some.inj hw)
  have hnow : ∀ {q}, (t.cpu c).process = some q → q = p := by
    intro q hq
    rcases m.now with hn | hn
    · rw [hn] at hq
      cases hq
    · rw [hn] at hq
      exact (some.inj hq).symm
  have htask : ∀ q, (t.thread q).task = (s.thread q).task := by
    intro q
    by_cases hq : q = p
    · rw [hq, m.task]
    · rw [m.thread q hq]
  refine ⟨h.locks.keep hl fun c' => ?_, ?_⟩
  · by_cases hne : c' = c
    · rw [hne, hh]
    · unfold held
      rw [m.cpu c' hne]
      cases hq : s.cpu c' with
      | thread q => simp only [m.thread q (hother hne hq)]
      | _ => rfl
  constructor
  · intro c' q
    rw [onCpu_iff]
    by_cases hne : c' = c
    · rw [hne, m.proc]
    · rw [m.procs c' hne, m.cpu c' hne, h.table.proc, onCpu_iff]
  · intro c1 c2 q h1 h2
    rw [onCpu_iff] at h1 h2
    by_cases e1 : c1 = c
    · by_cases e2 : c2 = c
      · rw [e1, e2]
      · rw [e1] at h1
        rw [m.cpu c2 e2, hnow h1] at h2
        exact absurd (m.alone c2 (onCpu_iff.mpr h2)) e2
    · rw [m.cpu c1 e1] at h1
      by_cases e2 : c2 = c
      · rw [e2] at h2
        rw [hnow h2] at h1
        exact absurd (m.alone c1 (onCpu_iff.mpr h1)) e1
      · rw [m.cpu c2 e2] at h2
        exact h.table.unique c1 c2 q (onCpu_iff.mpr h1) (onCpu_iff.mpr h2)
  · intro q hq
    by_cases hqp : q = p
    · rw [hqp] at hq ⊢
      by_contra hno
      push Not at hno
      exact (m.gone (hno c)).1 hq
    · rw [m.state q hqp] at hq
      obtain ⟨c', hc'⟩ := h.table.running q hq
      have hne : c' ≠ c := by
        rintro rfl
        exact hhere hqp hc'
      exact ⟨c', by rw [m.cpu c' hne]; exact hc'⟩
  · intro c' q hq
    by_cases hne : c' = c
    · rw [hne] at hq
      have hqp : q = p := hnow (by rw [hq]; rfl)
      rw [hqp] at hq ⊢
      exact m.here hq
    · rw [m.cpu c' hne] at hq
      have hqp := hother hne hq
      rw [m.thread q hqp, m.state q hqp]
      exact h.table.thread c' q hq
  · intro q hq
    by_cases hqp : q = p
    · rw [hqp] at hq ⊢
      exact (m.gone (hq c)).2
    · rw [m.thread q hqp]
      refine h.table.off q fun c' hc' => ?_
      have hne : c' ≠ c := by
        rintro rfl
        exact hhere hqp hc'
      exact hq c' (by rw [m.cpu c' hne]; exact hc')
  · intro q np hq
    rw [htask] at hq
    have hu := h.table.child q np hq
    by_cases hnp : np = p
    · rw [hnp] at hu ⊢
      exact m.used hu
    · rw [m.state np hnp, hu]
  · intro q q' np hq hq'
    rw [htask] at hq hq'
    exact h.table.parent q q' np hq hq'
  · intro q hq
    rw [htask]
    by_cases hqp : q = p
    · rw [hqp]
      exact h.table.saved p m.saved
    · rw [m.thread q hqp] at hq
      exact h.table.saved q hq

/-- `swtch` from the thread of `p` back to the scheduler: the lock of `p` stays with the CPU. -/
lemma switch_sched_inv (h : Inv s) (hc : s.cpu c = .thread p) {w : Why ι}
    (hsw : (s.thread p).sw = .sched w) :
    Inv ((s.setSwitch p (.off w)).setCpu c (.back p)) := by
  have hst : s.state p = w.state := by
    simpa [Thread.ok, hsw] using h.table.thread c p hc
  have hm : CpuSwitch s ((s.setSwitch p (.off w)).setCpu c (.back p)) c p := by
    refine ⟨.inr (by rw [hc]; rfl), fun c' ho => h.table.unique c' c p ho (.inl hc), ?_, ?_, ?_,
      fun _ _ => rfl, ?_, ?_, fun _ _ => rfl, ?_, fun _ => ⟨?_, w, ?_⟩, id,
      by simp [hsw]⟩
    · intro c' hne
      simp [setCpu, setSwitch, hne]
    · exact .inr (by simp [setCpu, Cpu.process])
    · simpa [setCpu, setSwitch, Cpu.process] using (h.table.proc c p).mpr (.inl hc)
    · intro q hq
      simp [setCpu, setSwitch, hq]
    · simp [setCpu, setSwitch]
    · intro hth
      simp [setCpu] at hth
    · change s.state p ≠ .running
      rw [hst]
      cases w <;> simp [Why.state]
    · simp [setCpu, setSwitch]
  refine hm.inv h rfl ?_
  simp [held, setCpu, setSwitch, hc, Cpu.held, Thread.held, hsw]

/-- The locked re-check of `scheduler()` succeeds, so `p` is on no CPU and may be dispatched. -/
lemma dispatch_inv (h : Inv s) (hc : s.cpu c = .recheck p) (hr : s.state p = .runnable) :
    Inv ((((s.setState p .running).setProc c (some p)).setSwitch p
      (switchIn (s.thread p).sw)).setCpu c (.thread p)) := by
  have hpc : p ∈ held s c := by simp [held, hc, Cpu.held]
  have hnone : ∀ c', ¬ OnCpu s c' p := by
    apply h.table.offCpu (c := c) (by simp [hr])
    · intro c' hm
      exact h.locks.owner_eq hpc hm
    · simp [OnCpu, hc]
  obtain ⟨w, hw⟩ := h.table.off p fun c' hc' => hnone c' (.inl hc')
  have hm : CpuSwitch s ((((s.setState p .running).setProc c (some p)).setSwitch p
      (switchIn (s.thread p).sw)).setCpu c (.thread p)) c p := by
    refine ⟨.inl (by rw [hc]; rfl), fun c' ho => absurd ho (hnone c'), ?_, ?_, ?_, ?_, ?_, ?_, ?_,
      ?_, ?_, by simp [hr], by simp [hw]⟩
    · intro c' hne
      simp [setCpu, setSwitch, setProc, setState, hne]
    · exact .inr (by simp [setCpu, Cpu.process])
    · simp [setCpu, setSwitch, setProc, Cpu.process]
    · intro c' hne
      simp [setCpu, setSwitch, setProc, setState, hne]
    · intro q hq
      simp [setCpu, setSwitch, setProc, setState, hq]
    · simp [setCpu, setSwitch, setProc, setState]
    · intro q hq
      simp [setCpu, setSwitch, setProc, setState, hq]
    · intro _
      simp [setCpu, setSwitch, setProc, setState, hw, switchIn, Thread.ok]
    · intro hth
      simp [setCpu] at hth
  refine hm.inv h rfl ?_
  simp [held, setCpu, setSwitch, setProc, setState, hc, Cpu.held, Thread.held, hw, switchIn]

omit [DecidableEq ι] in
lemma back_inv (h : Inv s) (hc : s.cpu c = .back p) :
    Inv ((s.setProc c none).setCpu c (.unlock p)) := by
  have halone : ∀ c', OnCpu s c' p → c' = c := fun c' ho => h.table.unique c' c p ho (.inr hc)
  have hoff : ∀ c', s.cpu c' ≠ .thread p := by
    intro c' hc'
    rw [halone c' (.inl hc'), hc] at hc'
    cases hc'
  obtain ⟨w, hw⟩ := h.table.off p hoff
  have hm : CpuSwitch s ((s.setProc c none).setCpu c (.unlock p)) c p := by
    refine ⟨.inr (by rw [hc]; rfl), halone, ?_, .inl (by simp [setCpu, Cpu.process]),
      by simp [setCpu, setProc, Cpu.process], ?_, fun _ _ => rfl, rfl, fun _ _ => rfl, ?_,
      fun _ => ⟨fun hrun => ?_, w, hw⟩, id, by simp [hw]⟩
    · intro c' hne
      simp [setCpu, setProc, hne]
    · intro c' hne
      simp [setCpu, setProc, hne]
    · intro hth
      simp [setCpu] at hth
    · obtain ⟨c', hc'⟩ := h.table.running p hrun
      exact hoff c' hc'
  refine hm.inv h rfl ?_
  simp [held, setCpu, hc, Cpu.held]

lemma threadStep_inv (h : Inv s) (hc : s.cpu c = .thread p)
    (ht : threadStep procs init s c p = some t) : Inv t := by
  unfold threadStep at ht
  split at ht
  next hsw => exact taskStep_inv h hc hsw rfl ht
  next w hsw => exact switch_acquire_inv h hc hsw ht
  next w hsw =>
    cases ht
    exact switch_set_inv h hc hsw
  next w hsw =>
    cases ht
    exact switch_sched_inv h hc hsw
  next => cases ht
  next w hsw =>
    cases ht
    exact switch_resumed_inv h hc hsw

lemma cpuStep_inv (h : Inv s) (ht : cpuStep procs init s c = some t) : Inv t := by
  unfold cpuStep at ht
  split at ht
  next scan hc => exact chooseStep_inv h hc ht
  next p hc => exact setCpu_acquire h (by rw [hc]; rfl) rfl (by rw [hc]; rfl) ht
  next p hc =>
    split at ht
    next hr =>
      cases ht
      exact dispatch_inv h hc hr
    next =>
      cases ht
      exact setCpu_keep h (by rw [hc]; rfl) rfl (by rw [hc]; rfl)
  next p hc => exact threadStep_inv h hc ht
  next p hc =>
    cases ht
    exact back_inv h hc
  next p hc =>
    cases ht
    exact setCpu_release h (by rw [hc]; rfl) rfl (by simp [hc, Cpu.held]) (by simp [hc, Cpu.held])
  next hc =>
    cases ht
    exact setCpu_keep h (by rw [hc]; rfl) rfl (by rw [hc]; rfl)

lemma callStep_inv (h : Inv s) (hc : s.cpu c = .thread p) {f : Call ι}
    (hf : mayCall s c (s.thread p) f = true) (ht : callStep procs init s p f = some t) :
    Inv t := by
  have hsw : (s.thread p).sw = .none := by
    cases f <;> simp [mayCall] at hf <;> exact hf.1
  have hfree : (s.thread p).task.held = [] := by
    cases f <;> simp [mayCall] at hf
    case yield => exact hf.2.1
    all_goals (rw [hf.2]; rfl)
  have hgo : ∀ x : Task ι, x.held = [] → x.child = none → Inv (s.setTask p x) := by
    intro x hx hch
    exact task_goto h hc hsw rfl rfl rfl rfl rfl (by rw [hx, hfree]) (.inl hch)
  have hoff : ∀ w : Why ι, Inv (s.setSwitch p (.acquire w)) := by
    intro w
    exact task_keep (d := ⟨(s.thread p).task, .acquire w⟩) h hc hsw rfl rfl rfl rfl rfl rfl
      hfree.symm (.inr rfl) fun _ => hfree
  cases f with
  | yield =>
    cases ht
    exact hoff _
  | sleep chan =>
    cases ht
    exact hoff _
  | wakeup chan =>
    cases ht
    exact hgo _ rfl rfl
  | kill pid =>
    cases ht
    exact hgo _ rfl rfl
  | fork =>
    cases ht
    exact hgo _ rfl rfl
  | wait =>
    cases ht
    exact hgo _ rfl rfl
  | exit =>
    simp only [callStep] at ht
    split at ht
    · cases ht
    · cases ht
      exact hgo _ rfl rfl

omit [DecidableEq κ] in
lemma wakeBody_inv (h : Inv s) {q : ι} {chan : Option (Chan ι)} (hq : s.lock q = none) :
    Inv (s.wakeBody q chan) := by
  unfold wakeBody
  split
  next hw =>
    have hnone : ∀ c', ¬ OnCpu s c' q := by
      intro c' ho
      exact h.locks.free hq c' (h.table.mem_held ho (by simp [hw.1]))
    have hst : ∀ r, r ≠ q → (s.setState q .runnable).state r = s.state r := by
      intro r hr
      simp [setState, hr]
    refine ⟨h.locks.keep rfl fun _ => rfl, ?_⟩
    refine ⟨h.table.proc, h.table.unique, ?_, ?_, h.table.off, ?_, h.table.parent,
      h.table.saved⟩
    · intro r hr
      by_cases hrq : r = q
      · subst hrq
        simp [setState] at hr
      · exact h.table.running r (by rw [← hst r hrq]; exact hr)
    · intro c' r hr
      have hrq : r ≠ q := by
        rintro rfl
        exact hnone c' (.inl hr)
      rw [hst r hrq]
      exact h.table.thread c' r hr
    · intro r np hr
      have hu := h.table.child r np hr
      have hnp : np ≠ q := by
        rintro rfl
        rw [hw.1] at hu
        cases hu
      rw [hst np hnp]
      exact hu
  next => exact h

theorem inv_step {e : Event ι κ} (h : Inv s) (ht : next procs init s e = some t) : Inv t := by
  cases e with
  | step c => exact cpuStep_inv h ht
  | call c f =>
    simp only [next] at ht
    split at ht
    next p hc =>
      split at ht
      next hf => exact callStep_inv h hc hf ht
      next => cases ht
    next => cases ht
  | fail c =>
    simp only [next] at ht
    split at ht
    next p hc =>
      split at ht
      next np hsw hx =>
        cases ht
        have hu : s.state np = .used := h.table.child p np (by rw [hx]; rfl)
        exact task_write h hc hsw rfl rfl rfl rfl rfl (by rw [hx]; rfl) rfl rfl
          (by simp [hu]) (by simp) (fun _ => by rw [hx]; rfl)
      next np hsw hx =>
        cases ht
        have hu : s.state np = .used := h.table.child p np (by rw [hx]; rfl)
        exact task_write h hc hsw rfl rfl rfl rfl rfl (by rw [hx]; rfl) rfl rfl
          (by simp [hu]) (by simp) (fun _ => by rw [hx]; rfl)
      next q todo hsw hx =>
        split at ht
        · cases ht
          exact task_release h hc hsw rfl rfl rfl rfl rfl (by rw [hx]; rfl) rfl (.inl rfl)
        · cases ht
      next => cases ht
    next => cases ht
  | intr c q chan =>
    simp only [next] at ht
    split at ht
    next hg =>
      cases ht
      exact wakeBody_inv h hg.2.2.1
    next => cases ht
  | tick =>
    cases ht
    exact ⟨⟨h.locks.owner, h.locks.nodup⟩, ⟨h.table.proc, h.table.unique, h.table.running,
      h.table.thread, h.table.off, h.table.child, h.table.parent, h.table.saved⟩⟩
  | setSched mode =>
    cases ht
    exact ⟨⟨h.locks.owner, h.locks.nodup⟩, ⟨h.table.proc, h.table.unique, h.table.running,
      h.table.thread, h.table.off, h.table.child, h.table.parent, h.table.saved⟩⟩

omit [DecidableEq κ] in
theorem boot_inv (init : ι) : Inv (boot init : Sys ι κ) := by
  refine ⟨⟨?_, ?_⟩, ⟨?_, ?_, ?_, ?_, ?_, ?_, ?_, ?_⟩⟩
  · simp [boot, held, Cpu.held]
  · simp [boot, held, Cpu.held]
  · simp [boot, OnCpu]
  · simp [boot, OnCpu]
  · intro p hp
    simp only [boot] at hp
    split at hp <;> cases hp
  · simp [boot]
  · intro p _
    exact ⟨.forkret, rfl⟩
  · simp [boot, Task.child]
  · simp [boot, Task.child]
  · simp [boot, Task.held]

end dispatch

variable [DecidableEq κ]

def Step (procs : List ι) (init : ι) (s : Sys ι κ) (e : Event ι κ) (t : Sys ι κ) : Prop :=
  next procs init s e = some t

theorem inv_run {procs : List ι} {init : ι} {es : List (Event ι κ)} {s : Sys ι κ}
    (h : Run (Step procs init) (boot init) es s) : Inv s :=
  h.invariant (fun _ _ _ hI hs => inv_step hI hs) (boot_inv init)

/-- In every reachable state a process runs on at most one CPU, and a process whose lock
is free is RUNNING exactly when one CPU has it as `c->proc`. -/
theorem runs_on_one_cpu {procs : List ι} {init : ι} {es : List (Event ι κ)} {s : Sys ι κ}
    (h : Run (Step procs init) (boot init) es s) :
    (∀ p, s.lock p = none → (s.state p = .running ↔ ∃! c, s.proc c = some p)) ∧
    (∀ c c' p, s.proc c = some p → s.proc c' = some p → c = c') ∧
    (∀ p, s.lock p = none →
      s.state p = .zombie ∨ s.state p = .sleeping ∨ s.state p = .used ∨ s.state p = .unused →
      ∀ c, s.proc c ≠ some p) := by
  have hI := inv_run h
  have hunique : ∀ c c' p, s.proc c = some p → s.proc c' = some p → c = c' := by
    intro c c' p h1 h2
    exact hI.table.unique c c' p ((hI.table.proc c p).mp h1) ((hI.table.proc c' p).mp h2)
  have hrunning : ∀ p, s.lock p = none → ∀ c, s.proc c = some p → s.state p = .running := by
    intro p hl c hc
    by_contra hn
    exact hI.locks.free hl c (hI.table.mem_held ((hI.table.proc c p).mp hc) hn)
  refine ⟨?_, hunique, ?_⟩
  · intro p hl
    constructor
    · intro hr
      obtain ⟨c, hc⟩ := hI.table.running p hr
      have hp : s.proc c = some p := (hI.table.proc c p).mpr (.inl hc)
      exact ⟨c, hp, fun c' hc' => hunique c' c p hc' hp⟩
    · rintro ⟨c, hc, _⟩
      exact hrunning p hl c hc
  · intro p hl hs c hc
    have hr := hrunning p hl c hc
    rw [hr] at hs
    simp at hs

/-- Two CPUs choose the same process; the one that locks it second finds it RUNNING. -/
theorem runs_on_one_cpu_stale : ∃ s : Sys (Fin 2) (Fin 2),
    Run (Step (List.finRange 2) 0) (boot 0)
      (List.replicate 3 (.step 1) ++ List.replicate 6 (.step 0) ++
        List.replicate 3 (.step 1)) s ∧
    (s.lock 0 = none ∧ s.state 0 = .running) ∧ ∃! c, s.proc c = some 0 := by
  obtain ⟨s, hrun, hs⟩ := exists_run_of_replay
    (f := next (List.finRange 2) (0 : Fin 2)) (G := fun _ _ => True)
    (P := fun s : Sys (Fin 2) (Fin 2) => s.lock 0 = none ∧ s.state 0 = .running) (s := boot 0)
    (l := List.replicate 3 (.step 1) ++ List.replicate 6 (.step 0) ++
      List.replicate 3 (.step 1)) (by decide +kernel)
  have hrun' := hrun.mono fun _ _ _ h => h.2
  have hs' : s.lock 0 = none ∧ s.state 0 = .running := by simpa using hs
  exact ⟨s, hrun', hs', ((runs_on_one_cpu hrun').1 0 hs'.1).mp hs'.2⟩

end Xv6.Scheduler
