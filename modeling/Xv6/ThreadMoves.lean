import Xv6.ProcessTable

/-! How one step moves a thread through its code, and what it does to `wait_lock`. -/
namespace Xv6.Scheduler

open Function Option

variable {ι κ : Type*} [DecidableEq ι]

variable (procs : List ι) (init : ι) (s : Sys ι κ) (e : Event ι κ) (c : κ) (p : ι) in
/-- The thread of `p` on CPU `c` goes from one place of the code to the next; the last
arguments are `wait_lock` and the table afterwards. -/
inductive Moves : Thread ι → Thread ι → Option κ → Table ι → Prop
  | wakeSkip {ch todo a} : e = .step c → Moves ⟨.wakeup ch (p :: todo) a, .none⟩
      ⟨.wakeup ch todo a, .none⟩ s.waitLock s.table
  | wakeLock {q ch todo a} : q ≠ p → e = .step c → Moves ⟨.wakeup ch (q :: todo) a, .none⟩
      ⟨.wakeupHold q ch todo a, .none⟩ s.waitLock s.table
  | wakeBody {q ch todo a} : e = .step c → Moves ⟨.wakeupHold q ch todo a, .none⟩
      ⟨.wakeup ch todo a, .none⟩ s.waitLock (s.wakeBody q ch).table
  | wakeRun {ch} : e = .step c → Moves ⟨.wakeup ch [] .run, .none⟩ ⟨.run, .none⟩ s.waitLock s.table
  | wakeReparent {ch todo} : e = .step c → Moves ⟨.wakeup ch [] (.reparent todo), .none⟩
      ⟨.reparent todo, .none⟩ s.waitLock s.table
  | wakeExit {ch} : e = .step c → Moves ⟨.wakeup ch [] .exit, .none⟩
      ⟨.wakeup ch [] .exit, .acquire .exit⟩ s.waitLock s.table
  | killRun {pid} : e = .step c → Moves ⟨.kill pid [], .none⟩ ⟨.run, .none⟩ s.waitLock s.table
  | killLock {q pid todo} : e = .step c → Moves ⟨.kill pid (q :: todo), .none⟩
      ⟨.killHold q pid todo, .none⟩ s.waitLock s.table
  | killDone {q pid todo} : s.pid q = pid → e = .step c → Moves ⟨.killHold q pid todo, .none⟩
      ⟨.run, .none⟩ s.waitLock (s.killBody q).table
  | killNext {q pid todo} : s.pid q ≠ pid → e = .step c → Moves ⟨.killHold q pid todo, .none⟩
      ⟨.kill pid todo, .none⟩ s.waitLock s.table
  | allocRun : e = .step c → Moves ⟨.allocproc [], .none⟩ ⟨.run, .none⟩ s.waitLock s.table
  | allocLock {q todo} : e = .step c → Moves ⟨.allocproc (q :: todo), .none⟩
      ⟨.allocprocHold q todo, .none⟩ s.waitLock s.table
  | alloc {q todo} : s.state q = .unused → e = .step c → Moves ⟨.allocprocHold q todo, .none⟩
      ⟨.allocprocFound q, .none⟩ s.waitLock (s.allocprocFound q).table
  | allocNext {q todo} : s.state q ≠ .unused → e = .step c → Moves ⟨.allocprocHold q todo, .none⟩
      ⟨.allocproc todo, .none⟩ s.waitLock s.table
  | create {np} : e = .step c → Moves ⟨.allocprocFound np, .none⟩ ⟨.forkCopy np, .none⟩ s.waitLock
      (s.allocprocInit np).table
  | abortFound {np} : e = .fail c → Moves ⟨.allocprocFound np, .none⟩ ⟨.run, .none⟩ s.waitLock
      (s.freeproc np).table
  | abortCopy {np} : e = .fail c → Moves ⟨.forkCopy np, .none⟩ ⟨.run, .none⟩ s.waitLock
      (s.freeproc np).table
  | copied {np} : e = .step c → Moves ⟨.forkCopy np, .none⟩ ⟨.forkWaitLock np, .none⟩ s.waitLock
      s.table
  | forkWait {np} : s.waitLock = none → e = .step c → Moves ⟨.forkWaitLock np, .none⟩
      ⟨.forkParent np, .none⟩ (some c) s.table
  | adopt {np} : e = .step c → Moves ⟨.forkParent np, .none⟩ ⟨.forkReady np, .none⟩ none
      (s.setParent np p).table
  | forkLock {np} : e = .step c → Moves ⟨.forkReady np, .none⟩ ⟨.forkSet np, .none⟩ s.waitLock
      s.table
  | ready {np} : e = .step c → Moves ⟨.forkSet np, .none⟩ ⟨.run, .none⟩ s.waitLock
      (s.setState np .runnable).table
  | waitEnter : s.waitLock = none → e = .step c → Moves ⟨.waitLock, .none⟩
      ⟨.wait procs false, .none⟩ (some c) s.table
  | waitSleep {havekids} : e = .step c → Moves ⟨.wait [] havekids, .none⟩
      ⟨.waitLock, .acquire (.sleep (.slot p) true)⟩ s.waitLock s.table
  | waitReturn {havekids} : e = .step c → Moves ⟨.wait [] havekids, .none⟩ ⟨.run, .none⟩ none
      s.table
  | waitChild {q todo havekids} : s.parent q = some p → e = .step c → Moves
      ⟨.wait (q :: todo) havekids, .none⟩ ⟨.waitHold q todo, .none⟩ s.waitLock s.table
  | waitSkip {q todo havekids} : s.parent q ≠ some p → e = .step c → Moves
      ⟨.wait (q :: todo) havekids, .none⟩ ⟨.wait todo havekids, .none⟩ s.waitLock s.table
  | waitReap {q todo} : e = .step c → s.state q = .zombie → Moves ⟨.waitHold q todo, .none⟩
      ⟨.run, .none⟩ none (s.freeproc q).table
  | waitFail {q todo} : e = .fail c → s.state q = .zombie → Moves ⟨.waitHold q todo, .none⟩
      ⟨.run, .none⟩ none s.table
  | waitNext {q todo} : s.state q ≠ .zombie → e = .step c → Moves ⟨.waitHold q todo, .none⟩
      ⟨.wait todo true, .none⟩ s.waitLock s.table
  | exitEnter : s.waitLock = none → e = .step c → Moves ⟨.exitLock, .none⟩ ⟨.reparent procs, .none⟩
      (some c) s.table
  | reparentDone : e = .step c → Moves ⟨.reparent [], .none⟩
      ⟨.wakeup ((s.parent p).map .slot) procs .exit, .none⟩ s.waitLock s.table
  | disown {q todo} : s.parent q = some p → e = .step c → Moves ⟨.reparent (q :: todo), .none⟩
      ⟨.wakeup (some (.slot init)) procs (.reparent todo), .none⟩ s.waitLock
      (s.setParent q init).table
  | reparentSkip {q todo} : s.parent q ≠ some p → e = .step c → Moves
      ⟨.reparent (q :: todo), .none⟩ ⟨.reparent todo, .none⟩ s.waitLock s.table
  | switchLock {x w} : e = .step c → Moves ⟨x, .acquire w⟩ ⟨x, .set w⟩ s.waitLock s.table
  | switchSet {x w} : e = .step c → Moves ⟨x, .set w⟩ ⟨x, .sched w⟩ (s.goOff p w).waitLock
      (s.goOff p w).table
  | switchOff {x w} : e = .step c → Moves ⟨x, .sched w⟩ ⟨x, .off w⟩ s.waitLock s.table
  | switchBack {x w} : e = .step c → Moves ⟨x, .resumed w⟩ ⟨x, .none⟩ s.waitLock
      (s.comeBack p w).table
  | callYield {x} : x.held = [] → s.waitLock ≠ some c → Moves ⟨x, .none⟩ ⟨x, .acquire .yield⟩
      s.waitLock s.table
  | callSleep {chan} : e = .call c (.sleep chan) → Moves ⟨.run, .none⟩
      ⟨.run, .acquire (.sleep chan false)⟩ s.waitLock s.table
  | callWakeup {chan} : Moves ⟨.run, .none⟩ ⟨.wakeup (some chan) procs .run, .none⟩ s.waitLock
      s.table
  | callKill {pid} : e = .call c (.kill pid) → Moves ⟨.run, .none⟩ ⟨.kill pid procs, .none⟩
      s.waitLock s.table
  | callFork : Moves ⟨.run, .none⟩ ⟨.allocproc procs, .none⟩ s.waitLock s.table
  | callWait : Moves ⟨.run, .none⟩ ⟨.waitLock, .none⟩ s.waitLock s.table
  | callExit : p ≠ init → Moves ⟨.run, .none⟩ ⟨.exitLock, .none⟩ s.waitLock s.table

inductive Sched (procs : List ι) (s : Sys ι κ) : Cpu ι → Cpu ι → Prop
  | scan {scan x} : Scans procs s scan x → Sched procs s (.choose scan) x
  | lock {p} : Sched procs s (.chosen p) (.recheck p)
  | taken {p} : s.state p ≠ .runnable → Sched procs s (.recheck p) (.unlock p)
  | back {p} : Sched procs s (.back p) (.unlock p)
  | unlock {p} : Sched procs s (.unlock p) .idle
  | again : Sched procs s .idle (.choose .testRoundRobin)

/-- Steps of the table that no thread makes: none, a wakeup by an interrupt, or a tick. -/
inductive Outside (s : Sys ι κ) (e : Event ι κ) : Table ι → Prop
  | same : Outside s e s.table
  | wake {c q chan} : e = .intr c q chan → s.state q = .sleeping → s.chan q = some chan →
      Outside s e (s.setState q .runnable).table
  | tick : e = .tick → Outside s e { s.table with ticks := s.ticks + 1 }
  | mode {m} : e = .setSched m → Outside s e { s.table with schedMode := m }

/-- Who moves in a step: nobody but a CPU inside `scheduler()`, the thread of `p`, which may
set up the thread of the slot it has allocated, or a CPU that switches to `p`. -/
inductive Control (procs : List ι) (init : ι) (s : Sys ι κ) (e : Event ι κ) (t : Sys ι κ) : Prop
  | quiet : (∀ c p, e.cpu = some c → s.cpu c ≠ .thread p) → Outside s e t.table →
      t.thread = s.thread → t.waitLock = s.waitLock →
      (∀ c p, t.cpu c = .thread p ↔ s.cpu c = .thread p) →
      (∀ c, e ≠ .step c → t.cpu c = s.cpu c) →
      (∀ c, e = .step c → Sched procs s (s.cpu c) (t.cpu c) ∧ t.table = s.table) →
      Control procs init s e t
  | move {c p} : e.cpu = some c → s.cpu c = .thread p →
      Moves procs init s e c p (s.thread p) (t.thread p) t.waitLock t.table →
      (∀ q, q ≠ p → t.thread q = s.thread q ∨
        At s c p (.allocprocFound q) ∧ t.thread q = ⟨.run, .off .forkret⟩) →
      (∀ c' q, t.cpu c' = .thread q ↔
        s.cpu c' = .thread q ∧ (c' = c → ∀ w, (t.thread p).sw ≠ .off w)) →
      (∀ c', e ≠ .step c' → t.cpu c' = s.cpu c') → (t.cpu c = .thread p ∨ t.cpu c = .back p) →
      Control procs init s e t
  | dispatch {c p} : e = .step c → s.cpu c = .recheck p → s.state p = .runnable →
      t.table = (s.setState p .running).table →
      t.thread = update s.thread p ⟨(s.thread p).task, switchIn (s.thread p).sw⟩ →
      t.waitLock = s.waitLock →
      (∀ c' q, t.cpu c' = .thread q ↔ c' = c ∧ q = p ∨ c' ≠ c ∧ s.cpu c' = .thread q) →
      (∀ c', e ≠ .step c' → t.cpu c' = s.cpu c') → Control procs init s e t

section control
variable {procs : List ι} {init : ι} {s t : Sys ι κ} {e : Event ι κ} {c : κ} {p q : ι}

variable {d u : Thread ι}

lemma Control.of_thread (ha : e.cpu = some c) (hc : s.cpu c = .thread p)
    (hs : s.thread p = d) (hm : Moves procs init s e c p d u t.waitLock t.table)
    (ht : t.thread = update s.thread p u) (hcpu : t.cpu = s.cpu)
    (hoff : ∀ w, u.sw ≠ .off w) : Control procs init s e t := by
  have hp : t.thread p = u := by rw [ht, update_self]
  refine .move ha hc (by rw [hs, hp]; exact hm) ?_ ?_ (fun _ _ => by rw [hcpu])
    (.inl (by rw [hcpu, hc]))
  · intro q hq
    exact .inl (by rw [ht, update_of_ne hq])
  · intro c' q
    rw [hcpu, hp]
    exact ⟨fun h => ⟨h, fun _ => hoff⟩, And.left⟩

variable {x : Task ι}

omit [DecidableEq ι] in
theorem At.thread_eq (h : At s c p x) : s.thread p = ⟨x, .none⟩ := by
  obtain ⟨_, hsw, hx⟩ := h
  rw [← hsw, ← hx]

variable {y : Task ι}

section
variable (ha : e.cpu = some c) (hx : At s c p x)
include ha hx

lemma Control.of_task (hm : Moves procs init s e c p ⟨x, .none⟩ ⟨y, .none⟩ t.waitLock t.table)
    (ht : t.thread = update s.thread p ⟨y, .none⟩) (hcpu : t.cpu = s.cpu) :
    Control procs init s e t :=
  .of_thread ha hx.1 hx.thread_eq hm ht hcpu (by simp)

lemma acquire_control (hm : Moves procs init s e c p ⟨x, .none⟩ ⟨y, .none⟩ s.waitLock s.table)
    (ht : (s.acquire c q).map (fun u => u.setTask p y) = some t) : Control procs init s e t := by
  unfold Sys.acquire at ht
  split at ht
  · simp only [map_some, some.injEq] at ht
    subst ht
    exact .of_task ha hx hm rfl rfl
  · simp at ht

lemma acquireWait_control
    (hm : s.waitLock = none → Moves procs init s e c p ⟨x, .none⟩ ⟨y, .none⟩ (some c) s.table)
    (ht : (s.acquireWait c).map (fun u => u.setTask p y) = some t) : Control procs init s e t := by
  unfold Sys.acquireWait at ht
  split at ht
  next hw =>
    simp only [map_some, some.injEq] at ht
    subst ht
    exact .of_task ha hx (hm hw) rfl rfl
  next => simp at ht

end

lemma wakeBody_frame (s : Sys ι κ) (q : ι) (ch : Option (Chan ι)) :
    (s.wakeBody q ch).waitLock = s.waitLock ∧ (s.wakeBody q ch).thread = s.thread ∧
      (s.wakeBody q ch).cpu = s.cpu := by
  unfold Sys.wakeBody
  split <;> exact ⟨rfl, rfl, rfl⟩

lemma killBody_frame (s : Sys ι κ) (q : ι) : (s.killBody q).waitLock = s.waitLock ∧
    (s.killBody q).thread = s.thread ∧ (s.killBody q).cpu = s.cpu := by
  unfold Sys.killBody
  split <;> exact ⟨rfl, rfl, rfl⟩

lemma taskStep_control (ha : e = .step c) (hx : At s c p x)
    (ht : taskStep procs init s c p x = some t) : Control procs init s e t := by
  have hstep := ha
  replace ha : e.cpu = some c := by rw [ha]; rfl
  cases x with
  | run => cases ht
  | wakeup ch todo after =>
    cases todo with
    | nil =>
      cases ht
      cases after with
      | run => exact .of_task ha hx (.wakeRun hstep) rfl rfl
      | reparent todo => exact .of_task ha hx (.wakeReparent hstep) rfl rfl
      | exit =>
        refine .of_thread ha hx.1 hx.thread_eq (.wakeExit hstep) ?_ rfl (by simp)
        simp [afterWakeup, Sys.setSwitch, hx.2.2]
    | cons q todo =>
      simp only [taskStep] at ht
      split at ht
      next hq =>
        cases ht
        subst hq
        exact .of_task ha hx (.wakeSkip hstep) rfl rfl
      next hq => exact acquire_control ha hx (.wakeLock hq hstep) ht
  | wakeupHold q ch todo after =>
    cases ht
    obtain ⟨hw, hth, hcpu⟩ := wakeBody_frame s q ch
    refine .of_task (y := .wakeup ch todo after) ha hx ?_ ?_ hcpu
    · have hm : Moves procs init s e c p ⟨.wakeupHold q ch todo after, .none⟩
          ⟨.wakeup ch todo after, .none⟩ s.waitLock (s.wakeBody q ch).table := .wakeBody hstep
      rwa [← hw] at hm
    · simp [Sys.setTask, Sys.release, Sys.setLock, hth]
  | kill pid todo =>
    cases todo with
    | nil =>
      cases ht
      exact .of_task ha hx (.killRun hstep) rfl rfl
    | cons q todo => exact acquire_control ha hx (.killLock hstep) ht
  | killHold q pid todo =>
    simp only [taskStep] at ht
    split at ht
    next hp =>
      cases ht
      obtain ⟨hw, hth, hcpu⟩ := killBody_frame s q
      refine .of_task (y := .run) ha hx ?_ ?_ hcpu
      · have hm : Moves procs init s e c p ⟨.killHold q pid todo, .none⟩ ⟨.run, .none⟩
            s.waitLock (s.killBody q).table := .killDone hp hstep
        rwa [← hw] at hm
      · simp [Sys.setTask, Sys.release, Sys.setLock, hth]
    next hp =>
      cases ht
      exact .of_task ha hx (.killNext hp hstep) rfl rfl
  | allocproc todo =>
    cases todo with
    | nil =>
      cases ht
      exact .of_task ha hx (.allocRun hstep) rfl rfl
    | cons q todo => exact acquire_control ha hx (.allocLock hstep) ht
  | allocprocHold q todo =>
    simp only [taskStep] at ht
    split at ht
    next hq =>
      cases ht
      exact .of_task ha hx (.alloc hq hstep) rfl rfl
    next hq =>
      cases ht
      exact .of_task ha hx (.allocNext hq hstep) rfl rfl
  | allocprocFound np =>
    cases ht
    have hp : ((s.allocprocInit np).setTask p (.forkCopy np)).thread p = ⟨.forkCopy np, .none⟩ := by
      simp [Sys.setTask]
    refine .move ha hx.1 ?_ ?_ ?_ (fun _ _ => rfl) (.inl hx.1)
    · rw [hx.thread_eq, hp]
      exact .create hstep
    · intro q hq
      by_cases hn : q = np
      · subst hn
        exact .inr ⟨hx, by simp [Sys.setTask, Sys.allocprocInit, hq]⟩
      · exact .inl (by simp [Sys.setTask, Sys.allocprocInit, hq, hn])
    · intro c' q
      rw [hp]
      exact ⟨fun h => ⟨h, fun _ => by simp⟩, And.left⟩
  | forkCopy np =>
    cases ht
    exact .of_task ha hx (.copied hstep) rfl rfl
  | forkWaitLock np => exact acquireWait_control ha hx (fun hw => .forkWait hw hstep) ht
  | forkParent np =>
    cases ht
    exact .of_task ha hx (.adopt hstep) rfl rfl
  | forkReady np => exact acquire_control ha hx (.forkLock hstep) ht
  | forkSet np =>
    cases ht
    exact .of_task ha hx (.ready hstep) rfl rfl
  | waitLock => exact acquireWait_control ha hx (fun hw => .waitEnter hw hstep) ht
  | wait todo havekids =>
    cases todo with
    | nil =>
      simp only [taskStep] at ht
      split at ht
      · cases ht
        refine .of_thread ha hx.1 hx.thread_eq (.waitSleep hstep) ?_ rfl (by simp)
        simp [Sys.setTask, Sys.setSwitch]
      · cases ht
        exact .of_task ha hx (.waitReturn hstep) rfl rfl
    | cons q todo =>
      simp only [taskStep] at ht
      split at ht
      next hq => exact acquire_control ha hx (.waitChild hq hstep) ht
      next hq =>
        cases ht
        exact .of_task ha hx (.waitSkip hq hstep) rfl rfl
  | waitHold q todo =>
    simp only [taskStep] at ht
    split at ht
    next hq =>
      cases ht
      exact .of_task ha hx (.waitReap hstep hq) rfl rfl
    next hq =>
      cases ht
      exact .of_task ha hx (.waitNext hq hstep) rfl rfl
  | exitLock => exact acquireWait_control ha hx (fun hw => .exitEnter hw hstep) ht
  | reparent todo =>
    cases todo with
    | nil =>
      cases ht
      exact .of_task ha hx (.reparentDone hstep) rfl rfl
    | cons q todo =>
      simp only [taskStep] at ht
      split at ht
      next hq =>
        cases ht
        exact .of_task ha hx (.disown hq hstep) rfl rfl
      next hq =>
        cases ht
        exact .of_task ha hx (.reparentSkip hq hstep) rfl rfl

omit [DecidableEq ι] in
lemma thread_of_sw {w : Switch ι} (h : (s.thread p).sw = w) :
    s.thread p = ⟨(s.thread p).task, w⟩ := by
  rw [← h]

lemma threadStep_control [DecidableEq κ] (hstep : e = .step c) (hc : s.cpu c = .thread p)
    (ht : threadStep procs init s c p = some t) : Control procs init s e t := by
  have ha : e.cpu = some c := by rw [hstep]; rfl
  unfold threadStep at ht
  split at ht
  next hsw => exact taskStep_control hstep ⟨hc, hsw, rfl⟩ ht
  next w hsw =>
    unfold Sys.acquire at ht
    split at ht
    · simp only [map_some, some.injEq] at ht
      subst ht
      exact .of_thread ha hc (thread_of_sw hsw) (.switchLock hstep) rfl rfl (by simp)
    · simp at ht
  next w hsw =>
    cases ht
    have hf : (s.goOff p w).thread = s.thread ∧ (s.goOff p w).cpu = s.cpu := by
      cases w with
      | sleep ch lk => cases lk <;> exact ⟨rfl, rfl⟩
      | _ => exact ⟨rfl, rfl⟩
    refine .of_thread ha hc (thread_of_sw hsw) (.switchSet hstep) ?_ hf.2 (by simp)
    simp [Sys.setSwitch, hf.1]
  next w hsw =>
    cases ht
    refine .move ha hc ?_ ?_ ?_ ?_ (.inr (by simp [Sys.setCpu]))
    · rw [thread_of_sw hsw]
      have hp : (((s.setSwitch p (.off w)).setCpu c (.back p)).thread p) =
          ⟨(s.thread p).task, .off w⟩ := by simp [Sys.setSwitch, Sys.setCpu]
      rw [hp]
      exact .switchOff hstep
    · intro q hq
      exact .inl (by simp [Sys.setSwitch, Sys.setCpu, hq])
    · intro c' q
      by_cases hcc : c' = c
      · subst hcc
        simp [Sys.setSwitch, Sys.setCpu]
      · simp [Sys.setSwitch, Sys.setCpu, hcc]
    · intro c' hne
      have hcc : c' ≠ c := fun h => hne (h ▸ hstep)
      simp [Sys.setSwitch, Sys.setCpu, hcc]
  next => cases ht
  next w hsw =>
    cases ht
    have hf : (s.comeBack p w).thread = s.thread ∧ (s.comeBack p w).cpu = s.cpu ∧
        (s.comeBack p w).waitLock = s.waitLock := by
      cases w <;> exact ⟨rfl, rfl, rfl⟩
    refine .of_thread (u := ⟨(s.thread p).task, .none⟩) ha hc (thread_of_sw hsw) ?_ ?_ hf.2.1
      (by simp)
    · have hm : Moves procs init s e c p ⟨(s.thread p).task, .resumed w⟩
          ⟨(s.thread p).task, .none⟩ s.waitLock (s.comeBack p w).table := .switchBack hstep
      rwa [← hf.2.2] at hm
    · simp [Sys.setSwitch, Sys.release, Sys.setLock, hf.1]

omit [DecidableEq ι] in
lemma Sched.no_thread {x y : Cpu ι} (h : Sched procs s x y) (p : ι) :
    x ≠ .thread p ∧ y ≠ .thread p := by
  cases h with
  | scan h => cases h <;> simp
  | _ => simp

lemma Control.of_sched [DecidableEq κ] {x : Cpu ι} (he : e = .step c)
    (hx : Sched procs s (s.cpu c) x) (hT : t.table = s.table) (ht : t.thread = s.thread)
    (hw : t.waitLock = s.waitLock) (hcpu : t.cpu = update s.cpu c x) :
    Control procs init s e t := by
  refine .quiet ?_ (hT ▸ .same) ht hw ?_ ?_ ?_
  · rw [he]
    rintro _ p ⟨⟩
    exact (hx.no_thread p).1
  · intro c' p
    by_cases hcc : c' = c
    · subst hcc
      rw [hcpu, update_self]
      exact ⟨fun h => absurd h (hx.no_thread p).2, fun h => absurd h (hx.no_thread p).1⟩
    · rw [hcpu, update_of_ne hcc]
  · intro c' hne
    have hcc : c' ≠ c := fun h => hne (h ▸ he)
    rw [hcpu, update_of_ne hcc]
  · rw [he]
    rintro _ ⟨⟩
    rw [hcpu, update_self]
    exact ⟨hx, hT⟩

lemma acquire_sched [DecidableEq κ] {x : Cpu ι} (he : e = .step c)
    (hx : Sched procs s (s.cpu c) x)
    (ht : (s.acquire c q).map (fun u => u.setCpu c x) = some t) : Control procs init s e t := by
  unfold Sys.acquire at ht
  split at ht
  · simp only [map_some, some.injEq] at ht
    subst ht
    exact .of_sched he hx rfl rfl rfl rfl
  · simp at ht

lemma chooseStep_control [DecidableEq κ] {scan : Scan ι} (he : e = .step c)
    (hc : s.cpu c = .choose scan) (ht : chooseStep procs s c scan = some t) :
    Control procs init s e t := by
  have h := chooseStep_scan ht
  exact .of_sched he (hc ▸ .scan h.scans) h.table h.thread h.waitLock h.cpu

lemma cpuStep_control [DecidableEq κ] (hstep : e = .step c)
    (ht : cpuStep procs init s c = some t) : Control procs init s e t := by
  unfold cpuStep at ht
  split at ht
  next scan hc => exact chooseStep_control hstep hc ht
  next p hc => exact acquire_sched hstep (hc ▸ .lock) ht
  next p hc =>
    split at ht
    next hr =>
      cases ht
      refine .dispatch hstep hc hr rfl rfl rfl ?_ ?_
      · intro c' q
        by_cases hcc : c' = c
        · subst hcc
          simp [Sys.setCpu, Sys.setSwitch, Sys.setProc, Sys.setState, eq_comm]
        · simp [Sys.setCpu, Sys.setSwitch, Sys.setProc, Sys.setState, hcc]
      · intro c' hne
        have hcc : c' ≠ c := fun h => hne (h ▸ hstep)
        simp [Sys.setCpu, Sys.setSwitch, Sys.setProc, Sys.setState, hcc]
    next hr =>
      cases ht
      exact .of_sched hstep (hc ▸ .taken hr) rfl rfl rfl rfl
  next p hc => exact threadStep_control hstep hc ht
  next p hc => cases ht; exact .of_sched hstep (hc ▸ .back) rfl rfl rfl rfl
  next p hc => cases ht; exact .of_sched hstep (hc ▸ .unlock) rfl rfl rfl rfl
  next hc => cases ht; exact .of_sched hstep (hc ▸ .again) rfl rfl rfl rfl

lemma callStep_control {f : Call ι} (hc : s.cpu c = .thread p) (he : e = .call c f)
    [DecidableEq κ] (hm : mayCall s c (s.thread p) f = true)
    (ht : callStep procs init s p f = some t) : Control procs init s e t := by
  have ha : e.cpu = some c := by rw [he]; rfl
  have hcall : ∀ g, f = g → g ≠ .yield → At s c p .run := by
    rintro g rfl hg
    cases f with
    | yield => exact absurd rfl hg
    | _ =>
      simp only [mayCall, decide_eq_true_eq] at hm
      exact ⟨hc, hm.1, hm.2⟩
  cases f with
  | yield =>
    cases ht
    simp only [mayCall, decide_eq_true_eq] at hm
    refine .of_thread ha hc (thread_of_sw hm.1) (.callYield hm.2.1 hm.2.2) rfl rfl (by simp)
  | sleep chan =>
    cases ht
    have hx := hcall _ rfl (by simp)
    refine .of_thread ha hc hx.thread_eq (.callSleep he) ?_ rfl (by simp)
    simp [Sys.setSwitch, hx.2.2]
  | wakeup chan => cases ht; exact .of_task ha (hcall _ rfl (by simp)) .callWakeup rfl rfl
  | kill pid => cases ht; exact .of_task ha (hcall _ rfl (by simp)) (.callKill he) rfl rfl
  | fork => cases ht; exact .of_task ha (hcall _ rfl (by simp)) .callFork rfl rfl
  | wait => cases ht; exact .of_task ha (hcall _ rfl (by simp)) .callWait rfl rfl
  | exit =>
    simp only [callStep] at ht
    split at ht
    next => cases ht
    next hp => cases ht; exact .of_task ha (hcall _ rfl (by simp)) (.callExit hp) rfl rfl

theorem next_control [DecidableEq κ] (ht : next procs init s e = some t) :
    Control procs init s e t := by
  cases e with
  | step c => exact cpuStep_control rfl ht
  | call c f =>
    simp only [next] at ht
    split at ht
    next p hc =>
      split at ht
      next hm => exact callStep_control hc rfl hm ht
      next => cases ht
    next => cases ht
  | fail c =>
    simp only [next] at ht
    split at ht
    next p hc =>
      split at ht
      next np hsw hx =>
        cases ht
        exact .of_task rfl ⟨hc, hsw, hx⟩ (.abortFound rfl) rfl rfl
      next np hsw hx =>
        cases ht
        exact .of_task rfl ⟨hc, hsw, hx⟩ (.abortCopy rfl) rfl rfl
      next q todo hsw hx =>
        split at ht
        next hz =>
          cases ht
          exact .of_task rfl ⟨hc, hsw, hx⟩ (.waitFail rfl hz) rfl rfl
        next => cases ht
      next => cases ht
    next => cases ht
  | intr c q chan =>
    simp only [next] at ht
    split at ht
    · cases ht
      obtain ⟨hw, hth, hcpu⟩ := wakeBody_frame s q (some chan)
      refine .quiet (by simp [Event.cpu]) ?_ hth hw (fun _ _ => by rw [hcpu])
        (fun _ _ => by rw [hcpu]) (by simp)
      unfold Sys.wakeBody
      split
      next h => exact .wake rfl h.1 h.2
      next => exact .same
    · cases ht
  | tick => cases ht; exact .quiet (by simp [Event.cpu]) (.tick rfl) rfl rfl (fun _ _ => Iff.rfl) (fun _ _ => rfl) (by simp)
  | setSched mode => cases ht; exact .quiet (by simp [Event.cpu]) (.mode rfl) rfl rfl (fun _ _ => Iff.rfl) (fun _ _ => rfl) (by simp)

omit [DecidableEq ι] in
theorem at_of_thread (hc : s.cpu c = .thread p) (hd : s.thread p = d)
    (hx : d = ⟨x, .none⟩) : At s c p x := by
  rw [hx] at hd
  exact ⟨hc, by rw [hd], by rw [hd]⟩

variable {T : Table ι}

theorem Moves.effect {w : Option κ} (hc : s.cpu c = .thread p)
    (hd : s.thread p = d) (h : Moves procs init s e c p d u w T) : Effect init s (some c) T := by
  cases h with
  | wakeBody => exact wakeBody_effect _ _
  | killDone hp => exact .kill (at_of_thread hc hd rfl) hp
  | alloc hq => exact .alloc (at_of_thread hc hd rfl) hq
  | create _ => exact .create (at_of_thread hc hd rfl)
  | abortFound => exact .abort (.inl (at_of_thread hc hd rfl))
  | abortCopy => exact .abort (.inr (at_of_thread hc hd rfl))
  | adopt => exact .adopt (at_of_thread hc hd rfl)
  | ready => exact .ready (at_of_thread hc hd rfl)
  | waitReap _ hq => exact .reap (at_of_thread hc hd rfl) hq
  | disown hq => exact .disown (at_of_thread hc hd rfl) hq
  | switchSet => exact .off hc (by rw [hd])
  | switchBack => exact .back hc (by rw [hd])
  | _ => exact .same

lemma Outside.effect (h : Outside s e T) (a : Option κ) : Effect init s a T := by
  cases h with
  | same => exact .same
  | wake _ hq _ => exact .wake _ hq
  | tick _ => exact .tick
  | mode _ => exact .mode _

theorem Control.effect (h : Control procs init s e t) : Effect init s e.cpu t.table := by
  cases h with
  | quiet _ ho _ _ _ _ => exact ho.effect _
  | move ha hc hm _ _ =>
    rw [ha]
    exact hm.effect hc rfl
  | dispatch ha hc hr hT _ _ _ =>
    rw [ha, hT]
    exact .run hc hr

theorem next_effect [DecidableEq κ] (ht : next procs init s e = some t) :
    Effect init s e.cpu t.table := (next_control ht).effect

section
variable (h : Control procs init s e t)
include h

/-- What a step makes of the thread of `r`: it keeps its place while somebody else acts, or
is dispatched there, is set up anew, or moves. -/
theorem Control.thread_cases (r : ι) :
    ((t.thread r = s.thread r ∨
      s.state r = .runnable ∧ t.thread r = ⟨(s.thread r).task, switchIn (s.thread r).sw⟩) ∧
      ∃ a, Effect init s a t.table ∧ ∀ c, a = some c → s.cpu c ≠ .thread r) ∨
    (∃ c p, e.cpu = some c ∧ At s c p (.allocprocFound r) ∧ t.thread r = ⟨.run, .off .forkret⟩) ∨
    ∃ c, e.cpu = some c ∧ s.cpu c = .thread r ∧
      Moves procs init s e c r (s.thread r) (t.thread r) t.waitLock t.table := by
  have he := h.effect
  cases h with
  | quiet _ ho hth _ _ => exact .inl ⟨.inl (by rw [hth]), none, ho.effect _, by simp⟩
  | @dispatch c p ha hc hrun _ hth _ _ =>
    refine .inl ⟨?_, e.cpu, he, ?_⟩
    · by_cases hr : r = p
      · subst hr
        exact .inr ⟨hrun, by rw [hth, update_self]⟩
      · exact .inl (by rw [hth, update_of_ne hr])
    · rw [ha]
      rintro _ ⟨⟩
      simp [hc]
  | @move c p ha hc hm hother _ =>
    by_cases hr : r = p
    · subst hr
      exact .inr (.inr ⟨c, ha, hc, hm⟩)
    · rcases hother r hr with hth | ⟨hat, hth⟩
      · refine .inl ⟨.inl hth, e.cpu, he, ?_⟩
        rw [ha]
        rintro _ ⟨⟩
        simpa [hc] using Ne.symm hr
      · exact .inr (.inl ⟨c, p, ha, hat, hth⟩)

/-- A thread on a CPU moves if that CPU executes, and stays where it is otherwise. -/
theorem Control.on_cpu (hI : Inv s) (hc : s.cpu c = .thread r) :
    e.cpu ≠ some c ∧ t.cpu c = .thread r ∧ t.thread r = s.thread r ∨
    e.cpu = some c ∧ Moves procs init s e c r (s.thread r) (t.thread r) t.waitLock t.table ∧
      ((∀ w, (t.thread r).sw ≠ .off w) → t.cpu c = .thread r) := by
  cases h with
  | quiet hno _ hth _ hcpu =>
    exact .inl ⟨fun ha => hno c r ha hc, (hcpu c r).mpr hc, by rw [hth]⟩
  | @dispatch c' p ha hc' hrun _ hth _ hcpu =>
    have hcc : c ≠ c' := by
      rintro rfl
      rw [hc] at hc'
      cases hc'
    have hrp : r ≠ p := by
      rintro rfl
      exact hI.off_of_recheck hc' hrun c hc
    refine .inl ⟨?_, (hcpu c r).mpr (.inr ⟨hcc, hc⟩), by rw [hth, update_of_ne hrp]⟩
    rw [ha]
    exact fun he => hcc (some.inj he).symm
  | @move c' p ha hc' hm hother hcpu =>
    by_cases hcc : c = c'
    · subst hcc
      rw [hc] at hc'
      cases hc'
      exact .inr ⟨ha, hm, fun hoff => (hcpu c r).mpr ⟨hc, fun _ => hoff⟩⟩
    · have hrp : r ≠ p := by
        rintro rfl
        exact hcc (hI.table.unique c c' r (.inl hc) (.inl hc'))
      refine .inl ⟨?_, (hcpu c r).mpr ⟨hc, fun h => absurd h hcc⟩, ?_⟩
      · rw [ha]
        exact fun he => hcc (some.inj he).symm
      · rcases hother r hrp with hth | ⟨hat, _⟩
        · exact hth
        · exact absurd (hat.child_used hI rfl) (hI.thread_used hc).2

theorem Control.cpu_eq (hc : e ≠ .step c) : t.cpu c = s.cpu c := by
  cases h with
  | quiet _ _ _ _ _ hcpu _ => exact hcpu c hc
  | move _ _ _ _ _ hcpu _ => exact hcpu c hc
  | dispatch _ _ _ _ _ _ _ hcpu => exact hcpu c hc

theorem Control.cpu_thread (hc : s.cpu c = .thread p) :
    t.cpu c = .thread p ∨ t.cpu c = .back p := by
  cases h with
  | quiet _ _ _ _ hcpu _ => exact .inl ((hcpu c p).mpr hc)
  | @move c' p' ha hc' hm hother hcpu hframe hback =>
    by_cases hcc : c = c'
    · subst hcc
      cases hc.symm.trans hc'
      exact hback
    · exact .inl ((hcpu c p).mpr ⟨hc, fun h => absurd h hcc⟩)
  | @dispatch c' p' he hc' hr _ _ _ hcpu _ =>
    have hcc : c ≠ c' := by
      rintro rfl
      rw [hc] at hc'
      cases hc'
    exact .inl ((hcpu c p).mpr (.inr ⟨hcc, hc⟩))

theorem Control.task_of_moves {P : Task ι → Prop} (hrun : P .run)
    (hm : ∀ c r d u w T, Moves procs init s e c r d u w T → P d.task → P u.task)
    (hs : ∀ r, P (s.thread r).task) (r : ι) : P (t.thread r).task := by
  rcases h.thread_cases r with ⟨hth | ⟨_, hth⟩, _⟩ | ⟨_, _, _, _, hth⟩ | ⟨c, _, _, hmove⟩
  · rw [hth]
    exact hs r
  · rw [hth]
    exact hs r
  · rw [hth]
    exact hrun
  · exact hm c r _ _ _ _ hmove (hs r)

end

lemma Moves.globals {w : Option κ}
    (hm : Moves procs init s e c p d u w T) :
    T.ticks = s.ticks ∧ T.schedMode = s.schedMode := by
  cases hm with
  | wakeBody _ =>
    unfold Sys.wakeBody
    split <;> exact ⟨rfl, rfl⟩
  | killDone _ _ =>
    unfold Sys.killBody
    split <;> exact ⟨rfl, rfl⟩
  | @switchSet _ w _ =>
    cases w with
    | sleep ch lk => cases lk <;> exact ⟨rfl, rfl⟩
    | _ => exact ⟨rfl, rfl⟩
  | @switchBack _ w _ => cases w <;> exact ⟨rfl, rfl⟩
  | _ => exact ⟨rfl, rfl⟩

theorem next_mode [DecidableEq κ] (ht : next procs init s e = some t)
    (he : ∀ m, e ≠ .setSched m) : t.schedMode = s.schedMode := by
  cases next_control ht with
  | quiet _ ho _ _ _ _ _ =>
    change t.table.schedMode = s.schedMode
    generalize t.table = T at ho
    cases ho with
    | mode hm => exact absurd hm (he _)
    | _ => rfl
  | move _ _ hm _ _ _ _ => exact hm.globals.2
  | dispatch _ _ _ hT _ _ _ _ => exact congrArg Table.schedMode hT

theorem next_ticks [DecidableEq κ] (ht : next procs init s e = some t) (he : e ≠ .tick) :
    t.ticks = s.ticks := by
  cases next_control ht with
  | quiet _ ho _ _ _ _ _ =>
    change t.table.ticks = s.ticks
    generalize t.table = T at ho
    cases ho with
    | tick hk => exact absurd hk he
    | _ => rfl
  | move _ _ hm _ _ _ _ => exact hm.globals.1
  | dispatch _ _ _ hT _ _ _ _ => exact congrArg Table.ticks hT

end control

end Xv6.Scheduler
