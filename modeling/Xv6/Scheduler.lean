import Xv6.Basic
import Xv6.Transition

/-! The process table of `proc.c` under any number of CPUs. Every CPU runs either its own
`scheduler()` or the kernel thread of one process. One step is the code between two
operations on a lock, and a lock belongs to the CPU that holds it, so it passes across
`swtch` with the CPU. -/
namespace Xv6.Scheduler

open Function

inductive Mode
  | roundRobin
  | fcfs
  | priority
  deriving DecidableEq, Repr

section
variable (ι : Type*)

/-- What a process may sleep on: a process (as `wait` does) or anything else. -/
inductive Chan
  | slot (p : ι)
  | other (n : ℕ)
  deriving DecidableEq, Repr

/-- Why a thread is switched out. `sleep` carries whether its `lk` is `wait_lock`; a new
child is set up as if it had called `sched()` from `forkret`. -/
inductive Why
  | yield
  | sleep (chan : Chan ι) (lkIsWaitLock : Bool)
  | exit
  | forkret
  deriving DecidableEq, Repr

/-- Inside `choose_next_process`; `todo` are the slots still to be inspected. -/
inductive Scan
  | testRoundRobin
  | testFcfs
  | testPriority
  | rr (todo : List ι)
  | fcfs (todo : List ι) (minProc : Option ι)
  | fcfsHold (p : ι) (todo : List ι) (minProc : Option ι)
  | stepA (todo : List ι) (maxPrio : ℤ)
  | stepAHold (p : ι) (todo : List ι) (maxPrio : ℤ)
  | stepB (todo : List ι) (maxPrio : ℤ)
  | stepBHold (p : ι) (todo : List ι) (maxPrio : ℤ)
  deriving DecidableEq, Repr

inductive Cpu
  | choose (scan : Scan ι)
  | chosen (p : ι)
  | recheck (p : ι)
  | thread (p : ι)
  | back (p : ι)
  | unlock (p : ι)
  | idle
  deriving DecidableEq, Repr

inductive After
  | run
  | reparent (todo : List ι)
  | exit
  deriving DecidableEq, Repr

inductive Task
  | run
  | wakeup (chan : Option (Chan ι)) (todo : List ι) (after : After ι)
  | wakeupHold (q : ι) (chan : Option (Chan ι)) (todo : List ι) (after : After ι)
  | kill (pid : ℤ) (todo : List ι)
  | killHold (q : ι) (pid : ℤ) (todo : List ι)
  | allocproc (todo : List ι)
  | allocprocHold (q : ι) (todo : List ι)
  | allocprocFound (np : ι)
  | forkCopy (np : ι)
  | forkWaitLock (np : ι)
  | forkParent (np : ι)
  | forkReady (np : ι)
  | forkSet (np : ι)
  | waitLock
  | wait (todo : List ι) (havekids : Bool)
  | waitHold (q : ι) (todo : List ι)
  | exitLock
  | reparent (todo : List ι)
  deriving DecidableEq, Repr

/-- The way of a thread through `yield`, `sleep` or `exit` to `sched()` and back. -/
inductive Switch
  | none
  | acquire (why : Why ι)
  | set (why : Why ι)
  | sched (why : Why ι)
  | off (why : Why ι)
  | resumed (why : Why ι)
  deriving DecidableEq, Repr

structure Thread where
  task : Task ι
  sw : Switch ι
  deriving DecidableEq, Repr

end

structure Sys (ι κ : Type*) where
  state : ι → ProcState
  chan : ι → Option (Chan ι)
  killed : ι → Bool
  pid : ι → ℤ
  parent : ι → Option ι
  priority : ι → ℤ
  creationTime : ι → ℕ
  lock : ι → Option κ
  waitLock : Option κ
  thread : ι → Thread ι
  cpu : κ → Cpu ι
  proc : κ → Option ι
  schedMode : Mode
  ticks : ℕ
  nextpid : ℤ

/-- Calls a kernel thread makes; `yield` is also what the timer interrupt does. -/
inductive Call (ι : Type*)
  | yield
  | sleep (chan : Chan ι)
  | wakeup (chan : Chan ι)
  | kill (pid : ℤ)
  | fork
  | wait
  | exit
  deriving DecidableEq, Repr

/-- `step` is the next piece of code of a CPU, `fail` the same with a failing allocation
in `fork` or a failing `copyout` in `wait`, and `intr` one slot of a `wakeup` made by an
interrupt handler. -/
inductive Event (ι κ : Type*)
  | step (c : κ)
  | call (c : κ) (f : Call ι)
  | fail (c : κ)
  | intr (c : κ) (q : ι) (chan : Chan ι)
  | tick
  | setSched (mode : Mode)
  deriving DecidableEq, Repr

variable {ι κ : Type*}

def Cpu.held : Cpu ι → List ι
  | .choose (.fcfs _ minProc) => minProc.toList
  | .choose (.fcfsHold p _ minProc) => p :: minProc.toList
  | .choose (.stepAHold p _ _) | .choose (.stepBHold p _ _) => [p]
  | .recheck p | .back p | .unlock p => [p]
  | _ => []

def Task.held : Task ι → List ι
  | .wakeupHold q _ _ _ | .killHold q _ _ | .allocprocHold q _ | .waitHold q _ => [q]
  | .allocprocFound np | .forkCopy np | .forkSet np => [np]
  | _ => []

def Thread.held (p : ι) (t : Thread ι) : List ι :=
  match t.sw with
  | .set _ | .sched _ | .resumed _ => [p]
  | .none => t.task.held
  | _ => []

def held (s : Sys ι κ) (c : κ) : List ι :=
  match s.cpu c with
  | .thread p => (s.thread p).held p
  | x => x.held

def Why.state : Why ι → ProcState
  | .yield | .forkret => .runnable
  | .sleep _ _ => .sleeping
  | .exit => .zombie

def switchIn : Switch ι → Switch ι
  | .off w => .resumed w
  | x => x

variable [DecidableEq ι] [DecidableEq κ]

section
variable (s : Sys ι κ)

def Sys.setState (p : ι) (x : ProcState) : Sys ι κ :=
  { s with state := update s.state p x }

def Sys.setLock (p : ι) (x : Option κ) : Sys ι κ :=
  { s with lock := update s.lock p x }

def Sys.setCpu (c : κ) (x : Cpu ι) : Sys ι κ :=
  { s with cpu := update s.cpu c x }

def Sys.setProc (c : κ) (x : Option ι) : Sys ι κ :=
  { s with proc := update s.proc c x }

def Sys.setTask (p : ι) (x : Task ι) : Sys ι κ :=
  { s with thread := update s.thread p ⟨x, .none⟩ }

def Sys.setSwitch (p : ι) (x : Switch ι) : Sys ι κ :=
  { s with thread := update s.thread p ⟨(s.thread p).task, x⟩ }

def Sys.acquire (c : κ) (p : ι) : Option (Sys ι κ) :=
  if s.lock p = none then some (s.setLock p (some c)) else none

def Sys.release (p : ι) : Sys ι κ := s.setLock p none

def Sys.acquireWait (c : κ) : Option (Sys ι κ) :=
  if s.waitLock = none then some { s with waitLock := some c } else none

def Sys.releaseWait : Sys ι κ := { s with waitLock := none }

def Sys.wakeBody (q : ι) (chan : Option (Chan ι)) : Sys ι κ :=
  if s.state q = .sleeping ∧ s.chan q = chan then s.setState q .runnable else s

def Sys.killBody (q : ι) : Sys ι κ :=
  let t := { s with killed := update s.killed q true }
  if s.state q = .sleeping then t.setState q .runnable else t

def Sys.freeproc (p : ι) : Sys ι κ :=
  { s with
    state := update s.state p .unused
    chan := update s.chan p none
    killed := update s.killed p false
    pid := update s.pid p 0
    parent := update s.parent p none
    creationTime := update s.creationTime p s.ticks }

def Sys.allocprocFound (p : ι) : Sys ι κ :=
  { s with
    state := update s.state p .used
    pid := update s.pid p s.nextpid
    nextpid := s.nextpid + 1 }

def Sys.allocprocInit (p : ι) : Sys ι κ :=
  { s with
    creationTime := update s.creationTime p s.ticks
    priority := update s.priority p (if s.pid p % 2 ≠ 0 then 10 else 5)
    thread := update s.thread p ⟨.run, .off .forkret⟩ }

def Sys.setParent (q p : ι) : Sys ι κ :=
  { s with parent := update s.parent q (some p) }

/-- What a thread does to its own entry before `sched()`, holding its lock. -/
def Sys.goOff (p : ι) : Why ι → Sys ι κ
  | .sleep ch lkIsWaitLock =>
      let t := { s with chan := update s.chan p (some ch) }.setState p .sleeping
      if lkIsWaitLock then t.releaseWait else t
  | .exit => (s.setState p .zombie).releaseWait
  | w => s.setState p w.state

/-- What a thread does to its own entry when `sched()` returns, before it releases its lock. -/
def Sys.comeBack (p : ι) : Why ι → Sys ι κ
  | .sleep _ _ => { s with chan := update s.chan p none }
  | _ => s

end

def chooseStep (procs : List ι) (s : Sys ι κ) (c : κ) : Scan ι → Option (Sys ι κ)
  | .testRoundRobin => some (s.setCpu c (.choose
      (if s.schedMode = .roundRobin then .rr procs else .testFcfs)))
  | .testFcfs => some (s.setCpu c (.choose
      (if s.schedMode = .fcfs then .fcfs procs none else .testPriority)))
  | .testPriority => some (s.setCpu c
      (if s.schedMode = .priority then .choose (.stepA procs (-1)) else .idle))
  | .rr [] => some (s.setCpu c .idle)
  | .rr (p :: todo) => some (s.setCpu c
      (if s.state p = .runnable then .chosen p else .choose (.rr todo)))
  | .fcfs [] none => some (s.setCpu c .idle)
  | .fcfs [] (some m) => some ((s.release m).setCpu c (.chosen m))
  | .fcfs (p :: todo) minProc =>
      (s.acquire c p).map fun t => t.setCpu c (.choose (.fcfsHold p todo minProc))
  | .fcfsHold p todo none =>
      if s.state p = .runnable then some (s.setCpu c (.choose (.fcfs todo (some p))))
      else some ((s.release p).setCpu c (.choose (.fcfs todo none)))
  | .fcfsHold p todo (some m) =>
      if s.state p = .runnable ∧ s.creationTime p < s.creationTime m then
        some ((s.release m).setCpu c (.choose (.fcfs todo (some p))))
      else some ((s.release p).setCpu c (.choose (.fcfs todo (some m))))
  | .stepA [] maxPrio => some (s.setCpu c
      (if maxPrio = -1 then .idle else .choose (.stepB procs maxPrio)))
  | .stepA (p :: todo) maxPrio =>
      (s.acquire c p).map fun t => t.setCpu c (.choose (.stepAHold p todo maxPrio))
  | .stepAHold p todo maxPrio =>
      some ((s.release p).setCpu c (.choose (.stepA todo
        (if s.state p = .runnable ∧ s.priority p > maxPrio then s.priority p else maxPrio))))
  | .stepB [] _ => some (s.setCpu c .idle)
  | .stepB (p :: todo) maxPrio =>
      (s.acquire c p).map fun t => t.setCpu c (.choose (.stepBHold p todo maxPrio))
  | .stepBHold p todo maxPrio =>
      some ((s.release p).setCpu c
        (if s.state p = .runnable ∧ s.priority p = maxPrio then .chosen p
        else .choose (.stepB todo maxPrio)))

def afterWakeup (s : Sys ι κ) (p : ι) : After ι → Sys ι κ
  | .run => s.setTask p .run
  | .reparent todo => s.setTask p (.reparent todo)
  | .exit => s.setSwitch p (.acquire .exit)

section
variable (procs : List ι) (init : ι) (s : Sys ι κ)

def taskStep (c : κ) (p : ι) : Task ι → Option (Sys ι κ)
  | .run => none
  | .wakeup _ [] after => some (afterWakeup s p after)
  | .wakeup ch (q :: todo) after =>
      if q = p then some (s.setTask p (.wakeup ch todo after))
      else (s.acquire c q).map fun t => t.setTask p (.wakeupHold q ch todo after)
  | .wakeupHold q ch todo after =>
      some (((s.wakeBody q ch).release q).setTask p (.wakeup ch todo after))
  | .kill _ [] => some (s.setTask p .run)
  | .kill pid (q :: todo) => (s.acquire c q).map fun t => t.setTask p (.killHold q pid todo)
  | .killHold q pid todo =>
      if s.pid q = pid then some (((s.killBody q).release q).setTask p .run)
      else some ((s.release q).setTask p (.kill pid todo))
  | .allocproc [] => some (s.setTask p .run)
  | .allocproc (q :: todo) => (s.acquire c q).map fun t => t.setTask p (.allocprocHold q todo)
  | .allocprocHold q todo =>
      if s.state q = .unused then some ((s.allocprocFound q).setTask p (.allocprocFound q))
      else some ((s.release q).setTask p (.allocproc todo))
  | .allocprocFound np => some ((s.allocprocInit np).setTask p (.forkCopy np))
  | .forkCopy np => some ((s.release np).setTask p (.forkWaitLock np))
  | .forkWaitLock np => (s.acquireWait c).map fun t => t.setTask p (.forkParent np)
  | .forkParent np => some ((s.setParent np p).releaseWait.setTask p (.forkReady np))
  | .forkReady np => (s.acquire c np).map fun t => t.setTask p (.forkSet np)
  | .forkSet np => some (((s.setState np .runnable).release np).setTask p .run)
  | .waitLock => (s.acquireWait c).map fun t => t.setTask p (.wait procs false)
  | .wait [] havekids =>
      if havekids ∧ s.killed p = false then
        some ((s.setTask p .waitLock).setSwitch p (.acquire (.sleep (.slot p) true)))
      else some (s.releaseWait.setTask p .run)
  | .wait (q :: todo) havekids =>
      if s.parent q = some p then (s.acquire c q).map fun t => t.setTask p (.waitHold q todo)
      else some (s.setTask p (.wait todo havekids))
  | .waitHold q todo =>
      if s.state q = .zombie then
        some (((s.freeproc q).release q).releaseWait.setTask p .run)
      else some ((s.release q).setTask p (.wait todo true))
  | .exitLock => (s.acquireWait c).map fun t => t.setTask p (.reparent procs)
  | .reparent [] => some (s.setTask p (.wakeup ((s.parent p).map .slot) procs .exit))
  | .reparent (q :: todo) =>
      if s.parent q = some p then
        some ((s.setParent q init).setTask p
          (.wakeup (some (.slot init)) procs (.reparent todo)))
      else some (s.setTask p (.reparent todo))

def threadStep (c : κ) (p : ι) : Option (Sys ι κ) :=
  match (s.thread p).sw with
  | .none => taskStep procs init s c p (s.thread p).task
  | .acquire w => (s.acquire c p).map fun t => t.setSwitch p (.set w)
  | .set w => some ((s.goOff p w).setSwitch p (.sched w))
  | .sched w => some ((s.setSwitch p (.off w)).setCpu c (.back p))
  | .off _ => none
  | .resumed w => some (((s.comeBack p w).release p).setSwitch p .none)

/-- The next step of CPU `c`: the loop of `scheduler()`, or the thread it switched to. -/
def cpuStep (c : κ) : Option (Sys ι κ) :=
  match s.cpu c with
  | .choose scan => chooseStep procs s c scan
  | .chosen p => (s.acquire c p).map fun t => t.setCpu c (.recheck p)
  | .recheck p =>
      if s.state p = .runnable then
        some ((((s.setState p .running).setProc c (some p)).setSwitch p
          (switchIn (s.thread p).sw)).setCpu c (.thread p))
      else some (s.setCpu c (.unlock p))
  | .thread p => threadStep procs init s c p
  | .back p => some ((s.setProc c none).setCpu c (.unlock p))
  | .unlock p => some ((s.release p).setCpu c .idle)
  | .idle => some (s.setCpu c (.choose .testRoundRobin))

def callStep (p : ι) : Call ι → Option (Sys ι κ)
  | .yield => some (s.setSwitch p (.acquire .yield))
  | .sleep chan => some (s.setSwitch p (.acquire (.sleep chan false)))
  | .wakeup chan => some (s.setTask p (.wakeup (some chan) procs .run))
  | .kill pid => some (s.setTask p (.kill pid procs))
  | .fork => some (s.setTask p (.allocproc procs))
  | .wait => some (s.setTask p .waitLock)
  | .exit => if p = init then none else some (s.setTask p .exitLock)

end

/-- Interrupts are off while a CPU holds a lock, so the timer preempts only code that
holds none. -/
def mayCall (s : Sys ι κ) (c : κ) (t : Thread ι) : Call ι → Bool
  | .yield => t.sw = .none ∧ t.task.held = [] ∧ s.waitLock ≠ some c
  | _ => t.sw = .none ∧ t.task = .run

def next (procs : List ι) (init : ι) (s : Sys ι κ) : Event ι κ → Option (Sys ι κ)
  | .step c => cpuStep procs init s c
  | .call c f =>
      match s.cpu c with
      | .thread p => if mayCall s c (s.thread p) f then callStep procs init s p f else none
      | _ => none
  | .fail c =>
      match s.cpu c with
      | .thread p =>
          match (s.thread p).sw, (s.thread p).task with
          | .none, .allocprocFound np | .none, .forkCopy np =>
              some (((s.freeproc np).release np).setTask p .run)
          | .none, .waitHold q _ =>
              if s.state q = .zombie then some ((s.release q).releaseWait.setTask p .run) else none
          | _, _ => none
      | _ => none
  | .intr c q chan =>
      if held s c = [] ∧ s.waitLock ≠ some c ∧ s.lock q = none ∧ s.proc c ≠ some q then
        some (s.wakeBody q (some chan))
      else none
  | .tick => some { s with ticks := s.ticks + 1 }
  | .setSched mode => some { s with schedMode := mode }

/-- The table when the CPUs enter `scheduler()`: `userinit` has made init RUNNABLE. -/
def boot (init : ι) : Sys ι κ where
  state := fun p => if p = init then .runnable else .unused
  chan := fun _ => none
  killed := fun _ => false
  pid := fun p => if p = init then 1 else 0
  parent := fun _ => none
  priority := fun p => if p = init then 10 else 0
  creationTime := fun _ => 0
  lock := fun _ => none
  waitLock := none
  thread := fun _ => ⟨.run, .off .forkret⟩
  cpu := fun _ => .idle
  proc := fun _ => none
  schedMode := .roundRobin
  ticks := 0
  nextpid := 2

end Xv6.Scheduler
