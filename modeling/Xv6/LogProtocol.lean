import Xv6.Log
import Xv6.Transition

/-! The concurrent log protocol of `log.c`: any number of processes run `begin_op`,
`log_write`, `end_op` and `commit`, with the sleep and wakeup of `proc.c` between them.
One step is the code between two lock operations of one process. -/
namespace Xv6.LogProtocol

open Function

inductive CommitPhase
  | writeLog
  | writeHead
  | installTrans
  | clear
  | eraseHead
  deriving DecidableEq, Repr

/-- Where a process is. `used` collects the distinct blocks its operation has logged. -/
inductive Pc (ι : Type*)
  | user
  | beginAcquire
  | beginTest
  | sleepAcquire
  | sleepRelease
  | sleepSet
  | sleepSched
  | asleep
  | sleepTidy
  | sleepReacquire
  | inOp (used : List ℕ)
  | writeAcquire (used : List ℕ) (b : ℕ)
  | writeBody (used : List ℕ) (b : ℕ)
  | endAcquire (used : List ℕ)
  | endBody (used : List ℕ)
  | endWake (todo : List ι)
  | endRelease (doCommit : Bool)
  | commitTest
  | commit (phase : CommitPhase)
  | commitAcquire
  | commitDone
  | commitWake (todo : List ι)
  | commitRelease
  deriving DecidableEq, Repr

structure Sys (ι : Type*) where
  log : Log
  /-- The process that holds `log.lock`. -/
  lock : Option ι
  pc : ι → Pc ι
  state : ι → ProcState
  /-- `p->lock` is held by `p` itself, or by the scheduler handing it to or from `p`. -/
  plock : ι → Bool
  /-- `p->chan == &log`. -/
  chan : ι → Bool
  panic : Option Panic

/-- The calls a process may start, and what the scheduler and `kill` may do to it. -/
inductive Event (ι : Type*)
  | callBeginOp (p : ι)
  | callLogWrite (p : ι) (b : ℕ)
  | callEndOp (p : ι)
  | run (p : ι)
  | dispatch (p : ι)
  | kill (p : ι)
  deriving DecidableEq, Repr

variable {ι : Type*} [DecidableEq ι] [Fintype ι]

/-- Boot: `recover_from_log` has left an empty log, and every process runs user code. -/
def boot (start size : ℕ) : Sys ι where
  log := ⟨start, size, 0, false, rootDev, []⟩
  lock := none
  pc := fun _ => .user
  state := fun _ => .running
  plock := fun _ => false
  chan := fun _ => false
  panic := none

section
variable (s : Sys ι)

def Sys.goto (p : ι) (c : Pc ι) : Sys ι := { s with pc := update s.pc p c }

def Sys.setLog (log : Log) : Sys ι := { s with log := log }

def Sys.setLock (o : Option ι) : Sys ι := { s with lock := o }

def Sys.setState (p : ι) (x : ProcState) : Sys ι :=
  { s with state := update s.state p x }

def Sys.setPlock (p : ι) (b : Bool) : Sys ι :=
  { s with plock := update s.plock p b }

def Sys.setChan (p : ι) (b : Bool) : Sys ι :=
  { s with chan := update s.chan p b }

def Sys.setPanic (e : Panic) : Sys ι := { s with panic := some e }

def Sys.acquireLog (p : ι) (c : Pc ι) : Option (Sys ι) :=
  if s.lock = none then some ((s.setLock (some p)).goto p c) else none

/-- One iteration of `wakeup(&log)` for slot `q`, by `p`: it waits for `q->lock`. -/
def Sys.wakeOne (p q : ι) : Option (Sys ι) :=
  if q = p then some s
  else if s.plock q then none
  else if s.state q = .sleeping ∧ s.chan q = true then some (s.setState q .runnable)
  else some s

end

section
variable (procs : List ι) (s : Sys ι)

/-- The next piece of code of process `p`; `none` when it waits for a lock or has no
code of the log to run. `procs` is the order in which `wakeup` walks the table. -/
def runPc (p : ι) : Option (Sys ι) :=
  match s.pc p with
  | .user => none
  | .beginAcquire => s.acquireLog p .beginTest
  | .beginTest =>
      if s.log.mustWait then some (s.goto p .sleepAcquire)
      else some (((s.setLog { s.log with outstanding := s.log.outstanding + 1 }).setLock
        none).goto p (.inOp []))
  | .sleepAcquire =>
      if s.plock p then none else some ((s.setPlock p true).goto p .sleepRelease)
  | .sleepRelease => some ((s.setLock none).goto p .sleepSet)
  | .sleepSet => some (((s.setChan p true).setState p .sleeping).goto p .sleepSched)
  | .sleepSched => some ((s.setPlock p false).goto p .asleep)
  | .asleep => none
  | .sleepTidy => some (((s.setChan p false).setPlock p false).goto p .sleepReacquire)
  | .sleepReacquire => s.acquireLog p .beginTest
  | .inOp _ => none
  | .writeAcquire used b => s.acquireLog p (.writeBody used b)
  | .writeBody used b =>
      match s.log.logWrite b with
      | .error e => some (s.setPanic e)
      | .ok log => some (((s.setLog log).setLock none).goto p (.inOp (used.insert b)))
  | .endAcquire used => s.acquireLog p (.endBody used)
  | .endBody _ =>
      let log := { s.log with outstanding := s.log.outstanding - 1 }
      if log.committing then some ((s.setLog log).setPanic .logCommitting)
      else if log.outstanding = 0 then
        some ((s.setLog { log with committing := true }).goto p (.endRelease true))
      else some ((s.setLog log).goto p (.endWake procs))
  | .endWake [] => some (s.goto p (.endRelease false))
  | .endWake (q :: todo) => (s.wakeOne p q).map fun t => t.goto p (.endWake todo)
  | .endRelease doCommit =>
      some ((s.setLock none).goto p (if doCommit then .commitTest else .user))
  | .commitTest => some (s.goto p (if s.log.n > 0 then .commit .writeLog else .commitAcquire))
  | .commit .writeLog => some (s.goto p (.commit .writeHead))
  | .commit .writeHead => some (s.goto p (.commit .installTrans))
  | .commit .installTrans => some (s.goto p (.commit .clear))
  | .commit .clear => some ((s.setLog { s.log with lh := [] }).goto p (.commit .eraseHead))
  | .commit .eraseHead => some (s.goto p .commitAcquire)
  | .commitAcquire => s.acquireLog p .commitDone
  | .commitDone => some ((s.setLog { s.log with committing := false }).goto p (.commitWake procs))
  | .commitWake [] => some (s.goto p .commitRelease)
  | .commitWake (q :: todo) => (s.wakeOne p q).map fun t => t.goto p (.commitWake todo)
  | .commitRelease => some ((s.setLock none).goto p .user)

def next : Event ι → Option (Sys ι)
  | .callBeginOp p =>
      if s.panic = none ∧ s.pc p = .user then some (s.goto p .beginAcquire) else none
  | .callLogWrite p b =>
      if s.panic = none then
        match s.pc p with
        | .inOp used => some (s.goto p (.writeAcquire used b))
        | _ => none
      else none
  | .callEndOp p =>
      if s.panic = none then
        match s.pc p with
        | .inOp used => some (s.goto p (.endAcquire used))
        | _ => none
      else none
  | .run p => if s.panic = none then runPc procs s p else none
  | .dispatch p =>
      if s.panic = none ∧ s.pc p = .asleep ∧ s.state p = .runnable ∧ s.plock p = false then
        some (((s.setPlock p true).setState p .running).goto p .sleepTidy)
      else none
  | .kill p =>
      if s.panic = none ∧ s.plock p = false ∧ s.state p = .sleeping then
        some (s.setState p .runnable)
      else none

def Step (e : Event ι) (t : Sys ι) : Prop := next procs s e = some t

end

end Xv6.LogProtocol
