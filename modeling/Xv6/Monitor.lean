import Xv6.Transition

/-! Threads that share data under one lock and sleep on channels until somebody wakes them. A
sleeping thread gives the lock up under a lock of its own, which whoever wakes it has to take, so
that no wakeup falls between. Another thread may be killed at any time, which makes it runnable
if it sleeps. -/
namespace Xv6.Monitor

open Function

/-- Code of a thread: `act` changes the shared data and `look` reads them, `ask` gets an answer
from outside, `killed` reads the thread's own flag, and `goto` continues with a named block. -/
inductive Prog (V K N X Y : Type)
  | ret
  | acquire (k : Prog V K N X Y)
  | release (k : Prog V K N X Y)
  | act (f : V → V) (k : Prog V K N X Y)
  | look (k : V → Prog V K N X Y)
  | ask (y : Y) (k : X → Prog V K N X Y)
  | wakeup (ch : K) (k : Prog V K N X Y)
  | sleep (ch : K) (k : Prog V K N X Y)
  | killed (k₁ k₂ : Prog V K N X Y)
  | goto (n : N)

structure Code (V K N X Y A : Type) where
  block : N → Prog V K N X Y
  start : A → Prog V K N X Y

inductive Status
  | running
  | sleeping
  | runnable
  deriving DecidableEq, Repr

/-- Where a thread is: at a piece of code, in the loop of a wakeup, or on the way through a
sleep. -/
inductive Pc (ι V K N X Y : Type)
  | exec (k : Prog V K N X Y)
  | waking (ch : K) (todo : List ι) (k : Prog V K N X Y)
  | sleepRelease (ch : K) (k : Prog V K N X Y)
  | sleepSet (ch : K) (k : Prog V K N X Y)
  | sleepSched (ch : K) (k : Prog V K N X Y)
  | asleep (ch : K) (k : Prog V K N X Y)
  | sleepTidy (k : Prog V K N X Y)
  | reacquire (k : Prog V K N X Y)

def Pc.asks {ι V K N X Y : Type} : Pc ι V K N X Y → Option Y
  | .exec (.ask y _) => some y
  | _ => none

/-- `own` says that the lock of a thread is held, by itself or by the scheduler handing it to or
from the thread; `call` is the call a thread is in, or was in last. -/
structure Sys (ι V K N X Y A : Type) where
  data : V
  lock : Option ι
  pc : ι → Pc ι V K N X Y
  status : ι → Status
  own : ι → Bool
  chan : ι → Option K
  killed : ι → Bool
  call : ι → Option A

inductive Event (ι X A : Type)
  | call (p : ι) (a : A)
  | run (p : ι)
  | answer (p : ι) (x : X)
  | dispatch (p : ι)
  | kill (p : ι)
  | fresh (p : ι)
  deriving DecidableEq, Repr

variable {ι V K N X Y A : Type}

def boot (v : V) : Sys ι V K N X Y A where
  data := v
  lock := none
  pc := fun _ => .exec .ret
  status := fun _ => .running
  own := fun _ => false
  chan := fun _ => none
  killed := fun _ => false
  call := fun _ => none

section
variable [DecidableEq ι] [DecidableEq K]

section
variable (s : Sys ι V K N X Y A) (p : ι)

def Sys.goto (c : Pc ι V K N X Y) : Sys ι V K N X Y A :=
  { s with pc := update s.pc p c }

def Sys.setOwn (b : Bool) : Sys ι V K N X Y A :=
  { s with own := update s.own p b }

def Sys.setStatus (x : Status) : Sys ι V K N X Y A :=
  { s with status := update s.status p x }

def Sys.setChan (x : Option K) : Sys ι V K N X Y A :=
  { s with chan := update s.chan p x }

end

def Sys.wakeOne (s : Sys ι V K N X Y A) (p q : ι) (ch : K) : Option (Sys ι V K N X Y A) :=
  if q = p then some s
  else if s.own q then none
  else if s.status q = .sleeping ∧ s.chan q = some ch then some (s.setStatus q .runnable)
  else some s

section
variable (code : Code V K N X Y A) (procs : List ι) (s : Sys ι V K N X Y A)

def runProg (p : ι) : Prog V K N X Y → Option (Sys ι V K N X Y A)
  | .ret => none
  | .acquire k =>
      if s.lock = none then some ({ s with lock := some p }.goto p (.exec k)) else none
  | .release k => some ({ s with lock := none }.goto p (.exec k))
  | .act f k => some ({ s with data := f s.data }.goto p (.exec k))
  | .look k => some (s.goto p (.exec (k s.data)))
  | .ask _ _ => none
  | .wakeup ch k => some (s.goto p (.waking ch procs k))
  | .sleep ch k =>
      if s.own p then none else some ((s.setOwn p true).goto p (.sleepRelease ch k))
  | .killed k₁ k₂ =>
      if s.own p then none else some (s.goto p (.exec (if s.killed p then k₁ else k₂)))
  | .goto n => some (s.goto p (.exec (code.block n)))

def runPc (p : ι) : Pc ι V K N X Y → Option (Sys ι V K N X Y A)
  | .exec k => runProg code procs s p k
  | .waking _ [] k => some (s.goto p (.exec k))
  | .waking ch (q :: todo) k => (s.wakeOne p q ch).map fun t => t.goto p (.waking ch todo k)
  | .sleepRelease ch k => some ({ s with lock := none }.goto p (.sleepSet ch k))
  | .sleepSet ch k =>
      some (((s.setChan p (some ch)).setStatus p .sleeping).goto p (.sleepSched ch k))
  | .sleepSched ch k => some ((s.setOwn p false).goto p (.asleep ch k))
  | .asleep _ _ => none
  | .sleepTidy k => some (((s.setChan p none).setOwn p false).goto p (.reacquire k))
  | .reacquire k =>
      if s.lock = none then some ({ s with lock := some p }.goto p (.exec k)) else none

def next : Event ι X A → Option (Sys ι V K N X Y A)
  | .call p a =>
      match s.pc p with
      | .exec .ret =>
          some ({ s with call := update s.call p (some a) }.goto p
            (.exec (code.start a)))
      | _ => none
  | .run p => runPc code procs s p (s.pc p)
  | .answer p x =>
      match s.pc p with
      | .exec (.ask _ k) => some (s.goto p (.exec (k x)))
      | _ => none
  | .dispatch p =>
      match s.pc p with
      | .asleep _ k =>
          if s.status p = .runnable ∧ s.own p = false then
            some (((s.setOwn p true).setStatus p .running).goto p (.sleepTidy k))
          else none
      | _ => none
  | .kill p =>
      if s.own p then none
      else
        let t := { s with killed := update s.killed p true }
        some (if s.status p = .sleeping then t.setStatus p .runnable else t)
  | .fresh p =>
      match s.pc p with
      | .exec .ret => some { s with killed := update s.killed p false }
      | _ => none

end

end

def Sys.Waits (s : Sys ι V K N X Y A) (p : ι) (ch : K) : Prop :=
  match s.pc p with
  | .sleepRelease ch' _ | .sleepSet ch' _ => ch' = ch
  | .sleepSched ch' _ | .asleep ch' _ => ch' = ch ∧ s.status p = .sleeping
  | _ => False

end Xv6.Monitor
