import Xv6.Transition

/-! Nesting of `push_off` on every CPU. The code on a CPU is its scheduler loop or the kernel thread
of a process, and `swtch` changes between them with the lock of the process held, so that one thread
takes that lock and another one releases it. -/
namespace Xv6.Interrupts

variable {κ ι L : Type}

inductive Lock (ι L : Type)
  | proc (p : ι)
  | other (l : L)
  deriving DecidableEq, Repr

inductive Code (κ ι : Type)
  | scheduler (c : κ)
  | proc (p : ι)
  deriving DecidableEq, Repr

/-- `struct cpu`, with the enable bit in `sstatus` and the process that runs. -/
structure Cpu (ι : Type) where
  noff : ℕ
  intena : Bool
  sie : Bool
  cur : Option ι

/-- Where a thread is: at any code, in `sched` after `swtch` with its local `intena`, back in `sched`
before it has stored it, or not started yet. -/
inductive Pc
  | normal
  | switched (intena : Bool)
  | resuming (intena : Bool)
  | new
  deriving DecidableEq, Repr

/-- The spinlocks that a thread holds, and its `push_off`s that are not yet undone and belong to no
lock it holds. `frames` are the interrupted activations below it, and `outer` is whether interrupts
were on when it did its outermost `push_off`. -/
structure Thread (ι L : Type) where
  pc : Pc
  held : Finset (Lock ι L)
  pushes : ℕ
  frames : ℕ
  outer : Option Bool

def Thread.nest (x : Thread ι L) : ℕ := x.held.card + x.pushes

/-- `lock` is the CPU that a spinlock names as its holder. -/
structure State (κ ι L : Type) where
  cpu : κ → Cpu ι
  thread : Code κ ι → Thread ι L
  lock : Lock ι L → Option κ

/-- `acquire` is `pushOff` and, when the lock is free, `testAndSet`; `release` is `clear` and
`popOff`. `trap` is an interrupt and `sret` the end of its handler. -/
inductive Event (κ ι L : Type)
  | pushOff (c : κ)
  | popOff (c : κ)
  | testAndSet (c : κ) (l : Lock ι L)
  | clear (c : κ) (l : Lock ι L)
  | intrOn (c : κ)
  | intrOff (c : κ)
  | trap (c : κ)
  | sret (c : κ)
  | sched (c : κ)
  | dispatch (c : κ) (p : ι)
  | restore (c : κ)
  | allocproc (p : ι)
  deriving DecidableEq, Repr

def boot : State κ ι L where
  cpu := fun _ => ⟨0, false, false, none⟩
  thread
    | .scheduler _ => ⟨.normal, ∅, 0, 0, none⟩
    | .proc _ => ⟨.new, ∅, 0, 0, none⟩
  lock := fun _ => none

namespace State

def code (s : State κ ι L) (c : κ) : Code κ ι :=
  match (s.cpu c).cur with
  | none => .scheduler c
  | some p => .proc p

def here (s : State κ ι L) (c : κ) : Thread ι L := s.thread (s.code c)

variable [DecidableEq κ] [DecidableEq ι] [DecidableEq L]

section
variable (s : State κ ι L)

def setCpu (c : κ) (x : Cpu ι) : State κ ι L :=
  { s with cpu := Function.update s.cpu c x }

def setThread (d : Code κ ι) (x : Thread ι L) : State κ ι L :=
  { s with thread := Function.update s.thread d x }

def setLock (l : Lock ι L) (x : Option κ) : State κ ι L :=
  { s with lock := Function.update s.lock l x }

def set (c : κ) (x : Cpu ι) (y : Thread ι L) : State κ ι L :=
  (s.setCpu c x).setThread (s.code c) y

def pushOff (c : κ) : State κ ι L :=
  let x := s.cpu c
  s.set c { x with
      sie := false
      intena := if x.noff = 0 then x.sie else x.intena
      noff := x.noff + 1 }
    { s.here c with
      pushes := (s.here c).pushes + 1
      outer := if (s.here c).nest = 0 then some x.sie else (s.here c).outer }

def popOff (c : κ) : Option (State κ ι L) :=
  let x := s.cpu c
  if x.sie then none
  else if x.noff < 1 then none
  else some (s.set c { x with
      noff := x.noff - 1
      sie := decide (x.noff - 1 = 0) && x.intena }
    { s.here c with
      pushes := (s.here c).pushes - 1
      outer := if (s.here c).nest = 1 then none else (s.here c).outer })

/-- `sched` up to `swtch`: the scheduler goes on with the lock that the process has taken. -/
def sched (c : κ) (p : ι) : Option (State κ ι L) :=
  let x := s.thread (.proc p)
  let y := s.thread (.scheduler c)
  if s.lock (.proc p) = some c ∧ (s.cpu c).noff = 1 ∧ (s.cpu c).sie = false then
    some (((s.setCpu c { s.cpu c with cur := none }).setThread (.proc p)
        { x with pc := .switched (s.cpu c).intena, held := x.held.erase (.proc p) }).setThread
      (.scheduler c) { y with held := insert (.proc p) y.held })
  else none

/-- `swtch` in `scheduler`, which has acquired the lock of `p` and holds nothing else. A new process
starts in `forkret`. -/
def dispatch (c : κ) (p : ι) : Option (State κ ι L) :=
  let x := s.thread (.proc p)
  let y := s.thread (.scheduler c)
  if (s.cpu c).cur = none ∧ y.held = {.proc p} ∧ y.pushes = 0 then
    match x.pc with
    | .switched b => some (((s.setCpu c { s.cpu c with cur := some p }).setThread (.scheduler c)
        { y with held := y.held.erase (.proc p) }).setThread
      (.proc p) { x with pc := .resuming b, held := insert (.proc p) x.held })
    | .new => some (((s.setCpu c { s.cpu c with cur := some p }).setThread (.scheduler c)
        { y with held := y.held.erase (.proc p) }).setThread
      (.proc p) { x with pc := .normal, held := insert (.proc p) x.held })
    | _ => none
  else none

end

end State

variable [DecidableEq κ] [DecidableEq ι] [DecidableEq L]

/-- A step of the code on a CPU. `popOff` and `clear` undo an earlier `pushOff` and `testAndSet`,
handlers leave with what they came with, and nobody turns interrupts on or off by hand while it has
something to undo. -/
def next (s : State κ ι L) : Event κ ι L → Option (State κ ι L)
  | .pushOff c => if (s.here c).pc = .normal then some (s.pushOff c) else none
  | .popOff c => if (s.here c).pc = .normal ∧ 0 < (s.here c).pushes then s.popOff c else none
  | .testAndSet c l =>
      if (s.here c).pc = .normal ∧ 0 < (s.here c).pushes ∧ s.lock l = none then
        some ((s.set c (s.cpu c) { s.here c with
          held := insert l (s.here c).held, pushes := (s.here c).pushes - 1 }).setLock l (some c))
      else none
  | .clear c l =>
      if (s.here c).pc = .normal ∧ l ∈ (s.here c).held ∧ s.lock l = some c then
        some ((s.set c (s.cpu c) { s.here c with
          held := (s.here c).held.erase l, pushes := (s.here c).pushes + 1 }).setLock l none)
      else none
  | .intrOn c =>
      if (s.here c).pc = .normal ∧ (s.here c).nest = 0 then some (s.setCpu c { s.cpu c with sie := true })
      else none
  | .intrOff c =>
      if (s.here c).pc = .normal ∧ (s.here c).nest = 0 then some (s.setCpu c { s.cpu c with sie := false })
      else none
  | .trap c =>
      if (s.here c).pc = .normal ∧ (s.cpu c).sie then
        some (s.set c { s.cpu c with sie := false } { s.here c with frames := (s.here c).frames + 1 })
      else none
  | .sret c =>
      if (s.here c).pc = .normal ∧ 0 < (s.here c).frames ∧ (s.here c).nest = 0 then
        some (s.set c { s.cpu c with sie := true } { s.here c with frames := (s.here c).frames - 1 })
      else none
  | .sched c =>
      match (s.cpu c).cur with
      | some p => if (s.here c).pc = .normal then s.sched c p else none
      | none => none
  | .dispatch c p => s.dispatch c p
  | .restore c =>
      match (s.here c).pc with
      | .resuming b => some (s.set c { s.cpu c with intena := b } { s.here c with pc := .normal })
      | _ => none
  | .allocproc p =>
      match (s.thread (.proc p)).pc with
      | .switched _ | .new =>
          some (s.setThread (.proc p) ⟨.new, (s.thread (.proc p)).held, (s.thread (.proc p)).pushes,
            0, none⟩)
      | _ => none

end Xv6.Interrupts
