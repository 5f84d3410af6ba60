import Xv6.Exec

/-! Processes and what hangs from them: `allocproc`, `freeproc`, `growproc` and `fork` of
`proc.c`. Pages and page tables are those of the machine; of an open file and of an inode in
memory the reference counts are kept. -/
namespace Xv6.Process

open Program Vm Function

def nproc : ℕ := 64

def nofile : ℕ := 16

def nfile : ℕ := 100

def ninode : ℕ := 50

instance : NeZero nproc := ⟨by decide⟩

instance : NeZero nfile := ⟨by decide⟩

instance : NeZero ninode := ⟨by decide⟩

/-- `struct proc`; a null pointer is `none`. -/
structure Proc where
  state : ProcState
  killed : Bool
  xstate : BitVec 32
  pid : ℤ
  priority : ℤ
  parent : Option (Fin nproc)
  sz : ℕ
  pagetable : Option ℕ
  trapframe : Option ℕ
  ofile : Fin nofile → Option (Fin nfile)
  cwd : Option (Fin ninode)
  name : List Byte
  creationTime : ℕ
  runTime : ℕ
  finishTime : ℕ
  turnaroundTime : ℕ
  waitingTime : ℕ

structure Kern where
  mach : Mach
  proc : Fin nproc → Proc
  /-- `ref` of every `struct file`. -/
  fref : Fin nfile → ℤ
  /-- `ref` of every `struct inode`. -/
  iref : Fin ninode → ℤ
  nextpid : ℤ
  ticks : ℕ

def nowhere : Halt → Kern → Prop := fun _ _ => False

abbrev P : Type → Type := Prog Kern Halt

def Kern.setProc (k : Kern) (p : Fin nproc) (q : Proc) : Kern :=
  { k with proc := update k.proc p q }

@[simp] theorem Kern.setProc_self (k : Kern) (p : Fin nproc) (q : Proc) : (k.setProc p q).proc p = q :=
  update_self ..

theorem Kern.setProc_of_ne (k : Kern) {p r : Fin nproc} (q : Proc) (h : r ≠ p) :
    (k.setProc p q).proc r = k.proc r :=
  update_of_ne h ..

def mem {α : Type} (x : M α) : P α := zoom Kern.mach (fun k m => { k with mach := m }) x

def modifyProc (p : Fin nproc) (f : Proc → Proc) : P PUnit :=
  modify fun k => k.setProc p (f (k.proc p))

def deref (ptr : Option ℕ) : P ℕ :=
  match ptr with
  | some a => return a
  | none => throw .nullPointer

section memory
variable [Image]

def freeTrapframe (trapframe : Option ℕ) : P PUnit :=
  match trapframe with
  | some tf => mem (kfree tf)
  | none => return ⟨⟩

def freeTable (pagetable : Option ℕ) (sz : ℕ) : P PUnit :=
  match pagetable with
  | some pagetable => mem (procFreepagetable pagetable sz)
  | none => return ⟨⟩

/-- The fields of a slot after `freeproc`; `ofile` and `cwd` stay as they are. -/
def Proc.freed (q : Proc) (ticks : ℕ) : Proc :=
  { q with
    state := .unused, killed := false, xstate := 0, pid := 0, parent := none, sz := 0,
    pagetable := none, trapframe := none, name := [], creationTime := ticks, runTime := 0,
    finishTime := 0, turnaroundTime := 0, waitingTime := 0 }

def freeproc (p : Fin nproc) : P PUnit := do
  let q := (← get).proc p
  freeTrapframe q.trapframe
  freeTable q.pagetable q.sz
  modify fun k => k.setProc p ((k.proc p).freed k.ticks)

def allocpid : P ℤ := do
  let k ← get
  set { k with nextpid := k.nextpid + 1 }
  return k.nextpid

def Kern.unused (k : Kern) : Option (Fin nproc) :=
  (List.finRange nproc).find? fun p => (k.proc p).state = .unused

def Proc.fresh (q : Proc) (ticks : ℕ) : Proc :=
  { q with
    creationTime := ticks, runTime := 0, priority := if q.pid % 2 ≠ 0 then 10 else 5,
    turnaroundTime := 0, waitingTime := 0, finishTime := 0 }

def allocproc : P (Option (Fin nproc)) := do
  match (← get).unused with
  | none => return none
  | some p =>
      let pid ← allocpid
      modifyProc p fun q => { q with pid := pid, state := .used }
      let trapframe ← mem kalloc
      modifyProc p fun q => { q with trapframe := trapframe }
      match trapframe with
      | none =>
          freeproc p
          return none
      | some tf =>
          let pagetable ← mem (procPagetable tf)
          modifyProc p fun q => { q with pagetable := pagetable }
          if pagetable = none then
            freeproc p
            return none
          else
            modify fun k => k.setProc p ((k.proc p).fresh k.ticks)
            return some p

def addInt (sz : ℕ) (n : BitVec 32) : ℕ := (((sz : ℤ) + n.toInt) % 2 ^ 64).toNat

/-- `growproc` of process `p`; false is the result -1. -/
def growproc (p : Fin nproc) (n : BitVec 32) : P Bool := do
  let q := (← get).proc p
  if 0 < n.toInt then
    let sz ← mem (uvmalloc (← deref q.pagetable) q.sz (addInt q.sz n) pteW)
    if sz = 0 then return false
    else
      modifyProc p fun q => { q with sz := sz }
      return true
  else if n.toInt < 0 then
    let sz ← mem (uvmdealloc (← deref q.pagetable) q.sz (addInt q.sz n))
    modifyProc p fun q => { q with sz := sz }
    return true
  else return true

def sysSbrk (p : Fin nproc) (n : BitVec 32) : P (Option ℕ) := do
  let addr := ((← get).proc p).sz
  if ← growproc p n then return some addr else return none

end memory

def filedup (f : Fin nfile) : P PUnit := do
  let k ← get
  if k.fref f < 1 then throw .filedup
  else set { k with fref := update k.fref f (k.fref f + 1) }

def idup (ip : Fin ninode) : P PUnit :=
  modify fun k => { k with iref := update k.iref ip (k.iref ip + 1) }

def dupFile (p np : Fin nproc) (i : Fin nofile) : P PUnit := do
  match ((← get).proc p).ofile i with
  | none => return ⟨⟩
  | some f =>
      filedup f
      modifyProc np fun q => { q with ofile := update q.ofile i (some f) }

def dupCwd (p np : Fin nproc) : P PUnit := do
  match ((← get).proc p).cwd with
  | none => throw .nullPointer
  | some ip =>
      idup ip
      modifyProc np fun q => { q with cwd := some ip }

def sizeofTrapframe : ℕ := 288

attribute [local instance] neZero_ptes in
def a0 : Fin 512 := 14

def copyTrapframe (tf ntf : ℕ) : M PUnit := do
  let d ← page tf
  let e ← page ntf
  setPage ntf (e.write 0 (d.read 0 sizeofTrapframe))
  setTrapframe ntf a0 0

/-- The end of `fork`: the child shares the open files and the current directory, and may run. -/
def inherit (p np : Fin nproc) : P PUnit := do
  forM (List.finRange nofile) (dupFile p np)
  dupCwd p np
  let name := ((← get).proc p).name
  -- a `name` of 16 bytes ends with a NUL
  modifyProc np fun nq => { nq with name := name.take 15 }
  modifyProc np fun nq => { nq with parent := some p }
  modifyProc np fun nq => { nq with state := .runnable }

section fork
variable [Image]

/-- `fork` by process `p`; none is the result -1. -/
def fork (p : Fin nproc) : P (Option ℤ) := do
  match ← allocproc with
  | none => return none
  | some np =>
      let k ← get
      let q := k.proc p
      let nq := k.proc np
      if ← mem (uvmcopy (← deref q.pagetable) (← deref nq.pagetable) q.sz) then
        modifyProc np fun nq => { nq with sz := q.sz }
        mem (copyTrapframe (← deref q.trapframe) (← deref nq.trapframe))
        inherit p np
        return some nq.pid
      else
        freeproc np
        return none

end fork

end Xv6.Process
