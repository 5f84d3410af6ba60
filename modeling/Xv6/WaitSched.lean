import Xv6.Accounting
import Xv6.Getptable

/-! `wait` and `wait_sched`. Each is a loop of turns: a turn scans the table with `wait_lock` held
and reaps a child, gives up, or goes to sleep; the table that a process finds when it wakes up is
given, since the others have been at work. -/
namespace Xv6.Process

open Program Vm List

def copyoutTo (p : Fin nproc) (addr : ℕ) (src : List Byte) : L Bool :=
  if addr = 0 then return true
  else do
    let s ← get
    let pagetable ← kernel (deref (s.kern.proc p).pagetable)
    kernel (mem (copyout pagetable addr src))

section code
variable [Image]

/-- The scan of `wait` over the slots that are left: the value it returns, or whether there are
children. -/
def waitFrom (p : Fin nproc) (addr : ℕ) : List (Fin nproc) → Bool → L (ℤ ⊕ Bool)
  | [], havekids => return .inr havekids
  | pp :: todo, havekids => do
      let s ← get
      if (s.kern.proc pp).parent = some p then
        acquire pp
        let s ← get
        if (s.kern.proc pp).state = .zombie then
          let pid := (s.kern.proc pp).pid
          if ← copyoutTo p addr (bytes32 (s.kern.proc pp).xstate.toInt) then
            kernel (freeproc pp)
            release pp
            releaseWait
            return .inl pid
          else
            release pp
            releaseWait
            return .inl (-1)
        else
          release pp
          waitFrom p addr todo true
      else waitFrom p addr todo havekids

def waitSchedFrom (p : Fin nproc) (addr addrTt addrWt : ℕ) :
    List (Fin nproc) → Bool → L (ℤ ⊕ Bool)
  | [], havekids => return .inr havekids
  | np :: todo, havekids => do
      let s ← get
      if (s.kern.proc np).parent = some p then
        acquire np
        let s ← get
        if (s.kern.proc np).state = .zombie then
          let pid := (s.kern.proc np).pid
          if ← copyoutTo p addr (bytes32 (s.kern.proc np).xstate.toInt) then
            if ← copyoutTo p addrTt (bytes32 (s.kern.proc np).turnaroundTime) then
              if ← copyoutTo p addrWt (bytes32 (s.kern.proc np).waitingTime) then
                kernel (freeproc np)
                release np
                releaseWait
                return .inl pid
              else
                release np
                releaseWait
                return .inl (-1)
            else
              release np
              releaseWait
              return .inl (-1)
          else
            release np
            releaseWait
            return .inl (-1)
        else
          release np
          waitSchedFrom p addr addrTt addrWt todo true
      else waitSchedFrom p addr addrTt addrWt todo havekids

def killed (p : Fin nproc) : L Bool := do
  acquire p
  let s ← get
  release p
  return (s.kern.proc p).killed

def waitTurn (p : Fin nproc) (addr : ℕ) : L (Option ℤ) := do
  match ← waitFrom p addr (finRange nproc) false with
  | .inl r => return some r
  | .inr havekids =>
      if havekids = false then
        releaseWait
        return some (-1)
      else if ← killed p then
        releaseWait
        return some (-1)
      else return none

def waitSchedTurn (p : Fin nproc) (addr addrTt addrWt : ℕ) : L (Option ℤ) := do
  match ← waitSchedFrom p addr addrTt addrWt (finRange nproc) false with
  | .inl r => return some r
  | .inr havekids =>
      let s ← get
      if havekids = false ∨ (s.kern.proc p).killed then
        releaseWait
        return some (-1)
      else return none

/-- `sleep(p, &wait_lock)`, after which the kernel is found to be `woken`. -/
def sleepWait (p : Fin nproc) (woken : Kern) : L PUnit := do
  acquire p
  releaseWait
  kernel (modifyProc p fun q => { q with state := .sleeping })
  kernel (set woken)
  release p
  acquireWait

def waitLoop (p : Fin nproc) (turn : L (Option ℤ)) : List Kern → L (Option ℤ)
  | [] => turn
  | k :: woken => do
      match ← turn with
      | some r => return some r
      | none => do
          sleepWait p k
          waitLoop p turn woken

def wait (p : Fin nproc) (addr : ℕ) (woken : List Kern) : L (Option ℤ) := do
  acquireWait
  waitLoop p (waitTurn p addr) woken

def waitSched (p : Fin nproc) (addr addrTt addrWt : ℕ) (woken : List Kern) : L (Option ℤ) := do
  acquireWait
  waitLoop p (waitSchedTurn p addr addrTt addrWt) woken

end code

variable {s t : Locked} {p np : Fin nproc} {addr addrTt addrWt : ℕ} {b : Bool}
  {todo : List (Fin nproc)}

section same
variable [Image]

end same

section reap
variable [Image] {k : Kern} {root tf n va j : ℕ} {f : ℕ → Word} {X A B C : Multiset ℕ}
  {m m' : Mach} {src : List Byte}

def StoredAt (m : Mach) (f : ℕ → Word) (addr : ℕ) (src : List Byte) (m' : Mach) : Prop :=
  if addr = 0 then m' = m else Stored m f addr src.length src m'

/-- What a successful `wait_sched` has done: the child `np`, a ZOMBIE, is reaped and its pid
returned; its exit status and its two times are stored in the memory of the caller; no other slot
is different. -/
structure Reaped (k : Kern) (p np : Fin nproc) (f : ℕ → Word) (addr addrTt addrWt : ℕ) (v : ℤ)
    (k' : Kern) : Prop where
  child : (k.proc np).parent = some p
  zombie : (k.proc np).state = .zombie
  pid : v = (k.proc np).pid
  stores : ∃ m₁ m₂ m₃, StoredAt k.mach f addr (bytes32 (k.proc np).xstate.toInt) m₁ ∧
    StoredAt m₁ f addrTt (bytes32 (k.proc np).turnaroundTime) m₂ ∧
    StoredAt m₂ f addrWt (bytes32 (k.proc np).waitingTime) m₃ ∧
    ∀ a, Readable f a → k'.mach.load f a = m₃.load f a
  slot : k'.proc np = (k.proc np).freed k.ticks
  others : ∀ q, q ≠ np → k'.proc q = k.proc q

/-- The memory of `p`, with the pages `C` besides those of its ZOMBIE child `np`. -/
structure Family (k : Kern) (p np : Fin nproc) (root tf : ℕ) (f : ℕ → Word) (X B C : Multiset ℕ) :
    Prop where
  space : AddressSpace k p root tf f X (B + C)
  child : Hangs k.mach (k.proc np) B
  ne : np ≠ p

lemma Stored.keeps (h : Stored m f va j src m') (hs : Space m root n tf f X)
    (hB : ∀ q ∈ B, q ∉ frames f 0 n) : Vm.Keeps B m m' := by
  intro q hq
  funext i
  refine h.frame q i fun l hl hp _ => ?_
  have hmem := ((h.writable l hl).1.mem_frames hs).2
  rw [hp] at hmem
  exact hB q hq hmem

lemma Hangs.keep {q : Proc} (h : Hangs m q B) (hk : Vm.Keeps B m m') : Hangs m' q B := by
  cases h with
  | none ht hp => exact .none ht hp
  | trapframe ht hp => exact .trapframe ht hp
  | space ht hp hs =>
    have hX : Vm.Keeps _ m m' := (hk.right).left
    exact .space ht hp ⟨hs.maps.frame hX, hs.layout⟩

lemma Family.disjoint (h : Family k p np root tf f X B C) :
    ∀ q ∈ B, q ∉ frames f 0 (npages (k.proc p).sz) := by
  intro q hq hmem
  have hnodup := (Multiset.nodup_add.mp (Multiset.nodup_add.mp h.space.owns.nodup).2.1).2.2
  exact Multiset.disjoint_left.mp hnodup hmem (by simp [hq])

lemma Family.stored (h : Family k p np root tf f X B C) (hst : Stored k.mach f va j src m') :
    Family { k with mach := m' } p np root tf f X B C := by
  have hd := Owns.le_ram h.space.owns
  refine ⟨⟨h.space.pagetable, h.space.trapframe, hst.space h.space.space hd, ?_⟩,
    h.child.keep (Stored.keeps hst h.space.space h.disjoint), h.ne⟩
  have ho := h.space.owns
  unfold Owns at ho ⊢
  rw [hst.freelist]
  exact ho

def Sound (k : Kern) (p : Fin nproc) : Prop :=
  ∀ np, (k.proc np).parent = some p → (k.proc np).state = .zombie →
    ∃ root tf f X B C, Family k p np root tf f X B C

/-- How a value is returned: the locks are released, and it is -1 or the pid of a child that has
been reaped. -/
def Returned (k : Kern) (p : Fin nproc) (addr addrTt addrWt : ℕ) (v : ℤ) (s' : Locked) : Prop :=
  s'.Free ∧ s'.waitLock = false ∧
    (v = -1 ∨ ∃ np f, Reaped k p np f addr addrTt addrWt v s'.kern)

section
variable (hs : s.Free) (hw : s.waitLock = true) (hk : Sound s.kern p)
include hs hw hk

end

end reap

structure Shows {κ : Type} (a : Scheduler.Acct (Fin nproc) κ) (k : Kern) : Prop where
  state : ∀ q, (k.proc q).state = a.sys.state q
  pid : ∀ q, (k.proc q).pid = a.sys.pid q
  parent : ∀ q, (k.proc q).parent = a.sys.parent q
  killed : ∀ q, (k.proc q).killed = a.sys.killed q
  creation : ∀ q, (k.proc q).creationTime = a.sys.creationTime q
  run : ∀ q, (k.proc q).runTime = a.runTime q
  finish : ∀ q, BitVec.ofNat 32 (k.proc q).finishTime = a.finishTime q
  turnaround : ∀ q, BitVec.ofNat 32 (k.proc q).turnaroundTime = a.turnaroundTime q
  waiting : ∀ q, BitVec.ofNat 32 (k.proc q).waitingTime = a.waitingTime q

def Runs {n : ℕ} (init : Fin nproc) (cpu0 : Fin n) (a : Scheduler.Acct (Fin nproc) (Fin n)) : Prop :=
  ∃ xs, Transition.Run
    (fun a x b => Scheduler.acctNext (finRange nproc) init cpu0 a x = some b)
    (Scheduler.acctBoot init) xs a

def Reachable (k : Kern) : Prop :=
  ∃ (n : ℕ) (init : Fin nproc) (cpu0 : Fin n) (a : Scheduler.Acct (Fin nproc) (Fin n)),
    Runs init cpu0 a ∧ Shows a k

structure Proc.ExitTimes (q : Proc) : Prop where
  turnaround : BitVec.ofNat 32 q.turnaroundTime =
    BitVec.ofNat 32 q.finishTime - BitVec.ofNat 32 q.creationTime
  waiting : BitVec.ofNat 32 q.waitingTime =
    BitVec.ofNat 32 q.turnaroundTime - BitVec.ofNat 32 q.runTime

end Xv6.Process
