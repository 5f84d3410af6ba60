import Xv6.Basic
import Xv6.LockProgram

/-! The order in which `proc.c`, `sysproc.c` and `trap.c` take `wait_lock`, `tickslock`, the
process locks and `pid_lock`. Every function is written with its operations on these locks only,
and with a branch wherever it decides on data; a lock passes across `swtch` with the CPU. -/
namespace Xv6.LockOrder

open LockProgram Transition Finset

inductive Lock (ι : Type*)
  | wait
  | ticks
  | proc (p : ι)
  | pid
  deriving DecidableEq, Repr

/-- Heads of the endless loops, and what follows the return of `choose_next_process`. -/
inductive Block (ι : Type*)
  | scheduler
  | chosen (p : Option ι)
  | waitLoop (p : ι)
  | waitSchedLoop (p : ι)
  | sleepLoop (p : ι)

abbrev Code (ι : Type*) := Prog (Lock ι) ι (Block ι)

variable {ι κ : Type*} (procs : List ι)

def forProc (body : ι → Code ι → Code ι) (k : Code ι) : Code ι := procs.foldr body k

def allocpid (k : Code ι) : Code ι := .acquire .pid (.release .pid k)

def allocproc (found : ι → Code ι) (fail : Code ι) : Code ι :=
  forProc procs (fun p next =>
    .acquire (.proc p) (.branch
      (allocpid (.branch (.release (.proc p) fail)
        (.branch (.release (.proc p) fail) (found p))))
      (.release (.proc p) next))) fail

def fork (k : Code ι) : Code ι :=
  allocproc procs (fun np =>
    .branch (.release (.proc np) k)
      (.release (.proc np)
        (.acquire .wait (.release .wait
          (.acquire (.proc np) (.release (.proc np) k)))))) k

def killed (p : ι) (k : Code ι) : Code ι := .acquire (.proc p) (.release (.proc p) k)

def setkilled (p : ι) (k : Code ι) : Code ι := .acquire (.proc p) (.release (.proc p) k)

def forkret (p : ι) : Code ι := .release (.proc p) .ret

def yield (p : ι) (k : Code ι) : Code ι :=
  .acquire (.proc p) (.suspend (.release (.proc p) k))

def sleep (p : ι) (k : Code ι) : Option (Lock ι) → Code ι
  | some lk => .acquire (.proc p) (.release lk (.suspend (.release (.proc p) (.acquire lk k))))
  | none => .acquire (.proc p) (.suspend (.release (.proc p) k))

def kill (k : Code ι) : Code ι :=
  forProc procs (fun p next =>
    .acquire (.proc p) (.branch (.release (.proc p) k) (.release (.proc p) next))) k

def getptable (k : Code ι) : Code ι :=
  .branch k (forProc procs (fun p next =>
    .acquire (.proc p) (.branch
      (.branch (.release (.proc p) k)
        (.branch (.release (.proc p) k) (.release (.proc p) next)))
      (.release (.proc p) next))) k)

def updateTime (k : Code ι) : Code ι :=
  forProc procs (fun p next => .acquire (.proc p) (.release (.proc p) next)) k

/-- One pass of `wait` over the table; `reap` is the end of a call that found a ZOMBIE. -/
def waitScan (reap : ι → Code ι) (k : Code ι) : Code ι :=
  forProc procs (fun pp next =>
    .branch (.acquire (.proc pp) (.branch (reap pp) (.release (.proc pp) next))) next) k

/-- The end of `wait` and `wait_sched` once a ZOMBIE is found, the same when a `copyout` fails. -/
def reap (pp : ι) : Code ι := .release (.proc pp) (.release .wait .ret)

def waitLoop (p : ι) : Code ι :=
  waitScan procs (fun pp => .branch (reap pp) (reap pp))
    (.branch (.release .wait .ret)
      (killed p (.branch (.release .wait .ret) (sleep p (.goto (.waitLoop p)) (some .wait)))))

def waitSchedLoop (p : ι) : Code ι :=
  waitScan procs (fun pp => .branch (reap pp) (.branch (reap pp) (.branch (reap pp) (reap pp))))
    (.branch (.release .wait .ret) (sleep p (.goto (.waitSchedLoop p)) (some .wait)))

def wait (p : ι) : Code ι := .acquire .wait (.goto (.waitLoop p))

def waitSched (p : ι) : Code ι := .acquire .wait (.goto (.waitSchedLoop p))

def sleepLoop (p : ι) : Code ι :=
  .branch (.release .ticks .ret)
    (killed p (.branch (.release .ticks .ret) (sleep p (.goto (.sleepLoop p)) (some .ticks))))

def sysSleep (p : ι) : Code ι := .acquire .ticks (.goto (.sleepLoop p))

def sysUptime (k : Code ι) : Code ι := .acquire .ticks (.release .ticks k)

def fcfs (k : Option ι → Code ι) : List ι → Option ι → Code ι
  | [], none => k none
  | [], some m => .release (.proc m) (k (some m))
  | p :: todo, none =>
      .acquire (.proc p) (.branch (fcfs k todo (some p)) (.release (.proc p) (fcfs k todo none)))
  | p :: todo, some m =>
      .acquire (.proc p) (.branch (.release (.proc m) (fcfs k todo (some p)))
        (.release (.proc p) (fcfs k todo (some m))))

def roundRobin (k : Option ι → Code ι) : Code ι :=
  forProc procs (fun p next => .branch (k (some p)) next) (k none)

def priority (k : Option ι → Code ι) : Code ι :=
  forProc procs (fun p next => .acquire (.proc p) (.release (.proc p) next))
    (.branch (k none)
      (forProc procs (fun p next =>
        .acquire (.proc p) (.branch (.release (.proc p) (k (some p))) (.release (.proc p) next)))
        (k none)))

def chooseNextProcess (k : Option ι → Code ι) : Code ι :=
  .branch (roundRobin procs k)
    (.branch (fcfs k procs none) (.branch (priority procs k) (k none)))

def dispatch : Option ι → Code ι
  | none => .goto .scheduler
  | some p =>
      .acquire (.proc p) (.branch
        (.resume p (.release (.proc p) (.goto .scheduler)))
        (.release (.proc p) (.goto .scheduler)))

def code : Block ι → Code ι
  | .scheduler => chooseNextProcess procs fun r => .goto (.chosen r)
  | .chosen r => dispatch r
  | .waitLoop p => waitLoop procs p
  | .waitSchedLoop p => waitSchedLoop procs p
  | .sleepLoop p => sleepLoop p

section
variable [DecidableEq ι]

def wakeup (me : Option ι) (k : Code ι) : Code ι :=
  forProc procs (fun p next =>
    if some p = me then next else .acquire (.proc p) (.release (.proc p) next)) k

def reparent (p : ι) (k : Code ι) : Code ι :=
  forProc procs (fun _ next => .branch (wakeup procs (some p) next) next) k

/-- A process that has exited is never switched to again; the next process in its slot starts in
`forkret`, where `allocproc` points its context. -/
def exit (p : ι) : Code ι :=
  .acquire .wait (reparent procs p (wakeup procs (some p)
    (.acquire (.proc p) (.release .wait (.suspend (forkret p))))))

variable [DecidableEq κ] (cpu0 : κ)

def clockintr (c : κ) (me : Option ι) (k : Code ι) : Code ι :=
  if c = cpu0 then
    .acquire .ticks (updateTime procs (wakeup procs me (.release .ticks k)))
  else k

/-- Interrupts, which come wherever no lock is held, and what kernel code calls when it holds
none of these locks. -/
inductive Call
  | clockintr
  | device
  | yield
  | fork
  | exit
  | wait
  | waitSched
  | kill
  | getptable
  | sysSleep
  | sysUptime
  | killed
  | setkilled
  | sleep
  | wakeup
  deriving DecidableEq, Repr

def call (p : ι) : Call → Option (Code ι)
  | .clockintr | .device | .yield => none
  | .fork => some (fork procs .ret)
  | .exit => some (exit procs p)
  | .wait => some (wait p)
  | .waitSched => some (waitSched p)
  | .kill => some (kill procs .ret)
  | .getptable => some (getptable procs .ret)
  | .sysSleep => some (sysSleep p)
  | .sysUptime => some (sysUptime .ret)
  | .killed => some (killed p .ret)
  | .setkilled => some (setkilled p .ret)
  | .sleep => some (sleep p .ret none)
  | .wakeup => some (wakeup procs (some p) .ret)

def enter : Call → κ → Option ι → Code ι → Option (Code ι)
  | .clockintr, c, me, k => some (clockintr procs cpu0 c me k)
  | .device, _, me, k => some (wakeup procs me k)
  | .yield, _, some p, k => some (yield p k)
  | f, _, some p, .ret => call procs p f
  | _, _, _, _ => none

end

def boot : Machine κ (Lock ι) ι (Block ι) where
  lock := fun _ => none
  depth := fun _ => 0
  agent := fun _ => .own (.goto .scheduler)
  thread := fun p => some (forkret p)

/-- `wait_lock` and `tickslock` come first, then the process locks by slot, then `pid_lock`. -/
def Lock.before [LT ι] : Lock ι → Lock ι → Prop
  | .wait, .proc _ | .ticks, .proc _ => True
  | .wait, .pid | .ticks, .pid | .proc _, .pid => True
  | .proc p, .proc q => p < q
  | _, _ => False

def Outer (H : Finset (Lock ι)) : Prop := ∀ h ∈ H, h = .wait ∨ h = .ticks

lemma Outer.empty : Outer (∅ : Finset (Lock ι)) := by
  intro h hh
  cases hh

lemma Outer.wait : Outer ({.wait} : Finset (Lock ι)) := by
  intro h hh
  exact .inl (mem_singleton.mp hh)

lemma Outer.ticks : Outer ({.ticks} : Finset (Lock ι)) := by
  intro h hh
  exact .inr (mem_singleton.mp hh)

section
variable [LinearOrder ι]

def order : Discipline (Lock ι) ι (Block ι) where
  before := Lock.before
  irrefl := by
    intro l
    cases l <;> simp [Lock.before]
  trans := by
    intro l m n hlm hmn
    cases l <;> cases m <;> cases n <;> simp_all [Lock.before]
    exact hlm.trans hmn
  baton := .proc
  runner
    | .scheduler | .chosen _ => none
    | .waitLoop p | .waitSchedLoop p | .sleepLoop p => some p
  entry
    | .scheduler | .chosen _ => ∅
    | .waitLoop _ | .waitSchedLoop _ => {.wait}
    | .sleepLoop _ => {.ticks}

variable {procs} {who : Option ι} {H : Finset (Lock ι)} {k : Code ι} {p q : ι}

lemma ok_acquire (hH : Outer H) (hk : order.Ok who k (insert (.proc p) H)) :
    order.Ok who (.acquire (.proc p) k) H := by
  refine ⟨fun h hh => ?_, hk⟩
  rcases hH h hh with rfl | rfl <;> trivial

lemma ok_release (hH : Outer H) (hk : order.Ok who k H) :
    order.Ok who (.release (.proc p) k) (insert (.proc p) H) := by
  have hnot : Lock.proc p ∉ H := by
    intro hp
    rcases hH _ hp with h | h <;> cases h
  refine ⟨mem_insert_self _ _, ?_⟩
  rw [erase_insert hnot]
  exact hk

lemma ok_forProc {body : ι → Code ι → Code ι}
    (hbody : ∀ p next, order.Ok who next H → order.Ok who (body p next) H)
    (hk : order.Ok who k H) : order.Ok who (forProc procs body k) H := by
  unfold forProc
  induction procs with
  | nil => exact hk
  | cons p todo ih => exact hbody p _ ih

lemma ok_killed (hH : Outer H) (hk : order.Ok who k H) : order.Ok who (killed p k) H :=
  ok_acquire hH (ok_release hH hk)

lemma ok_wakeup {me : Option ι} (hH : Outer H) (hk : order.Ok who k H) :
    order.Ok who (wakeup procs me k) H := by
  refine ok_forProc (fun p next hnext => ?_) hk
  split
  · exact hnext
  · exact ok_acquire hH (ok_release hH hnext)

lemma ok_updateTime (hH : Outer H) (hk : order.Ok who k H) :
    order.Ok who (updateTime procs k) H :=
  ok_forProc (fun _ _ hnext => ok_acquire hH (ok_release hH hnext)) hk

lemma ok_allocproc {found : ι → Code ι} (hfound : ∀ p, order.Ok who (found p) {.proc p})
    (hk : order.Ok who k ∅) : order.Ok who (allocproc procs found k) ∅ := by
  refine ok_forProc (fun p next hnext => ?_) hk
  have hfail : order.Ok who (.release (.proc p) k) {.proc p} := ok_release .empty hk
  refine ok_acquire .empty ⟨?_, ok_release .empty hnext⟩
  refine ⟨?_, mem_insert_self _ _, ?_⟩
  · simp [order, Lock.before]
  · rw [erase_insert (by simp)]
    exact ⟨hfail, hfail, hfound p⟩

lemma ok_fork (hk : order.Ok who k ∅) : order.Ok who (fork procs k) ∅ := by
  refine ok_allocproc (fun np => ⟨ok_release .empty hk, ok_release .empty ?_⟩) hk
  refine ⟨by simp, by simp, ?_⟩
  simpa using ok_acquire (p := np) .empty (ok_release .empty hk)

lemma ok_yield (hk : order.Ok (some p) k ∅) : order.Ok (some p) (yield p k) ∅ :=
  ok_acquire .empty ⟨p, rfl, rfl, ok_release .empty hk⟩

lemma ok_sleep {lk : Lock ι} (hlk : lk = .wait ∨ lk = .ticks)
    (hk : order.Ok (some p) k {lk}) : order.Ok (some p) (sleep p k (some lk)) {lk} := by
  have hne : lk ≠ .proc p := by rcases hlk with rfl | rfl <;> simp
  refine ok_acquire (fun h hh => by rwa [mem_singleton.mp hh]) ⟨by simp, ?_⟩
  have herase : (insert (Lock.proc p) {lk} : Finset (Lock ι)).erase lk = {.proc p} := by
    rw [pair_comm, erase_insert (by simpa using hne)]
  rw [herase]
  refine ⟨p, rfl, rfl, ok_release .empty ⟨by simp, ?_⟩⟩
  simpa using hk

lemma ok_kill (hk : order.Ok who k ∅) : order.Ok who (kill procs k) ∅ :=
  ok_forProc (fun _ _ hnext =>
    ok_acquire .empty ⟨ok_release .empty hk, ok_release .empty hnext⟩) hk

lemma ok_getptable (hk : order.Ok who k ∅) : order.Ok who (getptable procs k) ∅ := by
  refine ⟨hk, ok_forProc (fun p next hnext => ok_acquire .empty ?_) hk⟩
  have hk' : order.Ok who (.release (.proc p) k) {.proc p} := ok_release .empty hk
  have hnext' : order.Ok who (.release (.proc p) next) {.proc p} := ok_release .empty hnext
  exact ⟨⟨hk', hk', hnext'⟩, hnext'⟩

lemma ok_reap (pp : ι) : order.Ok who (reap pp) (insert (.proc pp) {.wait}) := by
  refine ok_release .wait ⟨by simp, ?_⟩
  simp [Discipline.Ok]

lemma ok_waitScan {r : ι → Code ι}
    (hr : ∀ pp, order.Ok who (r pp) (insert (.proc pp) {.wait})) (hk : order.Ok who k {.wait}) :
    order.Ok who (waitScan procs r k) {.wait} :=
  ok_forProc (fun pp _ hnext =>
    ⟨ok_acquire .wait ⟨hr pp, ok_release .wait hnext⟩, hnext⟩) hk

lemma ok_unlock {lk : Lock ι} : order.Ok who (.release lk .ret) {lk} := by
  simp [Discipline.Ok]

lemma ok_waitLoop : order.Ok (some p) (waitLoop procs p) {.wait} := by
  refine ok_waitScan (fun pp => ⟨ok_reap pp, ok_reap pp⟩) ⟨ok_unlock, ?_⟩
  exact ok_killed .wait ⟨ok_unlock, ok_sleep (.inl rfl) ⟨rfl, rfl⟩⟩

lemma ok_waitSchedLoop : order.Ok (some p) (waitSchedLoop procs p) {.wait} := by
  refine ok_waitScan (fun pp => ⟨ok_reap pp, ok_reap pp, ok_reap pp, ok_reap pp⟩)
    ⟨ok_unlock, ok_sleep (.inl rfl) ⟨rfl, rfl⟩⟩

lemma ok_sleepLoop : order.Ok (some p) (sleepLoop p) {.ticks} :=
  ⟨ok_unlock, ok_killed .ticks ⟨ok_unlock, ok_sleep (.inr rfl) ⟨rfl, rfl⟩⟩⟩

lemma ok_reparent (hk : order.Ok who k {.wait}) : order.Ok who (reparent procs p k) {.wait} :=
  ok_forProc (fun _ _ hnext => ⟨ok_wakeup .wait hnext, hnext⟩) hk

lemma ok_exit : order.Ok (some p) (exit procs p) ∅ := by
  refine ⟨by simp, ok_reparent (ok_wakeup .wait (ok_acquire .wait ⟨by simp, ?_⟩))⟩
  have herase : (insert (Lock.proc p) {.wait} : Finset (Lock ι)).erase .wait = {.proc p} := by
    rw [pair_comm, erase_insert (by simp)]
  rw [herase]
  exact ⟨p, rfl, rfl, ok_release .empty rfl⟩

lemma ok_clockintr [DecidableEq κ] {cpu0 c : κ} {me : Option ι} (hk : order.Ok who k ∅) :
    order.Ok who (clockintr procs cpu0 c me k) ∅ := by
  unfold clockintr
  split
  · refine ⟨by simp, ok_updateTime .ticks (ok_wakeup .ticks ⟨by simp, ?_⟩)⟩
    simpa using hk
  · exact hk

def kept : Option ι → Finset (Lock ι)
  | none => ∅
  | some m => {.proc m}

lemma ok_fcfs {k : Option ι → Code ι} (hk : ∀ r, order.Ok who (k r) ∅) {todo : List ι}
    {minProc : Option ι} (hsorted : todo.Pairwise (· < ·))
    (hmin : ∀ m ∈ minProc, ∀ p ∈ todo, m < p) :
    order.Ok who (fcfs k todo minProc) (kept minProc) := by
  induction todo generalizing minProc with
  | nil =>
    cases minProc with
    | none => exact hk none
    | some m => exact ok_release .empty (hk (some m))
  | cons p todo ih =>
    obtain ⟨hlt, hsorted⟩ := List.pairwise_cons.mp hsorted
    have hnew : order.Ok who (fcfs k todo (some p)) {.proc p} := by
      refine ih hsorted ?_
      rintro m ⟨⟩
      exact hlt
    cases minProc with
    | none =>
      have hold : order.Ok who (fcfs k todo none) ∅ := ih hsorted (by simp)
      exact ok_acquire .empty ⟨hnew, ok_release .empty hold⟩
    | some m =>
      have hmp : m < p := hmin m rfl p (by simp)
      have hold : order.Ok who (fcfs k todo (some m)) {.proc m} := by
        refine ih hsorted ?_
        rintro _ ⟨⟩ q hq
        exact hmin m rfl q (by simp [hq])
      refine ⟨?_, ⟨by simp [kept], ?_⟩, ⟨by simp, ?_⟩⟩
      · simpa [kept, order, Lock.before] using hmp
      · have herase : (insert (Lock.proc p) (kept (some m))).erase (.proc m) = {.proc p} := by
          rw [kept, pair_comm, erase_insert (by simp [hmp.ne])]
        rw [herase]
        exact hnew
      · rw [erase_insert (by simp [kept, hmp.ne'])]
        exact hold

lemma ok_chooseNextProcess {k : Option ι → Code ι} (hsorted : procs.Pairwise (· < ·))
    (hk : ∀ r, order.Ok who (k r) ∅) : order.Ok who (chooseNextProcess procs k) ∅ := by
  refine ⟨ok_forProc (fun p next hnext => ⟨hk (some p), hnext⟩) (hk none),
    ok_fcfs hk hsorted (by simp), ?_, hk none⟩
  refine ok_forProc (fun p next hnext => ok_acquire .empty (ok_release .empty hnext))
    ⟨hk none, ok_forProc (fun p next hnext => ok_acquire .empty ?_) (hk none)⟩
  exact ⟨ok_release .empty (hk (some p)), ok_release .empty hnext⟩

lemma ok_dispatch (r : Option ι) : order.Ok none (dispatch r) ∅ := by
  cases r with
  | none => exact ⟨rfl, rfl⟩
  | some p =>
    have hrel : order.Ok none (.release (.proc p) (.goto .scheduler)) {.proc p} :=
      ok_release .empty ⟨rfl, rfl⟩
    exact ok_acquire .empty ⟨⟨rfl, rfl, hrel⟩, hrel⟩

lemma ok_code (hsorted : procs.Pairwise (· < ·)) (n : Block ι) :
    order.Ok (order.runner n) (code procs n) (order.entry n) := by
  cases n with
  | scheduler => exact ok_chooseNextProcess hsorted fun r => ⟨rfl, rfl⟩
  | chosen r => exact ok_dispatch r
  | waitLoop p => exact ok_waitLoop
  | waitSchedLoop p => exact ok_waitSchedLoop
  | sleepLoop p => exact ok_sleepLoop

lemma ok_call {f : Call} {k : Code ι} (h : call procs p f = some k) :
    order.Ok (some p) k ∅ := by
  cases f <;> cases h
  · exact ok_fork rfl
  · exact ok_exit
  · exact ⟨by simp, rfl, by simp [order]⟩
  · exact ⟨by simp, rfl, by simp [order]⟩
  · exact ok_kill rfl
  · exact ok_getptable rfl
  · exact ⟨by simp, rfl, by simp [order]⟩
  · exact ⟨by simp, by simp [Discipline.Ok]⟩
  · exact ok_killed .empty rfl
  · exact ok_killed .empty rfl
  · exact ok_yield rfl
  · exact ok_wakeup .empty rfl

lemma ok_enter [DecidableEq κ] {cpu0 : κ} (f : Call) (c : κ) (who : Option ι) (k k' : Code ι)
    (h : enter procs cpu0 f c who k = some k') (hk : order.Ok who k ∅) : order.Ok who k' ∅ := by
  unfold enter at h
  split at h
  · cases h
    exact ok_clockintr hk
  · cases h
    exact ok_wakeup .empty hk
  · cases h
    exact ok_yield hk
  · exact ok_call h
  · cases h

end

lemma boot_ok [LinearOrder ι] : order.Inv (boot : Machine κ (Lock ι) ι (Block ι)) := by
  refine ⟨fun c => ⟨∅, by simp [boot], rfl, rfl, rfl⟩, ?_⟩
  intro p k hp
  cases hp
  exact ok_release .empty rfl

/-- In no interleaving do CPUs wait for each other in a cycle, does a CPU request a lock that it
holds, or does `choose_next_process` return with a lock held. -/
theorem locks_never_cycle [DecidableEq κ] {n : ℕ} {cpu0 : κ}
    {m : Machine κ (Lock (Fin n)) (Fin n) (Block (Fin n))} {es : List (Event κ Call)}
    (h : Run (fun m e m' =>
      next (code (List.finRange n)) (enter (List.finRange n) cpu0) m e = some m') boot es m) :
    (∀ c, ¬Relation.TransGen m.WaitsFor c c) ∧
    (∀ c l, (m.agent c).cur.request = some l → m.lock l ≠ some c) ∧
    ∀ c r, (m.agent c).cur = .goto (.chosen r) → ∀ l, m.lock l ≠ some c := by
  have hinv : order.Inv m := by
    refine h.invariant (fun _ _ _ hm hn => ?_) boot_ok
    exact hm.next (ok_code (List.pairwise_lt_finRange n)) ok_enter hn
  refine ⟨hinv.no_cycle, ?_, ?_⟩
  · intro c l hreq hl
    exact order.irrefl l (hinv.before hreq hl)
  · intro c r hcur l hl
    have hmem := (hinv.entry hcur).mp hl
    simp [order] at hmem

attribute [local instance] neZero_two in
def twoScans : List (Event (Fin 2) Call) :=
  [.step 0, .branch 0 false, .branch 0 true, .step 0, .branch 0 true,
    .step 1, .branch 1 false, .branch 1 true]

theorem locks_never_cycle_scans : ∃ m : Machine (Fin 2) (Lock (Fin 2)) (Fin 2) (Block (Fin 2)),
    Run (fun m e m' =>
      next (code (List.finRange 2)) (enter (List.finRange 2) 0) m e = some m') boot twoScans m ∧
    (m.lock (.proc 0) = some 0 ∧ (m.agent 0).cur.request = some (.proc 1) ∧
      (m.agent 1).cur.request = some (.proc 0)) ∧
    m.WaitsFor 1 0 ∧ ¬Relation.TransGen m.WaitsFor 1 1 := by
  obtain ⟨m, hrun, hm⟩ := exists_run_of_replay
    (f := next (code (List.finRange 2)) (enter (List.finRange 2) (0 : Fin 2)))
    (G := fun _ _ => True)
    (P := fun m : Machine (Fin 2) (Lock (Fin 2)) (Fin 2) (Block (Fin 2)) =>
      m.lock (.proc 0) = some 0 ∧ (m.agent 0).cur.request = some (.proc 1) ∧
        (m.agent 1).cur.request = some (.proc 0))
    (s := boot) (l := twoScans) (by decide +kernel)
  have hrun := hrun.mono fun _ _ _ h => h.2
  obtain ⟨hlock, h0, h1⟩ := of_decide_eq_true hm
  exact ⟨m, hrun, ⟨hlock, h0, h1⟩, ⟨_, h1, hlock⟩, (locks_never_cycle hrun).1 1⟩

end Xv6.LockOrder
