import Xv6.Devices
import Xv6.MonitorKill
import Xv6.PipeFifo
import Xv6.ThreadMoves

/-! Whether a killed process may be left asleep in a loop that tests `killed()`. The test and
`sleep` take the lock of the process one after the other, so a kill that falls between them
finds the process neither asleep nor about to test again. -/
namespace Xv6

open Transition List Monitor

namespace Pipes

lemma careful_writeLoop (n : ℤ) (i : ℕ) : (writeLoop n i).Alert ∧ (writeLoop n i).Careful := by
  have hend : writeEnd.Alert ∧ writeEnd.Careful := ⟨fun _ => rfl, fun _ => rfl, trivial⟩
  unfold writeLoop
  split_ifs with hi
  · refine ⟨fun v => ?_, fun v => ?_⟩
    · simp only [Monitor.Prog.toSleep]
      split_ifs <;> rfl
    · dsimp only
      split_ifs
      · exact ⟨fun _ => rfl, trivial⟩
      · refine ⟨fun _ => rfl, ⟨fun _ => rfl, trivial⟩, fun v => ?_⟩
        dsimp only
        split_ifs
        · exact ⟨fun _ => rfl, trivial⟩
        · rintro (_ | ch)
          · exact hend
          · exact ⟨fun _ => rfl, trivial⟩
  · exact hend

lemma careful_readWait (n : ℤ) : (readWait n).Alert ∧ (readWait n).Careful := by
  unfold readWait
  refine ⟨fun v => ?_, fun v => ?_⟩
  · simp only [Monitor.Prog.toSleep]
    split_ifs <;> rfl
  · dsimp only
    split_ifs
    · exact ⟨fun _ => rfl, ⟨fun _ => rfl, trivial⟩, fun _ => rfl, trivial⟩
    · trivial

lemma careful_readLoop (n : ℤ) (out : List UInt8) :
    (readLoop n out).Alert ∧ (readLoop n out).Careful := by
  have hend : (readEnd out).Alert ∧ (readEnd out).Careful := ⟨fun _ => rfl, fun _ => rfl, trivial⟩
  unfold readLoop
  split_ifs with hn
  · refine ⟨fun v => ?_, fun v => ?_⟩
    · simp only [Monitor.Prog.toSleep]
      split_ifs <;> rfl
    · dsimp only
      split_ifs
      · exact hend.2
      · rintro (_ | ch)
        · exact hend
        · exact ⟨fun _ => rfl, trivial⟩
  · exact hend

lemma careful : code.Careful where
  block n := by
    cases n with
    | writeLoop n i => exact careful_writeLoop n i
    | readWait n => exact careful_readWait n
    | readLoop n out => exact careful_readLoop n out
  start a := by
    cases a with
    | pipewrite n | piperead n => exact ⟨fun _ => rfl, fun _ => rfl, trivial⟩
    | pipeclose writable => exact ⟨fun _ => rfl, fun _ => rfl, fun _ => rfl, trivial⟩

end Pipes

namespace Console

variable {target n : ℤ} {c : UInt8} {v : Cons} {a : Call} {x : Unit × Unit}

def discipline : Monitor.Account Cons Block Bool Call Unit Unit := .discipline

lemma readChar_in : discipline.In a (readChar target n c) v x := by
  unfold readChar
  split_ifs with hd hn
  · exact ⟨trivial, trivial, trivial⟩
  · exact ⟨trivial, trivial⟩
  · intro ok _
    dsimp only
    split_ifs
    · exact ⟨trivial, trivial⟩
    · trivial

lemma readWait_in : discipline.In a (readWait target n) v x := by
  simp only [readWait, Monitor.Account.In]
  split_ifs
  · exact ⟨⟨trivial, trivial⟩, trivial, fun _ _ _ => trivial⟩
  · exact ⟨trivial, readChar_in⟩

lemma typed_in : discipline.In a (typed c) v x := by
  refine ⟨trivial, ?_⟩
  simp only [Monitor.Account.In]
  split_ifs
  · exact ⟨trivial, trivial, trivial⟩
  · exact ⟨trivial, trivial⟩

lemma intr_in : discipline.In a (intr c) v x := by
  refine ⟨trivial, ?_⟩
  generalize (if c = carriageReturn then newline else c) = c'
  split_ifs with hp hu hh
  · exact ⟨trivial, trivial⟩
  · trivial
  · simp only [Monitor.Account.In]
    split_ifs
    · exact ⟨trivial, trivial, trivial⟩
    · exact ⟨trivial, trivial⟩
  · simp only [Monitor.Account.In]
    split_ifs
    · exact typed_in
    · exact ⟨trivial, trivial⟩

lemma verified : discipline.Verified code where
  block n a v x _ := by
    cases n with
    | readLoop target n =>
      simp only [code, block, readLoop]
      split_ifs
      · trivial
      · exact ⟨trivial, trivial⟩
    | readWait target n => exact readWait_in
    | killLine =>
      simp only [code, block, killLine, Monitor.Account.In]
      split_ifs
      · exact ⟨trivial, trivial⟩
      · exact ⟨trivial, trivial⟩
  start a := by
    cases a with
    | consoleread n => exact fun _ _ _ => trivial
    | consoleintr c => exact fun _ _ _ => intr_in

lemma careful_readChar : (readChar target n c).Alert ∧ (readChar target n c).Careful := by
  unfold readChar
  split_ifs with hd hn
  · exact ⟨fun _ => rfl, fun _ => rfl, trivial⟩
  · exact ⟨fun _ => rfl, fun _ => rfl, trivial⟩
  · refine ⟨fun _ => rfl, fun ok => ?_⟩
    dsimp only
    split_ifs
    · exact ⟨fun _ => rfl, fun _ => rfl, trivial⟩
    · exact ⟨fun _ => rfl, trivial⟩

lemma careful_readWait : (readWait target n).Alert ∧ (readWait target n).Careful := by
  unfold readWait
  refine ⟨fun v => ?_, fun v => ?_⟩
  · simp only [Monitor.Prog.toSleep]
    split_ifs
    · rfl
    · exact careful_readChar.1 _
  · dsimp only
    split_ifs
    · exact ⟨fun _ => rfl, ⟨fun _ => rfl, trivial⟩, fun _ => rfl, trivial⟩
    · exact careful_readChar.2

lemma careful_killLine : killLine.Alert ∧ killLine.Careful := by
  unfold killLine
  refine ⟨fun v => ?_, fun v => ?_⟩
  · simp only [Monitor.Prog.toSleep]
    split_ifs <;> rfl
  · dsimp only
    split_ifs
    · trivial
    · exact ⟨fun _ => rfl, trivial⟩

lemma careful_typed : (typed c).Alert ∧ (typed c).Careful := by
  unfold typed
  refine ⟨fun v => ?_, fun v => ?_⟩
  · simp only [Monitor.Prog.toSleep]
    split_ifs <;> rfl
  · dsimp only
    split_ifs
    · exact ⟨fun _ => rfl, trivial⟩
    · exact ⟨fun _ => rfl, trivial⟩

lemma careful_intr : (intr c).Alert ∧ (intr c).Careful := by
  unfold intr
  generalize (if c = carriageReturn then newline else c) = c'
  split_ifs with hp hu hh
  · exact ⟨fun _ => rfl, fun _ => rfl, trivial⟩
  · exact ⟨fun _ => rfl, trivial⟩
  · refine ⟨fun v => ?_, fun v => ?_⟩
    · simp only [Monitor.Prog.toSleep]
      split_ifs <;> rfl
    · dsimp only
      split_ifs
      · exact ⟨fun _ => rfl, trivial⟩
      · exact ⟨fun _ => rfl, trivial⟩
  · refine ⟨fun v => ?_, fun v => ?_⟩
    · simp only [Monitor.Prog.toSleep]
      split_ifs
      · exact careful_typed.1 _
      · rfl
    · dsimp only
      split_ifs
      · exact careful_typed.2
      · exact ⟨fun _ => rfl, trivial⟩

lemma careful : code.Careful where
  block n := by
    cases n with
    | readLoop target n =>
      simp only [code, block, readLoop]
      split_ifs
      · exact ⟨fun _ => rfl, trivial⟩
      · exact ⟨fun _ => rfl, fun _ => rfl, trivial⟩
    | readWait target n => exact careful_readWait
    | killLine => exact careful_killLine
  start a := by
    cases a with
    | consoleread n => exact ⟨fun _ => rfl, fun _ => rfl, trivial⟩
    | consoleintr c => exact ⟨fun _ => rfl, careful_intr⟩

end Console

namespace Clock

variable {n ticks0 ticks : BitVec 32} {a : Call} {x : Unit × Unit}

def discipline : Monitor.Account (BitVec 32) Block Unit Call Unit Unit := .discipline

lemma sleepLoop_in : discipline.In a (sleepLoop n ticks0) ticks x := by
  simp only [sleepLoop, Monitor.Account.In]
  split_ifs
  · exact ⟨⟨trivial, trivial⟩, trivial, fun _ _ _ => trivial⟩
  · exact ⟨trivial, trivial⟩

lemma verified : discipline.Verified code where
  block n a v x _ := by
    cases n with
    | sleepLoop n ticks0 => exact sleepLoop_in
  start a := by
    cases a with
    | sysSleep n => exact fun _ _ _ => trivial
    | sysUptime => exact fun _ _ _ => ⟨trivial, trivial⟩
    | clockintr => exact fun _ _ _ => ⟨trivial, trivial, trivial⟩

lemma careful_sleepLoop : (sleepLoop n ticks0).Alert ∧ (sleepLoop n ticks0).Careful := by
  unfold sleepLoop
  refine ⟨fun v => ?_, fun v => ?_⟩
  · simp only [Monitor.Prog.toSleep]
    split_ifs <;> rfl
  · dsimp only
    split_ifs
    · exact ⟨fun _ => rfl, ⟨fun _ => rfl, trivial⟩, fun _ => rfl, trivial⟩
    · exact ⟨fun _ => rfl, trivial⟩

lemma careful : code.Careful where
  block n := by
    cases n with
    | sleepLoop n ticks0 => exact careful_sleepLoop
  start a := by
    cases a with
    | sysSleep n => exact ⟨fun _ => rfl, fun _ => rfl, fun _ => trivial⟩
    | sysUptime => exact ⟨fun _ => rfl, fun _ => rfl, fun _ => ⟨fun _ => rfl, trivial⟩⟩
    | clockintr => exact ⟨fun _ => rfl, fun _ => rfl, fun _ => rfl, trivial⟩

end Clock

namespace Scheduler

/-- The thread is between the test of `killed` in `wait` or `wait_sched` and its `sleep`. -/
def Thread.waitToSleep {ι : Type*} : Thread ι → Bool
  | ⟨.waitLock, .acquire (.sleep _ _)⟩ => true
  | _ => false

section
variable {ι κ : Type*} [DecidableEq ι] {procs : List ι} {init : ι} {s t : Sys ι κ} {e : Event ι κ}
  {a : Option κ} {c : κ} {p q r : ι}

def victim (s : Sys ι κ) : Event ι κ → Option ι
  | .step c =>
      match s.cpu c with
      | .thread p =>
          match s.thread p with
          | ⟨.killHold q pid _, .none⟩ => if s.pid q = pid then some q else none
          | _ => none
      | _ => none
  | _ => none

/-- Nobody is killed in `wait` or `wait_sched` between the test and the sleep. -/
def KillBefore (s : Sys ι κ) (e : Event ι κ) : Prop :=
  (victim s e).all fun q => !(s.thread q).waitToSleep

structure Thread.Heeds (x : Thread ι) (state : ProcState) : Prop where
  acquire : ∀ ch lk, x.sw ≠ .acquire (.sleep ch lk)
  set : ∀ ch lk, x.sw ≠ .set (.sleep ch lk)
  sched : ∀ w, x.sw = .sched w → state ≠ .sleeping
  off : ∀ w, x.sw = .off w → state ≠ .sleeping

lemma killBody_killed (s : Sys ι κ) (q : ι) :
    (s.killBody q).killed = Function.update s.killed q true := by
  unfold Sys.killBody
  split <;> rfl

lemma killBody_awake (s : Sys ι κ) (q : ι) : (s.killBody q).state q ≠ .sleeping := by
  unfold Sys.killBody
  split
  next => simp [Sys.setState]
  next h => exact h

variable {d u : Thread ι} {w : Option κ} {T : Table ι}

lemma Moves.killed_cases
    (h : Moves procs init s e c p d u w T) (hk : T.killed r = true) :
    s.killed r = true ∨ T.state r ≠ .sleeping ∧
      ∃ pid todo, e = .step c ∧ d = ⟨.killHold r pid todo, .none⟩ ∧ s.pid r = pid := by
  have hfree : ∀ q, (s.freeproc q).killed r = true → s.killed r = true := by
    intro q hq
    by_cases hr : r = q
    · simp [Sys.freeproc, hr] at hq
    · simpa [Sys.freeproc, hr] using hq
  cases h with
  | @killDone q pid todo hpid he =>
    by_cases hr : r = q
    · subst hr
      exact .inr ⟨killBody_awake s r, pid, todo, he, rfl, hpid⟩
    · refine .inl ?_
      simpa [Sys.table, killBody_killed, hr] using hk
  | abortFound | abortCopy => exact .inl (hfree _ hk)
  | waitReap => exact .inl (hfree _ hk)
  | @wakeBody q ch todo x he =>
    refine .inl ?_
    unfold Sys.wakeBody at hk
    split at hk <;> exact hk
  | @switchSet x w he =>
    cases w with
    | sleep ch lk => cases lk <;> exact .inl hk
    | _ => exact .inl hk
  | @switchBack x w he => cases w <;> exact .inl hk
  | _ => exact .inl hk

lemma Control.killed_cases (h : Control procs init s e t) (hk : t.killed r = true) :
    s.killed r = true ∨ t.state r ≠ .sleeping ∧ victim s e = some r := by
  have hkT : t.table.killed r = true := hk
  cases h with
  | quiet _ hout _ _ _ _ _ =>
    refine .inl ?_
    generalize t.table = T at hout hkT
    cases hout <;> exact hkT
  | dispatch _ _ _ hT _ _ _ _ =>
    rw [hT] at hkT
    exact .inl hkT
  | move _ hc hm _ _ _ _ =>
    rcases hm.killed_cases hkT with hs | ⟨hstate, pid, todo, he, hd, hpid⟩
    · exact .inl hs
    · refine .inr ⟨hstate, ?_⟩
      rw [he]
      simp [victim, hc, hd, hpid]

omit [DecidableEq ι] in
lemma victim_at [DecidableEq ι] (hv : victim s e = some r) :
    ∃ c p pid todo, At s c p (.killHold r pid todo) := by
  unfold victim at hv
  split at hv
  next c =>
    split at hv
    next p hc =>
      split at hv
      next q pid todo hth =>
        split_ifs at hv with hpid
        cases hv
        exact ⟨c, p, pid, todo, hc, by rw [hth], by rw [hth]⟩
      next => cases hv
    next => cases hv
  next => cases hv

lemma Inv.victim_free (hI : Inv s) (hv : victim s e = some r) (hsw : (s.thread r).sw ≠ .none) :
    r ∉ (s.thread r).held r := by
  intro hmem
  obtain ⟨c, p, pid, todo, hat⟩ := victim_at hv
  have hkill : r ∈ held s c := mem_held_of_task hat.1 hat.2.1 (by rw [hat.2.2]; rfl)
  have hoff : ∃ c', s.cpu c' = .thread r := by
    by_contra hno
    push Not at hno
    obtain ⟨w, hw⟩ := hI.table.off r hno
    simp [Thread.held, hw] at hmem
  obtain ⟨c', hc'⟩ := hoff
  have hown : r ∈ held s c' := by simpa [held, hc'] using hmem
  have hcc := hI.locks.owner_eq hkill hown
  subst hcc
  have hpr := hat.1.symm.trans hc'
  cases hpr
  exact hsw hat.2.1

/-- A killed process in `wait` or `wait_sched` is not on its way to sleep. -/
def WaitHeeds (s : Sys ι κ) : Prop :=
  ∀ r, s.killed r = true → (s.thread r).task = .waitLock → (s.thread r).Heeds (s.state r)

omit [DecidableEq ι] in
lemma Thread.Heeds.mono {x : Thread ι} {y z : ProcState} (h : x.Heeds y)
    (hz : z = .sleeping → y = .sleeping) : x.Heeds z :=
  ⟨h.acquire, h.set, fun w hw hs => h.sched w hw (hz hs), fun w hw hs => h.off w hw (hz hs)⟩

omit [DecidableEq ι] in
lemma Thread.heeds_none (x : Task ι) (y : ProcState) : (⟨x, .none⟩ : Thread ι).Heeds y :=
  ⟨nofun, nofun, nofun, nofun⟩

section
variable (h : Moves procs init s e c p d u w T)
include h

lemma Moves.heeds (hu : u.task = .waitLock) (hsleep : ∀ b, d ≠ ⟨.wait [] b, .none⟩)
    (hd : d.task = .waitLock → d.Heeds (s.state p)) : u.Heeds (T.state p) := by
  cases h with
  | waitSleep => exact absurd rfl (hsleep _)
  | @switchLock x w he =>
    refine ⟨by simp, ?_, by simp, by simp⟩
    rintro ch lk hw
    cases hw
    exact (hd hu).acquire ch lk rfl
  | @switchSet x w he =>
    refine ⟨by simp, by simp, ?_, by simp⟩
    rintro w' hw
    cases hw
    cases w with
    | sleep ch lk => exact absurd rfl ((hd hu).set ch lk)
    | _ => simp [Sys.goOff, Sys.table, Sys.setState, Sys.releaseWait, Why.state]
  | @switchOff x w he =>
    refine ⟨by simp, by simp, by simp, ?_⟩
    rintro w' hw
    cases hw
    exact (hd hu).sched w rfl
  | callYield => exact ⟨by simp, by simp, by simp, by simp⟩
  | callWait => exact Thread.heeds_none _ _
  | switchBack => exact Thread.heeds_none _ _
  | _ => cases hu

lemma Moves.not_wait_of_kill {pid : ℤ} {todo : List ι} (hd : d = ⟨.killHold q pid todo, .none⟩) :
    u.task ≠ .waitLock := by
  cases h <;> simp_all

lemma Moves.step_of_test {b : Bool} (hd : d = ⟨.wait [] b, .none⟩) (hu : u.task = .waitLock) :
    e = .step c := by
  cases h <;> simp_all

end

lemma wait_test [DecidableEq κ] {b : Bool} (hat : At s c p (.wait [] b))
    (ht : next procs init s (.step c) = some t) (hw : (t.thread p).task = .waitLock) :
    s.killed p = false := by
  obtain ⟨hc, hsw, htask⟩ := hat
  simp only [next, cpuStep, hc, threadStep, hsw, htask, taskStep] at ht
  split_ifs at ht with hb
  · exact hb.2
  · cases ht
    simp [Sys.setTask] at hw

lemma WaitHeeds.place (hI : Inv s) (h : WaitHeeds s) (hg : KillBefore s e)
    (hcontrol : Control procs init s e t) (hk : t.killed r = true)
    (htask : (s.thread r).task = .waitLock) (hstate : t.state r = .sleeping → s.state r = .sleeping) :
    (s.thread r).Heeds (t.state r) := by
  rcases hcontrol.killed_cases hk with hs | ⟨hawake, hv⟩
  · exact (h r hs htask).mono hstate
  · have hguard : (s.thread r).waitToSleep = false := by simpa [KillBefore, hv] using hg
    refine ⟨?_, ?_, fun _ _ => hawake, fun _ _ => hawake⟩
    · intro ch lk hsw
      have hth : s.thread r = ⟨.waitLock, .acquire (.sleep ch lk)⟩ := by
        rw [← htask, ← hsw]
      rw [hth] at hguard
      cases hguard
    · intro ch lk hsw
      have hfree := hI.victim_free hv (by simp [hsw])
      simp [Thread.held, hsw] at hfree

omit [DecidableEq ι] in
lemma Thread.Heeds.switchIn {x : Thread ι} {y : ProcState} (h : x.Heeds y) :
    (⟨x.task, Scheduler.switchIn x.sw⟩ : Thread ι).Heeds y := by
  obtain ⟨task, sw⟩ := x
  cases sw with
  | off w => exact ⟨nofun, nofun, nofun, nofun⟩
  | _ => exact h

omit [DecidableEq ι] in
lemma Shift.sleeping {x : ProcState} (h : Shift s a r x) (hx : x = .sleeping)
    (hother : ∀ c, a = some c → s.cpu c ≠ .thread r) : s.state r = .sleeping := by
  cases h with
  | same => exact hx
  | off ha hc _ => exact absurd hc (hother _ ha)
  | _ => cases hx

lemma WaitHeeds.step [DecidableEq κ] (hI : Inv s) (h : WaitHeeds s) (hg : KillBefore s e)
    (ht : next procs init s e = some t) : WaitHeeds t := by
  intro r hk htask
  have hcontrol := next_control ht
  rcases hcontrol.thread_cases r with ⟨hplace, a, heffect, hother⟩ | ⟨_, _, _, _, hth⟩ |
    ⟨c, ha, hc, hm⟩
  · have hstate : t.state r = .sleeping → s.state r = .sleeping :=
      fun hs => (heffect.shift r).sleeping hs hother
    rcases hplace with hth | ⟨hrun, hth⟩
    · rw [hth] at htask ⊢
      exact h.place hI hg hcontrol hk htask hstate
    · rw [hth] at htask ⊢
      exact (h.place hI hg hcontrol hk htask hstate).switchIn
  · rw [hth] at htask
    cases htask
  · have hs : s.killed r = true := by
      rcases hm.killed_cases hk with hs | ⟨_, pid, todo, _, hd, _⟩
      · exact hs
      · exact absurd htask (hm.not_wait_of_kill hd)
    refine hm.heeds htask ?_ (h r hs)
    intro b hd
    have hat : At s c r (.wait [] b) := ⟨hc, by rw [hd], by rw [hd]⟩
    rw [hm.step_of_test hd htask] at ht
    have hfree := wait_test hat ht htask
    rw [hs] at hfree
    cases hfree

lemma wait_killed_not_sleeping [DecidableEq κ] {es : List (Event ι κ)}
    (h : Run (Guarded (next procs init) KillBefore) (boot init) es s)
    (hk : s.killed p = true) (hp : (s.thread p).task = .waitLock) : s.state p ≠ .sleeping := by
  have hinv : Inv s ∧ WaitHeeds s := by
    refine h.invariant (I := fun s => Inv s ∧ WaitHeeds s) ?_ ⟨boot_inv init, nofun⟩
    rintro s e t ⟨hI, hW⟩ ⟨hg, ht⟩
    exact ⟨inv_step hI ht, hW.step hI hg ht⟩
  obtain ⟨hI, hW⟩ := hinv
  have hheeds := hW p hk hp
  intro hs
  by_cases hc : ∃ c, s.cpu c = .thread p
  · obtain ⟨c, hc⟩ := hc
    have hok := hI.table.thread c p hc
    unfold Thread.ok at hok
    split at hok
    next w hw => exact hheeds.sched w hw hs
    next => exact hok
    next => rw [hs] at hok; cases hok
  · push Not at hc
    obtain ⟨w, hw⟩ := hI.table.off p hc
    exact hheeds.off w hw hs

instance (s : Sys ι κ) (e : Event ι κ) : Decidable (KillBefore s e) :=
  inferInstanceAs (Decidable (_ = true))

end

end Scheduler

section
variable {ι : Type} [DecidableEq ι]

/-- If no kill falls between a test of `killed()` and the sleep after it, a killed process is not
SLEEPING: not in `pipewrite` or `piperead`, not in `consoleread`, not in `sys_sleep`, and not in
`wait` or `wait_sched`. -/
theorem killed_not_left_asleep (κ : Type) [DecidableEq κ] (procs : List ι) (init : ι) :
    (∀ data es (s : Pipes.Sys ι) p,
      Run (Guarded (next Pipes.code procs) Monitor.KillBefore)
        (Monitor.boot (Pipes.pipealloc data)) es s →
      s.killed p = true → s.status p ≠ .sleeping) ∧
    (∀ es (s : Console.Sys ι) p,
      Run (Guarded (next Console.code procs) Monitor.KillBefore)
        (Monitor.boot Console.consoleinit) es s →
      s.killed p = true → s.status p ≠ .sleeping) ∧
    (∀ ticks es (s : Clock.Sys ι) p,
      Run (Guarded (next Clock.code procs) Monitor.KillBefore)
        (Monitor.boot ticks) es s →
      s.killed p = true → s.status p ≠ .sleeping) ∧
    ∀ es (s : Scheduler.Sys ι κ) p,
      Run (Guarded (Scheduler.next procs init) Scheduler.KillBefore)
        (Scheduler.boot init) es s →
      s.killed p = true → (s.thread p).task = .waitLock → s.state p ≠ .sleeping := by
  refine ⟨?_, ?_, ?_, ?_⟩
  · intro data es s p h
    have hroom : Pipes.Room (Pipes.pipealloc data) := Pipes.room_pipealloc data
    exact killed_not_sleeping (g := ⟨fun _ => (), ()⟩) Pipes.careful Pipes.ring_verified
      (fun _ => trivial) hroom h
  · intro es s p h
    exact killed_not_sleeping (g := ⟨fun _ => (), ()⟩) Console.careful Console.verified
      (fun _ => trivial) trivial h
  · intro ticks es s p h
    exact killed_not_sleeping (g := ⟨fun _ => (), ()⟩) Clock.careful Clock.verified
      (fun _ => trivial) trivial h
  · intro es s p h
    exact Scheduler.wait_killed_not_sleeping h

end

def waitKilled : List (Scheduler.Event (Fin 2) Unit) :=
  replicate 6 (.step ()) ++ .call () .fork :: replicate 10 (.step ()) ++
    .call () .wait :: replicate 17 (.step ()) ++ .call () (.kill 1) ::
      replicate 2 (.step ())

/-- In each of the loops a sleeper is killed. -/
theorem killed_not_left_asleep_loops :
    (∃ s : Pipes.Sys (Fin 2),
      Run (Guarded (next Pipes.code (finRange 2))
        Monitor.KillBefore) (Monitor.boot (Pipes.pipealloc fun _ => 0))
        (.call 0 (.piperead 1) :: replicate 8 (.run 0) ++ [.kill 0]) s ∧
      s.killed 0 = true ∧ s.status 0 ≠ .sleeping) ∧
    (∃ s : Console.Sys (Fin 2),
      Run (Guarded (next Console.code (finRange 2))
        Monitor.KillBefore) (Monitor.boot Console.consoleinit)
        (.call 0 (.consoleread 1) :: replicate 9 (.run 0) ++ [.kill 0]) s ∧
      s.killed 0 = true ∧ s.status 0 ≠ .sleeping) ∧
    (∃ s : Clock.Sys (Fin 2),
      Run (Guarded (next Clock.code (finRange 2))
        Monitor.KillBefore) (Monitor.boot 0)
        (.call 0 (.sysSleep 1) :: replicate 9 (.run 0) ++ [.kill 0]) s ∧
      s.killed 0 = true ∧ s.status 0 ≠ .sleeping) ∧
    ∃ s : Scheduler.Sys (Fin 2) Unit,
      Run (Guarded (Scheduler.next (finRange 2) 0)
        Scheduler.KillBefore) (Scheduler.boot 0) waitKilled s ∧
      (s.killed 0 = true ∧ (s.thread 0).task = .waitLock) ∧ s.state 0 ≠ .sleeping := by
  obtain ⟨hpipe, hconsole, hclock, hwait⟩ :=
    killed_not_left_asleep Unit (finRange 2) (0 : Fin 2)
  refine ⟨?_, ?_, ?_, ?_⟩
  · obtain ⟨s, hrun, hs⟩ := exists_run_of_replay
      (f := next Pipes.code (finRange 2)) (G := Monitor.KillBefore)
      (P := fun s => s.killed 0) (s := Monitor.boot (Pipes.pipealloc fun _ => 0))
      (l := .call 0 (.piperead 1) :: replicate 8 (.run 0) ++ [.kill 0]) (by decide +kernel)
    exact ⟨s, hrun, hs, hpipe _ _ s 0 hrun hs⟩
  · obtain ⟨s, hrun, hs⟩ := exists_run_of_replay
      (f := next Console.code (finRange 2)) (G := Monitor.KillBefore)
      (P := fun s => s.killed 0) (s := Monitor.boot Console.consoleinit)
      (l := .call 0 (.consoleread 1) :: replicate 9 (.run 0) ++ [.kill 0])
      (by decide +kernel)
    exact ⟨s, hrun, hs, hconsole _ s 0 hrun hs⟩
  · obtain ⟨s, hrun, hs⟩ := exists_run_of_replay
      (f := next Clock.code (finRange 2)) (G := Monitor.KillBefore)
      (P := fun s => s.killed 0) (s := Monitor.boot 0)
      (l := .call 0 (.sysSleep 1) :: replicate 9 (.run 0) ++ [.kill 0]) (by decide +kernel)
    exact ⟨s, hrun, hs, hclock _ _ s 0 hrun hs⟩
  · obtain ⟨s, hrun, hs⟩ := exists_run_of_replay
      (f := Scheduler.next (finRange 2) (0 : Fin 2)) (G := Scheduler.KillBefore)
      (P := fun s : Scheduler.Sys (Fin 2) Unit => s.killed 0 = true ∧
        (s.thread 0).task = .waitLock)
      (s := Scheduler.boot 0) (l := waitKilled) (by decide +kernel)
    obtain ⟨hk, htask⟩ := of_decide_eq_true hs
    exact ⟨s, hrun, ⟨hk, htask⟩, hwait _ s 0 hrun hk htask⟩

attribute [local instance] neZero_two in
def readMissesKill : List (Pipes.Event (Fin 2)) :=
  .call 0 (.piperead 1) :: Pipes.steps 0 4 ++ .kill 0 :: Pipes.steps 0 4

theorem killed_reader_sleeps : ∃ s : Pipes.Sys (Fin 2),
    Run (fun s e t => next Pipes.code (finRange 2) s e = some t)
      (Monitor.boot (Pipes.pipealloc fun _ => 0)) readMissesKill s ∧
    s.killed 0 = true ∧ s.status 0 = .sleeping ∧ s.chan 0 = some .nread ∧
    ∀ q, (s.pc q).wakes = false := by
  obtain ⟨s, hrun, hs⟩ := exists_run_of_replay
    (f := next Pipes.code (finRange 2)) (G := fun _ _ => True)
    (P := fun s : Pipes.Sys (Fin 2) => s.killed 0 = true ∧ s.status 0 = .sleeping ∧
      s.chan 0 = some .nread ∧ ∀ q, (s.pc q).wakes = false)
    (s := Monitor.boot (Pipes.pipealloc fun _ => 0)) (l := readMissesKill) (by decide +kernel)
  exact ⟨s, hrun.mono fun _ _ _ h => h.2, of_decide_eq_true hs⟩

end Xv6
