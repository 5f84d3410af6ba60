import Xv6.SchedulerFairness
import Xv6.Creation

/-! `SCHED_FCFS` on one CPU. Creation times are clock ticks, and `choose_next_process` takes
the first slot among those with the least one, so processes made in one tick run in the order
of their slots, which is not the order of their creation once slots are reused. -/
namespace Xv6.Scheduler

open Transition List

section effect
variable {ι κ : Type*} [DecidableEq ι] {init : ι} {s : Sys ι κ} {a : Option κ} {T : Table ι}
  {r : ι}

lemma Effect.of_none (he : Effect init s none T) :
    T.pid = s.pid ∧ T.nextpid = s.nextpid := by
  cases he <;> exact ⟨rfl, rfl⟩

end effect

section
variable {n : ℕ} {init : Fin n} {s t : Sys (Fin n) Unit} {e : Event (Fin n) Unit} {p q np : Fin n}

/-- A wakeup by an interrupt that comes after the scan has passed the slot, or a change of
the mode while the CPU is in `scheduler()`. -/
def disturbs (s : Sys (Fin n) Unit) : Event (Fin n) Unit → Bool
  | .intr _ q _ =>
      match s.cpu () with
      | .choose (.fcfs todo _) => q ∉ todo
      | .chosen _ => true
      | _ => false
  | .setSched _ =>
      match s.cpu () with
      | .thread _ => false
      | _ => true
  | _ => false

/-- A process gets a creation time only when those that already have the same one are in
earlier slots. -/
def SlotsInOrder (s : Sys (Fin n) Unit) (e : Event (Fin n) Unit) : Prop :=
  (∀ np, creates s e = some np → ∀ q, q ≠ np → s.state q ≠ .unused → s.state q ≠ .zombie →
    s.creationTime q = s.ticks → q < np) ∧ disturbs s e = false

instance : Decidable (SlotsInOrder s e) := by unfold SlotsInOrder; infer_instance

def Before (T : Table (Fin n)) (p q : Fin n) : Prop :=
  T.creationTime p < T.creationTime q ∨ T.creationTime p = T.creationTime q ∧ p < q

structure AgeInv (s : Sys (Fin n) Unit) : Prop where
  order : ∀ p q, Created s p → Created s q → s.pid p < s.pid q → Before s.table p q
  past : ∀ p, Created s p → s.creationTime p ≤ s.ticks
  newest : ∀ r np, (s.thread r).task = .allocprocFound np → s.pid np + 1 = s.nextpid

lemma Moves.newest {d u : Thread (Fin n)} {w : Option Unit} {T : Table (Fin n)}
    (hm : Moves (finRange n) init s e () p d u w T) (hd : d.task.held ≠ [] → d.sw = .none)
    (hu : u.task = .allocprocFound np) : T.pid np + 1 = T.nextpid := by
  cases hm with
  | alloc _ _ =>
    cases hu
    simp [Sys.table, Sys.allocprocFound]
  | switchLock _ | switchSet _ | switchOff _ | switchBack _ =>
    cases hu
    have hsw := hd (by simp [Task.held])
    cases hsw
  | callYield hx _ =>
    cases hu
    cases hx
  | _ => cases hu

lemma AgeInv.newest_step (h : AgeInv s) (hI : Inv s)
    (ht : next (finRange n) init s e = some t) {r : Fin n}
    (hr : (t.thread r).task = .allocprocFound np) : t.pid np + 1 = t.nextpid := by
  have hctl := next_control ht
  have hheld : ∀ {x : Fin n}, (s.thread x).task.held ≠ [] → (s.thread x).sw = .none := by
    intro x hx
    by_contra hsw
    exact hx (hI.table.saved x hsw)
  -- the thread holds a lock, so it is on the CPU and the others wait
  have hstay : (s.thread r).task = .allocprocFound np → t.pid np + 1 = t.nextpid := by
    intro hs
    obtain ⟨c, hat⟩ := hI.at_of_held (p := r) (by rw [hs]; simp [Task.held])
    rcases hctl.on_cpu hI hat.1 with ⟨hno, _⟩ | ⟨_, hm, _⟩
    · have ha : e.cpu = none := by
        cases h : e.cpu with
        | none => rfl
        | some c' => exact absurd h hno
      have he := hctl.effect
      rw [ha] at he
      obtain ⟨hpid, hnext⟩ := he.of_none
      have hnew := h.newest r np hs
      rw [show t.pid = s.pid from hpid, show t.nextpid = s.nextpid from hnext]
      exact hnew
    · exact hm.newest hheld hr
  rcases hctl.thread_cases r with ⟨hth | ⟨_, hth⟩, _⟩ | ⟨_, _, _, _, hth⟩ | ⟨c, _, _, hm⟩
  · exact hstay (by rw [← hth]; exact hr)
  · exact hstay (by rw [hth] at hr; exact hr)
  · rw [hth] at hr
    cases hr
  · exact hm.newest hheld hr

lemma AgeInv.step (h : AgeInv s) (hI : Inv s) (hP : PidInv s.table) (hG : SlotsInOrder s e)
    (ht : next (finRange n) init s e = some t) : AgeInv t := by
  have hticks : s.ticks ≤ t.ticks := (next_effect ht).ticks_le
  -- the newest process has the largest pid
  have hmax : ∀ {np q}, creates s e = some np → s.pid q ≤ s.pid np := by
    intro np q hc
    obtain ⟨r, hr⟩ := creates_task hc
    have hnew := h.newest r np hr
    have hlt : s.pid q < s.nextpid := (hP.range q).2
    omega
  refine ⟨?_, ?_, fun r np hr => h.newest_step hI ht hr⟩
  · intro p q hp hq hlt
    change t.creationTime p < t.creationTime q ∨ t.creationTime p = t.creationTime q ∧ p < q
    rcases created_cases hI ht hp with ⟨hps, hpid, hct⟩ | ⟨hnew, hpid, hct⟩
    · rcases created_cases hI ht hq with ⟨hqs, hpid', hct'⟩ | ⟨hnew', hpid', hct'⟩
      · rw [hct, hct']
        exact h.order p q hps hqs (by omega)
      · rw [hct, hct']
        rcases (h.past p hps).lt_or_eq with hpast | hpast
        · exact .inl hpast
        · have hne : p ≠ q := by
            rintro rfl
            omega
          exact .inr ⟨hpast, hG.1 q hnew' p hne hps.used hps.alive hpast⟩
    · have hle : t.pid q ≤ s.pid p := by
        rcases created_cases hI ht hq with ⟨_, hpid', _⟩ | ⟨_, hpid', _⟩ <;>
          exact hpid' ▸ hmax hnew
      omega
  · intro p hp
    rcases created_cases hI ht hp with ⟨hps, _, hct⟩ | ⟨_, _, hct⟩
    · rw [hct]
      exact (h.past p hps).trans hticks
    · rw [hct]
      exact hticks

lemma boot_age (init : Fin n) : AgeInv (boot init : Sys (Fin n) Unit) := by
  refine ⟨?_, fun _ _ => le_rfl, ?_⟩
  · intro p q hp hq hlt
    have hinit : ∀ {x}, Created (boot init : Sys (Fin n) Unit) x → x = init := by
      intro x hx
      by_contra hne
      exact hx.used (by simp [boot, hne])
    rw [hinit hp, hinit hq] at hlt
    exact absurd hlt (lt_irrefl _)
  · intro r np hr
    simp [boot] at hr

/-- `m` is RUNNABLE, and the scan prefers it to every RUNNABLE process outside `rest`. -/
def Candidate (T : Table (Fin n)) (m : Fin n) (rest : List (Fin n)) : Prop :=
  T.state m = .runnable ∧ ∀ q, T.state q = .runnable → q ∈ rest ∨ q = m ∨ Before T m q

def Cpu.Scanned (T : Table (Fin n)) : Cpu (Fin n) → Prop
  | .choose .testRoundRobin | .choose .testFcfs => True
  | .choose (.fcfs todo none) =>
      todo.Pairwise (· < ·) ∧ ∀ q, T.state q = .runnable → q ∈ todo
  | .choose (.fcfs todo (some m)) => (m :: todo).Pairwise (· < ·) ∧ Candidate T m todo
  | .choose (.fcfsHold r todo none) =>
      (r :: todo).Pairwise (· < ·) ∧ ∀ q, T.state q = .runnable → q ∈ r :: todo
  | .choose (.fcfsHold r todo (some m)) =>
      (m :: r :: todo).Pairwise (· < ·) ∧ Candidate T m (r :: todo)
  | .choose _ => False
  | .chosen m | .recheck m => Candidate T m []
  | _ => True

theorem Cpu.Scanned.congr {T U : Table (Fin n)} {x : Cpu (Fin n)} (h : x.Scanned T)
    (hstate : U.state = T.state) (hct : U.creationTime = T.creationTime) : x.Scanned U := by
  have hcand : ∀ {m rest}, Candidate T m rest → Candidate U m rest := by
    intro m rest hc
    unfold Candidate Before at hc ⊢
    rw [hstate, hct]
    exact hc
  cases x with
  | choose scan =>
    cases scan with
    | fcfs todo minProc | fcfsHold r todo minProc =>
      cases minProc with
      | none => exact ⟨h.1, by rw [hstate]; exact h.2⟩
      | some m => exact ⟨h.1, hcand h.2⟩
    | testRoundRobin | testFcfs => trivial
    | _ => exact h.elim
  | chosen m | recheck m => exact hcand h
  | _ => trivial

lemma Candidate.replace {T : Table (Fin n)} {m r : Fin n} {todo : List (Fin n)}
    (h : Candidate T m (r :: todo)) (hr : T.state r = .runnable)
    (hlt : T.creationTime r < T.creationTime m) : Candidate T r todo := by
  refine ⟨hr, ?_⟩
  intro q hq
  rcases h.2 q hq with hmem | rfl | hbef
  · exact (mem_cons.mp hmem).elim (fun h => .inr (.inl h)) .inl
  · exact .inr (.inr (.inl hlt))
  · refine .inr (.inr (.inl ?_))
    rcases hbef with hbef | ⟨hbef, _⟩ <;> omega

lemma Candidate.keep {T : Table (Fin n)} {m r : Fin n} {todo : List (Fin n)}
    (h : Candidate T m (r :: todo)) (hmr : m < r)
    (hr : ¬ (T.state r = .runnable ∧ T.creationTime r < T.creationTime m)) :
    Candidate T m todo := by
  refine ⟨h.1, ?_⟩
  intro q hq
  rcases h.2 q hq with hmem | hrest
  · rcases mem_cons.mp hmem with rfl | hmem
    · refine .inr (.inr ?_)
      have hge : T.creationTime m ≤ T.creationTime q := by
        by_contra hlt
        exact hr ⟨hq, by omega⟩
      rcases hge.lt_or_eq with hlt | heq
      · exact .inl hlt
      · exact .inr ⟨heq, hmr⟩
    · exact .inl hmem
  · exact .inr hrest

theorem Scans.scanned {κ : Type*} {s : Sys (Fin n) κ} {scan : Scan (Fin n)} {x : Cpu (Fin n)}
    (hx : Scans (finRange n) s scan x) (hmode : s.schedMode = .fcfs)
    (h : (Cpu.choose scan).Scanned s.table) : x.Scanned s.table := by
  cases hx with
  | roundRobin hr =>
    rw [hmode] at hr
    cases hr
  | notFcfs hr => exact absurd hmode hr
  | notRoundRobin _ => trivial
  | fcfs _ => exact ⟨pairwise_finRange, fun q _ => mem_finRange q⟩
  | fcfsEnd => trivial
  | fcfsTake => exact h.2
  | @fcfsLock r todo minProc => cases minProc <;> exact h
  | @fcfsFirst r todo hr =>
    refine ⟨h.1, hr, ?_⟩
    intro q hq
    exact (mem_cons.mp (h.2 q hq)).elim (fun h => .inr (.inl h)) .inl
  | @fcfsSkip r todo hr =>
    refine ⟨(pairwise_cons.mp h.1).2, ?_⟩
    intro q hq
    refine (mem_cons.mp (h.2 q hq)).resolve_left ?_
    rintro rfl
    exact hr hq
  | fcfsOlder hr => exact ⟨(pairwise_cons.mp h.1).2, h.2.replace hr.1 hr.2⟩
  | @fcfsKeep r todo m hr =>
    obtain ⟨hlt, hrest⟩ := pairwise_cons.mp h.1
    refine ⟨pairwise_cons.mpr ⟨fun q hq => hlt q (mem_cons_of_mem _ hq), ?_⟩, ?_⟩
    · exact (pairwise_cons.mp hrest).2
    · exact h.2.keep (hlt r mem_cons_self) hr
  | _ => exact h.elim

lemma scanned_wake {chan : Chan (Fin n)} (h : (s.cpu ()).Scanned s.table)
    (hheld : held s () = []) (hG : disturbs s (.intr () q chan) = false) :
    (s.cpu ()).Scanned (s.setState q .runnable).table := by
  cases hc : s.cpu () with
  | choose scan =>
    rw [hc] at h
    cases scan with
    | fcfs todo minProc =>
      cases minProc with
      | none =>
        refine ⟨h.1, ?_⟩
        intro r hr
        by_cases hrq : r = q
        · have hq : q ∈ todo := by simpa [disturbs, hc] using hG
          exact hrq ▸ hq
        · exact h.2 r (by simpa [Sys.table, Sys.setState, hrq] using hr)
      | some m => simp [held, hc, Cpu.held] at hheld
    | fcfsHold r todo minProc => simp [held, hc, Cpu.held] at hheld
    | testRoundRobin | testFcfs => trivial
    | _ => exact h.elim
  | chosen m => simp [disturbs, hc] at hG
  | recheck m => simp [held, hc, Cpu.held] at hheld
  | _ => trivial

def Scanned (s : Sys (Fin n) Unit) : Prop := s.schedMode = .fcfs → (s.cpu ()).Scanned s.table

lemma Sched.scanned {x y : Cpu (Fin n)} (hx : Sched (finRange n) s x y)
    (hmode : s.schedMode = .fcfs) (h : x.Scanned s.table) : y.Scanned s.table := by
  cases hx with
  | scan hx => exact hx.scanned hmode h
  | lock => exact h
  | _ => trivial

lemma Scanned.step (h : Scanned s) (hG : SlotsInOrder s e)
    (ht : next (finRange n) init s e = some t) : Scanned t := by
  intro hmode
  cases next_control ht with
  | quiet hno ho hth hw hcpu hframe hsched =>
    by_cases he : e = .step ()
    · obtain ⟨hx, hT⟩ := hsched () he
      have hmode' : s.schedMode = .fcfs := (congrArg Table.schedMode hT).symm.trans hmode
      rw [hT]
      exact hx.scanned hmode' (h hmode')
    · rw [hframe () he]
      have hmode' : t.table.schedMode = .fcfs := hmode
      generalize t.table = T at ho hmode'
      cases ho with
      | same => exact h hmode'
      | @wake c q chan he hq hch =>
        subst he
        have hheld : held s () = [] := by
          simp only [next] at ht
          split at ht
          next hguard => exact hguard.1
          next => cases ht
        exact scanned_wake (h hmode') hheld hG.2
      | tick _ => exact (h hmode').congr rfl rfl
      | @mode m he =>
        have hG' := hG.2
        subst he
        simp only [disturbs] at hG'
        split at hG'
        next p hc =>
          rw [hc]
          trivial
        next => cases hG'
  | @move c p ha hc hm hother hcpu hframe hback =>
    rcases hback with hback | hback
    · rw [hback]
      trivial
    · rw [hback]
      trivial
  | @dispatch c p he hc hr hT hth hw hcpu hframe =>
    rw [(hcpu () p).mpr (.inl ⟨rfl, rfl⟩)]
    trivial

structure FcfsInv (s : Sys (Fin n) Unit) : Prop where
  inv : Inv s
  pid : PidInv s.table
  age : AgeInv s
  scan : Scanned s

lemma fcfsInv_run {es : List (Event (Fin n) Unit)}
    (h : Run (Guarded (next (finRange n) init) SlotsInOrder)
      (boot init) es s) : FcfsInv s := by
  refine h.invariant (I := FcfsInv) ?_ ⟨boot_inv init, boot_pid init, boot_age init, ?_⟩
  · rintro s e t hs ⟨hG, ht⟩
    exact ⟨inv_step hs.inv ht, hs.pid.step hs.inv (next_effect ht), hs.age.step hs.inv hs.pid hG ht,
      hs.scan.step hG ht⟩
  · intro hmode
    trivial

/-- If processes made in one tick get slots in the order of their creation, each dispatch in
SCHED_FCFS mode takes the process that was made first. -/
theorem fcfs_dispatches_oldest {es : List (Event (Fin n) Unit)}
    (h : Run (Guarded (next (finRange n) init) SlotsInOrder)
      (boot init) es s) (hmode : s.schedMode = .fcfs) (hd : Dispatches s e p)
    (hq : s.state q = .runnable) : s.pid p ≤ s.pid q := by
  have hs := fcfsInv_run h
  obtain ⟨c, -, hc, hp⟩ := hd
  have hscan := hs.scan hmode
  rw [hc] at hscan
  have hcreated : ∀ {x}, s.state x = .runnable → Created s x := by
    intro x hx
    refine ⟨by simp [hx], by simp [hx], ?_⟩
    intro r hr
    have hu := hs.inv.table.child r x (by rw [hr]; rfl)
    rw [hx] at hu
    cases hu
  by_contra hlt
  have hbef := hs.age.order q p (hcreated hq) (hcreated hp) (by omega)
  rcases hscan.2 q hq with hmem | rfl | hbef'
  · cases hmem
  · omega
  · unfold Before at hbef hbef'
    omega

end

/-- In SCHED_FCFS mode init forks twice and waits, up to the dispatch of the first child. -/
def forkTwice : List (Event (Fin 3) Unit) :=
  replicate 6 (.step ()) ++ .setSched .fcfs ::
    .call () .fork :: replicate 10 (.step ()) ++
    .call () .fork :: replicate 12 (.step ()) ++
    .call () .wait :: replicate 23 (.step ())

theorem fcfs_dispatches_oldest_twice : ∃ s : Sys (Fin 3) Unit,
    Run (Guarded (next (finRange 3) 0) SlotsInOrder)
      (boot 0) forkTwice s ∧
    (s.schedMode = .fcfs ∧ (s.cpu () = .recheck 1 ∧ s.state 1 = .runnable) ∧
      s.state 2 = .runnable) ∧ s.pid 1 ≤ s.pid 2 := by
  obtain ⟨s, hrun, hs⟩ := exists_run_of_replay
    (f := next (finRange 3) (0 : Fin 3)) (G := SlotsInOrder)
    (P := fun s : Sys (Fin 3) Unit => s.schedMode = .fcfs ∧
      (s.cpu () = .recheck 1 ∧ s.state 1 = .runnable) ∧ s.state 2 = .runnable) (s := boot 0)
    (l := forkTwice) (by decide +kernel)
  have hs' : s.schedMode = .fcfs ∧ (s.cpu () = .recheck 1 ∧ s.state 1 = .runnable) ∧
      s.state 2 = .runnable := by simpa using hs
  obtain ⟨hmode, hd, hq⟩ := hs'
  exact ⟨s, hrun, ⟨hmode, hd, hq⟩,
    fcfs_dispatches_oldest (e := .step ()) hrun hmode ⟨(), rfl, hd⟩ hq⟩

/-- The first child exits and is reaped; init forks again in the same tick and waits. -/
def reuseSlot : List (Event (Fin 3) Unit) :=
  forkTwice ++ replicate 2 (.step ()) ++
    .call () .exit :: replicate 33 (.step ()) ++
    .call () .fork :: replicate 10 (.step ()) ++
    .call () .wait :: replicate 23 (.step ())

/-- The newest process, in the slot of the first child, is dispatched before the second. -/
theorem fcfs_overtakes_in_reused_slot : ∃ s : Sys (Fin 3) Unit,
    Run (Step (finRange 3) 0) (boot 0) reuseSlot s ∧ s.schedMode = .fcfs ∧
    Dispatches s (.step ()) 1 ∧ s.state 2 = .runnable ∧ s.pid 2 < s.pid 1 := by
  obtain ⟨s, hrun, hs⟩ := exists_run_of_replay
    (f := next (finRange 3) (0 : Fin 3)) (G := fun _ _ => True)
    (P := fun s : Sys (Fin 3) Unit => s.schedMode = .fcfs ∧
      (s.cpu () = .recheck 1 ∧ s.state 1 = .runnable) ∧ s.state 2 = .runnable ∧ s.pid 2 < s.pid 1)
    (s := boot 0) (l := reuseSlot) (by decide +kernel)
  have hs' : s.schedMode = .fcfs ∧ (s.cpu () = .recheck 1 ∧ s.state 1 = .runnable) ∧
      s.state 2 = .runnable ∧ s.pid 2 < s.pid 1 := by simpa using hs
  obtain ⟨hmode, hd, hq⟩ := hs'
  exact ⟨s, hrun.mono fun _ _ _ h => h.2, hmode, ⟨(), rfl, hd⟩, hq⟩

end Xv6.Scheduler
