import Xv6.ThreadMoves

/-! Who is dispatched next on one CPU. `choose_next_process` scans the table from its first
slot at every call, so a process that becomes RUNNABLE again overtakes every RUNNABLE process
in a later slot. -/
namespace Xv6.Scheduler

open Function Transition List

section
variable {ι κ : Type*} [DecidableEq ι]

def readies (s : Sys ι κ) : Event ι κ → Option ι
  | .step c =>
      match s.cpu c with
      | .thread p =>
          match (s.thread p).sw, (s.thread p).task with
          | .set w, _ => if w.state = .runnable then some p else none
          | .none, .wakeupHold q ch _ _ =>
              if s.state q = .sleeping ∧ s.chan q = ch then some q else none
          | .none, .killHold q pid _ =>
              if s.pid q = pid ∧ s.state q = .sleeping then some q else none
          | .none, .forkSet np => some np
          | _, _ => none
      | _ => none
  | .intr _ q chan => if s.state q = .sleeping ∧ s.chan q = some chan then some q else none
  | _ => none

/-- The event is a dispatch of `p`: the re-check of `scheduler()` finds it RUNNABLE. -/
def Dispatches (s : Sys ι κ) (e : Event ι κ) (p : ι) : Prop :=
  ∃ c, e = .step c ∧ s.cpu c = .recheck p ∧ s.state p = .runnable

inductive Change (s : Sys ι κ) (e : Event ι κ) (t : Sys ι κ) : Prop
  | keep (hs : t.state = s.state) (hp : ∀ q, s.state q ≠ .used → t.priority q = s.priority q)
  | ready (q : ι) (hr : readies s e = some q) (hs : t.state = update s.state q .runnable)
      (hp : t.priority = s.priority)
  | other (q : ι) (x : ProcState) (hq : s.state q ≠ .runnable) (hx : x ≠ .runnable)
      (hs : t.state = update s.state q x) (hp : t.priority = s.priority)
  | dispatch (q : ι) (hd : Dispatches s e q)
      (hs : t.state = update s.state q .running) (hp : t.priority = s.priority)

variable {s t : Sys ι κ} {e : Event ι κ}

lemma Change.runnable (h : Change s e t) {q : ι} (hq : t.state q = .runnable) :
    s.state q = .runnable ∨ readies s e = some q := by
  cases h with
  | keep hs _ => exact .inl (by rw [← hs]; exact hq)
  | ready r hr hs _ =>
    by_cases hrq : q = r
    · exact .inr (by rw [hr, hrq])
    · exact .inl (by simpa [hs, hrq] using hq)
  | other r x _ hx hs _ =>
    by_cases hrq : q = r
    · subst hrq
      simp [hs, hx] at hq
    · exact .inl (by simpa [hs, hrq] using hq)
  | dispatch r _ hs _ =>
    by_cases hrq : q = r
    · subst hrq
      simp [hs] at hq
    · exact .inl (by simpa [hs, hrq] using hq)

theorem Change.stays (h : Change s e t) {q : ι} (hq : s.state q = .runnable)
    (hd : ¬ Dispatches s e q) : t.state q = .runnable := by
  cases h with
  | keep hs _ => rw [hs]; exact hq
  | ready r _ hs _ =>
    by_cases hrq : q = r
    · simp [hs, hrq]
    · simpa [hs, hrq] using hq
  | other r x hr _ hs _ =>
    have hrq : q ≠ r := by
      rintro rfl
      exact hr hq
    simpa [hs, hrq] using hq
  | dispatch r hr hs _ =>
    have hrq : q ≠ r := by
      rintro rfl
      exact hd hr
    simpa [hs, hrq] using hq

theorem Change.priority_eq (h : Change s e t) {q : ι} (hq : s.state q = .runnable) :
    t.priority q = s.priority q := by
  cases h with
  | keep _ hp => exact hp q (by simp [hq])
  | ready _ _ _ hp | other _ _ _ _ _ hp | dispatch _ _ _ hp => rw [hp]

lemma Change.of_eq (hs : t.state = s.state) (hp : t.priority = s.priority) : Change s e t :=
  .keep hs fun _ _ => by rw [hp]

lemma goOff_priority (s : Sys ι κ) (p : ι) (w : Why ι) :
    (s.goOff p w).priority = s.priority := by
  cases w with
  | sleep ch lkIsWaitLock => cases lkIsWaitLock <;> rfl
  | _ => rfl

lemma comeBack_priority (s : Sys ι κ) (p : ι) (w : Why ι) :
    (s.comeBack p w).priority = s.priority := by
  cases w <;> rfl

lemma Moves.change {procs : List ι} {init : ι} {c : κ} {p : ι} {d u : Thread ι} {w : Option κ}
    {T : Table ι} (hm : Moves procs init s e c p d u w T) (h : Inv s) (hc : s.cpu c = .thread p)
    (hd : s.thread p = d) (hT : t.table = T) : Change s e t := by
  have hs : t.state = T.state := congrArg Table.state hT
  have hp : t.priority = T.priority := congrArg Table.priority hT
  cases hm with
  | @wakeBody q ch todo a he =>
    have hprio : (s.wakeBody q ch).table.priority = s.priority := by
      unfold Sys.wakeBody
      split <;> rfl
    rw [hprio] at hp
    unfold Sys.wakeBody at hs
    split at hs
    next hq => exact .ready q (by simp [readies, he, hc, hd, hq]) hs hp
    next hq => exact .of_eq hs hp
  | @killDone q pid todo hpid he =>
    have hprio : (s.killBody q).table.priority = s.priority := by
      unfold Sys.killBody
      split <;> rfl
    rw [hprio] at hp
    unfold Sys.killBody at hs
    split at hs
    next hq => exact .ready q (by simp [readies, he, hc, hd, hpid, hq]) hs hp
    next hq => exact .of_eq hs hp
  | alloc hq _ => exact .other _ .used (by simp [hq]) (by simp) hs hp
  | @create np _ =>
    refine .keep hs fun q hq => ?_
    have hu := h.table.child p np (by rw [hd]; rfl)
    have hqn : q ≠ np := by
      rintro rfl
      exact hq hu
    simp [hp, Sys.table, Sys.allocprocInit, hqn]
  | @abortFound np _ =>
    have hu := h.table.child p np (by rw [hd]; rfl)
    exact .other np .unused (by simp [hu]) (by simp) hs hp
  | @abortCopy np _ =>
    have hu := h.table.child p np (by rw [hd]; rfl)
    exact .other np .unused (by simp [hu]) (by simp) hs hp
  | @ready np he => exact .ready np (by simp [readies, he, hc, hd]) hs hp
  | waitReap _ hq => exact .other _ .unused (by simp [hq]) (by simp) hs hp
  | @switchSet x w he =>
    obtain ⟨_, _, _, _, hst⟩ := goOff_frame s p w
    have hrun : s.state p = .running := by
      simpa [Thread.ok, hd] using h.table.thread c p hc
    have hs' : t.state = update s.state p w.state := hs.trans hst
    have hp' : t.priority = s.priority := hp.trans (goOff_priority s p w)
    by_cases hw : w.state = .runnable
    · exact .ready p (by simp [readies, he, hc, hd, hw]) (by rw [← hw]; exact hs') hp'
    · exact .other p w.state (by simp [hrun]) hw hs' hp'
  | @switchBack x w _ =>
    obtain ⟨_, _, _, _, hst⟩ := comeBack_frame s p w
    exact .of_eq (hs.trans hst) (hp.trans (comeBack_priority s p w))
  | _ => exact .of_eq hs hp

variable [DecidableEq κ]

theorem next_change {procs : List ι} {init : ι} (h : Inv s)
    (ht : next procs init s e = some t) : Change s e t := by
  cases next_control ht with
  | quiet _ ho _ _ _ =>
    generalize hT : t.table = T at ho
    have hs : t.state = T.state := congrArg Table.state hT
    have hp : t.priority = T.priority := congrArg Table.priority hT
    cases ho with
    | same | tick _ | mode _ => exact .of_eq hs hp
    | @wake c q chan he hq hch => exact .ready q (by simp [readies, he, hq, hch]) hs hp
  | move _ hc hm _ _ => exact hm.change h hc rfl rfl
  | @dispatch c p he hc hr hT _ _ _ =>
    exact .dispatch p ⟨c, he, hc, hr⟩ (congrArg Table.state hT) (congrArg Table.priority hT)

end

section
variable {n : ℕ} {init : Fin n} {s t : Sys (Fin n) Unit} {e : Event (Fin n) Unit}
  {m : Mode} {p q : Fin n}

/-- `q` wants the CPU; in priority mode it has the priority of `p`, and no RUNNABLE process
has a higher one. -/
def Contends (m : Mode) (p q : Fin n) (s : Sys (Fin n) Unit) : Prop :=
  s.schedMode = m ∧ (s.state q = .runnable ∨ s.state q = .running) ∧
    (m = .priority → s.priority p = s.priority q ∧
      ∀ r, s.state r = .runnable → s.priority r ≤ s.priority q)

/-- A process is made RUNNABLE only when no process in a later slot is RUNNABLE, priority
mode apart, where processes of another priority do not count. -/
def Considerate (s : Sys (Fin n) Unit) (e : Event (Fin n) Unit) : Prop :=
  ∀ p, readies s e = some p → ∀ q, p < q → s.state q = .runnable →
    s.schedMode = .priority ∧ s.priority q ≠ s.priority p

instance : Decidable (Considerate s e) := by unfold Considerate; infer_instance

/-- The scheduler has not passed the slot `q` on its way to the slot `p`. -/
def Ahead (m : Mode) (p q : Fin n) (s : Sys (Fin n) Unit) : Prop :=
  match s.cpu () with
  | .chosen r | .recheck r => r ≠ p
  | .choose (.rr todo) => todo.Pairwise (· < ·) ∧ q ∈ todo
  | .choose (.fcfs _ _) | .choose (.fcfsHold _ _ _) => False
  | .choose (.stepA todo maxPrio) =>
      m = .priority ∧ (q ∈ todo ∨ s.priority q ≤ maxPrio) ∧
        (maxPrio = -1 ∨ maxPrio ≤ s.priority q)
  | .choose (.stepAHold r todo maxPrio) =>
      m = .priority ∧ (q ∈ r :: todo ∨ s.priority q ≤ maxPrio) ∧
        (maxPrio = -1 ∨ maxPrio ≤ s.priority q)
  | .choose (.stepB todo maxPrio) =>
      maxPrio = s.priority q ∧ todo.Pairwise (· < ·) ∧ q ∈ todo
  | .choose (.stepBHold r todo maxPrio) =>
      maxPrio = s.priority q ∧ (r :: todo).Pairwise (· < ·) ∧ q ∈ r :: todo
  | _ => True

lemma Ahead.congr (h : Ahead m p q s) (hc : t.cpu = s.cpu)
    (hp : t.priority q = s.priority q) : Ahead m p q t := by
  unfold Ahead at h ⊢
  rw [hc, hp]
  exact h

lemma head_ne_of_mem {r : Fin n} {todo : List (Fin n)} (hs : (r :: todo).Pairwise (· < ·))
    (hq : q ∈ r :: todo) (hqp : q < p) : r ≠ p := by
  rintro rfl
  rcases mem_cons.mp hq with rfl | hm
  · exact lt_irrefl q hqp
  · exact lt_asymm hqp ((pairwise_cons.mp hs).1 q hm)

theorem pairwise_finRange : (finRange n).Pairwise (· < ·) :=
  pairwise_lt_finRange n

lemma acquire_ahead {r : Fin n} {x : Cpu (Fin n)}
    (ht : (s.acquire () r).map (fun u => u.setCpu () x) = some t)
    (hx : Ahead m p q (s.setCpu () x)) : Ahead m p q t := by
  unfold Sys.acquire at ht
  split at ht
  · simp only [Option.map_some, Option.some.injEq] at ht
    subst ht
    exact hx
  · simp at ht

section
variable (hm : m ≠ .fcfs) (hC : Contends m p q s) (hq : s.state q = .runnable) (hqp : q < p)
include hm hC hq hqp

lemma chooseStep_ahead {scan : Scan (Fin n)} (hc : s.cpu () = .choose scan) (h : Ahead m p q s)
    (ht : chooseStep (finRange n) s () scan = some t) : Ahead m p q t := by
  obtain ⟨hmode, _, hprio⟩ := hC
  unfold Ahead at h
  rw [hc] at h
  cases scan with
  | testRoundRobin =>
    cases ht
    by_cases hr : s.schedMode = .roundRobin
    · simp [Ahead, Sys.setCpu, hr, pairwise_finRange]
    · simp [Ahead, Sys.setCpu, hr]
  | testFcfs =>
    cases ht
    simp [Ahead, Sys.setCpu, hmode, hm]
  | testPriority =>
    cases ht
    by_cases hp : m = .priority
    · simp [Ahead, Sys.setCpu, hmode, hp]
    · simp [Ahead, Sys.setCpu, hmode, hp]
  | rr todo =>
    cases todo with
    | nil => simp at h
    | cons r todo =>
      obtain ⟨hsort, hmem⟩ := h
      cases ht
      by_cases hr : s.state r = .runnable
      · simpa [Ahead, Sys.setCpu, hr] using head_ne_of_mem hsort hmem hqp
      · have hrq : q ≠ r := by
          rintro rfl
          exact hr hq
        have hrest := mem_of_ne_of_mem hrq hmem
        simpa [Ahead, Sys.setCpu, hr, hrest] using (pairwise_cons.mp hsort).2
  | fcfs todo minProc => exact h.elim
  | fcfsHold r todo minProc => exact h.elim
  | stepA todo maxPrio =>
    obtain ⟨hpm, hle, hge⟩ := h
    cases todo with
    | nil =>
      cases ht
      by_cases hneg : maxPrio = -1
      · simp [Ahead, Sys.setCpu, hneg]
      · have hmax : maxPrio = s.priority q := by
          have h1 : s.priority q ≤ maxPrio := by simpa using hle
          have h2 := hge.resolve_left hneg
          omega
        rw [hmax] at hneg
        simp [Ahead, Sys.setCpu, hmax, hneg, pairwise_finRange]
    | cons r todo =>
      refine acquire_ahead ht ?_
      simp only [Ahead, Sys.setCpu, update_self]
      exact ⟨hpm, hle, hge⟩
  | stepAHold r todo maxPrio =>
    obtain ⟨hpm, hle, hge⟩ := h
    cases ht
    simp only [Ahead, Sys.setCpu, Sys.release, Sys.setLock, update_self]
    have hhigh := (hprio hpm).2 r
    refine ⟨hpm, ?_, ?_⟩
    · rcases hle with hmem | hle
      · rcases mem_cons.mp hmem with rfl | hmem
        · right
          split_ifs with hif
          · exact le_refl _
          · by_contra hlt
            exact hif ⟨hq, by omega⟩
        · exact .inl hmem
      · right
        split_ifs with hif
        · omega
        · exact hle
    · split_ifs with hif
      · exact .inr (hhigh hif.1)
      · exact hge
  | stepB todo maxPrio =>
    cases todo with
    | nil => simp at h
    | cons r todo => exact acquire_ahead ht (by simpa [Ahead, Sys.setCpu] using h)
  | stepBHold r todo maxPrio =>
    obtain ⟨hmax, hsort, hmem⟩ := h
    cases ht
    by_cases hr : s.state r = .runnable ∧ s.priority r = maxPrio
    · simpa [Ahead, Sys.setCpu, Sys.release, Sys.setLock, hr] using head_ne_of_mem hsort hmem hqp
    · have hrq : q ≠ r := by
        rintro rfl
        exact hr ⟨hq, hmax.symm⟩
      have hrest := mem_of_ne_of_mem hrq hmem
      simp only [Ahead, Sys.setCpu, Sys.release, Sys.setLock, update_self, if_neg hr]
      exact ⟨hmax, (pairwise_cons.mp hsort).2, hrest⟩

lemma cpuStep_ahead (h : Ahead m p q s) (ht : cpuStep (finRange n) init s () = some t) :
    Ahead m p q t := by
  have hctl : Control (finRange n) init s (.step ()) t := next_control ht
  unfold cpuStep at ht
  split at ht
  next scan hc => exact chooseStep_ahead hm hC hq hqp hc h ht
  next r hc =>
    refine acquire_ahead ht ?_
    simpa [Ahead, hc, Sys.setCpu] using h
  next r hc =>
    split at ht <;> cases ht <;> simp [Ahead, Sys.setCpu]
  next r hc =>
    rcases hctl.cpu_thread hc with hr | hr <;> simp [Ahead, hr]
  next r hc =>
    cases ht
    simp [Ahead, Sys.setCpu]
  next r hc =>
    cases ht
    simp [Ahead, Sys.setCpu]
  next hc =>
    cases ht
    simp [Ahead, Sys.setCpu]

end

lemma next_ahead (hI : Inv s) (hm : m ≠ .fcfs) (hC : Contends m p q s)
    (hq : s.state q = .runnable) (hqp : q < p) (h : Ahead m p q s)
    (ht : next (finRange n) init s e = some t) : Ahead m p q t := by
  by_cases he : e = .step ()
  · subst he
    exact cpuStep_ahead hm hC hq hqp h ht
  · have hcpu : t.cpu = s.cpu := funext fun _ => (next_control ht).cpu_eq he
    exact h.congr hcpu ((next_change hI ht).priority_eq hq)

structure Waiting (m : Mode) (p q : Fin n) (s : Sys (Fin n) Unit) : Prop where
  inv : Inv s
  ready : s.state q = .runnable
  before : p < q → s.state p ≠ .runnable
  after : q < p → Ahead m p q s

lemma dispatch_cpu {procs : List (Fin n)} (hd : Dispatches s e p)
    (ht : next procs init s e = some t) : t.cpu () = .thread p ∧ t.state p = .running := by
  obtain ⟨c, rfl, hc, hr⟩ := hd
  simp only [next, cpuStep, hc, if_pos hr, Option.some.injEq] at ht
  subst ht
  constructor
  · simp [Sys.setCpu]
  · simp [Sys.setCpu, Sys.setSwitch, Sys.setProc, Sys.setState]

lemma waiting_of_dispatch (hI : Inv s) (hqp : q ≠ p) (hd : Dispatches s e p)
    (ht : next (finRange n) init s e = some t) (hC : Contends m p q t) :
    Waiting m p q t := by
  have hI' := inv_step hI ht
  obtain ⟨hc, hr⟩ := dispatch_cpu hd ht
  refine ⟨hI', ?_, ?_, ?_⟩
  · rcases hC.2.1 with hq | hq
    · exact hq
    · obtain ⟨c, hcq⟩ := hI'.table.running q hq
      rw [hc] at hcq
      exact absurd (Cpu.thread.inj hcq).symm hqp
  · intro _
    simp [hr]
  · intro _
    simp [Ahead, hc]

lemma Waiting.step (hm : m ≠ .fcfs) (h : Waiting m p q s) (hC : Contends m p q s)
    (hG : Considerate s e) (hd : ¬ Dispatches s e q)
    (ht : next (finRange n) init s e = some t) : Waiting m p q t := by
  have hch := next_change h.inv ht
  refine ⟨inv_step h.inv ht, hch.stays h.ready hd, ?_, ?_⟩
  · intro hlt hp
    rcases hch.runnable hp with hold | hnew
    · exact h.before hlt hold
    · obtain ⟨hmode, hne⟩ := hG p hnew q hlt h.ready
      have hpm : m = .priority := by rw [← hC.1, hmode]
      exact hne (hC.2.2 hpm).1.symm
  · intro hlt
    exact next_ahead h.inv hm hC h.ready hlt (h.after hlt) ht

lemma Waiting.no_dispatch (h : Waiting m p q s) (hqp : q ≠ p) : ¬ Dispatches s e p := by
  rintro ⟨c, _, hc, hr⟩
  rcases lt_or_gt_of_ne hqp with hlt | hlt
  · have ha := h.after hlt
    simp [Ahead, hc] at ha
  · exact h.before hlt hr

/-- If processes become RUNNABLE only as `Considerate` allows, then between two dispatches
of `p` every process that wants the CPU all the time, and in priority mode is among those
of the highest priority, is dispatched. -/
theorem dispatched_between {u : Sys (Fin n) Unit}
    {x y : Sys (Fin n) Unit × Event (Fin n) Unit × Sys (Fin n) Unit}
    {l : List (Sys (Fin n) Unit × Event (Fin n) Unit × Sys (Fin n) Unit)}
    (hm : m = .roundRobin ∨ m = .priority) (hI : Inv s)
    (hrun : Run
      (Record (Guarded (next (finRange n) init) Considerate))
      s (x :: (l ++ [y])) u)
    (hx : Dispatches x.1 x.2.1 p) (hy : Dispatches y.1 y.2.1 p) (hqp : q ≠ p)
    (hC : ∀ z ∈ l ++ [y], Contends m p q z.1) : ∃ z ∈ l, Dispatches z.1 z.2.1 q := by
  have hm' : m ≠ .fcfs := by rcases hm with rfl | rfl <;> simp
  by_contra hno
  obtain ⟨t, ⟨hx1, hx2, hxs⟩, hrest⟩ := hrun.of_cons
  have hfirst : Contends m p q t := by
    cases l with
    | nil =>
      obtain ⟨v, hv, _⟩ := Run.of_cons hrest
      rw [← hv.1]
      exact hC y (by simp)
    | cons z l =>
      obtain ⟨v, hv, _⟩ := Run.of_cons hrest
      rw [← hv.1]
      exact hC z (by simp)
  obtain ⟨v, hl, ⟨hy1, _, _⟩⟩ := hrest.of_snoc
  have hw : Waiting m p q t := by
    rw [hx1] at hx
    exact waiting_of_dispatch hI hqp hx hxs.2 hfirst
  have hend : Waiting m p q v := by
    refine hl.invariant_of_mem hw ?_
    rintro s' z t' hz hs ⟨rfl, _, hG, hnext⟩
    have hd : ¬ Dispatches z.1 z.2.1 q := fun hd => hno ⟨z, hz, hd⟩
    exact hs.step hm' (hC z (mem_append_left _ hz)) hG hd hnext
  rw [hy1] at hy
  exact hend.no_dispatch hqp hy

instance : Decidable (Dispatches s e p) := by unfold Dispatches; infer_instance

instance : Decidable (Contends m p q s) := by unfold Contends; infer_instance

end

def crowdedEvents (m : Mode) : List (Event (Fin 3) Unit) :=
  let scan := if m = .priority then 10 else 0
  .setSched m :: replicate (6 + scan) (.step ()) ++
    .call () .fork :: replicate 10 (.step ()) ++
    .call () .fork :: replicate 12 (.step ()) ++
    .call () .yield :: replicate (9 + scan) (.step ())

attribute [local instance] neZero_three in
def crowded (m : Mode) : Sys (Fin 3) Unit :=
  (replay (next (finRange 3) 0) (fun _ _ => True) (boot 0)
    (crowdedEvents m)).getD (boot 0)

attribute [local instance] neZero_three in
/-- In mode `m` the process in slot 0 is dispatched twice in a row while the one in slot 2,
of the same and highest priority, is RUNNABLE all the time. -/
def Overtakes (m : Mode) : Prop :=
  Run (Step (finRange 3) 0) (boot 0) (crowdedEvents m) (crowded m) ∧
    ∃ x l y u, Run (Record (Step (finRange 3) 0)) (crowded m)
      (x :: (l ++ [y])) u ∧
      (Dispatches x.1 x.2.1 0 ∧ Dispatches y.1 y.2.1 0 ∧ ∀ z ∈ l, ¬ Dispatches z.1 z.2.1 0) ∧
      (∀ z ∈ l ++ [y], z.1.state 2 = .runnable ∧ Contends m 0 2 z.1) ∧
      ∀ z ∈ l, ¬ Dispatches z.1 z.2.1 2

lemma overtakes_of_mode (m : Mode) (hm : m = .roundRobin ∨ m = .priority) : Overtakes m := by
  constructor
  · have hsome : (replay (next (finRange 3) 0) (fun _ _ => True) (boot 0)
        (crowdedEvents m)).isSome = true := by
      rcases hm with rfl | rfl <;> decide +kernel
    exact (replay_getD hsome).mono fun _ _ _ h => h.2
  · obtain ⟨x, l, y, u, hrun, hP⟩ := exists_interval
      (f := next (finRange 3) 0) (s := crowded m)
      (P := fun x l y =>
        (Dispatches x.1 x.2.1 0 ∧ Dispatches y.1 y.2.1 0 ∧ ∀ z ∈ l, ¬ Dispatches z.1 z.2.1 0) ∧
        (∀ z ∈ l ++ [y], z.1.state 2 = .runnable ∧ Contends m 0 2 z.1) ∧
        ∀ z ∈ l, ¬ Dispatches z.1 z.2.1 2)
      (l := .step () :: .step () :: .call () .yield ::
        replicate (if m = .priority then 20 else 10) (.step ()))
      (by rcases hm with rfl | rfl <;> decide +kernel)
    exact ⟨x, l, y, u, hrun, of_decide_eq_true hP⟩

theorem yielding_process_overtakes : Overtakes .roundRobin ∧ Overtakes .priority :=
  ⟨overtakes_of_mode _ (.inl rfl), overtakes_of_mode _ (.inr rfl)⟩

def pairEvents : List (Event (Fin 2) Unit) :=
  replicate 6 (.step ()) ++ .call () .fork :: replicate 10 (.step ()) ++
    .call () .yield :: replicate 9 (.step ())

attribute [local instance] neZero_two in
def pair : Sys (Fin 2) Unit :=
  (replay (next (finRange 2) 0) (fun _ _ => True) (boot 0) pairEvents).getD
    (boot 0)

lemma pair_inv : Inv pair := by
  have hsome : (replay (next (finRange 2) 0) (fun _ _ => True) (boot 0)
      pairEvents).isSome = true := by decide +kernel
  exact inv_run ((replay_getD hsome).mono fun _ _ _ h => h.2)

/-- Slot 0 sleeps, slot 1 runs, an interrupt wakes slot 0, slot 1 yields, slot 0 runs. -/
theorem dispatched_between_sleeper : ∃ x l y u,
    Run
      (Record (Guarded (next (finRange 2) 0) Considerate))
      pair (x :: (l ++ [y])) u ∧
    (Dispatches x.1 x.2.1 0 ∧ Dispatches y.1 y.2.1 0 ∧
      ∀ z ∈ l ++ [y], Contends .roundRobin 0 1 z.1) ∧
    ∃ z ∈ l, Dispatches z.1 z.2.1 1 := by
  obtain ⟨x, l, y, u, hrun, hP⟩ := exists_interval
    (f := fun s e => if Considerate s e then next (finRange 2) 0 s e else none) (s := pair)
    (P := fun x l y => Dispatches x.1 x.2.1 0 ∧ Dispatches y.1 y.2.1 0 ∧
      ∀ z ∈ l ++ [y], Contends .roundRobin 0 1 z.1)
    (l := .step () :: .step () :: .call () (.sleep (.other 5)) ::
      replicate 12 (.step ()) ++ .intr () 0 (.other 5) :: .call () .yield ::
      replicate 10 (.step ())) (by decide +kernel)
  have hP' := of_decide_eq_true hP
  have hrun' : Run
      (Record (Guarded (next (finRange 2) 0) Considerate))
      pair (x :: (l ++ [y])) u := by
    refine hrun.mono ?_
    rintro s z t ⟨h1, h2, h3⟩
    split at h3
    next hG => exact ⟨h1, h2, hG, h3⟩
    next => cases h3
  exact ⟨x, l, y, u, hrun', hP', dispatched_between (.inl rfl) pair_inv hrun' hP'.1 hP'.2.1
    (by decide) hP'.2.2⟩

end Xv6.Scheduler
