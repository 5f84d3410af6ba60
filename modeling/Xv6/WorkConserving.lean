import Xv6.SchedulerFairness

/-! When a CPU finds nothing to run. `choose_next_process` picks a process without keeping its
lock, so another CPU may dispatch it first, and `scheduler()` then waits for an interrupt
although other processes are RUNNABLE. -/
namespace Xv6.Scheduler

open Transition List

variable {ι κ : Type*}

def Cpu.choosing : Cpu ι → Bool
  | .choose _ | .chosen _ | .recheck _ => true
  | _ => false

/-- The CPU is between its call of `choose_next_process` and the end of the loop body of
`scheduler()`, and has dispatched nothing. -/
def Cpu.unfound : Cpu ι → Bool
  | .choose _ | .chosen _ | .recheck _ | .unlock _ => true
  | _ => false

def Cpu.testing : Cpu ι → Bool
  | .choose .testFcfs | .choose .testPriority => true
  | _ => false

/-- No CPU dispatches while another one is choosing, and `sched_mode` does not change between
two tests of it. -/
def Undisturbed [DecidableEq κ] (s : Sys ι κ) : Event ι κ → Prop
  | .step c =>
      match s.cpu c with
      | .recheck p => s.state p = .runnable → ∀ c', c' ≠ c → (s.cpu c').choosing = false
      | _ => True
  | .setSched _ => ∀ c, (s.cpu c).testing = false
  | _ => True

def Cpu.Finds (T : Table ι) (x : ι) : Cpu ι → Prop
  | .choose .testRoundRobin => True
  | .choose .testFcfs => T.schedMode ≠ .roundRobin
  | .choose .testPriority => T.schedMode ≠ .roundRobin ∧ T.schedMode ≠ .fcfs
  | .choose (.rr todo) => x ∈ todo
  | .choose (.fcfs todo none) => x ∈ todo
  | .choose (.fcfsHold r todo none) => x ∈ r :: todo
  | .choose (.fcfs _ (some m)) | .choose (.fcfsHold _ _ (some m)) => T.state m = .runnable
  | .choose (.stepA todo maxPrio) => (x ∈ todo ∨ T.priority x ≤ maxPrio) ∧
      (maxPrio = -1 ∨ ∃ y, T.state y = .runnable ∧ T.priority y = maxPrio)
  | .choose (.stepAHold r todo maxPrio) => (x ∈ r :: todo ∨ T.priority x ≤ maxPrio) ∧
      (maxPrio = -1 ∨ ∃ y, T.state y = .runnable ∧ T.priority y = maxPrio)
  | .choose (.stepB todo maxPrio) => ∃ y ∈ todo, T.state y = .runnable ∧ T.priority y = maxPrio
  | .choose (.stepBHold r todo maxPrio) =>
      ∃ y ∈ r :: todo, T.state y = .runnable ∧ T.priority y = maxPrio
  | .chosen m | .recheck m => T.state m = .runnable
  | .thread _ | .back _ => True
  | .unlock _ | .idle => False

variable {procs : List ι} {init : ι} {s t : Sys ι κ} {e : Event ι κ} {c : κ}
  {p x : ι} {T : Table ι}

lemma Scans.finds {scan : Scan ι} {y : Cpu ι} (hall : ∀ q, q ∈ procs)
    (hy : Scans procs s scan y) (hx : s.state x = .runnable) (hprio : 0 ≤ s.priority x)
    (h : (Cpu.choose scan).Finds s.table x) : y.Finds s.table x := by
  cases hy with
  | roundRobin _ => exact hall x
  | notRoundRobin hm => exact hm
  | fcfs _ => exact hall x
  | notFcfs hm => exact ⟨h, hm⟩
  | priority _ => exact ⟨.inl (hall x), .inl rfl⟩
  | notPriority hm =>
    obtain ⟨h1, h2⟩ := h
    cases hmode : s.schedMode with
    | roundRobin => exact h1 hmode
    | fcfs => exact h2 hmode
    | priority => exact hm hmode
  | rrEnd => cases h
  | rrTake hp => exact hp
  | rrNext hp =>
    refine (mem_cons.mp h).resolve_left ?_
    rintro rfl
    exact hp hx
  | fcfsEnd => cases h
  | fcfsTake => exact h
  | @fcfsLock r todo minProc => cases minProc <;> exact h
  | fcfsFirst hp => exact hp
  | fcfsSkip hp =>
    refine (mem_cons.mp h).resolve_left ?_
    rintro rfl
    exact hp hx
  | fcfsOlder hp => exact hp.1
  | fcfsKeep _ => exact h
  | stepAEnd =>
    rcases h.1 with hmem | hle
    · cases hmem
    · have hle' : s.priority x ≤ -1 := hle
      omega
  | stepADone hm =>
    obtain ⟨y, hy, hyp⟩ := h.2.resolve_left hm
    exact ⟨y, hall y, hy, hyp⟩
  | stepALock => exact h
  | @stepARaise r todo maxPrio hp =>
    refine ⟨?_, .inr ⟨r, hp.1, rfl⟩⟩
    rcases h.1 with hmem | hle
    · refine (mem_cons.mp hmem).symm.imp_right ?_
      rintro rfl
      exact le_rfl
    · have hle' : s.priority x ≤ maxPrio := hle
      exact .inr (show s.priority x ≤ s.priority r by omega)
  | @stepAKeep r todo maxPrio hp =>
    refine ⟨?_, h.2⟩
    rcases h.1 with hmem | hle
    · refine (mem_cons.mp hmem).symm.imp_right ?_
      rintro rfl
      by_contra hgt
      exact hp ⟨hx, lt_of_not_ge hgt⟩
    · exact .inr hle
  | stepBEnd =>
    obtain ⟨y, hmem, _⟩ := h
    cases hmem
  | stepBLock => exact h
  | stepBTake hp => exact hp.1
  | stepBNext hp =>
    obtain ⟨y, hmem, hy⟩ := h
    refine ⟨y, (mem_cons.mp hmem).resolve_left ?_, hy⟩
    rintro rfl
    exact hp hy

lemma Cpu.Finds.mono {T U : Table ι} {y : Cpu ι} (h : y.Finds T x)
    (hrun : ∀ z, T.state z = .runnable → U.state z = .runnable ∧ U.priority z = T.priority z)
    (hx : T.state x = .runnable) (hmode : y.testing = true → U.schedMode = T.schedMode) :
    y.Finds U x := by
  have hsome : ∀ {m : ℤ} {l : List ι},
      (∃ z ∈ l, T.state z = .runnable ∧ T.priority z = m) →
      ∃ z ∈ l, U.state z = .runnable ∧ U.priority z = m := by
    rintro m l ⟨z, hz, hr, hp⟩
    exact ⟨z, hz, (hrun z hr).1, (hrun z hr).2.trans hp⟩
  have hstepA : ∀ {m : ℤ} {l : List ι}, ((x ∈ l ∨ T.priority x ≤ m) ∧
      (m = -1 ∨ ∃ z, T.state z = .runnable ∧ T.priority z = m)) →
      (x ∈ l ∨ U.priority x ≤ m) ∧ (m = -1 ∨ ∃ z, U.state z = .runnable ∧ U.priority z = m) := by
    rintro m l ⟨h1, h2⟩
    rw [(hrun x hx).2]
    refine ⟨h1, h2.imp_right ?_⟩
    rintro ⟨z, hr, hp⟩
    exact ⟨z, (hrun z hr).1, (hrun z hr).2.trans hp⟩
  cases y with
  | choose scan =>
    cases scan with
    | testRoundRobin => trivial
    | testFcfs | testPriority =>
      simp only [Cpu.Finds] at h ⊢
      rw [hmode rfl]
      exact h
    | rr todo => exact h
    | fcfs todo minProc | fcfsHold _ todo minProc =>
      cases minProc with
      | none => exact h
      | some m => exact (hrun m h).1
    | stepA _ _ | stepAHold _ _ _ => exact hstepA h
    | stepB _ _ | stepBHold _ _ _ => exact hsome h
  | chosen m | recheck m => exact (hrun m h).1
  | _ => exact h

variable [DecidableEq ι]

lemma Effect.priority_nonneg {a : Option κ} (he : Effect init s a T)
    (h : ∀ p, 0 ≤ s.priority p) (p : ι) : 0 ≤ T.priority p := by
  cases he with
  | @kill _ _ q _ _ _ _ =>
    unfold Sys.killBody
    split <;> exact h p
  | @create _ _ np _ =>
    by_cases hp : p = np
    · simp only [Sys.table, Sys.allocprocInit, hp, Function.update_self]
      split <;> omega
    · simpa [Sys.table, Sys.allocprocInit, hp] using h p
  | @off _ _ w _ _ =>
    cases w with
    | sleep ch lk => cases lk <;> exact h p
    | _ => exact h p
  | @back _ _ w _ _ => cases w <;> exact h p
  | _ => exact h p

lemma finds_step [DecidableEq κ] (hall : ∀ q, q ∈ procs) (hI : Inv s)
    (hprio : ∀ p, 0 ≤ s.priority p) (hG : Undisturbed s e) (hx : s.state x = .runnable)
    (hc : (s.cpu c).unfound = true) (h : (s.cpu c).Finds s.table x)
    (ht : next procs init s e = some t) :
    t.state x = .runnable ∧ (t.cpu c).Finds t.table x ∨ ∃ p, t.cpu c = .thread p := by
  by_cases he : e = .step c
  · cases next_control ht with
    | quiet _ _ _ _ _ _ hsched =>
      obtain ⟨hy, hT⟩ := hsched c he
      have hstate : t.state = s.state := congrArg Table.state hT
      refine .inl ⟨by rw [hstate]; exact hx, ?_⟩
      rw [hT]
      generalize s.cpu c = y at hy hc h
      generalize t.cpu c = z at hy
      cases hy with
      | scan hy => exact hy.finds hall hx (hprio x) h
      | lock => exact h
      | taken hno => exact absurd h hno
      | unlock => exact h.elim
      | back | again => cases hc
    | @move c' p ha hc' hm _ _ _ _ =>
      rw [he] at ha
      cases ha
      rw [hc'] at hc
      cases hc
    | @dispatch c' p he' _ _ _ _ _ hcpu _ =>
      rw [he] at he'
      cases he'
      exact .inr ⟨p, (hcpu c p).mpr (.inl ⟨rfl, rfl⟩)⟩
  · -- another CPU, or no CPU: nothing that is RUNNABLE is taken away
    have hchoosing : (s.cpu c).choosing = true := by
      generalize s.cpu c = y at hc h
      cases y with
      | unlock p => exact h.elim
      | choose _ | chosen _ | recheck _ => rfl
      | _ => cases hc
    have hch := next_change hI ht
    have hno : ∀ z, ¬ Dispatches s e z := by
      rintro z ⟨c', rfl, hc', hz⟩
      simp only [Undisturbed, hc'] at hG
      have hfree := hG hz c fun hcc => he (by rw [hcc])
      rw [hchoosing] at hfree
      cases hfree
    refine .inl ⟨hch.stays hx (hno x), ?_⟩
    rw [(next_control ht).cpu_eq he]
    refine h.mono (fun z hz => ⟨hch.stays hz (hno z), hch.priority_eq hz⟩) hx ?_
    intro htest
    refine next_mode ht ?_
    rintro m rfl
    have hfree := hG c
    rw [htest] at hfree
    cases hfree

lemma workInv_run [DecidableEq κ] {es : List (Event ι κ)}
    (h : Run (Guarded (next procs init) Undisturbed) (boot init) es s) :
    Inv s ∧ ∀ p, 0 ≤ s.priority p := by
  refine h.invariant (I := fun s => Inv s ∧ ∀ p, 0 ≤ s.priority p) ?_ ⟨boot_inv init, ?_⟩
  · rintro s e t ⟨hI, hP⟩ ⟨_, ht⟩
    exact ⟨inv_step hI ht, (next_effect ht).priority_nonneg hP⟩
  · intro p
    simp only [boot]
    split <;> omega

/-- If no CPU dispatches while another one is choosing, then a CPU that waits for an interrupt
called `choose_next_process` when no process was RUNNABLE. -/
theorem work_conserving [DecidableEq κ] {es : List (Event ι κ)} {u v : Sys ι κ}
    {l : List (Sys ι κ × Event ι κ × Sys ι κ)} (hall : ∀ q, q ∈ procs)
    (hrun : Run (Guarded (next procs init) Undisturbed) (boot init) es u)
    (hcall : u.cpu c = .choose .testRoundRobin)
    (hloop : Run
      (Record (Guarded (next procs init) Undisturbed)) u l v)
    (hl : ∀ y ∈ l, (y.1.cpu c).unfound = true) (hwfi : v.cpu c = .idle) :
    ∃ y ∈ l, ∀ p, y.1.state p ≠ .runnable := by
  obtain ⟨hI, hprio⟩ := workInv_run hrun
  have hnone : ∀ x, u.state x ≠ .runnable := by
    intro x hx
    have hv : (Inv v ∧ ∀ p, 0 ≤ v.priority p) ∧
        (v.state x = .runnable ∧ (v.cpu c).Finds v.table x ∨ ∃ p, v.cpu c = .thread p) := by
      have hfinds : (u.cpu c).Finds u.table x := by
        rw [hcall]
        trivial
      refine hloop.invariant_of_mem (I := fun s => (Inv s ∧ ∀ p, 0 ≤ s.priority p) ∧
        (s.state x = .runnable ∧ (s.cpu c).Finds s.table x ∨ ∃ p, s.cpu c = .thread p))
        ⟨⟨hI, hprio⟩, .inl ⟨hx, hfinds⟩⟩ ?_
      rintro s ⟨s', e, t'⟩ t hmem ⟨⟨hI, hprio⟩, hs⟩ ⟨hs', ht', hG, ht⟩
      simp only at hs' ht' hG ht
      subst hs' ht'
      refine ⟨⟨inv_step hI ht, (next_effect ht).priority_nonneg hprio⟩, ?_⟩
      have hun := hl _ hmem
      rcases hs with ⟨hx, hf⟩ | ⟨p, hp⟩
      · exact finds_step hall hI hprio hG hx hun hf ht
      · simp only at hun
        rw [hp] at hun
        cases hun
    rcases hv.2 with ⟨_, hf⟩ | ⟨p, hp⟩
    · rw [hwfi] at hf
      exact hf.elim
    · rw [hwfi] at hp
      cases hp
  cases l with
  | nil =>
    rw [hloop.of_nil, hwfi] at hcall
    cases hcall
  | cons y l =>
    obtain ⟨t, ⟨hy, _⟩, _⟩ := hloop.of_cons
    exact ⟨y, mem_cons_self, by rw [hy]; exact hnone⟩

instance [DecidableEq κ] [Fintype κ] : Decidable (Undisturbed s e) := by
  unfold Undisturbed
  split
  · split <;> infer_instance
  · infer_instance
  · infer_instance

def sleepEvents : List (Event (Fin 2) Unit) :=
  replicate 6 (.step ()) ++ .call () (.sleep (.other 5)) :: replicate 6 (.step ())

attribute [local instance] neZero_two in
def asleep : Sys (Fin 2) Unit :=
  (replay (next (finRange 2) 0) Undisturbed (boot 0) sleepEvents).getD (boot 0)

theorem work_conserving_asleep : ∃ l v,
    Run (Guarded (next (finRange 2) 0) Undisturbed) (boot 0)
      sleepEvents asleep ∧ asleep.cpu () = .choose .testRoundRobin ∧
    Run (Record (Guarded (next (finRange 2) 0) Undisturbed))
      asleep l v ∧ (∀ y ∈ l, (y.1.cpu ()).unfound = true) ∧ v.cpu () = .idle ∧
    ∃ y ∈ l, ∀ p, y.1.state p ≠ .runnable := by
  have hsome : (replay (next (finRange 2) 0) Undisturbed (boot 0)
      sleepEvents).isSome = true := by decide +kernel
  have hboot : Run (Guarded (next (finRange 2) 0) Undisturbed)
      (boot 0) sleepEvents asleep := replay_getD hsome
  have hcall : asleep.cpu () = .choose .testRoundRobin := by decide +kernel
  obtain ⟨x, l, y, v, hrun, hP⟩ := exists_interval
    (f := fun s e => if Undisturbed s e then next (finRange 2) 0 s e else none)
    (s := asleep) (P := fun x l y => (∀ z ∈ x :: (l ++ [y]), (z.1.cpu ()).unfound = true) ∧
      y.2.2.cpu () = .idle) (l := replicate 4 (.step ())) (by decide +kernel)
  obtain ⟨hl, hy⟩ := of_decide_eq_true hP
  have hloop : Run
      (Record (Guarded (next (finRange 2) 0) Undisturbed))
      asleep (x :: (l ++ [y])) v := by
    refine hrun.mono ?_
    rintro s z t ⟨h1, h2, h3⟩
    split at h3
    next hG => exact ⟨h1, h2, hG, h3⟩
    next => cases h3
  have hwfi : v.cpu () = .idle := by
    rw [← cons_append] at hloop
    obtain ⟨_, _, _, hv, _⟩ := hloop.of_snoc
    rw [← hv]
    exact hy
  exact ⟨_, v, hboot, hcall, hloop, hl, hwfi,
    work_conserving mem_finRange hboot hcall hloop hl hwfi⟩

attribute [local instance] neZero_two in
def racedEvents : List (Event (Fin 2) (Fin 2)) :=
  replicate 6 (.step 1) ++ .call 1 .fork :: replicate 10 (.step 1) ++
    .call 1 .yield :: replicate 5 (.step 1) ++ [.step 0]

attribute [local instance] neZero_two in
def raced : Sys (Fin 2) (Fin 2) :=
  (replay (next (finRange 2) 0) (fun _ _ => True) (boot 0) racedEvents).getD
    (boot 0)

/-- CPU 1 dispatches the process that CPU 0 has chosen; CPU 0 waits for an interrupt although
slot 1 is RUNNABLE all the time. -/
theorem idle_beside_runnable : ∃ l v,
    Run (Step (finRange 2) 0) (boot 0) racedEvents raced ∧
    raced.cpu 0 = .choose .testRoundRobin ∧
    Run (Record (Step (finRange 2) 0)) raced l v ∧
    (∀ y ∈ l, (y.1.cpu 0).unfound = true ∧ y.1.state 1 = .runnable) ∧
    v.cpu 0 = .idle ∧ v.state 1 = .runnable := by
  have hsome : (replay (next (finRange 2) 0) (fun _ _ => True) (boot 0)
      racedEvents).isSome = true := by decide +kernel
  have hboot : Run (Step (finRange 2) 0) (boot 0) racedEvents raced :=
    (replay_getD hsome).mono fun _ _ _ h => h.2
  have hcall : raced.cpu 0 = .choose .testRoundRobin := by decide +kernel
  obtain ⟨x, l, y, v, hrun, hP⟩ := exists_interval
    (f := next (finRange 2) 0) (s := raced)
    (P := fun x l y => (∀ z ∈ x :: (l ++ [y]), (z.1.cpu 0).unfound = true ∧
      z.1.state 1 = .runnable) ∧ y.2.2.cpu 0 = .idle ∧ y.2.2.state 1 = .runnable)
    (l := replicate 2 (.step 0) ++ replicate 6 (.step 1) ++ replicate 3 (.step 0))
    (by decide +kernel)
  obtain ⟨hl, hy⟩ := of_decide_eq_true hP
  have hv : y.2.2 = v := by
    rw [← cons_append] at hrun
    obtain ⟨_, _, _, hv, _⟩ := hrun.of_snoc
    exact hv
  exact ⟨_, v, hboot, hcall, hrun, hl, by rw [← hv]; exact hy⟩

end Xv6.Scheduler
