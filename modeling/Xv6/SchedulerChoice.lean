import Xv6.FcfsOrder
import Xv6.SchedulerSafety

/-! `choose_next_process` as one call: what it returns when the table stands still, and what can
still be said when other CPUs change the table between its inspections. -/
namespace Xv6.Scheduler

open List Sys

section scan
variable {ι κ : Type*} [DecidableEq ι] [DecidableEq κ] {procs : List ι} {s t : Sys ι κ} {c : κ}
  {scan : Scan ι} {last last' : ι → Option ProcState}

def Scan.inspects : Scan ι → Option ι
  | .rr (p :: _) | .fcfsHold p _ _ | .stepAHold p _ _ | .stepBHold p _ _ => some p
  | _ => none

def Scan.note (s : Sys ι κ) (last : ι → Option ProcState) (scan : Scan ι) : ι → Option ProcState :=
  match scan.inspects with
  | some p => Function.update last p (some (s.state p))
  | none => last

/-- The system, with the state in which the scan of one CPU saw each process last. -/
structure Watched (ι κ : Type*) where
  sys : Sys ι κ
  last : ι → Option ProcState

/-- CPU `c` goes on with its scan, or others do something that `N` allows. They do not touch the
locks that `c` holds. -/
inductive Look (procs : List ι) (c : κ) (N : Sys ι κ → Sys ι κ → Prop) :
    Watched ι κ → Watched ι κ → Prop
  | own {s t : Sys ι κ} {last : ι → Option ProcState} {scan : Scan ι} : s.cpu c = .choose scan →
      chooseStep procs s c scan = some t → Look procs c N ⟨s, last⟩ ⟨t, scan.note s last⟩
  | other {s t : Sys ι κ} {last : ι → Option ProcState} : N s t → t.cpu c = s.cpu c →
      (∀ p, t.lock p = some c ↔ s.lock p = some c) → Look procs c N ⟨s, last⟩ ⟨t, last⟩

def Call.Reaches (procs : List ι) (c : κ) (N : Sys ι κ → Sys ι κ → Prop) (s t : Sys ι κ)
    (last : ι → Option ProcState) : Prop :=
  Relation.ReflTransGen (Look procs c N) ⟨s, fun _ => none⟩ ⟨t, last⟩

structure Holding (c : κ) (s : Sys ι κ) : Prop where
  owner : ∀ p, s.lock p = some c ↔ p ∈ (s.cpu c).held
  nodup : (s.cpu c).held.Nodup

lemma ScanStep.holding (h : ScanStep procs c scan s t) (hc : s.cpu c = .choose scan)
    (hs : Holding c s) : Holding c t := by
  have howner := hs.owner
  have hnodup := hs.nodup
  rw [hc] at howner hnodup
  rcases h.locks with ⟨hl, hh⟩ | ⟨p, hp, hl, hh⟩ | ⟨p, hp, hl, hh⟩
  · exact ⟨by simpa [hl, hh] using howner, by rwa [hh]⟩
  · have hnot : p ∉ (Cpu.choose scan).held := by
      intro hm
      rw [(howner p).mpr hm] at hp
      cases hp
    refine ⟨fun q => ?_, by rw [hh]; exact nodup_cons.mpr ⟨hnot, hnodup⟩⟩
    rw [hl, hh, mem_cons]
    by_cases hq : q = p
    · simp [hq]
    · simp [hq, howner]
  · refine ⟨fun q => ?_, by rw [hh]; exact hnodup.erase p⟩
    rw [hl, hh, hnodup.mem_erase_iff]
    by_cases hq : q = p
    · simp [hq]
    · simp [hq, howner]

def Cpu.Seen (last : ι → Option ProcState) : Cpu ι → Prop
  | .choose (.fcfs _ (some m)) | .choose (.fcfsHold _ _ (some m)) | .chosen m =>
      last m = some .runnable
  | _ => True

omit [DecidableEq κ] in
lemma Scans.seen {x : Cpu ι} (hx : Scans procs s scan x) (hn : (Cpu.choose scan).held.Nodup)
    (h : (Cpu.choose scan).Seen last) : x.Seen (scan.note s last) := by
  cases hx with
  | rrTake hp | fcfsFirst hp => simp [Cpu.Seen, Scan.note, Scan.inspects, hp]
  | fcfsOlder hp | stepBTake hp => simp [Cpu.Seen, Scan.note, Scan.inspects, hp.1]
  | fcfsTake => exact h
  | @fcfsLock p todo minProc =>
    cases minProc with
    | none => trivial
    | some m => exact h
  | @fcfsKeep p todo m hp =>
    have hne : m ≠ p := by
      rintro rfl
      simp [Cpu.held] at hn
    simp only [Cpu.Seen, Scan.note, Scan.inspects, Function.update_of_ne hne]
    exact h
  | _ => trivial

structure Watch (c : κ) (w : Watched ι κ) : Prop where
  holding : Holding c w.sys
  seen : (w.sys.cpu c).Seen w.last

lemma Look.watch {N : Sys ι κ → Sys ι κ → Prop} {w w' : Watched ι κ} (hl : Look procs c N w w')
    (h : Watch c w) : Watch c w' := by
  cases hl with
  | @own s t last scan hc ht =>
    have hstep := chooseStep_scan ht
    have hseen := h.seen
    have hnodup := h.holding.nodup
    dsimp only at hseen hnodup
    rw [hc] at hseen hnodup
    exact ⟨hstep.holding hc h.holding, hstep.scans.seen hnodup hseen⟩
  | @other s t last _ hcpu hlock =>
    refine ⟨⟨fun p => ?_, ?_⟩, ?_⟩
    · rw [hlock, hcpu]
      exact h.holding.owner p
    · rw [hcpu]
      exact h.holding.nodup
    · rw [hcpu]
      exact h.seen

lemma Call.Reaches.watch {N : Sys ι κ → Sys ι κ → Prop} (hc : s.cpu c = .choose .testRoundRobin)
    (hl : ∀ p, s.lock p ≠ some c) (hr : Call.Reaches procs c N s t last) : Watch c ⟨t, last⟩ := by
  have hstart : Watch c (⟨s, fun _ => none⟩ : Watched ι κ) := by
    refine ⟨⟨fun p => ?_, ?_⟩, ?_⟩
    · simp [hc, Cpu.held, hl]
    · simp [hc, Cpu.held]
    · simp [hc, Cpu.Seen]
  have hrun : ∀ w, Relation.ReflTransGen (Look procs c N) ⟨s, fun _ => none⟩ w → Watch c w := by
    intro w hw
    induction hw with
    | refl => exact hstart
    | tail _ hstep ih => exact hstep.watch ih
  exact hrun _ hr

def Returned (c : κ) (s : Sys ι κ) : Prop := (∃ p, s.cpu c = .chosen p) ∨ s.cpu c = .idle

omit [DecidableEq ι] [DecidableEq κ] in
lemma Watch.released {w : Watched ι κ} (h : Watch c w) (hr : Returned c w.sys) (p : ι) :
    w.sys.lock p ≠ some c := by
  have howner := h.holding.owner p
  rcases hr with ⟨q, hq⟩ | hq
  · simpa [hq, Cpu.held] using howner
  · simpa [hq, Cpu.held] using howner

section alone
variable {N : Sys ι κ → Sys ι κ → Prop}

def Returns (procs : List ι) (c : κ) (N : Sys ι κ → Sys ι κ → Prop) (w : Watched ι κ) : Prop :=
  ∃ w', Relation.ReflTransGen (Look procs c N) w w' ∧ Returned c w'.sys

lemma Returns.step (hc : s.cpu c = .choose scan) (ht : chooseStep procs s c scan = some t)
    (h : Returns procs c N ⟨t, scan.note s last⟩) : Returns procs c N ⟨s, last⟩ := by
  obtain ⟨w', hrun, hret⟩ := h
  exact ⟨w', .head (.own hc ht) hrun, hret⟩

lemma Returns.done (h : Returned c s) : Returns procs c N ⟨s, last⟩ := ⟨⟨s, last⟩, .refl, h⟩

lemma returns_rr (todo : List ι) : ∀ (s : Sys ι κ) (last), s.cpu c = .choose (.rr todo) →
    Returns procs c N ⟨s, last⟩ := by
  induction todo with
  | nil =>
    intro s last hc
    exact .step hc rfl (.done (.inr (by simp [setCpu])))
  | cons p todo ih =>
    intro s last hc
    refine .step hc rfl ?_
    by_cases hp : s.state p = .runnable
    · exact .done (.inl ⟨p, by simp [setCpu, hp]⟩)
    · exact ih _ _ (by simp [setCpu, hp])

omit [DecidableEq κ] in
lemma acquire_free {p : ι} (hp : s.lock p = none) : s.acquire c p = some (s.setLock p (some c)) := by
  simp [acquire, hp]

lemma returns_fcfs (todo : List ι) : ∀ (s : Sys ι κ) (last) (minProc : Option ι),
    s.cpu c = .choose (.fcfs todo minProc) → todo.Nodup → (∀ q ∈ todo, s.lock q = none) →
    Returns procs c N ⟨s, last⟩ := by
  induction todo with
  | nil =>
    intro s last minProc hc _ _
    cases minProc with
    | none => exact .step hc rfl (.done (.inr (by simp [setCpu])))
    | some m => exact .step hc rfl (.done (.inl ⟨m, by simp [setCpu]⟩))
  | cons p todo ih =>
    intro s last minProc hc hn hfree
    obtain ⟨hp, hn⟩ := nodup_cons.mp hn
    have hlock : chooseStep procs s c (.fcfs (p :: todo) minProc) =
        some ((s.setLock p (some c)).setCpu c (.choose (.fcfsHold p todo minProc))) := by
      simp [chooseStep, acquire_free (hfree p (by simp))]
    refine .step hc hlock ?_
    generalize hs1 : (s.setLock p (some c)).setCpu c (.choose (.fcfsHold p todo minProc)) = s1
    have hc1 : s1.cpu c = .choose (.fcfsHold p todo minProc) := by simp [← hs1, setCpu]
    have hfree1 : ∀ q ∈ todo, s1.lock q = none := by
      intro q hq
      have hqp : q ≠ p := fun h => hp (h ▸ hq)
      simp [← hs1, setCpu, setLock, hqp, hfree q (by simp [hq])]
    have hrel : ∀ r, ∀ q ∈ todo, (s1.release r).lock q = none := by
      intro r q hq
      by_cases hqr : q = r
      · simp [release, setLock, hqr]
      · simp [release, setLock, hqr, hfree1 q hq]
    cases minProc with
    | none =>
      by_cases hr : s1.state p = .runnable
      · have ht : chooseStep procs s1 c (.fcfsHold p todo none) =
            some (s1.setCpu c (.choose (.fcfs todo (some p)))) := if_pos hr
        exact .step hc1 ht (ih _ _ (some p) (by simp [setCpu]) hn hfree1)
      · have ht : chooseStep procs s1 c (.fcfsHold p todo none) =
            some ((s1.release p).setCpu c (.choose (.fcfs todo none))) := if_neg hr
        exact .step hc1 ht (ih _ _ none (by simp [setCpu]) hn (hrel p))
    | some m =>
      by_cases hr : s1.state p = .runnable ∧ s1.creationTime p < s1.creationTime m
      · have ht : chooseStep procs s1 c (.fcfsHold p todo (some m)) =
            some ((s1.release m).setCpu c (.choose (.fcfs todo (some p)))) := if_pos hr
        exact .step hc1 ht (ih _ _ (some p) (by simp [setCpu]) hn (hrel m))
      · have ht : chooseStep procs s1 c (.fcfsHold p todo (some m)) =
            some ((s1.release p).setCpu c (.choose (.fcfs todo (some m)))) := if_neg hr
        exact .step hc1 ht (ih _ _ (some m) (by simp [setCpu]) hn (hrel p))

lemma returns_stepB (todo : List ι) : ∀ (s : Sys ι κ) (last) (maxPrio : ℤ),
    s.cpu c = .choose (.stepB todo maxPrio) → (∀ q, s.lock q = none) →
    Returns procs c N ⟨s, last⟩ := by
  induction todo with
  | nil =>
    intro s last maxPrio hc _
    exact .step hc rfl (.done (.inr (by simp [setCpu])))
  | cons p todo ih =>
    intro s last maxPrio hc hfree
    have hlock : chooseStep procs s c (.stepB (p :: todo) maxPrio) =
        some ((s.setLock p (some c)).setCpu c (.choose (.stepBHold p todo maxPrio))) := by
      simp [chooseStep, acquire_free (hfree p)]
    refine .step hc hlock ?_
    generalize hs1 : (s.setLock p (some c)).setCpu c (.choose (.stepBHold p todo maxPrio)) = s1
    have hc1 : s1.cpu c = .choose (.stepBHold p todo maxPrio) := by simp [← hs1, setCpu]
    refine .step hc1 rfl ?_
    by_cases hr : s1.state p = .runnable ∧ s1.priority p = maxPrio
    · exact .done (.inl ⟨p, by simp [setCpu, hr]⟩)
    · refine ih _ _ maxPrio (by simp [setCpu, hr]) fun q => ?_
      by_cases hq : q = p
      · simp [setCpu, release, setLock, hq]
      · simp [← hs1, setCpu, release, setLock, hq, hfree]

lemma returns_stepA (todo : List ι) : ∀ (s : Sys ι κ) (last) (maxPrio : ℤ),
    s.cpu c = .choose (.stepA todo maxPrio) → (∀ q, s.lock q = none) →
    Returns procs c N ⟨s, last⟩ := by
  induction todo with
  | nil =>
    intro s last maxPrio hc hfree
    refine .step hc rfl ?_
    by_cases hm : maxPrio = -1
    · exact .done (.inr (by simp [setCpu, hm]))
    · exact returns_stepB procs _ _ maxPrio (by simp [setCpu, hm]) hfree
  | cons p todo ih =>
    intro s last maxPrio hc hfree
    have hlock : chooseStep procs s c (.stepA (p :: todo) maxPrio) =
        some ((s.setLock p (some c)).setCpu c (.choose (.stepAHold p todo maxPrio))) := by
      simp [chooseStep, acquire_free (hfree p)]
    refine .step hc hlock ?_
    generalize hs1 : (s.setLock p (some c)).setCpu c (.choose (.stepAHold p todo maxPrio)) = s1
    have hc1 : s1.cpu c = .choose (.stepAHold p todo maxPrio) := by simp [← hs1, setCpu]
    refine .step hc1 rfl (ih _ _ _ (by simp [setCpu]; rfl) fun q => ?_)
    by_cases hq : q = p
    · simp [setCpu, release, setLock, hq]
    · simp [← hs1, setCpu, release, setLock, hq, hfree]

lemma returns_start (hn : procs.Nodup) (hc : s.cpu c = .choose .testRoundRobin)
    (hfree : ∀ p, s.lock p = none) : Returns procs c N ⟨s, last⟩ := by
  refine .step hc rfl ?_
  by_cases hr : s.schedMode = .roundRobin
  · exact returns_rr procs _ _ (by simp [setCpu, hr])
  generalize hs1 : s.setCpu c _ = s1
  have hc1 : s1.cpu c = .choose .testFcfs := by simp [← hs1, setCpu, hr]
  have hmode1 : s1.schedMode = s.schedMode := by rw [← hs1]; rfl
  have hfree1 : ∀ p, s1.lock p = none := by rw [← hs1]; exact hfree
  refine .step hc1 rfl ?_
  by_cases hf : s1.schedMode = .fcfs
  · exact returns_fcfs procs _ _ none (by simp [setCpu, hf]) hn fun q _ => hfree1 q
  generalize hs2 : s1.setCpu c _ = s2
  have hc2 : s2.cpu c = .choose .testPriority := by simp [← hs2, setCpu, hf]
  have hfree2 : ∀ p, s2.lock p = none := by rw [← hs2]; exact hfree1
  refine .step hc2 rfl ?_
  by_cases hp : s2.schedMode = .priority
  · exact returns_stepA procs _ _ (-1) (by simp [setCpu, hp]) hfree2
  · exact .done (.inr (by simp [setCpu, hp]))

end alone

end scan

section fixed
variable {n : ℕ} {κ : Type*} [DecidableEq κ] {s t : Sys (Fin n) κ} {c : κ} {T U : Table (Fin n)}
  {scan : Scan (Fin n)}

def Preferred (T : Table (Fin n)) (p q : Fin n) : Prop :=
  match T.schedMode with
  | .roundRobin => True
  | .fcfs => T.creationTime p < T.creationTime q ∨ T.creationTime p = T.creationTime q ∧ p < q
  | .priority => T.priority q < T.priority p ∨ T.priority q = T.priority p ∧ p < q

def Selected (T : Table (Fin n)) (p : Fin n) : Prop :=
  T.state p = .runnable ∧ ∀ q, T.state q = .runnable → q ≠ p → Preferred T p q

def Peak (T : Table (Fin n)) (todo : List (Fin n)) (maxPrio : ℤ) : Prop :=
  (∀ q, T.state q = .runnable → q ∈ todo ∨ T.priority q ≤ maxPrio) ∧
    (maxPrio = -1 ∨ ∃ q, T.state q = .runnable ∧ T.priority q = maxPrio)

def Slope (T : Table (Fin n)) (todo : List (Fin n)) (maxPrio : ℤ) : Prop :=
  todo.Pairwise (· < ·) ∧ (∃ q, T.state q = .runnable ∧ T.priority q = maxPrio) ∧
    ∀ q, T.state q = .runnable → T.priority q < maxPrio ∨ T.priority q = maxPrio ∧ q ∈ todo

def Cpu.Picking (T : Table (Fin n)) : Cpu (Fin n) → Prop
  | .choose .testRoundRobin => True
  | .choose .testFcfs => T.schedMode ≠ .roundRobin
  | .choose .testPriority => T.schedMode ≠ .roundRobin ∧ T.schedMode ≠ .fcfs
  | .choose (.rr _) => T.schedMode = .roundRobin
  | .choose (.fcfs todo m) => T.schedMode = .fcfs ∧ (Cpu.choose (.fcfs todo m)).Scanned T
  | .choose (.fcfsHold r todo m) => T.schedMode = .fcfs ∧ (Cpu.choose (.fcfsHold r todo m)).Scanned T
  | .choose (.stepA todo maxPrio) => T.schedMode = .priority ∧ Peak T todo maxPrio
  | .choose (.stepAHold r todo maxPrio) => T.schedMode = .priority ∧ Peak T (r :: todo) maxPrio
  | .choose (.stepB todo maxPrio) => T.schedMode = .priority ∧ Slope T todo maxPrio
  | .choose (.stepBHold r todo maxPrio) => T.schedMode = .priority ∧ Slope T (r :: todo) maxPrio
  | .chosen m => T.schedMode ≠ .roundRobin → Selected T m
  | .idle => T.schedMode ≠ .roundRobin → ∀ q, T.state q ≠ .runnable
  | _ => True

variable {todo : List (Fin n)} {r : Fin n} {maxPrio : ℤ}

lemma Peak.raise (h : Peak T (r :: todo) maxPrio)
    (hr : T.state r = .runnable ∧ T.priority r > maxPrio) : Peak T todo (T.priority r) := by
  refine ⟨fun q hq => ?_, .inr ⟨r, hr.1, rfl⟩⟩
  rcases h.1 q hq with hmem | hle
  · rcases mem_cons.mp hmem with rfl | hmem
    · exact .inr le_rfl
    · exact .inl hmem
  · have hlt := hr.2
    exact .inr (by omega)

lemma Peak.keep (h : Peak T (r :: todo) maxPrio)
    (hr : ¬ (T.state r = .runnable ∧ T.priority r > maxPrio)) : Peak T todo maxPrio := by
  refine ⟨fun q hq => ?_, h.2⟩
  rcases h.1 q hq with hmem | hle
  · rcases mem_cons.mp hmem with rfl | hmem
    · exact .inr (not_lt.mp fun hlt => hr ⟨hq, hlt⟩)
    · exact .inl hmem
  · exact .inr hle

lemma Slope.take (h : Slope T (r :: todo) maxPrio)
    (hmode : T.schedMode = .priority) (hr : T.state r = .runnable ∧ T.priority r = maxPrio) :
    Selected T r := by
  refine ⟨hr.1, fun q hq hne => ?_⟩
  have hlt := (pairwise_cons.mp h.1).1
  simp only [Preferred, hmode]
  rcases h.2.2 q hq with hless | ⟨heq, hmem⟩
  · exact .inl (by omega)
  · exact .inr ⟨by omega, hlt q ((mem_cons.mp hmem).resolve_left hne)⟩

lemma Slope.next (h : Slope T (r :: todo) maxPrio)
    (hr : ¬ (T.state r = .runnable ∧ T.priority r = maxPrio)) : Slope T todo maxPrio := by
  refine ⟨(pairwise_cons.mp h.1).2, h.2.1, fun q hq => ?_⟩
  rcases h.2.2 q hq with hless | ⟨heq, hmem⟩
  · exact .inl hless
  · refine .inr ⟨heq, (mem_cons.mp hmem).resolve_left ?_⟩
    rintro rfl
    exact hr ⟨hq, heq⟩

omit [DecidableEq κ] in
lemma Scans.picking {x : Cpu (Fin n)} (hx : Scans (finRange n) s scan x)
    (hprio : ∀ p, s.state p = .runnable → 0 ≤ s.priority p)
    (h : (Cpu.choose scan).Picking s.table) : x.Picking s.table := by
  cases hx with
  | roundRobin hm | notRoundRobin hm => exact hm
  | fcfs hm => exact ⟨hm, pairwise_finRange, fun q _ => mem_finRange q⟩
  | notFcfs hm => exact ⟨h, hm⟩
  | priority hm => exact ⟨hm, fun q _ => .inl (mem_finRange q), .inl rfl⟩
  | notPriority hm =>
    cases hmode : s.schedMode with
    | roundRobin => exact absurd hmode h.1
    | fcfs => exact absurd hmode h.2
    | priority => exact absurd hmode hm
  | rrEnd | rrTake _ => exact fun hm => absurd h hm
  | rrNext _ => exact h
  | fcfsEnd =>
    intro _ q hq
    cases h.2.2 q hq
  | @fcfsTake m =>
    intro _
    refine ⟨h.2.2.1, fun q hq hne => ?_⟩
    have hmode : s.table.schedMode = .fcfs := h.1
    simp only [Preferred, hmode]
    rcases h.2.2.2 q hq with hmem | heq | hbef
    · cases hmem
    · exact absurd heq hne
    · exact hbef
  | fcfsLock => exact ⟨h.1, Scans.fcfsLock.scanned h.1 h.2⟩
  | fcfsFirst hp => exact ⟨h.1, (Scans.fcfsFirst hp).scanned h.1 h.2⟩
  | fcfsSkip hp => exact ⟨h.1, (Scans.fcfsSkip hp).scanned h.1 h.2⟩
  | fcfsOlder hp => exact ⟨h.1, (Scans.fcfsOlder hp).scanned h.1 h.2⟩
  | fcfsKeep hp => exact ⟨h.1, (Scans.fcfsKeep hp).scanned h.1 h.2⟩
  | stepAEnd =>
    intro _ q hq
    rcases h.2.1 q hq with hmem | hle
    · cases hmem
    · have hge := hprio q hq
      change s.priority q ≤ -1 at hle
      omega
  | @stepADone maxPrio hm =>
    refine ⟨h.1, pairwise_finRange, h.2.2.resolve_left hm, fun q hq => ?_⟩
    rcases h.2.1 q hq with hmem | hle
    · cases hmem
    · exact hle.lt_or_eq.imp_right fun heq => ⟨heq, mem_finRange q⟩
  | stepALock | stepBLock => exact h
  | stepARaise hp => exact ⟨h.1, h.2.raise hp⟩
  | stepAKeep hp => exact ⟨h.1, h.2.keep hp⟩
  | stepBEnd =>
    obtain ⟨q, hq, hqp⟩ := h.2.2.1
    rcases h.2.2.2 q hq with hlt | ⟨_, hmem⟩
    · exact absurd hqp hlt.ne
    · cases hmem
  | stepBTake hp => exact fun _ => h.2.take h.1 hp
  | stepBNext hp => exact ⟨h.1, h.2.next hp⟩

structure SameFields (s t : Sys (Fin n) κ) : Prop where
  state : t.state = s.state
  creationTime : t.creationTime = s.creationTime
  priority : t.priority = s.priority
  schedMode : t.schedMode = s.schedMode

omit [DecidableEq κ] in
lemma SameFields.picking {x : Cpu (Fin n)} (h : SameFields s t) (hx : x.Picking s.table) :
    x.Picking t.table := by
  obtain ⟨h1, h2, h3, h4⟩ := h
  have hpref : Preferred t.table = Preferred s.table := by
    funext p q
    simp only [Preferred, table, h2, h3, h4]
  have hstate : t.table.state = s.table.state := h1
  have hsel : Selected t.table = Selected s.table := by
    funext p
    simp only [Selected, hpref, hstate]
  have hscan : ∀ {y : Cpu (Fin n)}, y.Scanned s.table → y.Scanned t.table := fun hy => hy.congr h1 h2
  have hpeak : Peak t.table = Peak s.table := by
    funext todo maxPrio
    simp only [Peak, table, h1, h3]
  have hslope : Slope t.table = Slope s.table := by
    funext todo maxPrio
    simp only [Slope, table, h1, h3]
  have hmode : t.table.schedMode = s.table.schedMode := h4
  cases x with
  | choose scan =>
    cases scan with
    | testRoundRobin => trivial
    | fcfs todo m | fcfsHold r todo m => exact ⟨hmode.trans hx.1, hscan hx.2⟩
    | _ => simpa only [Cpu.Picking, hmode, hpeak, hslope] using hx
  | chosen m | idle => simpa only [Cpu.Picking, hmode, hsel, hstate] using hx
  | _ => trivial

structure Picks (c : κ) (s : Sys (Fin n) κ) (w : Watched (Fin n) κ) : Prop where
  same : SameFields s w.sys
  picking : (w.sys.cpu c).Picking w.sys.table

lemma Look.picks {w w' : Watched (Fin n) κ}
    (hl : Look (finRange n) c SameFields w w')
    (hprio : ∀ p, s.state p = .runnable → 0 ≤ s.priority p) (h : Picks c s w) : Picks c s w' := by
  cases hl with
  | @own u v last scan hc ht =>
    have hstep := chooseStep_scan ht
    have hsame := h.same
    have hpick := h.picking
    dsimp only at hsame hpick
    rw [hc] at hpick
    have htab := hstep.table
    refine ⟨⟨?_, ?_, ?_, ?_⟩, ?_⟩
    · exact (congrArg Table.state htab).trans hsame.state
    · exact (congrArg Table.creationTime htab).trans hsame.creationTime
    · exact (congrArg Table.priority htab).trans hsame.priority
    · exact (congrArg Table.schedMode htab).trans hsame.schedMode
    · dsimp only
      rw [htab]
      refine hstep.scans.picking ?_ hpick
      rw [hsame.state, hsame.priority]
      exact hprio
  | @other u v last hN hcpu _ =>
    have hsame := h.same
    refine ⟨⟨hN.state.trans hsame.state, hN.creationTime.trans hsame.creationTime,
      hN.priority.trans hsame.priority, hN.schedMode.trans hsame.schedMode⟩, ?_⟩
    dsimp only
    rw [hcpu]
    exact hN.picking h.picking

lemma Call.Reaches.picks {last : Fin n → Option ProcState}
    (hc : s.cpu c = .choose .testRoundRobin)
    (hprio : ∀ p, s.state p = .runnable → 0 ≤ s.priority p)
    (hr : Call.Reaches (finRange n) c SameFields s t last) : Picks c s ⟨t, last⟩ := by
  have hrun : ∀ w, Relation.ReflTransGen (Look (finRange n) c SameFields)
      ⟨s, fun _ => none⟩ w → Picks c s w := by
    intro w hw
    induction hw with
    | refl => exact ⟨⟨rfl, rfl, rfl, rfl⟩, by simp [hc, Cpu.Picking]⟩
    | tail _ hstep ih => exact hstep.picks hprio ih
  exact hrun _ hr

/-- A call of `choose_next_process` in SCHED_FCFS or SCHED_PRIORITY mode returns, and returns the
process that the mode asks for if the table stands still; otherwise it still returns nothing or a
process that was RUNNABLE when it looked at it last, with its locks released. -/
theorem choose_next_process_correct (hc : s.cpu c = .choose .testRoundRobin)
    (hl : ∀ p, s.lock p ≠ some c) (hmode : s.schedMode = .fcfs ∨ s.schedMode = .priority)
    (hprio : ∀ p, s.state p = .runnable → 0 ≤ s.priority p) :
    (∀ t last, Call.Reaches (finRange n) c SameFields s t last →
      (∀ p, t.cpu c = .chosen p → Selected s.table p) ∧
      (t.cpu c = .idle → ∀ q, s.state q ≠ .runnable)) ∧
    ((∀ p, s.lock p = none) → ∃ t last,
      Call.Reaches (finRange n) c (fun _ _ => False) s t last ∧ Returned c t) ∧
    ∀ t last, Call.Reaches (finRange n) c (fun _ _ => True) s t last → Returned c t →
      (∀ p, t.cpu c = .chosen p → last p = some .runnable) ∧ ∀ p, t.lock p ≠ some c := by
  have hne : s.table.schedMode ≠ .roundRobin := by
    change s.schedMode ≠ _
    rcases hmode with hm | hm <;> simp [hm]
  refine ⟨?_, ?_, ?_⟩
  · intro t last hr
    have hpick := hr.picks hc hprio
    have hback : SameFields t s := ⟨hpick.same.state.symm, hpick.same.creationTime.symm,
      hpick.same.priority.symm, hpick.same.schedMode.symm⟩
    have hs := hback.picking hpick.picking
    refine ⟨fun p hp => ?_, fun hp => ?_⟩
    · dsimp only at hs
      rw [hp] at hs
      exact hs hne
    · dsimp only at hs
      rw [hp] at hs
      exact hs hne
  · intro hfree
    have hreturns : Returns (finRange n) c (fun _ _ => False) ⟨s, fun _ => none⟩ :=
      returns_start (nodup_finRange n) hc hfree
    obtain ⟨⟨t, last⟩, hrun, hret⟩ := hreturns
    exact ⟨t, last, hrun, hret⟩
  · intro t last hr hret
    have hw := hr.watch hc hl
    refine ⟨fun p hp => ?_, hw.released hret⟩
    have hseen := hw.seen
    dsimp only at hseen
    rw [hp] at hseen
    exact hseen

attribute [local instance] neZero_three in
def threeProcs : Sys (Fin 3) Unit :=
  { boot 0 with
    state := fun p => if p = 0 then .sleeping else .runnable
    priority := fun p => if p = 0 then 10 else 5
    cpu := fun _ => .choose .testRoundRobin
    schedMode := .priority }

theorem choose_next_process_correct_three : ∃ t last,
    Call.Reaches (finRange 3) () (fun _ _ => False) threeProcs t last ∧ Returned () t :=
  (choose_next_process_correct (s := threeProcs) (c := ()) rfl (by simp [threeProcs, boot]) (.inr rfl)
    (by decide)).2.1 fun _ => rfl

end fixed

end Xv6.Scheduler
