import Xv6.Basic
import Xv6.MonitorRules

/-! Sleeplocks. `lk->lk` makes a sleeplock a monitor: whoever finds it locked sleeps on `lk` until a
`releasesleep` wakes it, and tries again. -/
namespace Xv6.Sleeplocks

open Function Transition List

variable {ι : Type}

section
variable (ι : Type)

/-- The fields that `lk->lk` guards, and the processes between `acquiresleep` and `releasesleep`,
which no code reads. -/
structure Lock where
  locked : Bool
  pid : ℕ
  inside : List ι

inductive Block
  | loop (p : ι)

inductive Call
  | acquiresleep (p : ι)
  | releasesleep (p : ι)
  deriving DecidableEq, Repr

abbrev Prog := Monitor.Prog (Lock ι) Unit (Block ι) Unit Unit

abbrev Pc := Monitor.Pc ι (Lock ι) Unit (Block ι) Unit Unit

abbrev Sys := Monitor.Sys ι (Lock ι) Unit (Block ι) Unit Unit (Call ι)

abbrev Event := Monitor.Event ι Unit (Call ι)

end

def initsleeplock : Lock ι := ⟨false, 0, []⟩

def take (pid : ι → ℕ) (p : ι) (v : Lock ι) : Lock ι := ⟨true, pid p, p :: v.inside⟩

def drop [DecidableEq ι] (p : ι) (v : Lock ι) : Lock ι := ⟨false, 0, v.inside.erase p⟩

def loop (pid : ι → ℕ) (p : ι) : Prog ι :=
  .look fun v =>
    if v.locked then .sleep () (.goto (.loop p)) else .act (take pid p) (.release .ret)

def wake : Prog ι := .wakeup () (.release .ret)

def start [DecidableEq ι] : Call ι → Prog ι
  | .acquiresleep p => .acquire (.goto (.loop p))
  | .releasesleep p => .acquire (.act (drop p) wake)

def code [DecidableEq ι] (pid : ι → ℕ) : Monitor.Code (Lock ι) Unit (Block ι) Unit Unit (Call ι) where
  block | .loop p => loop pid p
  start := start

/-- Processes call for themselves, and `releasesleep` is called by the holder. -/
def ByHolder (s : Sys ι) : Event ι → Prop
  | .call p (.acquiresleep q) => q = p
  | .call p (.releasesleep q) => q = p ∧ p ∈ s.data.inside
  | _ => True

/-- Where `p` can be in the code, with what it knows there of the lock; the flag says whether it
holds `lk->lk`. -/
inductive Point [DecidableEq ι] (pid : ι → ℕ) (v : Lock ι) (p : ι) : Bool → Pc ι → Prop
  | idle : Point pid v p false (.exec .ret)
  | acquiring : Point pid v p false (.exec (.acquire (.goto (.loop p))))
  | sleepSet : Point pid v p false (.sleepSet () (.goto (.loop p)))
  | sleepSched : Point pid v p false (.sleepSched () (.goto (.loop p)))
  | asleep : Point pid v p false (.asleep () (.goto (.loop p)))
  | tidy : Point pid v p false (.sleepTidy (.goto (.loop p)))
  | reacquire : Point pid v p false (.reacquire (.goto (.loop p)))
  | releasing (h : p ∈ v.inside) : Point pid v p false (.exec (.acquire (.act (drop p) wake)))
  | head : Point pid v p true (.exec (.goto (.loop p)))
  | test : Point pid v p true (.exec (loop pid p))
  | sleep : Point pid v p true (.exec (.sleep () (.goto (.loop p))))
  | sleepRelease : Point pid v p true (.sleepRelease () (.goto (.loop p)))
  | taking (h : v.locked = false) : Point pid v p true (.exec (.act (take pid p) (.release .ret)))
  | dropping (h : p ∈ v.inside) : Point pid v p true (.exec (.act (drop p) wake))
  | wakeup : Point pid v p true (.exec wake)
  | waking (todo : List ι) : Point pid v p true (.waking () todo (.release .ret))
  | done : Point pid v p true (.exec (.release .ret))

def OneHolder (pid : ι → ℕ) (v : Lock ι) : Prop :=
  v.locked = false ∧ v.inside = [] ∨ v.locked = true ∧ ∃ p, v.inside = [p] ∧ v.pid = pid p

section
variable [DecidableEq ι] {pid : ι → ℕ} {v v' : Lock ι} {p q : ι} {b : Bool} {c : Pc ι}
  {s t : Sys ι}

omit [DecidableEq ι] in
lemma OneHolder.take (h : OneHolder pid v) (hv : v.locked = false) :
    OneHolder pid (take pid p v) := by
  rcases h with ⟨_, hnil⟩ | ⟨hlocked, _⟩
  · exact .inr ⟨rfl, p, by rw [Sleeplocks.take, hnil], rfl⟩
  · rw [hv] at hlocked
    cases hlocked

lemma OneHolder.drop (h : OneHolder pid v) (hp : p ∈ v.inside) : OneHolder pid (drop p v) := by
  rcases h with ⟨_, hnil⟩ | ⟨_, q, hq, _⟩
  · rw [hnil] at hp
    cases hp
  · rw [hq, mem_singleton] at hp
    exact .inl ⟨rfl, by rw [Sleeplocks.drop, hq, hp, erase_cons_head]⟩

lemma Point.keep (h : Point pid v q false c) (hin : q ∈ v.inside → q ∈ v'.inside) :
    Point pid v' q false c := by
  cases h with
  | releasing h => exact .releasing (hin h)
  | idle => exact .idle
  | acquiring => exact .acquiring
  | sleepSet => exact .sleepSet
  | sleepSched => exact .sleepSched
  | asleep => exact .asleep
  | tidy => exact .tidy
  | reacquire => exact .reacquire

structure Sound (pid : ι → ℕ) (s : Sys ι) : Prop where
  data : OneHolder pid s.data
  point : ∀ p, Point pid s.data p (s.lock = some p) (s.pc p)

section
variable (h : Sound pid s)
include h

lemma Sound.goto (hdata : t.data = s.data) (hpc : ∀ q ≠ p, t.pc q = s.pc q)
    (hlock : ∀ q ≠ p, t.lock = some q ↔ s.lock = some q)
    (hp : Point pid s.data p (t.lock = some p) (t.pc p)) : Sound pid t := by
  refine ⟨hdata ▸ h.data, fun q => ?_⟩
  rw [hdata]
  by_cases hq : q = p
  · exact hq ▸ hp
  · rw [hpc q hq, decide_eq_decide.mpr (hlock q hq)]
    exact h.point q

lemma Sound.act {f : Lock ι → Lock ι} {k : Prog ι} (hl : s.lock = some p)
    (hdata : OneHolder pid (f s.data)) (hin : ∀ q ≠ p, q ∈ s.data.inside → q ∈ (f s.data).inside)
    (hp : Point pid (f s.data) p true (.exec k)) :
    Sound pid ({ s with data := f s.data }.goto p (.exec k)) := by
  refine ⟨hdata, fun q => ?_⟩
  by_cases hq : q = p
  · subst hq
    simpa [Monitor.Sys.goto, hl] using hp
  · have hne : s.lock ≠ some q := by
      rw [hl]
      exact fun heq => hq (Option.some.inj heq).symm
    have hpoint := h.point q
    simp only [hne] at hpoint
    simpa [Monitor.Sys.goto, hq, hne] using hpoint.keep (hin q hq)

lemma Sound.move (hlock : t.lock = s.lock) (hdata : t.data = s.data) (hpc : t.pc = update s.pc p c)
    (hb : decide (s.lock = some p) = b) (hp : Point pid s.data p b c) : Sound pid t := by
  refine h.goto (p := p) hdata (fun q hq => ?_) (fun q _ => by rw [hlock]) ?_
  · rw [hpc, update_of_ne hq]
  · rw [hlock, hb, hpc, update_self]
    exact hp

lemma Sound.enter (hl : s.lock = none) (hlock : t.lock = some p) (hdata : t.data = s.data)
    (hpc : t.pc = update s.pc p c) (hp : Point pid s.data p true c) : Sound pid t := by
  refine h.goto (p := p) hdata (fun q hq => ?_) (fun q hq => ?_) ?_
  · rw [hpc, update_of_ne hq]
  · rw [hlock, hl]
    exact iff_of_false (fun heq => hq (Option.some.inj heq).symm) nofun
  · rw [hlock, decide_eq_true rfl, hpc, update_self]
    exact hp

lemma Sound.leave (hl : s.lock = some p) (hlock : t.lock = none) (hdata : t.data = s.data)
    (hpc : t.pc = update s.pc p c) (hp : Point pid s.data p false c) : Sound pid t := by
  refine h.goto (p := p) hdata (fun q hq => ?_) (fun q hq => ?_) ?_
  · rw [hpc, update_of_ne hq]
  · rw [hlock, hl]
    exact iff_of_false nofun fun heq => hq (Option.some.inj heq).symm
  · rw [hlock, hpc, update_self]
    exact hp

end

lemma wakeOne_keeps {ch : Unit} (ht : s.wakeOne p q ch = some t) :
    t.lock = s.lock ∧ t.data = s.data ∧ t.pc = s.pc := by
  unfold Monitor.Sys.wakeOne at ht
  split_ifs at ht
  all_goals cases ht
  all_goals exact ⟨rfl, rfl, rfl⟩

lemma Sound.run {procs : List ι} (h : Sound pid s)
    (ht : Monitor.runPc (code pid) procs s p (s.pc p) = some t) : Sound pid t := by
  have hp := h.point p
  generalize hb : decide (s.lock = some p) = b at hp
  generalize s.pc p = c at hp ht
  have hlock : b = true → s.lock = some p := fun hbt => of_decide_eq_true (hb.trans hbt)
  cases hp with
  | idle => cases ht
  | asleep => cases ht
  | acquiring =>
    simp only [Monitor.runPc, Monitor.runProg] at ht
    split_ifs at ht with hl
    cases ht
    exact h.enter hl rfl rfl rfl .head
  | sleepSet =>
    cases ht
    exact h.move rfl rfl rfl hb .sleepSched
  | sleepSched =>
    cases ht
    exact h.move rfl rfl rfl hb .asleep
  | tidy =>
    cases ht
    exact h.move rfl rfl rfl hb .reacquire
  | reacquire =>
    simp only [Monitor.runPc] at ht
    split_ifs at ht with hl
    cases ht
    exact h.enter hl rfl rfl rfl .head
  | releasing hin =>
    simp only [Monitor.runPc, Monitor.runProg] at ht
    split_ifs at ht with hl
    cases ht
    exact h.enter hl rfl rfl rfl (.dropping hin)
  | head =>
    cases ht
    exact h.move rfl rfl rfl hb .test
  | test =>
    cases ht
    refine h.move rfl rfl rfl hb ?_
    beta_reduce
    split_ifs with hlocked
    · exact .sleep
    · exact .taking (by simpa using hlocked)
  | sleep =>
    simp only [Monitor.runPc, Monitor.runProg] at ht
    split_ifs at ht
    cases ht
    exact h.move rfl rfl rfl hb .sleepRelease
  | sleepRelease =>
    cases ht
    exact h.leave (hlock rfl) rfl rfl rfl .sleepSet
  | taking hfree =>
    cases ht
    exact h.act (hlock rfl) (h.data.take hfree) (fun q _ hq => mem_cons_of_mem _ hq) .done
  | dropping hin =>
    cases ht
    refine h.act (hlock rfl) (h.data.drop hin) (fun q hq hmem => ?_) .wakeup
    exact (mem_erase_of_ne hq).mpr hmem
  | wakeup =>
    cases ht
    exact h.move rfl rfl rfl hb (.waking procs)
  | waking todo =>
    cases todo with
    | nil =>
      cases ht
      exact h.move rfl rfl rfl hb .done
    | cons q todo =>
      obtain ⟨u, hu, rfl⟩ := Option.map_eq_some_iff.mp ht
      obtain ⟨hl, hd, hpc⟩ := wakeOne_keeps hu
      refine h.move hl hd ?_ hb (.waking todo)
      rw [← hpc]
      rfl
  | done =>
    cases ht
    exact h.leave (hlock rfl) rfl rfl rfl .idle

lemma Sound.next {procs : List ι} {e : Event ι} (h : Sound pid s) (hg : ByHolder s e)
    (ht : Monitor.next (code pid) procs s e = some t) : Sound pid t := by
  cases e with
  | run p => exact h.run ht
  | call p a =>
    have hp := h.point p
    generalize hb : decide (s.lock = some p) = b at hp
    generalize hc : s.pc p = c at hp
    simp only [Monitor.next, hc] at ht
    cases hp with
    | idle =>
      cases ht
      refine h.move rfl rfl rfl hb ?_
      cases a with
      | acquiresleep q =>
        cases hg
        exact .acquiring
      | releasesleep q =>
        obtain ⟨rfl, hin⟩ := hg
        exact .releasing hin
    | _ => cases ht
  | answer p x =>
    have hp := h.point p
    generalize decide (s.lock = some p) = b at hp
    generalize hc : s.pc p = c at hp
    simp only [Monitor.next, hc] at ht
    cases hp <;> cases ht
  | dispatch p =>
    have hp := h.point p
    generalize hb : decide (s.lock = some p) = b at hp
    generalize hc : s.pc p = c at hp
    simp only [Monitor.next, hc] at ht
    cases hp with
    | asleep =>
      split_ifs at ht
      cases ht
      exact h.move rfl rfl rfl hb .tidy
    | _ => cases ht
  | kill p =>
    simp only [Monitor.next] at ht
    split_ifs at ht
    all_goals cases ht
    all_goals exact ⟨h.data, h.point⟩
  | fresh p =>
    simp only [Monitor.next] at ht
    split at ht
    · cases ht
      exact ⟨h.data, h.point⟩
    · cases ht

def wakeups : Monitor.Spec (Lock ι) Unit (Block ι) Unit Unit (Call ι) where
  inv := fun _ => True
  cond v _ := v.locked = true
  entry | .loop _, _, _, O, _ => O = ∅
  allowed := fun _ _ => True
  steady := fun _ => false

lemma wakeups_verified : (wakeups (ι := ι)).Verified (code pid) where
  block n st v O b h := by
    have hO : O = ∅ := h
    subst hO
    simp only [code, loop, Monitor.Spec.In]
    split_ifs with hlocked
    · exact ⟨trivial, rfl, hlocked, fun _ _ _ _ => rfl⟩
    · refine ⟨trivial, ?_⟩
      rw [Set.empty_union]
      exact Set.eq_empty_of_forall_notMem fun ch hch => hlocked hch.1
  start a := by
    cases a with
    | acquiresleep p => exact fun _ _ _ _ => rfl
    | releasesleep p =>
      intro v b _ _
      exact ⟨trivial, Set.eq_empty_of_forall_notMem fun ch hch => hch.2 rfl⟩

/-- At most one process is between `acquiresleep` and `releasesleep`, the lock has its pid, and
nobody sleeps on a lock that is free. -/
theorem exclusive_and_awake {procs : List ι} (hall : ∀ q, q ∈ procs) {es : List (Event ι)}
    (h : Run (Guarded (Monitor.next (code pid) procs) ByHolder)
      (Monitor.boot initsleeplock) es s) :
    s.data.inside.length ≤ 1 ∧ (∀ p ∈ s.data.inside, s.data.locked = true ∧ s.data.pid = pid p) ∧
      (s.lock = none → s.data.locked = false → ∀ p, s.status p = .sleeping → s.chan p ≠ some ()) := by
  have hsound : Sound pid s := by
    refine h.invariant (I := Sound pid) (fun s e t hs hst => hs.next hst.1 hst.2) ?_
    exact ⟨.inl ⟨rfl, rfl⟩, fun _ => .idle⟩
  refine ⟨?_, fun p hp => ?_, fun hl hfree p hsleep hch => ?_⟩
  · rcases hsound.data with ⟨_, hnil⟩ | ⟨_, p, hp, _⟩
    · rw [hnil]
      exact Nat.zero_le 1
    · rw [hp]
      exact le_rfl
  · rcases hsound.data with ⟨_, hnil⟩ | ⟨hlocked, q, hq, hpid⟩
    · rw [hnil] at hp
      cases hp
    · rw [hq, mem_singleton] at hp
      exact ⟨hlocked, hp ▸ hpid⟩
  · have hguard : Run (Guarded (Monitor.next (code pid) procs) wakeups.Guard)
        (Monitor.boot initsleeplock) es s :=
      h.mono fun _ e _ hst => ⟨by cases e <;> simp [Monitor.Spec.Guard, Monitor.Spec.steadyAt, wakeups], hst.2⟩
    obtain ⟨O, hgood⟩ := wakeups_verified.run hall (v := initsleeplock) trivial hguard
    have hcond : s.data.locked = true := hgood.cond_of_sleeping hl hsleep hch
    rw [hfree] at hcond
    cases hcond

instance (s : Sys (Fin 2)) (e : Event (Fin 2)) : Decidable (ByHolder s e) :=
  match e with
  | .call p (.acquiresleep q) => inferInstanceAs (Decidable (q = p))
  | .call p (.releasesleep q) => inferInstanceAs (Decidable (q = p ∧ p ∈ s.data.inside))
  | .run _ | .answer _ _ | .dispatch _ | .kill _ | .fresh _ => isTrue trivial

attribute [local instance] neZero_two in
def contended : List (Event (Fin 2)) :=
  .call 0 (.acquiresleep 0) :: replicate 5 (.run 0) ++
    .call 1 (.acquiresleep 1) :: replicate 7 (.run 1)

theorem exclusive_and_awake_contended : ∃ s : Sys (Fin 2),
    Run (Guarded (Monitor.next (code fun p : Fin 2 => (p + 1 : ℕ)) (finRange 2))
      ByHolder) (Monitor.boot initsleeplock) contended s ∧
    (s.data.inside = [0] ∧ s.lock = none ∧ s.status 1 = .sleeping) ∧ s.data.inside.length ≤ 1 ∧
    (∀ p ∈ s.data.inside, s.data.locked = true ∧ s.data.pid = p + 1) ∧
    (s.lock = none → s.data.locked = false → ∀ p, s.status p = .sleeping → s.chan p ≠ some ()) := by
  obtain ⟨s, hrun, hs⟩ := exists_run_of_replay
    (f := Monitor.next (code fun p : Fin 2 => (p + 1 : ℕ)) (finRange 2)) (G := ByHolder)
    (P := fun s : Sys (Fin 2) => s.data.inside = [0] ∧ s.lock = none ∧ s.status 1 = .sleeping)
    (s := Monitor.boot initsleeplock) (l := contended) (by decide +kernel)
  exact ⟨s, hrun, of_decide_eq_true hs, exclusive_and_awake mem_finRange hrun⟩

end

end Xv6.Sleeplocks
