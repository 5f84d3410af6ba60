import Xv6.Monitor

/-! Rules for monitors. An invariant of the data holds whenever the lock is free; a channel has
a condition under which a thread may sleep on it. Code is checked one block at a time: code that
ends the condition of a channel owes it a wakeup before it gives the lock up. -/
namespace Xv6.Monitor

open Function

variable {ι V K N X Y A : Type}

/-- `entry` is what holds at the start of a block: of the kind of the call, the data, the
channels that are owed a wakeup, and the killed flag where it is known. During a call that is
`steady` no kill comes while the thread holds the lock, so its flag is known. -/
structure Spec (V K N X Y A : Type) where
  inv : V → Prop
  cond : V → K → Prop
  entry : N → Bool → V → Set K → Option Bool → Prop
  allowed : Y → X → Prop
  steady : A → Bool

namespace Spec
variable (σ : Spec V K N X Y A)

def broken (v v' : V) : Set K := {ch | σ.cond v ch ∧ ¬σ.cond v' ch}

def In (st : Bool) : Prog V K N X Y → V → Set K → Option Bool → Prop
  | .ret, _, _, _ | .acquire _, _, _, _ => False
  | .release .ret, v, O, _ => σ.inv v ∧ O = ∅
  | .release (.acquire k), v, O, _ => σ.inv v ∧ O = ∅ ∧
      ∀ v b, b.isSome = st → σ.inv v → In st k v ∅ b
  | .release _, _, _, _ => False
  | .act f k, v, O, b => In st k (f v) (O ∪ σ.broken v (f v)) b
  | .look k, v, O, b => In st (k v) v O b
  | .ask y k, v, O, b => ∀ x, σ.allowed y x → In st (k x) v O b
  | .wakeup ch k, v, O, b => In st k v (O \ {ch}) b
  | .sleep ch k, v, O, _ => σ.inv v ∧ O = ∅ ∧ σ.cond v ch ∧
      ∀ v b, b.isSome = st → σ.inv v → In st k v ∅ b
  | .killed k₁ k₂, v, O, b => (b ≠ some false → In st k₁ v O b) ∧ (b ≠ some true → In st k₂ v O b)
  | .goto n, v, O, b => σ.entry n st v O b

def Later (st : Bool) (k : Prog V K N X Y) : Prop :=
  ∀ v b, b.isSome = st → σ.inv v → σ.In st k v ∅ b

def Out (st : Bool) : Prog V K N X Y → Prop
  | .ret => True
  | .acquire k => σ.Later st k
  | _ => False

variable {σ} in
lemma In.release {st : Bool} {k : Prog V K N X Y} {v : V} {O : Set K} {b : Option Bool}
    (h : σ.In st (.release k) v O b) : σ.inv v ∧ O = ∅ ∧ σ.Out st k := by
  cases k with
  | ret => exact ⟨h.1, h.2, trivial⟩
  | acquire k => exact h
  | _ => exact h.elim

def Inside (st : Bool) (v : V) (O : Set K) (b : Option Bool) : Pc ι V K N X Y → Prop
  | .exec k | .waking _ _ k => σ.In st k v O b
  | .sleepRelease ch k => σ.inv v ∧ O = ∅ ∧ σ.cond v ch ∧ σ.Later st k
  | _ => False

def Outside (st : Bool) : Pc ι V K N X Y → Prop
  | .exec k => σ.Out st k
  | .sleepSet _ k | .sleepSched _ k | .asleep _ k | .sleepTidy k | .reacquire k => σ.Later st k
  | _ => False

def steadyAt (s : Sys ι V K N X Y A) (p : ι) : Bool := (s.call p).any σ.steady

def known (s : Sys ι V K N X Y A) (p : ι) : Option Bool :=
  if σ.steadyAt s p then some (s.killed p) else none

def Covered (O : Set K) (s : Sys ι V K N X Y A) (p : ι) (ch : K) : Prop :=
  σ.cond s.data ch ∨ ch ∈ O ∨ ∃ q todo k, s.pc q = .waking ch todo k ∧ p ∈ todo

end Spec

def Pc.holdsOwn : Pc ι V K N X Y → Bool
  | .sleepRelease _ _ | .sleepSet _ _ | .sleepSched _ _ | .sleepTidy _ => true
  | _ => false

def Pc.active : Pc ι V K N X Y → Bool
  | .exec _ | .waking _ _ _ => true
  | _ => false

def Sys.Parked (s : Sys ι V K N X Y A) (p : ι) : Prop :=
  match s.pc p with
  | .sleepSched ch _ | .asleep ch _ => s.chan p = some ch
  | _ => s.status p ≠ .sleeping

structure Spec.Good (σ : Spec V K N X Y A) (O : Set K) (s : Sys ι V K N X Y A) : Prop where
  own : ∀ p, s.own p = (s.pc p).holdsOwn
  parked : ∀ p, s.Parked p
  inside : ∀ p, s.lock = some p → σ.Inside (σ.steadyAt s p) s.data O (σ.known s p) (s.pc p)
  outside : ∀ p, s.lock ≠ some p → σ.Outside (σ.steadyAt s p) (s.pc p)
  free : s.lock = none → σ.inv s.data ∧ O = ∅
  covered : ∀ p ch, s.Waits p ch → σ.Covered O s p ch

structure Frame (s t : Sys ι V K N X Y A) (p : ι) : Prop where
  pc : ∀ q ≠ p, t.pc q = s.pc q
  own : ∀ q ≠ p, t.own q = s.own q
  chan : ∀ q ≠ p, t.chan q = s.chan q
  call : ∀ q ≠ p, t.call q = s.call q
  killed : ∀ q ≠ p, t.killed q = s.killed q
  status : ∀ q ≠ p, t.status q = .sleeping → s.status q = .sleeping

variable {σ : Spec V K N X Y A} {O O' : Set K} {s t : Sys ι V K N X Y A} {p q : ι} {ch : K}
  {k : Prog V K N X Y}

section
variable (hpc : t.pc q = s.pc q) (hst : t.status q = .sleeping → s.status q = .sleeping)
include hpc hst

lemma Sys.Waits.of_status (hw : t.Waits q ch) : s.Waits q ch := by
  unfold Sys.Waits at hw ⊢
  rw [hpc] at hw
  split at hw
  · exact hw
  · exact hw
  · exact ⟨hw.1, hst hw.2⟩
  · exact ⟨hw.1, hst hw.2⟩
  · exact hw

lemma Sys.Parked.of_status (hchan : t.chan q = s.chan q) (hs : s.Parked q) : t.Parked q := by
  unfold Sys.Parked at hs ⊢
  rw [hpc, hchan]
  split at hs
  · exact hs
  · exact hs
  · exact fun ht => hs (hst ht)

end

section
variable (h : Frame s t p) (hq : q ≠ p)
include h hq

lemma Frame.waits (hw : t.Waits q ch) : s.Waits q ch := hw.of_status (h.pc q hq) (h.status q hq)

theorem Frame.parked (hs : s.Parked q) : t.Parked q :=
  hs.of_status (h.pc q hq) (h.status q hq) (h.chan q hq)

lemma Frame.steadyAt : σ.steadyAt t q = σ.steadyAt s q := by
  rw [Spec.steadyAt, Spec.steadyAt, h.call q hq]

lemma Frame.known : σ.known t q = σ.known s q := by
  rw [Spec.known, Spec.known, h.steadyAt hq, h.killed q hq]

end

theorem Frame.share (s : Sys ι V K N X Y A) (l : Option ι) (v : V) (p : ι) :
    Frame s { s with lock := l, data := v } p :=
  ⟨fun _ _ => rfl, fun _ _ => rfl, fun _ _ => rfl, fun _ _ => rfl, fun _ _ => rfl,
    fun _ _ h => h⟩

section frame
variable [DecidableEq ι]

section
variable (h : Frame s t p)
include h

theorem Frame.goto (c : Pc ι V K N X Y) : Frame s (t.goto p c) p := by
  refine ⟨fun q hq => ?_, h.own, h.chan, h.call, h.killed, h.status⟩
  exact (update_of_ne hq _ _).trans (h.pc q hq)

theorem Frame.setOwn (b : Bool) : Frame s (t.setOwn p b) p := by
  refine ⟨h.pc, fun q hq => ?_, h.chan, h.call, h.killed, h.status⟩
  exact (update_of_ne hq _ _).trans (h.own q hq)

theorem Frame.setChan (x : Option K) : Frame s (t.setChan p x) p := by
  refine ⟨h.pc, h.own, fun q hq => ?_, h.call, h.killed, h.status⟩
  exact (update_of_ne hq _ _).trans (h.chan q hq)

theorem Frame.setStatus (x : Status) : Frame s (t.setStatus p x) p := by
  refine ⟨h.pc, h.own, h.chan, h.call, h.killed, fun q hq hs => ?_⟩
  exact h.status q hq ((update_of_ne hq _ _).symm.trans hs)

theorem Frame.wake (q : ι) : Frame s (t.setStatus q .runnable) p := by
  refine ⟨h.pc, h.own, h.chan, h.call, h.killed, fun r hr hs => h.status r hr ?_⟩
  by_cases hrq : r = q
  · simp [Sys.setStatus, hrq] at hs
  · exact (update_of_ne hrq _ _).symm.trans hs

end

lemma Frame.flag (s : Sys ι V K N X Y A) (p : ι) (b : Bool) :
    Frame s { s with killed := update s.killed p b } p :=
  ⟨fun _ _ => rfl, fun _ _ => rfl, fun _ _ => rfl, fun _ _ => rfl,
    fun _ hq => update_of_ne hq _ _, fun _ _ hs => hs⟩

lemma Frame.setCall (s : Sys ι V K N X Y A) (p : ι) (a : A) :
    Frame s { s with call := update s.call p (some a) } p :=
  ⟨fun _ _ => rfl, fun _ _ => rfl, fun _ _ => rfl, fun _ hq => update_of_ne hq _ _,
    fun _ _ => rfl, fun _ _ hs => hs⟩

lemma wakeOne_frame [DecidableEq K] (ht : s.wakeOne p q ch = some t) :
    Frame s t p ∧ t.lock = s.lock ∧ t.data = s.data ∧ t.call p = s.call p ∧
      t.status p = s.status p ∧ t.own p = s.own p ∧ t.killed p = s.killed p := by
  unfold Sys.wakeOne at ht
  have hsame : Frame s s p := Frame.share s s.lock s.data p
  split_ifs at ht with hqp hown hsleep
  · cases ht
    exact ⟨hsame, rfl, rfl, rfl, rfl, rfl, rfl⟩
  · cases ht
    exact ⟨hsame.wake q, rfl, rfl, rfl, update_of_ne (Ne.symm hqp) _ _, rfl, rfl⟩
  · cases ht
    exact ⟨hsame, rfl, rfl, rfl, rfl, rfl, rfl⟩

end frame

namespace Spec.Good

section
variable (h : σ.Good O s)
include h

/-- After a step of `p`, the other threads are as before if none of them holds the lock or
neither the data nor what is owed has changed. -/
lemma update (hf : Frame s t p) (hlock : ∀ q ≠ p, t.lock = some q ↔ s.lock = some q)
    (hothers : ∀ q ≠ p, s.lock = some q → t.data = s.data ∧ O' = O)
    (hown : t.own p = (t.pc p).holdsOwn) (hparked : t.Parked p)
    (hinside : t.lock = some p → σ.Inside (σ.steadyAt t p) t.data O' (σ.known t p) (t.pc p))
    (houtside : t.lock ≠ some p → σ.Outside (σ.steadyAt t p) (t.pc p))
    (hfree : t.lock = none → σ.inv t.data ∧ O' = ∅)
    (hcovered : ∀ q ch, t.Waits q ch → σ.Covered O' t q ch) : σ.Good O' t := by
  refine ⟨?_, ?_, ?_, ?_, hfree, hcovered⟩
  · intro q
    by_cases hq : q = p
    · rw [hq, hown]
    · rw [hf.own q hq, hf.pc q hq, h.own q]
  · intro q
    by_cases hq : q = p
    · rw [hq]
      exact hparked
    · exact hf.parked hq (h.parked q)
  · intro q hl
    by_cases hq : q = p
    · subst hq
      exact hinside hl
    · have hl' := (hlock q hq).mp hl
      obtain ⟨hd, hO⟩ := hothers q hq hl'
      rw [hf.steadyAt hq, hf.known hq, hf.pc q hq, hd, hO]
      exact h.inside q hl'
  · intro q hl
    by_cases hq : q = p
    · subst hq
      exact houtside hl
    · rw [hf.steadyAt hq, hf.pc q hq]
      exact h.outside q fun hl' => hl ((hlock q hq).mpr hl')

lemma holding (hl : s.lock = some p) (hf : Frame s t p) (hlock : t.lock = s.lock)
    (hown : t.own p = (t.pc p).holdsOwn) (hparked : t.Parked p)
    (hin : σ.Inside (σ.steadyAt t p) t.data O' (σ.known t p) (t.pc p))
    (hcovered : ∀ q ch, t.Waits q ch → σ.Covered O' t q ch) : σ.Good O' t := by
  refine h.update hf (fun q _ => by rw [hlock]) ?_ hown hparked (fun _ => hin) ?_ ?_ hcovered
  · intro q hq hl'
    exact absurd (Option.some.inj (hl'.symm.trans hl)) hq
  · exact fun hne => absurd (hlock.trans hl) hne
  · intro hfree
    cases hfree.symm.trans (hlock.trans hl)

lemma covered_of_waits (hdata : t.data = s.data)
    (hpc : ∀ r ch todo k, s.pc r = .waking ch todo k → t.pc r = s.pc r)
    (hw : ∀ q ch, t.Waits q ch → s.Waits q ch) (q : ι) (ch : K) (hq : t.Waits q ch) :
    σ.Covered O t q ch := by
  rcases h.covered q ch (hw q ch hq) with hcond | hO | ⟨r, todo, k, hr, hmem⟩
  · exact .inl (by rw [hdata]; exact hcond)
  · exact .inr (.inl hO)
  · exact .inr (.inr ⟨r, todo, k, (hpc r ch todo k hr).trans hr, hmem⟩)

lemma lock_of_waking {todo : List ι} (hp : s.pc p = .waking ch todo k) : s.lock = some p := by
  by_contra hl
  have hout := h.outside p hl
  rw [hp] at hout
  exact hout

lemma settled (hl : s.lock = some p) (hpc : ∀ ch todo k, s.pc p = .waking ch todo k → q ∉ todo)
    (hw : s.Waits q ch) : σ.cond s.data ch ∨ ch ∈ O := by
  rcases h.covered q ch hw with hc | hO | ⟨r, todo, k, hr, hq⟩
  · exact .inl hc
  · exact .inr hO
  · have hrp := (h.lock_of_waking hr).symm.trans hl
    cases hrp
    exact absurd hq (hpc ch todo k hr)

lemma covered_of_free (hl : s.lock = none) (hw : s.Waits q ch) : σ.cond s.data ch := by
  rcases h.covered q ch hw with hc | hO | ⟨r, todo, k, hr, _⟩
  · exact hc
  · rw [(h.free hl).2] at hO
    exact hO.elim
  · rw [h.lock_of_waking hr] at hl
    cases hl

theorem cond_of_sleeping (hl : s.lock = none) (hs : s.status p = .sleeping)
    (hch : s.chan p = some ch) : σ.cond s.data ch := by
  refine h.covered_of_free (q := p) hl ?_
  have hk := h.parked p
  unfold Sys.Parked at hk
  unfold Sys.Waits
  cases hc : s.pc p with
  | sleepSched _ _ | asleep _ _ =>
    rw [hc] at hk
    exact ⟨Option.some.inj (hk.symm.trans hch), hs⟩
  | _ =>
    rw [hc] at hk
    exact absurd hs hk

end

lemma known_isSome (s : Sys ι V K N X Y A) (p : ι) :
    (σ.known s p).isSome = σ.steadyAt s p := by
  unfold Spec.known
  split <;> simp_all

lemma own_exec (h : σ.Good O s) (hp : (s.pc p).active = true) : s.own p = false := by
  rw [h.own p]
  cases hc : s.pc p with
  | exec _ | waking _ _ _ => rfl
  | _ => simp [hc, Pc.active] at hp

lemma status_exec (h : σ.Good O s) (hp : (s.pc p).active = true) : s.status p ≠ .sleeping := by
  have hk := h.parked p
  unfold Sys.Parked at hk
  cases hc : s.pc p with
  | exec _ | waking _ _ _ =>
    rw [hc] at hk
    exact hk
  | _ => simp [hc, Pc.active] at hp

lemma lock_of_not_out (h : σ.Good O s) (hpc : s.pc p = .exec k)
    (hk : ∀ st, ¬σ.Out st k) : s.lock = some p := by
  by_contra hl
  have hout := h.outside p hl
  rw [hpc] at hout
  exact hk _ hout

variable {c : Pc ι V K N X Y}

section
variable (h : σ.Good O s) (hpc : s.pc p = c)
include h hpc

lemma not_lock_of_not_in (hk : ∀ st v b, ¬σ.Inside st v O b c) : s.lock ≠ some p := by
  intro hl
  have hin := h.inside p hl
  rw [hpc] at hin
  exact hk _ _ _ hin

lemma outside_of (hl : s.lock ≠ some p) : σ.Outside (σ.steadyAt s p) c := by
  rw [← hpc]
  exact h.outside p hl

lemma inside_of (hl : s.lock = some p) : σ.Inside (σ.steadyAt s p) s.data O (σ.known s p) c := by
  rw [← hpc]
  exact h.inside p hl

end

section step
variable [DecidableEq ι]

section
variable (h : σ.Good O s)
include h

lemma exec {v : V} (hl : s.lock = some p) (hp : (s.pc p).active = true)
    (hpc : ∀ q ch todo k, s.pc p = .waking ch todo k → q ∉ todo)
    (hin : σ.In (σ.steadyAt s p) k v O' (σ.known s p))
    (hO : ∀ ch, σ.cond s.data ch ∨ ch ∈ O → σ.cond v ch ∨ ch ∈ O') :
    σ.Good O' ({ s with data := v }.goto p (.exec k)) := by
  have hf : Frame s ({ s with data := v }.goto p (.exec k)) p := (Frame.share s s.lock v p).goto _
  refine h.holding hl hf rfl ?_ ?_ ?_ ?_
  · simpa [Sys.goto, Pc.holdsOwn] using h.own_exec hp
  · simpa [Sys.goto, Sys.Parked] using h.status_exec hp
  · change σ.Inside (σ.steadyAt s p) _ _ (σ.known s p) _
    simpa [Sys.goto, Inside] using hin
  · intro q ch hw
    by_cases hq : q = p
    · subst hq
      simp [Sys.Waits, Sys.goto] at hw
    · exact (hO ch (h.settled hl (hpc q) (hf.waits hq hw))).imp id .inl

lemma enter (hl : s.lock = none) (hp : (s.pc p).holdsOwn = false) (hs : s.status p ≠ .sleeping)
    (hk : σ.Later (σ.steadyAt s p) k) : σ.Good O ({ s with lock := some p }.goto p (.exec k)) := by
  have hf : Frame s ({ s with lock := some p }.goto p (.exec k)) p :=
    (Frame.share s (some p) s.data p).goto _
  obtain ⟨hinv, hO⟩ := h.free hl
  refine h.update hf ?_ ?_ ?_ ?_ ?_ ?_ ?_ ?_
  · intro q hq
    simp [Sys.goto, hl, Ne.symm hq]
  · intro q _ hl'
    rw [hl] at hl'
    cases hl'
  · have hown := h.own p
    rw [hp] at hown
    simpa [Sys.goto, Pc.holdsOwn] using hown
  · simpa [Sys.goto, Sys.Parked] using hs
  · intro _
    have hin := hk s.data (σ.known s p) (known_isSome s p) hinv
    change σ.Inside (σ.steadyAt s p) _ _ (σ.known s p) _
    rw [hO]
    simpa [Sys.goto, Inside] using hin
  · exact fun hne => absurd rfl hne
  · intro hfree
    cases hfree
  · intro q ch hw
    by_cases hq : q = p
    · subst hq
      simp [Sys.Waits, Sys.goto] at hw
    · exact .inl (h.covered_of_free hl (hf.waits hq hw))

lemma leave (hl : s.lock = some p) (hpc : ∀ ch todo k, s.pc p ≠ .waking ch todo k)
    (hinv : σ.inv s.data) (hO : O = ∅) (hown : s.own p = c.holdsOwn)
    (hparked : ({ s with lock := none }.goto p c).Parked p) (hc : σ.Outside (σ.steadyAt s p) c)
    (hw : ∀ ch, ({ s with lock := none }.goto p c).Waits p ch → σ.cond s.data ch) :
    σ.Good O ({ s with lock := none }.goto p c) := by
  have hf : Frame s ({ s with lock := none }.goto p c) p := (Frame.share s none s.data p).goto _
  refine h.update hf ?_ ?_ ?_ hparked ?_ ?_ ?_ ?_
  · intro q hq
    simp [Sys.goto, hl, Ne.symm hq]
  · exact fun _ _ _ => ⟨rfl, rfl⟩
  · simpa [Sys.goto] using hown
  · intro hl'
    cases hl'
  · intro _
    change σ.Outside (σ.steadyAt s p) _
    simpa [Sys.goto] using hc
  · exact fun _ => ⟨hinv, hO⟩
  · intro q ch hq
    by_cases hqp : q = p
    · subst hqp
      exact .inl (hw ch hq)
    · rcases h.settled hl (fun ch todo k he => absurd he (hpc ch todo k)) (hf.waits hqp hq) with
        hc | hc
      · exact .inl hc
      · rw [hO] at hc
        exact hc.elim

/-- A thread that does not hold the lock goes on to `c`, with another lock, channel and status
of its own. -/
lemma aside (hl : s.lock ≠ some p) (hf : Frame s t p) (hshare : t.lock = s.lock ∧ t.data = s.data)
    (hc : t.pc p = c) (hown : t.own p = c.holdsOwn) (hparked : t.Parked p)
    (hout : σ.Outside (σ.steadyAt t p) c) (hw : ∀ ch, t.Waits p ch → s.Waits p ch) :
    σ.Good O t := by
  obtain ⟨hlock, hdata⟩ := hshare
  refine h.update hf ?_ ?_ ?_ hparked ?_ ?_ ?_ (h.covered_of_waits hdata ?_ ?_)
  · intro q _
    rw [hlock]
  · exact fun _ _ _ => ⟨hdata, rfl⟩
  · rw [hc, hown]
  · intro hl'
    rw [hlock] at hl'
    exact absurd hl' hl
  · intro _
    rw [hc]
    exact hout
  · intro hfree
    rw [hdata]
    exact h.free (hlock.symm.trans hfree)
  · intro r ch todo k hr
    refine hf.pc r ?_
    rintro rfl
    exact hl (h.lock_of_waking hr)
  · intro q ch hq
    by_cases hqp : q = p
    · subst hqp
      exact hw ch hq
    · exact hf.waits hqp hq

end

lemma wakeup {procs : List ι} (hall : ∀ q, q ∈ procs) (h : σ.Good O s) (hl : s.lock = some p)
    (hpc : s.pc p = .exec (.wakeup ch k)) :
    σ.Good (O \ {ch}) (s.goto p (.waking ch procs k)) := by
  have hf : Frame s (s.goto p (.waking ch procs k)) p := (Frame.share s s.lock s.data p).goto _
  have hact : (s.pc p).active = true := by rw [hpc]; rfl
  have hin := h.inside p hl
  rw [hpc] at hin
  have hin : σ.In (σ.steadyAt s p) k s.data (O \ {ch}) (σ.known s p) := hin
  refine h.holding hl hf rfl ?_ ?_ ?_ ?_
  · simpa [Sys.goto, Pc.holdsOwn] using h.own_exec hact
  · simpa [Sys.goto, Sys.Parked] using h.status_exec hact
  · change σ.Inside (σ.steadyAt s p) _ _ (σ.known s p) _
    simpa [Sys.goto, Inside] using hin
  · intro q ch' hw
    by_cases hq : q = p
    · subst hq
      simp [Sys.Waits, Sys.goto] at hw
    · rcases h.settled hl (by rw [hpc]; rintro _ _ _ ⟨⟩) (hf.waits hq hw) with hc | hO
      · exact .inl hc
      · by_cases hch : ch' = ch
        · subst hch
          exact .inr (.inr ⟨p, procs, k, by simp [Sys.goto], hall q⟩)
        · exact .inr (.inl ⟨hO, hch⟩)

lemma wakeOne [DecidableEq K] {todo : List ι} (h : σ.Good O s)
    (hpc : s.pc p = .waking ch (q :: todo) k) (ht : s.wakeOne p q ch = some t) :
    σ.Good O (t.goto p (.waking ch todo k)) := by
  have hl := h.lock_of_waking hpc
  have hact : (s.pc p).active = true := by rw [hpc]; rfl
  have hin := h.inside p hl
  rw [hpc] at hin
  obtain ⟨hft, hlock, hdata, hcall, hst, hself, hkilled⟩ := wakeOne_frame ht
  -- `q` is not asleep on `ch` any more: its lock is free, so it is not on the way there
  have hwoken : q ≠ p → ¬t.Waits q ch := by
    intro hqp hw
    have hs : s.Waits q ch := hft.waits hqp hw
    unfold Sys.wakeOne at ht
    rw [if_neg hqp] at ht
    split_ifs at ht with hown hsl
    · have hpcq := h.own q
      have hk := h.parked q
      cases ht
      unfold Sys.Waits at hw
      rw [show (s.setStatus q .runnable).pc q = s.pc q from rfl] at hw
      cases hc : s.pc q with
      | sleepRelease _ _ | sleepSet _ _ =>
        rw [hc] at hpcq
        exact hown hpcq
      | sleepSched _ _ | asleep _ _ => simp [hc, Sys.setStatus] at hw
      | _ => simp [hc] at hw
    · have hpcq := h.own q
      have hk := h.parked q
      unfold Sys.Waits at hs
      unfold Sys.Parked at hk
      cases hc : s.pc q with
      | sleepRelease _ _ | sleepSet _ _ =>
        rw [hc] at hpcq
        exact hown hpcq
      | sleepSched ch' _ | asleep ch' _ =>
        simp only [hc] at hs hk
        rw [hs.1] at hk
        exact hsl ⟨hs.2, hk⟩
      | _ => simp [hc] at hs
  have hf := hft.goto (.waking ch todo k)
  refine h.holding hl hf hlock ?_ ?_ ?_ ?_
  · simpa [Sys.goto, Pc.holdsOwn, hself] using h.own_exec hact
  · simpa [Sys.goto, Sys.Parked, hst] using h.status_exec hact
  · have hst : σ.steadyAt (t.goto p (.waking ch todo k)) p = σ.steadyAt s p := by
      rw [Spec.steadyAt, Spec.steadyAt, ← hcall]
      rfl
    have hkn : σ.known (t.goto p (.waking ch todo k)) p = σ.known s p := by
      rw [Spec.known, Spec.known, hst, ← hkilled]
      rfl
    rw [hst, hkn, show (t.goto p (.waking ch todo k)).data = s.data from hdata]
    simpa [Sys.goto, Inside] using hin
  · intro r ch' hw
    by_cases hr : r = p
    · subst hr
      simp [Sys.Waits, Sys.goto] at hw
    · have hs := hf.waits hr hw
      rcases h.covered r ch' hs with hc | hO | ⟨u, todo', k', hu, hmem⟩
      · exact .inl (by rw [show (t.goto p (.waking ch todo k)).data = s.data from hdata]; exact hc)
      · exact .inr (.inl hO)
      · have hup := (h.lock_of_waking hu).symm.trans hl
        cases hup
        cases hpc.symm.trans hu
        rcases List.mem_cons.mp hmem with rfl | hmem
        · refine absurd ?_ (hwoken hr)
          unfold Sys.Waits at hw ⊢
          rwa [show (t.goto p (.waking ch todo k)).pc r = t.pc r from
            update_of_ne hr _ _] at hw
        · exact .inr (.inr ⟨p, todo, k, by simp [Sys.goto], hmem⟩)

lemma doze (h : σ.Good O s) (hl : s.lock = some p) (hpc : s.pc p = .exec (.sleep ch k)) :
    σ.Good O ((s.setOwn p true).goto p (.sleepRelease ch k)) := by
  have hf : Frame s ((s.setOwn p true).goto p (.sleepRelease ch k)) p :=
    ((Frame.share s s.lock s.data p).setOwn true).goto _
  have hact : (s.pc p).active = true := by rw [hpc]; rfl
  have hin := h.inside p hl
  rw [hpc] at hin
  obtain ⟨hinv, hO, hcond, hlater⟩ := hin
  refine h.holding hl hf rfl ?_ ?_ ?_ ?_
  · simp [Sys.goto, Sys.setOwn, Pc.holdsOwn]
  · simpa [Sys.goto, Sys.setOwn, Sys.Parked] using h.status_exec hact
  · change σ.Inside (σ.steadyAt s p) s.data _ (σ.known s p) _
    simpa [Sys.goto, Inside] using ⟨hinv, hO, hcond, hlater⟩
  · intro q ch' hw
    by_cases hq : q = p
    · subst hq
      have hch : ch = ch' := by simpa [Sys.Waits, Sys.goto] using hw
      exact .inl (by rw [← hch]; exact hcond)
    · rcases h.settled hl (by rw [hpc]; rintro _ _ _ ⟨⟩) (hf.waits hq hw) with hc | hc
      · exact .inl hc
      · rw [hO] at hc
        exact hc.elim

lemma kill (h : σ.Good O s) (hg : s.lock = some p → σ.steadyAt s p = false)
    (hf : Frame s t p) (hshare : t.lock = s.lock ∧ t.data = s.data) (hpc : t.pc p = s.pc p)
    (hown : t.own p = s.own p) (hchan : t.chan p = s.chan p) (hcall : t.call p = s.call p)
    (hstatus : t.status p = .sleeping → s.status p = .sleeping) : σ.Good O t := by
  have hparked : t.Parked p := (h.parked p).of_status hpc hstatus hchan
  have hwaits : ∀ ch, t.Waits p ch → s.Waits p ch := fun _ hw => hw.of_status hpc hstatus
  have hsteady : σ.steadyAt t p = σ.steadyAt s p := by
    rw [Spec.steadyAt, Spec.steadyAt, hcall]
  have howns : t.own p = (s.pc p).holdsOwn := hown.trans (h.own p)
  by_cases hl : s.lock = some p
  · have hknown : σ.known t p = σ.known s p := by
      rw [Spec.known, Spec.known, hsteady, hg hl]
      rfl
    obtain ⟨hlock, hdata⟩ := hshare
    refine h.holding hl hf hlock (hpc ▸ howns) hparked ?_ (h.covered_of_waits hdata ?_ ?_)
    · rw [hsteady, hknown, hdata, hpc]
      exact h.inside p hl
    · intro r ch todo k _
      by_cases hrp : r = p
      · rw [hrp, hpc]
      · exact hf.pc r hrp
    · intro q ch hw
      by_cases hq : q = p
      · subst hq
        exact hwaits ch hw
      · exact hf.waits hq hw
  · refine h.aside hl hf hshare hpc howns hparked ?_ hwaits
    rw [hsteady]
    exact h.outside p hl

end step

end Spec.Good

/-- Every block keeps what holds at its start, and every call starts outside. -/
structure Spec.Verified (σ : Spec V K N X Y A) (code : Code V K N X Y A) : Prop where
  block : ∀ n st v O b, σ.entry n st v O b → σ.In st (code.block n) v O b
  start : ∀ a, σ.Out (σ.steady a) (code.start a)

/-- Answers are those allowed, and nobody in a steady call is killed while it holds the lock. -/
def Spec.Guard (σ : Spec V K N X Y A) (s : Sys ι V K N X Y A) : Event ι X A → Prop
  | .answer p x => ∀ y k, s.pc p = .exec (.ask y k) → σ.allowed y x
  | .kill p => s.lock = some p → σ.steadyAt s p = false
  | _ => True

namespace Spec.Good

section run
variable [DecidableEq ι] {code : Code V K N X Y A} {procs : List ι}

lemma runProg (hcode : σ.Verified code) (hall : ∀ q, q ∈ procs) (h : σ.Good O s)
    (hpc : s.pc p = .exec k) (ht : Monitor.runProg code procs s p k = some t) :
    ∃ O', σ.Good O' t := by
  have hact : (s.pc p).active = true := by rw [hpc]; rfl
  have hnw : ∀ q ch todo k, s.pc p = .waking ch todo k → q ∉ todo := by
    intro q ch todo k hw
    rw [hpc] at hw
    cases hw
  -- code other than `ret` and `acquire` runs with the lock held
  have hin : (∀ st, ¬σ.Out st k) → s.lock = some p ∧
      σ.In (σ.steadyAt s p) k s.data O (σ.known s p) := by
    intro hk
    have hl := h.lock_of_not_out hpc hk
    exact ⟨hl, h.inside_of hpc hl⟩
  cases k with
  | ret => cases ht
  | ask _ _ => cases ht
  | acquire k =>
    have hl := h.not_lock_of_not_in hpc fun _ _ _ hf => hf
    simp only [Monitor.runProg] at ht
    split at ht
    next hfree =>
      cases ht
      exact ⟨O, h.enter hfree (by rw [hpc]; rfl) (h.status_exec hact) (h.outside_of hpc hl)⟩
    next => cases ht
  | release k =>
    obtain ⟨hl, hk⟩ := hin fun _ hf => hf
    obtain ⟨hinv, hO, hout⟩ := hk.release
    cases ht
    refine ⟨O, h.leave hl (fun _ _ _ he => ?_) hinv hO (h.own_exec hact) ?_ hout ?_⟩
    · rw [hpc] at he
      cases he
    · simpa [Sys.Parked, Sys.goto] using h.status_exec hact
    · intro ch hw
      simp [Sys.Waits, Sys.goto] at hw
  | act f k =>
    obtain ⟨hl, hk⟩ := hin fun _ hf => hf
    cases ht
    refine ⟨_, h.exec hl hact hnw hk fun ch hc => ?_⟩
    by_cases hf : σ.cond (f s.data) ch
    · exact .inl hf
    · exact .inr (hc.elim (fun hc => .inr ⟨hc, hf⟩) .inl)
  | look k =>
    obtain ⟨hl, hk⟩ := hin fun _ hf => hf
    cases ht
    exact ⟨O, h.exec hl hact hnw hk fun ch hc => hc⟩
  | wakeup ch k =>
    obtain ⟨hl, _⟩ := hin fun _ hf => hf
    cases ht
    exact ⟨_, h.wakeup hall hl hpc⟩
  | sleep ch k =>
    obtain ⟨hl, _⟩ := hin fun _ hf => hf
    simp only [Monitor.runProg] at ht
    split at ht
    next => cases ht
    next =>
      cases ht
      exact ⟨O, h.doze hl hpc⟩
  | killed k₁ k₂ =>
    obtain ⟨hl, hk⟩ := hin fun _ hf => hf
    simp only [Monitor.runProg] at ht
    split at ht
    next => cases ht
    next =>
      cases ht
      refine ⟨O, h.exec hl hact hnw ?_ fun ch hc => hc⟩
      split_ifs with hkill
      · refine hk.1 fun hb => ?_
        unfold Spec.known at hb
        split_ifs at hb
        simp [hkill] at hb
      · refine hk.2 fun hb => ?_
        unfold Spec.known at hb
        split_ifs at hb
        simp [hkill] at hb
  | goto n =>
    obtain ⟨hl, hk⟩ := hin fun _ hf => hf
    cases ht
    exact ⟨O, h.exec hl hact hnw (hcode.block n _ _ _ _ hk) fun ch hc => hc⟩

variable [DecidableEq K]

section
variable (hcode : σ.Verified code) (hall : ∀ q, q ∈ procs) (h : σ.Good O s)
include hcode hall h

lemma runPc (ht : Monitor.runPc code procs s p (s.pc p) = some t) : ∃ O', σ.Good O' t := by
  have hf := Frame.share s s.lock s.data p
  cases hpc : s.pc p with
  | exec k =>
    rw [hpc] at ht
    exact h.runProg hcode hall hpc ht
  | waking ch todo k =>
    rw [hpc] at ht
    cases todo with
    | nil =>
      have hl := h.lock_of_waking hpc
      cases ht
      refine ⟨O, h.exec hl (by rw [hpc]; rfl) ?_ (h.inside_of hpc hl) fun ch hc => hc⟩
      intro q ch' todo' k' hw
      cases hpc.symm.trans hw
      simp
    | cons q todo =>
      obtain ⟨u, hu, rfl⟩ := Option.map_eq_some_iff.mp ht
      exact ⟨O, h.wakeOne hpc hu⟩
  | sleepRelease ch k =>
    rw [hpc] at ht
    cases ht
    have hl : s.lock = some p := by
      by_contra hl
      exact h.outside_of hpc hl
    obtain ⟨hinv, hO, hcond, hlater⟩ := h.inside_of hpc hl
    refine ⟨O, h.leave hl (by rw [hpc]; rintro _ _ _ ⟨⟩) hinv hO ?_ ?_ hlater ?_⟩
    · rw [h.own p, hpc]
      rfl
    · have hk := h.parked p
      unfold Sys.Parked at hk
      rw [hpc] at hk
      simpa [Sys.Parked, Sys.goto] using hk
    · intro ch' hw
      have hch : ch = ch' := by simpa [Sys.Waits, Sys.goto] using hw
      rw [← hch]
      exact hcond
  | sleepSet ch k =>
    rw [hpc] at ht
    cases ht
    have hl := h.not_lock_of_not_in hpc fun _ _ _ hf => hf
    have hlater : σ.Later (σ.steadyAt s p) k := h.outside_of hpc hl
    refine ⟨O, h.aside (c := .sleepSched ch k) hl (((hf.setChan _).setStatus _).goto _) ⟨rfl, rfl⟩
      (by simp [Sys.goto]) ?_ ?_ hlater ?_⟩
    · exact (h.own p).trans (by rw [hpc]; rfl)
    · simp [Sys.Parked, Sys.goto, Sys.setChan, Sys.setStatus]
    · intro ch' hw
      have hch : ch = ch' := by simpa [Sys.Waits, Sys.goto, Sys.setStatus] using hw
      simpa [Sys.Waits, hpc] using hch
  | sleepSched ch k =>
    rw [hpc] at ht
    cases ht
    have hl := h.not_lock_of_not_in hpc fun _ _ _ hf => hf
    have hlater : σ.Later (σ.steadyAt s p) k := h.outside_of hpc hl
    refine ⟨O, h.aside (c := .asleep ch k) hl ((hf.setOwn _).goto _) ⟨rfl, rfl⟩
      (by simp [Sys.goto]) ?_ ?_ hlater ?_⟩
    · simp [Sys.goto, Sys.setOwn, Pc.holdsOwn]
    · have hk := h.parked p
      unfold Sys.Parked at hk
      rw [hpc] at hk
      simpa [Sys.Parked, Sys.goto, Sys.setOwn] using hk
    · intro ch' hw
      simpa [Sys.Waits, Sys.goto, Sys.setOwn, hpc] using hw
  | asleep ch k =>
    rw [hpc] at ht
    cases ht
  | sleepTidy k =>
    rw [hpc] at ht
    cases ht
    have hl := h.not_lock_of_not_in hpc fun _ _ _ hf => hf
    have hlater : σ.Later (σ.steadyAt s p) k := h.outside_of hpc hl
    refine ⟨O, h.aside (c := .reacquire k) hl (((hf.setChan _).setOwn _).goto _) ⟨rfl, rfl⟩
      (by simp [Sys.goto]) ?_ ?_ hlater ?_⟩
    · simp [Sys.goto, Sys.setOwn, Pc.holdsOwn]
    · have hk := h.parked p
      unfold Sys.Parked at hk
      rw [hpc] at hk
      simpa [Sys.Parked, Sys.goto, Sys.setOwn, Sys.setChan] using hk
    · intro ch' hw
      simp [Sys.Waits, Sys.goto] at hw
  | reacquire k =>
    rw [hpc] at ht
    have hl := h.not_lock_of_not_in hpc fun _ _ _ hf => hf
    simp only [Monitor.runPc] at ht
    split at ht
    next hfree =>
      cases ht
      have hk := h.parked p
      unfold Sys.Parked at hk
      rw [hpc] at hk
      exact ⟨O, h.enter hfree (by rw [hpc]; rfl) hk (h.outside_of hpc hl)⟩
    next => cases ht

lemma next {e : Event ι X A} (hg : σ.Guard s e) (ht : Monitor.next code procs s e = some t) :
    ∃ O', σ.Good O' t := by
  cases e with
  | run p => exact h.runPc hcode hall ht
  | call p a =>
    simp only [Monitor.next] at ht
    split at ht
    next hpc =>
      cases ht
      have hl := h.not_lock_of_not_in hpc fun _ _ _ hf => hf
      have hact : (s.pc p).active = true := by rw [hpc]; rfl
      refine ⟨O, h.aside (c := .exec (code.start a)) hl ((Frame.setCall s p a).goto _) ⟨rfl, rfl⟩
        (by simp [Sys.goto]) (h.own_exec hact) ?_ ?_ ?_⟩
      · simpa [Sys.Parked, Sys.goto] using h.status_exec hact
      · have hst : σ.steadyAt ({ s with call := Function.update s.call p (some a) }.goto p
            (.exec (code.start a))) p = σ.steady a := by simp [Spec.steadyAt, Sys.goto]
        rw [hst]
        exact hcode.start a
      · intro ch hw
        simp [Sys.Waits, Sys.goto] at hw
    next => cases ht
  | answer p x =>
    simp only [Monitor.next] at ht
    split at ht
    next y k hpc =>
      cases ht
      have hl := h.lock_of_not_out hpc fun _ hf => hf
      have hk := h.inside_of hpc hl
      refine ⟨O, h.exec hl (by rw [hpc]; rfl) ?_ (hk x (hg y k hpc)) fun ch hc => hc⟩
      intro q ch todo k hw
      rw [hpc] at hw
      cases hw
    next => cases ht
  | dispatch p =>
    simp only [Monitor.next] at ht
    split at ht
    next ch k hpc =>
      split at ht
      next =>
        cases ht
        have hl := h.not_lock_of_not_in hpc fun _ _ _ hf => hf
        have hlater : σ.Later (σ.steadyAt s p) k := h.outside_of hpc hl
        have hf := Frame.share s s.lock s.data p
        refine ⟨O, h.aside (c := .sleepTidy k) hl (((hf.setOwn _).setStatus _).goto _) ⟨rfl, rfl⟩
          (by simp [Sys.goto]) ?_ ?_ hlater ?_⟩
        · simp [Sys.goto, Sys.setOwn, Sys.setStatus, Pc.holdsOwn]
        · simp [Sys.Parked, Sys.goto, Sys.setStatus]
        · intro ch' hw
          simp [Sys.Waits, Sys.goto] at hw
      next => cases ht
    next => cases ht
  | kill p =>
    simp only [Monitor.next] at ht
    split at ht
    next => cases ht
    next =>
      have hf := Frame.flag s p true
      refine ⟨O, ?_⟩
      split_ifs at ht <;> cases ht
      · refine h.kill hg (hf.setStatus _) ⟨rfl, rfl⟩ rfl rfl rfl rfl ?_
        intro hs
        simp [Sys.setStatus] at hs
      · exact h.kill hg hf ⟨rfl, rfl⟩ rfl rfl rfl rfl fun hs => hs
  | fresh p =>
    simp only [Monitor.next] at ht
    split at ht
    next hpc =>
      cases ht
      have hl := h.not_lock_of_not_in hpc fun _ _ _ hf => hf
      exact ⟨O, h.kill (fun hl' => absurd hl' hl) (Frame.flag s p false) ⟨rfl, rfl⟩ rfl rfl rfl
        rfl fun hs => hs⟩
    next => cases ht

end

end run

lemma boot {v : V} (hv : σ.inv v) : σ.Good ∅ (Monitor.boot v : Sys ι V K N X Y A) := by
  refine ⟨fun _ => rfl, ?_, ?_, fun _ _ => trivial, fun _ => ⟨hv, rfl⟩, ?_⟩
  · intro p
    simp [Sys.Parked, Monitor.boot]
  · intro p hl
    cases hl
  · intro p ch hw
    exact hw.elim

end Spec.Good

section
variable [DecidableEq ι] [DecidableEq K] {code : Code V K N X Y A} {procs : List ι}

theorem Spec.Verified.run (hcode : σ.Verified code) (hall : ∀ q, q ∈ procs) {v : V}
    (hv : σ.inv v) {es : List (Event ι X A)}
    (hrun : Transition.Run (Transition.Guarded (next code procs) σ.Guard) (boot v) es s) :
    ∃ O, σ.Good O s := by
  refine hrun.invariant (I := fun s => ∃ O, σ.Good O s) ?_ ⟨∅, .boot hv⟩
  rintro s e t ⟨O, hs⟩ ht
  exact hs.next hcode hall ht.1 ht.2

end

end Xv6.Monitor
