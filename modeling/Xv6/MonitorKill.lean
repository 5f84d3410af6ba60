import Xv6.MonitorHistory
import Xv6.MonitorRules

/-! When a kill leaves a thread asleep. Code that tests its killed flag before it sleeps misses
a kill only if it comes after the test and before the sleep. -/
namespace Xv6.Monitor

open Function Option Sys

variable {ι V K N X Y A L S : Type}

/-- The code goes to sleep on the data `v` without another look at the killed flag. -/
def Prog.toSleep : Prog V K N X Y → V → Bool
  | .sleep _ _, _ => true
  | .act f k, v => k.toSleep (f v)
  | .look k, v => (k v).toSleep v
  | .wakeup _ k, v => k.toSleep v
  | _, _ => false

def Prog.Alert (k : Prog V K N X Y) : Prop := ∀ v, k.toSleep v = false

/-- Nothing but a test of the killed flag puts the thread on the way to sleep. -/
def Prog.Careful : Prog V K N X Y → Prop
  | .ret | .goto _ => True
  | .acquire k | .release k | .sleep _ k => k.Alert ∧ k.Careful
  | .act _ k | .wakeup _ k => k.Careful
  | .look k => ∀ v, (k v).Careful
  | .ask _ k => ∀ x, (k x).Alert ∧ (k x).Careful
  | .killed k₁ k₂ => k₁.Alert ∧ k₁.Careful ∧ k₂.Careful

structure Code.Careful (code : Code V K N X Y A) : Prop where
  block : ∀ n, (code.block n).Alert ∧ (code.block n).Careful
  start : ∀ a, (code.start a).Alert ∧ (code.start a).Careful

def Pc.Careful : Pc ι V K N X Y → Prop
  | .exec k | .waking _ _ k => k.Careful
  | .sleepRelease _ k | .sleepSet _ k | .sleepSched _ k | .asleep _ k | .sleepTidy k
  | .reacquire k => k.Alert ∧ k.Careful

section
variable (s : Sys ι V K N X Y A)

def Sys.toSleep (p : ι) : Bool :=
  match s.pc p with
  | .exec k | .waking _ _ k => k.toSleep s.data
  | _ => false

def Sys.drowsy (p : ι) : Bool :=
  match s.pc p with
  | .exec k | .waking _ _ k => k.toSleep s.data
  | .sleepRelease _ _ | .sleepSet _ _ => true
  | .sleepSched _ _ | .asleep _ _ => s.status p = .sleeping
  | _ => false

structure Sys.Heeds (p : ι) : Prop where
  own : s.own p = (s.pc p).holdsOwn
  parked : s.Parked p
  careful : (s.pc p).Careful
  seen : s.killed p = true → s.drowsy p = false

def KillBefore : Event ι X A → Prop
  | .kill p => s.toSleep p = false
  | _ => True

end

instance (s : Sys ι V K N X Y A) (e : Event ι X A) : Decidable (KillBefore s e) :=
  match e with
  | .kill p => inferInstanceAs (Decidable (s.toSleep p = false))
  | .call _ _ | .run _ | .answer _ _ | .dispatch _ | .fresh _ => isTrue trivial

def Pc.wakes : Pc ι V K N X Y → Bool
  | .waking _ _ _ => true
  | _ => false

/-- Nothing is asked of the data, only that the lock is held where they are used. -/
def Account.discipline : Account V N X A Unit Unit where
  start := fun _ => ()
  note := fun _ _ _ x => x
  note_self := fun _ _ _ => rfl
  inv := fun _ _ => True
  entry := fun _ _ _ _ => True
  done := fun _ _ => True
  step := fun _ _ => True
  answer := fun _ => True

variable {c : Account V N X A L S} {code : Code V K N X Y A} {s t : Sys ι V K N X Y A} {p q : ι}
  {k : Prog V K N X Y} {v : V} {g : Notes ι L S}

lemma Sys.Heeds.not_asleep (h : s.Heeds p) (hk : s.killed p = true) :
    s.status p ≠ .sleeping := by
  intro hs
  have hd := h.seen hk
  have hparked := h.parked
  unfold drowsy at hd
  unfold Sys.Parked at hparked
  cases hp : s.pc p <;> simp_all

lemma Account.Out.toSleep {a : A} {l : L} (h : c.Out a l k) (v : V) : k.toSleep v = false := by
  cases k <;> first | rfl | exact h.elim

lemma Account.Kept.toSleep (h : c.Kept g s) (hl : s.lock ≠ some q) (hq : s.pc q = .exec k)
    (v : V) : k.toSleep v = false := by
  rcases h.outside q hl with hidle | ⟨a, _, ha⟩
  · cases hq.symm.trans hidle.2
    rfl
  · rw [hq] at ha
    exact Account.Out.toSleep ha v

lemma Sys.Heeds.other (h : s.Heeds q) (hf : Frame s t p) (hq : q ≠ p) (hk : c.Kept g s)
    (hdata : t.data = s.data ∨ s.lock = some p) : t.Heeds q := by
  refine ⟨?_, hf.parked hq h.parked, ?_, ?_⟩
  · rw [hf.own q hq, hf.pc q hq, h.own]
  · rw [hf.pc q hq]
    exact h.careful
  · intro hkill
    rw [hf.killed q hq] at hkill
    have hseen := h.seen hkill
    have hstatus := hf.status q hq
    have hpc := hf.pc q hq
    have hno : s.lock = some p → s.lock ≠ some q := by
      intro hl hl'
      exact hq (some.inj (hl'.symm.trans hl))
    unfold drowsy at hseen ⊢
    rw [hpc]
    cases hs : s.pc q with
    | exec k =>
      rw [hs] at hseen
      rcases hdata with hd | hl
      · rw [hd]
        exact hseen
      · exact hk.toSleep (hno hl) hs _
    | waking ch todo k =>
      rw [hs] at hseen
      rcases hdata with hd | hl
      · rw [hd]
        exact hseen
      · exact absurd (hk.holder hs nofun fun _ _ => id).1 (hno hl)
    | sleepSched ch k | asleep ch k =>
      rw [hs] at hseen
      have hnot : s.status q ≠ .sleeping := by simpa using hseen
      simpa using fun ht => hnot (hstatus ht)
    | sleepRelease ch k | sleepSet ch k =>
      rw [hs] at hseen
      exact hseen
    | sleepTidy k | reacquire k => rfl

section
variable [DecidableEq ι]

lemma Sys.goto_pc (s : Sys ι V K N X Y A) (p : ι) (x : Pc ι V K N X Y) :
    (s.goto p x).pc p = x := update_self ..

omit [DecidableEq ι] in
lemma Sys.Heeds.awake (h : s.Heeds p) (hp : (s.pc p).active = true) :
    s.own p = false ∧ s.status p ≠ .sleeping := by
  have hown := h.own
  have hparked := h.parked
  unfold Sys.Parked at hparked
  cases hs : s.pc p <;> simp_all [Pc.active, Pc.holdsOwn]

lemma Sys.heeds_goto {u : Sys ι V K N X Y A} {x : Pc ι V K N X Y}
    (hx : ∀ ch k, x ≠ .sleepSched ch k ∧ x ≠ .asleep ch k) (hown : u.own p = x.holdsOwn)
    (hstatus : u.status p ≠ .sleeping) (hcare : x.Careful)
    (hseen : u.killed p = true → (u.goto p x).drowsy p = false) : (u.goto p x).Heeds p := by
  refine ⟨?_, ?_, ?_, hseen⟩
  · rw [Sys.goto_pc]
    exact hown
  · unfold Sys.Parked
    rw [Sys.goto_pc]
    cases x with
    | sleepSched ch k => exact absurd rfl (hx ch k).1
    | asleep ch k => exact absurd rfl (hx ch k).2
    | _ => exact hstatus
  · rw [Sys.goto_pc]
    exact hcare

lemma Sys.Heeds.exec (h : s.Heeds p) {u : Sys ι V K N X Y A} (hp : (s.pc p).active = true)
    (hk : k.Careful) (hkill : s.killed p = true → k.toSleep u.data = false)
    (hu : u.own p = s.own p ∧ u.status p = s.status p ∧ u.killed p = s.killed p := by
      exact ⟨rfl, rfl, rfl⟩) : (u.goto p (.exec k)).Heeds p := by
  obtain ⟨hown, hstatus, hkilled⟩ := hu
  obtain ⟨hfree, hawake⟩ := h.awake hp
  refine Sys.heeds_goto (by simp) (hown.trans hfree) ?_ hk ?_
  · rw [hstatus]
    exact hawake
  · intro hkill'
    unfold drowsy
    rw [Sys.goto_pc]
    exact hkill (hkilled.symm.trans hkill')

/-- What a step of `p` has to show: `p` still heeds a kill, and the others are left alone. -/
structure Stays (s t : Sys ι V K N X Y A) (p : ι) : Prop where
  frame : Frame s t p
  data : t.data = s.data ∨ s.lock = some p
  heeds : t.Heeds p

omit [DecidableEq ι] in
lemma Stays.all (h : Stays s t p) (hk : c.Kept g s) (hs : ∀ q, s.Heeds q) (q : ι) : t.Heeds q := by
  by_cases hq : q = p
  · subst hq
    exact h.heeds
  · exact (hs q).other h.frame hq hk h.data

variable {procs : List ι}

lemma Sys.Heeds.runProg (h : s.Heeds p) (hcode : code.Careful) (hkept : c.Kept g s)
    (hp : s.pc p = .exec k) (ht : runProg code procs s p k = some t) : Stays s t p := by
  have hactive : (s.pc p).active = true := by rw [hp]; rfl
  have hcare : k.Careful := by
    have hc := h.careful
    rwa [hp] at hc
  have hseen : s.killed p = true → k.toSleep s.data = false := by
    intro hk
    have hd := h.seen hk
    unfold drowsy at hd
    rwa [hp] at hd
  have hown : s.own p = false := by rw [h.own, hp]; rfl
  cases k with
  | ret | ask y k => cases ht
  | acquire k =>
    simp only [Monitor.runProg, ite_none_right_eq_some, some.injEq] at ht
    obtain ⟨hl, rfl⟩ := ht
    exact ⟨(Frame.share s (some p) s.data p).goto _, .inl rfl,
      h.exec hactive hcare.2 fun _ => hcare.1 _⟩
  | release k =>
    cases ht
    exact ⟨(Frame.share s none s.data p).goto _, .inl rfl,
      h.exec hactive hcare.2 fun _ => hcare.1 _⟩
  | act f k =>
    cases ht
    obtain ⟨hl, _⟩ := hkept.holder hp (by simp) fun _ _ => id
    exact ⟨(Frame.share s s.lock (f s.data) p).goto _, .inr hl, h.exec hactive hcare hseen⟩
  | look k =>
    cases ht
    exact ⟨(Frame.share s s.lock s.data p).goto _, .inl rfl, h.exec hactive (hcare _) hseen⟩
  | goto n =>
    cases ht
    exact ⟨(Frame.share s s.lock s.data p).goto _, .inl rfl,
      h.exec hactive (hcode.block n).2 fun _ => (hcode.block n).1 _⟩
  | killed k₁ k₂ =>
    simp only [Monitor.runProg, ite_none_left_eq_some, some.injEq] at ht
    obtain ⟨_, rfl⟩ := ht
    refine ⟨(Frame.share s s.lock s.data p).goto _, .inl rfl, ?_⟩
    by_cases hk : s.killed p = true
    · rw [if_pos hk]
      exact h.exec hactive hcare.2.1 fun _ => hcare.1 _
    · rw [if_neg hk]
      exact h.exec hactive hcare.2.2 fun hk' => absurd hk' hk
  | wakeup ch k =>
    cases ht
    refine ⟨(Frame.share s s.lock s.data p).goto _, .inl rfl, ?_⟩
    refine Sys.heeds_goto (by simp) hown (h.awake hactive).2 hcare fun hk => ?_
    unfold drowsy
    rw [Sys.goto_pc]
    exact hseen hk
  | sleep ch k =>
    simp only [Monitor.runProg, ite_none_left_eq_some, some.injEq] at ht
    obtain ⟨_, rfl⟩ := ht
    refine ⟨((Frame.share s s.lock s.data p).setOwn true).goto _, .inl rfl, ?_⟩
    refine Sys.heeds_goto (by simp) (update_self ..)
      (h.awake hactive).2 hcare fun hk => ?_
    -- a killed thread does not get here
    cases hseen hk

lemma Sys.Heeds.runPc [DecidableEq K] (h : s.Heeds p) (hcode : code.Careful) (hkept : c.Kept g s)
    {x : Pc ι V K N X Y} (hp : s.pc p = x) (ht : runPc code procs s p x = some t) :
    Stays s t p := by
  have hcare : x.Careful := hp ▸ h.careful
  have hown : s.own p = x.holdsOwn := hp ▸ h.own
  cases x with
  | exec k => exact h.runProg hcode hkept hp ht
  | asleep ch k => cases ht
  | waking ch todo k =>
    have hactive : (s.pc p).active = true := by rw [hp]; rfl
    have hseen : s.killed p = true → k.toSleep s.data = false := by
      intro hk
      have hd := h.seen hk
      unfold drowsy at hd
      rwa [hp] at hd
    cases todo with
    | nil =>
      cases ht
      exact ⟨(Frame.share s s.lock s.data p).goto _, .inl rfl, h.exec hactive hcare hseen⟩
    | cons q todo =>
      obtain ⟨u, hu, rfl⟩ := map_eq_some_iff.mp ht
      obtain ⟨hframe, _, hdata, _, hstatus, hown', hkilled⟩ := wakeOne_frame (p := p) hu
      refine ⟨hframe.goto _, .inl hdata, ?_⟩
      refine Sys.heeds_goto (by simp) (hown'.trans hown) ?_ hcare fun hk => ?_
      · rw [hstatus]
        exact (h.awake hactive).2
      · unfold drowsy
        rw [Sys.goto_pc]
        change k.toSleep u.data = false
        rw [hdata]
        exact hseen (hkilled.symm.trans hk)
  | sleepRelease ch k =>
    cases ht
    have hd : s.drowsy p = true := by simp [drowsy, hp]
    have hstatus : s.status p ≠ .sleeping := by simpa [Sys.Parked, hp] using h.parked
    refine ⟨(Frame.share s none s.data p).goto _, .inl rfl, ?_⟩
    refine Sys.heeds_goto (by simp) hown hstatus hcare fun hk => ?_
    exact absurd (h.seen hk) (by simp [hd])
  | sleepSet ch k =>
    cases ht
    have hd : s.drowsy p = true := by simp [drowsy, hp]
    refine ⟨(((Frame.share s s.lock s.data p).setChan _).setStatus _).goto _, .inl rfl, ?_⟩
    refine ⟨?_, ?_, ?_, fun hk => absurd (h.seen hk) (by simp [hd])⟩
    · rw [Sys.goto_pc]
      exact hown
    · simp [Sys.Parked, goto, setStatus, setChan]
    · rw [Sys.goto_pc]
      exact hcare
  | sleepSched ch k =>
    cases ht
    have hchan : s.chan p = some ch := by simpa [Sys.Parked, hp] using h.parked
    refine ⟨((Frame.share s s.lock s.data p).setOwn _).goto _, .inl rfl, ?_⟩
    refine ⟨?_, ?_, ?_, fun hk => ?_⟩
    · simp [goto, setOwn, Pc.holdsOwn]
    · simpa [Sys.Parked, goto, setOwn] using hchan
    · rw [Sys.goto_pc]
      exact hcare
    · have hd := h.seen hk
      unfold drowsy at hd ⊢
      rw [hp] at hd
      rw [Sys.goto_pc]
      exact hd
  | sleepTidy k =>
    cases ht
    have hstatus : s.status p ≠ .sleeping := by simpa [Sys.Parked, hp] using h.parked
    refine ⟨(((Frame.share s s.lock s.data p).setChan _).setOwn _).goto _, .inl rfl, ?_⟩
    refine Sys.heeds_goto (by simp) (update_self ..) hstatus hcare
      fun _ => ?_
    simp [drowsy, goto]
  | reacquire k =>
    simp only [Monitor.runPc, ite_none_right_eq_some, some.injEq] at ht
    obtain ⟨hl, rfl⟩ := ht
    have hstatus : s.status p ≠ .sleeping := by simpa [Sys.Parked, hp] using h.parked
    refine ⟨(Frame.share s (some p) s.data p).goto _, .inl rfl, ?_⟩
    refine Sys.heeds_goto (by simp) hown hstatus hcare.2 fun _ => ?_
    unfold drowsy
    rw [Sys.goto_pc]
    exact hcare.1 _

variable [DecidableEq K] {e : Event ι X A}

lemma Sys.Heeds.kill (h : s.Heeds p) (hp : s.toSleep p = false)
    (ht : next code procs s (.kill p) = some t) : Stays s t p := by
  have hparked := h.parked
  have hown := h.own
  simp only [next] at ht
  split_ifs at ht with hlocked hsleep
  · cases ht
    refine ⟨(Frame.flag s p true).setStatus _, .inl rfl, hown, ?_, h.careful, fun _ => ?_⟩
    · unfold Sys.Parked at hparked ⊢
      cases hs : s.pc p <;> simp_all [setStatus]
    · unfold drowsy
      unfold Sys.Parked at hparked
      cases hs : s.pc p <;> simp_all [setStatus]
  · cases ht
    refine ⟨Frame.flag s p true, .inl rfl, hown, hparked, h.careful, fun _ => ?_⟩
    unfold drowsy
    unfold toSleep at hp
    cases hs : s.pc p <;> simp_all [Pc.holdsOwn]

lemma heeds_next (hcode : code.Careful) (hkept : c.Kept g s) (h : ∀ q, s.Heeds q)
    (hg : KillBefore s e) (ht : next code procs s e = some t) (q : ι) : t.Heeds q := by
  cases e with
  | run p => exact ((h p).runPc hcode hkept rfl ht).all hkept h q
  | call p a =>
    simp only [next] at ht
    split at ht
    next hp =>
      cases ht
      have hactive : (s.pc p).active = true := by rw [hp]; rfl
      have hheeds := (h p).exec (u := { s with call := update s.call p (some a) })
        hactive (hcode.start a).2 fun _ => (hcode.start a).1 _
      exact Stays.all ⟨(Frame.setCall s p a).goto _, .inl rfl, hheeds⟩ hkept h q
    next => cases ht
  | answer p x =>
    simp only [next] at ht
    split at ht
    next y k hp =>
      cases ht
      have hactive : (s.pc p).active = true := by rw [hp]; rfl
      have hcare : (Prog.ask y k).Careful := by
        have hc := (h p).careful
        rwa [hp] at hc
      refine Stays.all (p := p) ⟨(Frame.share s s.lock s.data p).goto _, .inl rfl, ?_⟩ hkept h q
      exact (h p).exec hactive (hcare x).2 fun _ => (hcare x).1 _
    next => cases ht
  | dispatch p =>
    simp only [next] at ht
    split at ht
    next ch k hp =>
      split_ifs at ht with hd
      cases ht
      have hcare : k.Alert ∧ k.Careful := by
        have hc := (h p).careful
        rwa [hp] at hc
      refine Stays.all (p := p)
        ⟨(((Frame.share s s.lock s.data p).setOwn _).setStatus _).goto _, .inl rfl, ?_⟩ hkept h q
      refine Sys.heeds_goto (by simp) ?_ ?_ hcare fun _ => ?_
      · simp [setStatus, setOwn, Pc.holdsOwn]
      · simp [setStatus]
      · simp [drowsy, goto]
    next => cases ht
  | kill p =>
    have hstays : Stays s t p := (h p).kill hg ht
    exact hstays.all hkept h q
  | fresh p =>
    simp only [next] at ht
    split at ht
    next hp =>
      cases ht
      have hstays : Stays s { s with killed := update s.killed p false } p := by
        refine ⟨Frame.flag s p false, .inl rfl, (h p).own, (h p).parked, (h p).careful,
          fun hk => ?_⟩
        simp at hk
      exact hstays.all hkept h q
    next => cases ht

/-- In every run in which nobody is killed on the way to sleep, no killed thread sleeps. -/
theorem killed_not_sleeping (hcode : code.Careful) (hc : c.Verified code)
    (hall : ∀ y, c.answer y) (hv : c.inv v g.all) {es : List (Event ι X A)}
    (h : Transition.Run (Transition.Guarded (next code procs) KillBefore) (boot v) es s) :
    s.killed p = true → s.status p ≠ .sleeping := by
  have hinv : (∃ g, c.Kept g s) ∧ ∀ q, s.Heeds q := by
    refine h.invariant (I := fun s => (∃ g, c.Kept g s) ∧ ∀ q, s.Heeds q) ?_
      ⟨⟨g, Account.kept_boot hv⟩, ?_⟩
    · rintro s e t ⟨⟨g, hkept⟩, hs⟩ ⟨hg, ht⟩
      exact ⟨(hc.step hall ⟨g, hkept⟩ ht).1, heeds_next hcode hkept hs hg ht⟩
    · intro q
      exact ⟨rfl, nofun, trivial, fun _ => rfl⟩
  exact (hinv.2 p).not_asleep

end

end Xv6.Monitor
