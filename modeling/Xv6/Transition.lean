import Mathlib

/-! Finite runs of a labelled transition relation, with the induction rules
used for safety: an invariant that every step keeps holds in every state of a run. -/
namespace Xv6.Transition

open Function List

variable {S E : Type*} {step : S → E → S → Prop}

inductive Run (step : S → E → S → Prop) : S → List E → S → Prop
  | nil (s) : Run step s [] s
  | snoc {s t u es e} : Run step s es t → step t e u → Run step s (es ++ [e]) u

variable {s t : S} {e : E}

theorem Run.single (h : step s e t) : Run step s [e] t :=
  .snoc (.nil s) h

variable {u : S} {es : List E}

theorem Run.trans {fs : List E} (h : Run step s es t) (g : Run step t fs u) :
    Run step s (es ++ fs) u := by
  induction g with
  | nil => simpa using h
  | snoc _ hs ih => simpa using Run.snoc ih hs

theorem Run.invariant {I : S → Prop} (hstep : ∀ s e t, I s → step s e t → I t) (h : Run step s es t) (h0 : I s) : I t := by
  induction h with
  | nil => exact h0
  | snoc _ hs ih => exact hstep _ _ _ ih hs

theorem Run.invariant_of_mem {I : S → Prop} (h : Run step s es t)
    (h0 : I s) (hstep : ∀ s e t, e ∈ es → I s → step s e t → I t) : I t := by
  induction h with
  | nil => exact h0
  | snoc _ hs ih =>
    have hprev := ih fun s e t he => hstep s e t (mem_append_left _ he)
    exact hstep _ _ _ (by simp) hprev hs

theorem Run.of_snoc (h : Run step s (es ++ [e]) u) :
    ∃ t, Run step s es t ∧ step t e u := by
  generalize hl : es ++ [e] = l at h
  cases h with
  | nil => simp at hl
  | snoc hr hs =>
    obtain ⟨rfl, he⟩ := append_inj' hl rfl
    cases he
    exact ⟨_, hr, hs⟩

theorem Run.of_nil (h : Run step s [] u) : s = u := by
  generalize hl : ([] : List E) = l at h
  cases h with
  | nil => rfl
  | snoc _ _ => simp at hl

theorem Run.of_cons (h : Run step s (e :: es) u) :
    ∃ t, step s e t ∧ Run step t es u := by
  induction es using reverseRecOn generalizing u with
  | nil =>
    rw [← nil_append [e]] at h
    obtain ⟨t, hr, hs⟩ := h.of_snoc
    rw [← hr.of_nil] at hs
    exact ⟨u, hs, .nil u⟩
  | append_singleton es f ih =>
    rw [← cons_append] at h
    obtain ⟨t, hr, hs⟩ := h.of_snoc
    obtain ⟨v, hv, hvt⟩ := ih hr
    exact ⟨v, hv, .snoc hvt hs⟩

theorem Run.mono {step' : S → E → S → Prop} (hm : ∀ s e t, step s e t → step' s e t) (h : Run step s es t) : Run step' s es t := by
  induction h with
  | nil => exact .nil _
  | snoc _ hs ih => exact .snoc ih (hm _ _ _ hs)

/-- Steps of a partial transition function that also satisfy a guard on the state before. -/
def Guarded (next : S → E → Option S) (G : S → E → Prop) (s : S) (e : E) (t : S) : Prop :=
  G s e ∧ next s e = some t

/-- Replay a list of events; `none` when some event is not enabled or not allowed. -/
def replay (next : S → E → Option S) (G : S → E → Prop) [∀ s e, Decidable (G s e)] (s : S) :
    List E → Option S
  | [] => some s
  | e :: es => if G s e then (next s e).bind fun t => replay next G t es else none

variable {f : S → E → Option S} {G : S → E → Prop}

lemma replay_run [∀ s e, Decidable (G s e)] (h : replay f G s es = some t) : Run (Guarded f G) s es t := by
  induction es generalizing s with
  | nil =>
    simp only [replay, Option.some.injEq] at h
    subst t
    exact .nil s
  | cons e es ih =>
    simp only [replay] at h
    split_ifs at h with hg
    obtain ⟨u, hu, hr⟩ := Option.bind_eq_some_iff.mp h
    exact (Run.single ⟨hg, hu⟩).trans (ih hr)

variable {l : List E}

theorem exists_run_of_replay
    [∀ s e, Decidable (G s e)] {P : S → Bool}
    (h : (replay f G s l).any P = true) : ∃ t, Run (Guarded f G) s l t ∧ P t = true := by
  cases ht : replay f G s l with
  | none => simp [ht] at h
  | some t => exact ⟨t, replay_run ht, by simpa [ht] using h⟩

/-- Steps labelled with the whole transition, so that a run shows its states. -/
def Record (step : S → E → S → Prop) (s : S) (x : S × E × S) (t : S) : Prop :=
  x.1 = s ∧ x.2.2 = t ∧ step s x.2.1 t

theorem Run.restrict
    {xs : List (S × E × S)} (h : Run (Record fun s e t => f s e = some t) s xs t)
    (hG : ∀ x ∈ xs, G x.1 x.2.1) : Run (Record (Guarded f G)) s xs t := by
  induction h with
  | nil => exact .nil _
  | snoc _ hs ih =>
    obtain ⟨hfrom, hto, hnext⟩ := hs
    have hlast := hG _ (mem_append_right _ (mem_singleton_self _))
    refine .snoc (ih fun x hx => hG x (mem_append_left _ hx)) ⟨hfrom, hto, ?_, hnext⟩
    rw [← hfrom]
    exact hlast

def transitions (next : S → E → Option S) (s : S) : List E → Option (List (S × E × S))
  | [] => some []
  | e :: es => (next s e).bind fun t => (transitions next t es).map ((s, e, t) :: ·)

theorem transitions_run {l : List (S × E × S)}
    (h : transitions f s es = some l) :
    ∃ t, Run (Record fun s e t => f s e = some t) s l t := by
  induction es generalizing s l with
  | nil =>
    simp only [transitions, Option.some.injEq] at h
    subst h
    exact ⟨s, .nil s⟩
  | cons e es ih =>
    simp only [transitions, Option.bind_eq_some_iff, Option.map_eq_some_iff] at h
    obtain ⟨t, ht, l', hl', rfl⟩ := h
    obtain ⟨u, hu⟩ := ih hl'
    have hfirst : Run (Record fun s e t => f s e = some t) s [(s, e, t)] t :=
      .single ⟨rfl, rfl, ht⟩
    exact ⟨u, hfirst.trans hu⟩

/-- A replay whose first transition, last transition and those between pass a test. -/
theorem exists_interval
    {P : S × E × S → List (S × E × S) → S × E × S → Bool}
    (h : (transitions f s l).any (fun k =>
      match k with
      | [] => false
      | x :: r => r.getLast?.any fun y => P x r.dropLast y) = true) :
    ∃ x k y t, Run (Record fun s e t => f s e = some t) s (x :: (k ++ [y])) t ∧
      P x k y = true := by
  cases hl : transitions f s l with
  | none => simp [hl] at h
  | some k =>
    obtain ⟨t, ht⟩ := transitions_run hl
    rw [hl] at h
    cases k with
    | nil => simp at h
    | cons x r =>
      cases hy : r.getLast? with
      | none => simp [hy] at h
      | some y =>
        have hr : r.dropLast ++ [y] = r := dropLast_append_getLast? y hy
        exact ⟨x, r.dropLast, y, t, by rw [hr]; exact ht, by simpa [hy] using h⟩

theorem replay_getD [∀ s e, Decidable (G s e)]
    {d : S} (h : (replay f G s l).isSome = true) :
    Run (Guarded f G) s l ((replay f G s l).getD d) := by
  cases ht : replay f G s l with
  | none => simp [ht] at h
  | some t => exact replay_run ht

/-- Changing one party's share changes a sum over all parties by that share only. -/
theorem sum_update_add {ι α : Type*} [DecidableEq ι] [Fintype ι] (share : α → ℕ) (f : ι → α)
    (p : ι) (a : α) :
    ∑ q, share (update f p a q) + share (f p) = ∑ q, share (f q) + share a := by
  have h1 := Finset.add_sum_erase Finset.univ (fun q => share (update f p a q))
    (Finset.mem_univ p)
  have h2 := Finset.add_sum_erase Finset.univ (fun q => share (f q)) (Finset.mem_univ p)
  have h3 : ∑ q ∈ Finset.univ.erase p, share (update f p a q) =
      ∑ q ∈ Finset.univ.erase p, share (f q) := by
    refine Finset.sum_congr rfl fun q hq => ?_
    rw [update_of_ne (Finset.ne_of_mem_erase hq)]
  simp only [update_self] at h1
  omega

end Xv6.Transition
