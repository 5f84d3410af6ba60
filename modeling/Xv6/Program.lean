import Mathlib

/-! Sequential programs over a state that may stop with an error. An error keeps the state
in which it occurred, so that what a program did before it stopped can be spoken of. -/
namespace Xv6.Program

variable {σ ε α β : Type}

abbrev Prog (σ ε : Type) : Type → Type := ExceptT ε (StateM σ)

def wp (x : Prog σ ε α) (Q : α → σ → Prop) (E : ε → σ → Prop) (s : σ) : Prop :=
  match x.run s with
  | (.ok a, t) => Q a t
  | (.error e, t) => E e t

variable {Q Q' : α → σ → Prop} {E E' : ε → σ → Prop} {s : σ}

variable {a : α}

theorem wp_pure (h : Q a s) : wp (pure a) Q E s := h

theorem wp_throw {e : ε} (h : E e s) : wp (throw e : Prog σ ε α) Q E s := h

theorem wp_get {Q : σ → σ → Prop} (h : Q s s) : wp (get : Prog σ ε σ) Q E s := h

theorem wp_modify {f : σ → σ} {Q : PUnit → σ → Prop} (h : Q ⟨⟩ (f s)) :
    wp (modify f : Prog σ ε PUnit) Q E s := h

variable {f : α → Prog σ ε β} {x : Prog σ ε α}

lemma run_bind_eq (x : Prog σ ε α) (f : α → Prog σ ε β) (s : σ) : (x >>= f).run s =
    match x.run s with
    | (.ok a, t) => (f a).run t
    | (.error e, t) => (.error e, t) := by
  change (x.bind f).run s = _
  unfold ExceptT.bind
  rcases hx : x.run s with ⟨r, t⟩
  have hx' : (x : StateM σ (Except ε α)) s = (r, t) := hx
  cases r <;>
    simp [ExceptT.run, ExceptT.mk, bind, StateT.bind, hx', ExceptT.bindCont, pure, StateT.pure]

theorem wp_bind {R : β → σ → Prop}
    (h : wp x (fun a t => wp (f a) R E t) E s) : wp (x >>= f) R E s := by
  unfold wp at h ⊢
  rw [run_bind_eq]
  rcases hx : x.run s with ⟨r, t⟩
  rw [hx] at h
  cases r <;> exact h

theorem wp_mono (h : wp x Q E s) (hQ : ∀ a t, Q a t → Q' a t)
    (hE : ∀ e t, E e t → E' e t) : wp x Q' E' s := by
  unfold wp at h ⊢
  rcases hx : x.run s with ⟨r, t⟩
  rw [hx] at h
  cases r with
  | ok a => exact hQ a t h
  | error e => exact hE e t h

theorem wp_post (h : wp x Q E s) (hQ : ∀ a t, Q a t → Q' a t) : wp x Q' E s :=
  wp_mono h hQ fun _ _ he => he

theorem wp_final {R : σ → Prop} (h : wp x (fun _ => R) (fun _ => R) s) :
    R (x.run s).2 := by
  unfold wp at h
  rcases hx : x.run s with ⟨r, t⟩
  rw [hx] at h
  cases r <;> exact h

variable {t : σ}

theorem of_wp_run (h : wp x Q E s) (hr : x.run s = (.ok a, t)) :
    Q a t := by
  unfold wp at h
  rwa [hr] at h

theorem wp_and (h : wp x Q E s)
    (h' : wp x Q' E' s) : wp x (fun a t => Q a t ∧ Q' a t) (fun e t => E e t ∧ E' e t) s := by
  unfold wp at h h' ⊢
  rcases hx : x.run s with ⟨r, t⟩
  rw [hx] at h h'
  cases r <;> exact ⟨h, h'⟩

theorem exists_run_of_wp (h : wp x Q (fun _ _ => False) s) :
    ∃ a t, x.run s = (.ok a, t) ∧ Q a t := by
  unfold wp at h
  rcases hx : x.run s with ⟨r, t⟩
  rw [hx] at h
  cases r with
  | ok a => exact ⟨a, t, rfl, h⟩
  | error e => exact h.elim

theorem exists_of_wp (h : wp x Q (fun _ _ => False) s) : ∃ a t, Q a t := by
  obtain ⟨a, t, -, hQ⟩ := exists_run_of_wp h
  exact ⟨a, t, hQ⟩

theorem wp_seq {R : β → σ → Prop} (hx : wp x Q E s)
    (hf : ∀ a t, Q a t → wp (f a) R E t) : wp (x >>= f) R E s :=
  wp_bind (wp_post hx hf)

/-- The loop rule: what holds before the first element and is kept by every turn holds at
the end; the invariant sees the elements already done. -/
theorem wp_forM {l : List α} {f : α → Prog σ ε PUnit} {I : List α → σ → Prop}
    (hstep : ∀ d a r t, l = d ++ a :: r → I d t → wp (f a) (fun _ u => I (d ++ [a]) u) E t)
    (h0 : I [] s) : wp (forM l f) (fun _ t => I l t) E s := by
  have main : ∀ r d t, l = d ++ r → I d t → wp (forM r f) (fun _ u => I l u) E t := by
    intro r
    induction r with
    | nil =>
      intro d t hl ht
      rw [List.append_nil] at hl
      rw [hl]
      exact wp_pure ht
    | cons a r ih =>
      intro d t hl ht
      refine wp_seq (hstep d a r t hl ht) ?_
      intro _ u hu
      exact ih (d ++ [a]) u (by simp [hl]) hu
  exact main l [] s rfl h0

lemma wp_forM_index {l : List α} {f : α → Prog σ ε PUnit} {I : ℕ → σ → Prop}
    (hstep : ∀ i a t, l[i]? = some a → I i t → wp (f a) (fun _ u => I (i + 1) u) E t)
    (h0 : I 0 s) : wp (forM l f) (fun _ t => I l.length t) E s := by
  refine wp_forM (I := fun d t => I d.length t) ?_ h0
  intro d a r t hl ht
  simpa using hstep d.length a t (by rw [hl]; simp) ht

theorem wp_forRange {n : ℕ} {f : ℕ → Prog σ ε PUnit} {I : ℕ → σ → Prop}
    (hstep : ∀ i t, i < n → I i t → wp (f i) (fun _ u => I (i + 1) u) E t) (h0 : I 0 s) :
    wp (forM (List.range n) f) (fun _ t => I n t) E s := by
  have hloop := wp_forM_index (l := List.range n) (f := f) (I := I) (E := E) ?_ h0
  · simpa using hloop
  intro i a t ha ht
  obtain ⟨hi, rfl⟩ := List.getElem?_eq_some_iff.mp ha
  rw [List.length_range] at hi
  simpa using hstep i t hi ht

theorem wp_forFin {n : ℕ} {f : Fin n → Prog σ ε PUnit} {I : ℕ → σ → Prop}
    (hstep : ∀ (i : Fin n) t, I i t → wp (f i) (fun _ u => I (i + 1) u) E t) (h0 : I 0 s) :
    wp (forM (List.finRange n) f) (fun _ t => I n t) E s := by
  have hloop := wp_forM_index (l := List.finRange n) (f := f) (I := I) (E := E) ?_ h0
  · simpa using hloop
  intro i a t ha ht
  obtain ⟨hi, rfl⟩ := List.getElem?_eq_some_iff.mp ha
  simpa using hstep _ t (by simpa using ht)

theorem run_bind
    (h : x.run s = (.ok a, t)) : (x >>= f).run s = (f a).run t := by
  rw [run_bind_eq, h]

lemma exists_of_run_bind {b : β}
    (h : (x >>= f).run s = (.ok b, t)) : ∃ a u, x.run s = (.ok a, u) ∧ (f a).run u = (.ok b, t) := by
  rw [run_bind_eq] at h
  rcases hx : x.run s with ⟨_ | a, u⟩
  · rw [hx] at h
    cases h
  · rw [hx] at h
    exact ⟨a, u, rfl, h⟩

section approx

def Approx (x y : Prog σ ε α) : Prop := ∀ s a t, x.run s = (.ok a, t) → y.run s = (.ok a, t)

theorem approx_refl (x : Prog σ ε α) : Approx x x := fun _ _ _ h => h

theorem approx_throw (e : ε) (x : Prog σ ε α) : Approx (throw e) x := fun _ _ _ h => by cases h

theorem approx_bind {y : Prog σ ε α} {g : α → Prog σ ε β} (hx : Approx x y)
    (hf : ∀ a, Approx (f a) (g a)) : Approx (x >>= f) (y >>= g) := by
  intro s b t h
  obtain ⟨a, u, hxa, hfa⟩ := exists_of_run_bind h
  rw [run_bind (hx s a u hxa)]
  exact hf a u b t hfa

end approx

section zoom
variable {τ : Type} {sel : σ → τ} {put : σ → τ → σ}

def zoom (sel : σ → τ) (put : σ → τ → σ) (x : Prog τ ε α) : Prog σ ε α :=
  ExceptT.mk fun s => ((x.run (sel s)).1, put s (x.run (sel s)).2)

lemma zoom_run (x : Prog τ ε α) (s : σ) :
    (zoom sel put x).run s = ((x.run (sel s)).1, put s (x.run (sel s)).2) := rfl

theorem zoom_bind (sel : σ → τ) (put : σ → τ → σ) (hsel : ∀ s t, sel (put s t) = t)
    (hput : ∀ s t t', put (put s t) t' = put s t') (x : Prog τ ε α) (f : α → Prog τ ε β) :
    zoom sel put (x >>= f) = zoom sel put x >>= fun a => zoom sel put (f a) := by
  refine ExceptT.ext (funext fun s => ?_)
  rw [run_bind_eq, zoom_run, zoom_run, run_bind_eq]
  rcases hx : x.run (sel s) with ⟨_ | a, t⟩
  · rfl
  · simp [zoom_run, hsel, hput]

theorem wp_zoom {x : Prog τ ε α} (h : wp x (fun a t => Q a (put s t)) (fun e t => E e (put s t))
    (sel s)) : wp (zoom sel put x) Q E s := by
  unfold wp at h ⊢
  rw [zoom_run]
  rcases hx : x.run (sel s) with ⟨r, t⟩
  rw [hx] at h
  cases r <;> exact h

end zoom

end Xv6.Program
