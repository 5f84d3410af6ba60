import Mathlib

/-! Singly linked lists through a `next` pointer, and the loop that follows one until a test holds. -/
namespace Xv6.Circular

open List

variable {α : Type*} {next next' : α → α} {x y p v : α} {xs ys : List α}

/-- Following `next` from the first goes through all of `xs`. A circle through `x` and `xs` is the
trail `x :: (xs ++ [x])`. -/
def Trail (next : α → α) (xs : List α) : Prop := xs.IsChain fun a b => next a = b

theorem trail_split : Trail next (xs ++ p :: ys) ↔ Trail next (xs ++ [p]) ∧ Trail next (p :: ys) :=
  isChain_split

theorem trail_cons_cons : Trail next (x :: y :: ys) ↔ next x = y ∧ Trail next (y :: ys) :=
  isChain_cons_cons

theorem Trail.congr (h : Trail next xs) (hsame : ∀ a ∈ xs.dropLast, next' a = next a) :
    Trail next' xs := by
  induction xs with
  | nil => exact isChain_nil
  | cons x xs ih =>
    cases xs with
    | nil => exact isChain_singleton x
    | cons y ys =>
      obtain ⟨hx, hrest⟩ := trail_cons_cons.mp h
      refine trail_cons_cons.mpr ⟨(hsame x mem_cons_self).trans hx, ih hrest fun a ha => ?_⟩
      exact hsame a (mem_cons_of_mem _ ha)

lemma Trail.exists_next (h : Trail next (xs ++ [y])) (hv : v ∈ xs) :
    ∃ l r, xs ++ [y] = l ++ v :: next v :: r := by
  obtain ⟨l, r, rfl⟩ := append_of_mem hv
  rw [append_assoc, cons_append] at h ⊢
  cases r with
  | nil =>
    rw [nil_append, trail_split, trail_cons_cons] at h
    exact ⟨l, [], by rw [h.2.1]; rfl⟩
  | cons w r =>
    rw [cons_append, trail_split, trail_cons_cons] at h
    exact ⟨l, r ++ [y], by rw [h.2.1, cons_append]⟩

theorem Trail.next_mem (h : Trail next (x :: (xs ++ [y]))) (hv : v ∈ x :: xs) :
    next v ∈ xs ++ [y] := by
  obtain ⟨l, r, hlr⟩ := (show Trail next ((x :: xs) ++ [y]) from h).exists_next hv
  rw [cons_append] at hlr
  cases l with
  | nil =>
    obtain ⟨rfl, hrest⟩ := cons.inj hlr
    rw [hrest]
    exact mem_cons_self
  | cons a l =>
    rw [(cons.inj hlr).2]
    exact mem_append_right _ (mem_cons_of_mem _ mem_cons_self)

theorem Trail.next_of_pairwise {R : α → α → Prop} (h : Trail next (xs ++ [y])) (hR : xs.Pairwise R)
    (hv : v ∈ xs) : next v = y ∨ R v (next v) ∧ next v ∈ xs := by
  obtain ⟨l, r, hlr⟩ := h.exists_next hv
  rcases eq_nil_or_concat r with rfl | ⟨r, z, rfl⟩
  · have hlast : xs ++ [y] = (l ++ [v]) ++ [next v] := by
      rw [hlr, append_assoc, singleton_append]
    exact .inl (cons.inj (append_inj' hlast rfl).2).1.symm
  · rw [concat_eq_append, ← cons_append, ← cons_append, ← append_assoc] at hlr
    obtain ⟨rfl, -⟩ := append_inj' hlr rfl
    refine .inr ⟨?_, by simp⟩
    exact (pairwise_cons.mp (pairwise_append.mp hR).2.1).1 _ mem_cons_self

theorem Trail.rotate (h : Trail next (x :: (xs ++ [x]))) (hp : p ∈ x :: xs) :
    ∃ zs, (x :: xs).Perm (p :: zs) ∧ Trail next (p :: (zs ++ [p])) := by
  rcases mem_cons.mp hp with rfl | hp
  · exact ⟨xs, .refl _, h⟩
  · obtain ⟨l, r, rfl⟩ := append_of_mem hp
    refine ⟨r ++ x :: l, ?_, ?_⟩
    · rw [← cons_append]
      exact perm_append_comm
    · rw [append_assoc, cons_append, ← cons_append, trail_split] at h
      rw [append_assoc, cons_append, ← cons_append, trail_split]
      exact ⟨h.2, h.1⟩

theorem Trail.pred_unique (h : Trail next (xs ++ p :: y :: (ys ++ [x])))
    (hnodup : (xs ++ p :: y :: ys).Nodup) (hx : x ∈ xs ++ [p]) (hv : v ∈ xs ++ p :: y :: ys)
    (hnext : next v = y) : v = p := by
  obtain ⟨hleft, hright⟩ := trail_split.mp h
  have hright' := (trail_cons_cons.mp hright).2
  rw [append_cons, nodup_append] at hnodup
  obtain ⟨-, hnd, hdisj⟩ := hnodup
  rw [append_cons] at hv
  rcases mem_append.mp hv with hv | hv
  · rcases mem_append.mp hv with hv | hv
    · obtain ⟨l, r, hlr⟩ := hleft.exists_next hv
      have hmem : next v ∈ xs ++ [p] := by
        rw [hlr]
        exact mem_append_right _ (mem_cons_of_mem _ mem_cons_self)
      exact absurd hnext (hdisj _ hmem y mem_cons_self)
    · exact mem_singleton.mp hv
  · have hmem := hright'.next_mem hv
    rw [hnext] at hmem
    rcases mem_append.mp hmem with hmem | hmem
    · exact absurd hmem (nodup_cons.mp hnd).1
    · rw [mem_singleton.mp hmem] at hdisj
      exact absurd rfl (hdisj x hx x mem_cons_self)

theorem Trail.replace_head (h : Trail next (p :: (xs ++ [y]))) (hv : next' v = next p)
    (hsame : ∀ a ∈ xs, next' a = next a) : Trail next' (v :: (xs ++ [y])) := by
  cases xs with
  | nil => exact trail_cons_cons.mpr ⟨hv.trans (trail_cons_cons.mp h).1, isChain_singleton y⟩
  | cons z zs =>
    obtain ⟨hp, hrest⟩ := trail_cons_cons.mp h
    have hrest : Trail next ((z :: zs) ++ [y]) := hrest
    refine trail_cons_cons.mpr ⟨hv.trans hp, hrest.congr fun a ha => hsame a ?_⟩
    rwa [dropLast_concat] at ha

/-- From `p` on, the first node that passes the test; `none` if `fuel` runs out. -/
def walk (stop : α → Bool) (next : α → α) : ℕ → α → Option α
  | 0, _ => none
  | fuel + 1, p => if stop p then some p else walk stop next fuel (next p)

theorem walk_mono {stop : α → Bool} {fuel fuel' : ℕ} (hle : fuel ≤ fuel')
    (h : walk stop next fuel p = some v) : walk stop next fuel' p = some v := by
  induction fuel generalizing p fuel' with
  | zero => cases h
  | succ fuel ih =>
    obtain ⟨fuel', rfl⟩ : ∃ n, fuel' = n + 1 := ⟨fuel' - 1, by omega⟩
    rw [walk] at h ⊢
    split_ifs at h ⊢ with hp
    · exact h
    · exact ih (by omega) h

/-- The walk along a trail finds a node that passes the test, if there is one. -/
theorem Trail.walk {stop : α → Bool} {fuel : ℕ} (h : Trail next (p :: xs))
    (hex : ∃ z ∈ p :: xs, stop z = true) (hfuel : xs.length < fuel) :
    ∃ z ∈ p :: xs, stop z = true ∧ Circular.walk stop next fuel p = some z := by
  induction fuel generalizing p xs with
  | zero => omega
  | succ fuel ih =>
    rw [Circular.walk]
    by_cases hp : stop p = true
    · exact ⟨p, mem_cons_self, hp, if_pos hp⟩
    · rw [if_neg hp]
      obtain ⟨z, hz, hstop⟩ := hex
      have hz' : z ∈ xs := (mem_cons.mp hz).resolve_left (by rintro rfl; exact hp hstop)
      cases xs with
      | nil => cases hz'
      | cons w xs =>
        obtain ⟨hnext, hrest⟩ := trail_cons_cons.mp h
        rw [length_cons] at hfuel
        rw [hnext]
        obtain ⟨u, hu, hres⟩ := ih hrest ⟨z, hz', hstop⟩ (by omega)
        exact ⟨u, mem_cons_of_mem _ hu, hres⟩

end Xv6.Circular
