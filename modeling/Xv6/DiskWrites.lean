import Mathlib

/-! Disks as maps from addresses to contents, and lists of atomic writes to them, oldest
first. A crash keeps a prefix of the list. -/
namespace Xv6.DiskWrites

open Function List

variable {A B : Type*} [DecidableEq A]

def apply (d : A → B) (ws : List (A × B)) : A → B :=
  ws.foldl (fun d w => update d w.1 w.2) d

section
variable (d : A → B)
include d

@[simp]
lemma apply_nil : apply d [] = d := rfl

@[simp]
lemma apply_cons (w : A × B) (ws : List (A × B)) :
    apply d (w :: ws) = apply (update d w.1 w.2) ws := rfl

theorem apply_append (ws vs : List (A × B)) :
    apply d (ws ++ vs) = apply (apply d ws) vs := foldl_append

theorem apply_concat (ws : List (A × B)) (a : A) (x : B) :
    apply d (ws ++ [(a, x)]) = update (apply d ws) a x := by
  rw [apply_append, apply_cons, apply_nil]

theorem apply_of_notMem (ws : List (A × B)) {a : A} (h : a ∉ ws.map Prod.fst) :
    apply d ws a = d a := by
  induction ws generalizing d with
  | nil => rfl
  | cons w ws ih =>
    simp only [map_cons, mem_cons, not_or] at h
    rw [apply_cons, ih _ h.2, update_of_ne h.1]

end

/-- Where two disks differ only at written addresses, the writes make them equal. -/
theorem apply_congr (d e : A → B) (ws : List (A × B)) {a : A}
    (h : a ∈ ws.map Prod.fst ∨ d a = e a) : apply d ws a = apply e ws a := by
  induction ws generalizing d e with
  | nil => simpa using h
  | cons w ws ih =>
    rw [apply_cons, apply_cons]
    apply ih
    by_cases ha : a = w.1
    · right
      rw [ha, update_self, update_self]
    · rw [update_of_ne ha, update_of_ne ha]
      rcases h with h | h
      · rw [map_cons, mem_cons] at h
        exact .inl (h.resolve_left ha)
      · exact .inr h

theorem apply_of_mem (d : A → B) {ws : List (A × B)} (hn : (ws.map Prod.fst).Nodup)
    {w : A × B} (hw : w ∈ ws) : apply d ws w.1 = w.2 := by
  induction ws generalizing d with
  | nil => simp at hw
  | cons v ws ih =>
    rw [map_cons, nodup_cons] at hn
    rw [apply_cons]
    rcases mem_cons.mp hw with rfl | hw
    · rw [apply_of_notMem _ _ hn.1, update_self]
    · exact ih _ hn.2 hw

theorem prefix_append_cases {W : Type*} {ws xs ys : List W} (h : ws <+: xs ++ ys) :
    ws <+: xs ∨ ∃ zs, ws = xs ++ zs ∧ zs <+: ys := by
  rcases prefix_or_prefix_of_prefix h (prefix_append xs ys) with hp | ⟨zs, rfl⟩
  · exact .inl hp
  · exact .inr ⟨zs, rfl, (prefix_append_right_inj xs).mp h⟩

end Xv6.DiskWrites
