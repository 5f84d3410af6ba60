import Mathlib

/-! Cells that hold names of resources. A resource in use is held by exactly one cell, or has
just been taken and is held by none yet. -/
namespace Xv6.Ownership

variable {ι α : Type*} {f g : ι → Option α} {U X : Set α} {a : α} {p : ι}

structure Owns (f : ι → Option α) (U X : Set α) : Prop where
  inj : ∀ p q a, f p = some a → f q = some a → p = q
  cover : ∀ a, a ∈ U ↔ a ∈ X ∨ ∃ p, f p = some a
  apart : ∀ a ∈ X, ∀ p, f p ≠ some a

theorem Owns.held (h : Owns f U X) (hp : f p = some a) : a ∈ U := (h.cover a).mpr (.inr ⟨p, hp⟩)

theorem Owns.spare (h : Owns f U X) (ha : a ∈ X) : a ∈ U := (h.cover a).mpr (.inl ha)

theorem Owns.acquire (h : Owns f U X) (ha : a ∉ U) : Owns f (insert a U) (insert a X) := by
  refine ⟨h.inj, ?_, ?_⟩
  · intro b
    simp only [Set.mem_insert_iff, h.cover b, or_assoc]
  · intro b hb q hq
    rcases Set.mem_insert_iff.mp hb with rfl | hb
    · exact ha (h.held hq)
    · exact h.apart b hb q hq

theorem Owns.store [DecidableEq ι] (h : Owns f U X) (ha : a ∈ X) (hp : f p = none) :
    Owns (Function.update f p (some a)) U (X \ {a}) := by
  have hother : ∀ q b, Function.update f p (some a) q = some b ↔
      q = p ∧ a = b ∨ q ≠ p ∧ f q = some b := by
    intro q b
    by_cases hq : q = p
    · subst hq
      simp
    · simp [hq]
  refine ⟨?_, ?_, ?_⟩
  · intro q r b hq hr
    rcases (hother q b).mp hq with ⟨hqp, hab⟩ | ⟨_, hfq⟩
    · rcases (hother r b).mp hr with ⟨hrp, _⟩ | ⟨_, hfr⟩
      · rw [hqp, hrp]
      · rw [← hab] at hfr
        exact absurd hfr (h.apart a ha r)
    · rcases (hother r b).mp hr with ⟨_, hab⟩ | ⟨_, hfr⟩
      · rw [← hab] at hfq
        exact absurd hfq (h.apart a ha q)
      · exact h.inj q r b hfq hfr
  · intro b
    rw [h.cover b]
    constructor
    · rintro (hx | ⟨q, hq⟩)
      · by_cases hb : b = a
        · exact .inr ⟨p, by simp [hb]⟩
        · exact .inl ⟨hx, hb⟩
      · refine .inr ⟨q, (hother q b).mpr (.inr ⟨?_, hq⟩)⟩
        rintro rfl
        rw [hp] at hq
        cases hq
    · rintro (⟨hx, _⟩ | ⟨q, hq⟩)
      · exact .inl hx
      · rcases (hother q b).mp hq with ⟨_, rfl⟩ | ⟨_, hq⟩
        · exact .inl ha
        · exact .inr ⟨q, hq⟩
  · rintro b ⟨hb, hne⟩ q hq
    rcases (hother q b).mp hq with ⟨_, rfl⟩ | ⟨_, hq⟩
    · exact hne rfl
    · exact h.apart b hb q hq

end Xv6.Ownership
