import Mathlib.Data.List.Induction

/-! The pieces of a text: maximal segments that end at a separator or at the end of the text. -/
namespace Xv6.Lines

open List

variable {α : Type*}

section parts

variable (sep : α → Prop)

def Free (t : List α) : Prop := ∀ c ∈ t, ¬ sep c

def Ended (l : List α) : Prop := ∃ t c, Free sep t ∧ sep c ∧ l = t ++ [c]

structure Parts (cs : List α) (ls : List (List α)) (rest : List α) : Prop where
  eq : cs = ls.flatten ++ rest
  ended : ∀ l ∈ ls, Ended sep l
  free : Free sep rest

variable {sep} {c : α} {t cs rest : List α} {ls : List (List α)}

@[simp]
lemma free_nil : Free sep ([] : List α) := by simp [Free]

@[simp]
lemma free_cons : Free sep (c :: t) ↔ ¬ sep c ∧ Free sep t := by simp [Free]

lemma Free.concat (h : Free sep t) (hc : ¬ sep c) : Free sep (t ++ [c]) := by
  simpa [Free, or_imp, forall_and] using ⟨h, hc⟩

theorem free_eq_iff {a : α} : Free (· = a) t ↔ a ∉ t := forall_mem_ne'

namespace Parts

theorem nil : Parts sep ([] : List α) [] [] := ⟨rfl, by simp, free_nil⟩

section
variable (h : Parts sep cs ls rest)
include h

theorem concat_sep (hc : sep c) : Parts sep (cs ++ [c]) (ls ++ [rest ++ [c]]) [] := by
  refine ⟨by simp [h.eq], ?_, free_nil⟩
  simpa [or_imp, forall_and] using ⟨h.ended, rest, c, h.free, hc, rfl⟩

theorem concat_free (hc : ¬ sep c) : Parts sep (cs ++ [c]) ls (rest ++ [c]) :=
  ⟨by simp [h.eq], h.ended, h.free.concat hc⟩

theorem length_le : ls.length + rest.length ≤ cs.length := by
  have hl : ls.length ≤ ls.flatten.length := by
    have := h.ended
    clear h
    induction ls with
    | nil => simp
    | cons l ls ih =>
      obtain ⟨⟨t, c, -, -, rfl⟩, hl⟩ := forall_mem_cons.mp this
      have := ih hl
      simp only [length_cons, flatten_cons, length_append]
      omega
  rw [h.eq, length_append]
  omega

end

variable (sep) in
theorem exists_parts (cs : List α) : ∃ ls rest, Parts sep cs ls rest := by
  induction cs using reverseRecOn with
  | nil => exact ⟨[], [], nil⟩
  | append_singleton cs c ih =>
    obtain ⟨ls, rest, h⟩ := ih
    by_cases hc : sep c
    exacts [⟨_, _, h.concat_sep hc⟩, ⟨_, _, h.concat_free hc⟩]

end Parts

end parts

variable (sep : α → Prop) [DecidablePred sep]

def segments : List α → List (List α)
  | [] => []
  | c :: cs =>
    if sep c then [c] :: segments cs
    else match segments cs with
      | [] => [[c]]
      | l :: ls => (c :: l) :: ls

variable {sep}

theorem segments_of_free {t : List α} (h : Free sep t) (h0 : t ≠ []) : segments sep t = [t] := by
  induction t with
  | nil => exact absurd rfl h0
  | cons c t ih =>
    obtain ⟨hc, ht⟩ := free_cons.mp h
    rw [segments, if_neg hc]
    by_cases h0 : t = []
    · simp [h0, segments]
    · rw [ih ht h0]

lemma segments_cons_of_free {t x : List α} {c : α} (h : Free sep t) (hc : sep c) :
    segments sep (t ++ c :: x) = (t ++ [c]) :: segments sep x := by
  induction t with
  | nil => simp [segments, hc]
  | cons a t ih =>
    obtain ⟨ha, ht⟩ := free_cons.mp h
    rw [cons_append, segments, if_neg ha, ih ht]
    rfl

theorem segments_append {ls : List (List α)} {x : List α} (h : ∀ l ∈ ls, Ended sep l) :
    segments sep (ls.flatten ++ x) = ls ++ segments sep x := by
  induction ls with
  | nil => rfl
  | cons l ls ih =>
    obtain ⟨⟨t, c, ht, hc, rfl⟩, hl⟩ := forall_mem_cons.mp h
    simp [segments_cons_of_free ht hc, ih hl]

theorem Parts.segments_eq {cs rest : List α} {ls : List (List α)} (h : Parts sep cs ls rest) :
    segments sep cs = ls ++ if rest = [] then [] else [rest] := by
  rw [h.eq, segments_append h.ended]
  split_ifs with h0
  · simp [h0, segments]
  · rw [segments_of_free h.free h0]

theorem ne_nil_of_mem_segments {l cs : List α} (h : l ∈ segments sep cs) : l ≠ [] := by
  obtain ⟨ls, rest, hp⟩ := Parts.exists_parts sep cs
  rw [hp.segments_eq] at h
  obtain h | h := mem_append.mp h
  · obtain ⟨t, c, -, -, rfl⟩ := hp.ended l h
    simp
  · split_ifs at h with h0
    · simp at h
    · rwa [mem_singleton.mp h]

theorem length_segments_le (cs : List α) : (segments sep cs).length ≤ cs.length := by
  obtain ⟨ls, rest, h⟩ := Parts.exists_parts sep cs
  have hle := h.length_le
  rw [h.segments_eq]
  split_ifs with h0
  · simp
    omega
  · have := length_pos_iff.mpr h0
    simp
    omega

end Xv6.Lines
