import Mathlib

/-! Circular doubly linked lists through a head: a node is `some a`, the head is `none`. -/
namespace Xv6.Linked

open Function List

structure Links (α : Type*) where
  prev : Option α → Option α
  next : Option α → Option α

variable {α : Type*} {f : Option α → Option α} {a c x y : Option α} {b : α} {l l₁ l₂ : List α}

def Path (f : Option α → Option α) : Option α → List α → Option α → Prop
  | a, [], c => f a = c
  | a, b :: l, c => f a = some b ∧ Path f (some b) l c

structure Links.Forms (k : Links α) (l : List α) : Prop where
  next : Path k.next none l none
  prev : Path k.prev none l.reverse none
  nodup : l.Nodup

def Links.empty : Links α := ⟨fun _ => none, fun _ => none⟩

/-- The first node from `a` on that passes the test, or the head; `none` if `fuel` runs out. -/
def search (f : Option α → Option α) (P : α → Bool) : ℕ → Option α → Option (Option α)
  | _, none => some none
  | 0, some _ => none
  | fuel + 1, some b => if P b then some (some b) else search f P fuel (f (some b))

lemma Path.first (h : Path f a l none) : f a = l.head? := by
  cases l with
  | nil => exact h
  | cons b l => exact h.1

lemma path_append : Path f a (l₁ ++ b :: l₂) c ↔ Path f a l₁ (some b) ∧ Path f (some b) l₂ c := by
  induction l₁ generalizing a with
  | nil => exact Iff.rfl
  | cons d l₁ ih =>
    simp only [cons_append, Path, ih]
    exact and_assoc.symm

lemma Path.join (h1 : Path f a l₁ l₂.head?)
    (h2 : ∀ b l, l₂ = b :: l → Path f (some b) l none) : Path f a (l₁ ++ l₂) none := by
  cases l₂ with
  | nil => simpa using h1
  | cons b l => exact path_append.mpr ⟨h1, h2 b l rfl⟩

theorem Links.forms_empty : (Links.empty : Links α).Forms [] := ⟨rfl, rfl, nodup_nil⟩

theorem search_path (h : Path f a l none) (P : α → Bool) {fuel : ℕ} (hl : l.length ≤ fuel) :
    search f P fuel (f a) = some (l.find? P) := by
  induction l generalizing a fuel with
  | nil =>
    have ha : f a = none := h
    rw [ha]
    cases fuel <;> rfl
  | cons b l ih =>
    obtain ⟨ha, hb⟩ := h
    obtain ⟨n, rfl⟩ : ∃ n, fuel = n + 1 := ⟨fuel - 1, by simp at hl; omega⟩
    rw [ha]
    unfold search
    by_cases hP : P b = true
    · rw [if_pos hP, find?_cons_of_pos hP]
    · rw [if_neg hP, find?_cons_of_neg hP]
      exact ih hb (by simpa using hl)

section update
variable [DecidableEq α]

section
variable (k : Links α)

def Links.setPrev (x y : Option α) : Links α :=
  { k with prev := update k.prev x y }

def Links.setNext (x y : Option α) : Links α :=
  { k with next := update k.next x y }

def Links.unlink (b : α) : Links α :=
  let k := k.setPrev (k.next (some b)) (k.prev (some b))
  k.setNext (k.prev (some b)) (k.next (some b))

def Links.pushFront (b : α) : Links α :=
  let k := k.setNext (some b) (k.next none)
  let k := k.setPrev (some b) none
  let k := k.setPrev (k.next none) (some b)
  k.setNext none (some b)

end

lemma path_update (hx : x ∉ a :: l.map some) :
    Path (update f x y) a l c ↔ Path f a l c := by
  induction l generalizing a with
  | nil =>
    have hne : a ≠ x := by
      rintro rfl
      simp at hx
    simp only [Path, update_of_ne hne]
  | cons d l ih =>
    have hne : a ≠ x := by
      rintro rfl
      simp at hx
    have hrest : x ∉ some d :: l.map some := fun hm => hx (mem_cons_of_mem _ hm)
    simp only [Path, update_of_ne hne, ih hrest]

lemma Path.redirect (h : Path f a l c) (hnodup : (a :: l.map some).Nodup) (y : Option α) :
    Path (update f (l.getLast?.elim a some) y) a l y := by
  induction l generalizing a with
  | nil => exact update_self ..
  | cons d l ih =>
    obtain ⟨hfirst, hrest⟩ := h
    have hnodup' := nodup_cons.mp hnodup
    have hlast : (d :: l).getLast?.elim a some = l.getLast?.elim (some d) some := by
      cases hl : l.getLast? with
      | none => simp [getLast?_eq_none_iff.mp hl]
      | some e => simp [getLast?_cons, hl]
    have hne : a ≠ l.getLast?.elim (some d) some := by
      intro he
      apply hnodup'.1
      rw [he]
      cases hl : l.getLast? with
      | none => simp
      | some e => simpa using Or.inr (mem_of_getLast? hl)
    rw [hlast]
    refine ⟨?_, ih hrest hnodup'.2⟩
    rw [update_of_ne hne, hfirst]

lemma Path.unlink (h : Path f none (l₁ ++ b :: l₂) none) (hnodup : (l₁ ++ b :: l₂).Nodup) :
    Path (update f l₁.getLast? l₂.head?) none (l₁ ++ l₂) none := by
  obtain ⟨h1, h2⟩ := path_append.mp h
  have hn1 : l₁.Nodup := hnodup.of_append_left
  have hnone : (none :: l₁.map some).Nodup :=
    nodup_cons.mpr ⟨by simp, hn1.map (Option.some_injective α)⟩
  have hend : l₁.getLast?.elim none some = l₁.getLast? := by cases l₁.getLast? <;> rfl
  have hleft := h1.redirect hnone l₂.head?
  rw [hend] at hleft
  refine hleft.join fun d l hl => ?_
  subst hl
  refine (path_update ?_).mpr h2.2
  intro hm
  have hm' : ∃ e ∈ d :: l, l₁.getLast? = some e := by simpa [eq_comm] using hm
  obtain ⟨e, he, hlast⟩ := hm'
  have hdisj := disjoint_of_nodup_append hnodup
  exact hdisj (mem_of_getLast? hlast) (mem_cons_of_mem _ he)

variable {k : Links α}

omit [DecidableEq α] in
lemma Links.Forms.next_eq (h : k.Forms (l₁ ++ b :: l₂)) : k.next (some b) = l₂.head? :=
  (path_append.mp h.next).2.first

omit [DecidableEq α] in
lemma Links.Forms.prev_eq (h : k.Forms (l₁ ++ b :: l₂)) : k.prev (some b) = l₁.getLast? := by
  have hprev := h.prev
  rw [reverse_append, reverse_cons, append_assoc, singleton_append] at hprev
  rw [(path_append.mp hprev).2.first, head?_reverse]

theorem Links.Forms.unlink (h : k.Forms (l₁ ++ b :: l₂)) : (k.unlink b).Forms (l₁ ++ l₂) := by
  -- `b->prev` is read after `b->next->prev` has been set to it
  have hkeep : update k.prev (k.next (some b)) (k.prev (some b)) (some b) =
      k.prev (some b) := by
    by_cases hb : k.next (some b) = some b
    · rw [hb, update_self]
    · rw [update_of_ne (Ne.symm hb)]
  refine ⟨?_, ?_, ?_⟩
  · change Path (update k.next (update k.prev (k.next (some b))
      (k.prev (some b)) (some b)) (k.next (some b))) none (l₁ ++ l₂) none
    rw [hkeep, h.next_eq, h.prev_eq]
    exact h.next.unlink h.nodup
  · change Path (update k.prev (k.next (some b)) (k.prev (some b))) none
      (l₁ ++ l₂).reverse none
    have hn := nodup_reverse.mpr h.nodup
    have hprev : Path k.prev none (l₂.reverse ++ b :: l₁.reverse) none := by simpa using h.prev
    have hback := hprev.unlink (by simpa using hn)
    rw [getLast?_reverse, head?_reverse] at hback
    rw [h.next_eq, h.prev_eq, reverse_append]
    exact hback
  · have hsub : (l₁ ++ l₂).Sublist (l₁ ++ b :: l₂) :=
      (List.Sublist.refl l₁).append (sublist_cons_self b l₂)
    exact hsub.nodup h.nodup

theorem Links.Forms.pushFront (h : k.Forms l) (hb : b ∉ l) : (k.pushFront b).Forms (b :: l) := by
  have hfirst : k.next none = l.head? := h.next.first
  have hread : (k.pushFront b).prev =
      update (update k.prev (some b) none) l.head? (some b) := by
    rw [← hfirst]
    rfl
  have hnext : (k.pushFront b).next =
      update (update k.next (some b) l.head?) none (some b) := by
    rw [← hfirst]
    rfl
  have hnone : (none : Option α) ∉ l.map some := by simp
  have hsome : some b ∉ l.map some := by simpa using hb
  refine ⟨?_, ?_, nodup_cons.mpr ⟨hb, h.nodup⟩⟩
  · rw [hnext]
    refine ⟨update_self .., ?_⟩
    cases l with
    | nil => simp [Path]
    | cons d l =>
      refine ⟨by simp, ?_⟩
      refine (path_update hnone).mpr ((path_update hsome).mpr h.next.2)
  · rw [hread, reverse_cons]
    have hlast : l.head? = l.reverse.getLast?.elim none some := by
      rw [getLast?_reverse]
      cases l.head? <;> rfl
    have hold : Path (update k.prev (some b) none) none l.reverse none :=
      (path_update (by simpa using hb)).mpr h.prev
    have hnodup : (none :: l.reverse.map some).Nodup :=
      nodup_cons.mpr ⟨by simp, (nodup_reverse.mpr h.nodup).map (Option.some_injective α)⟩
    refine path_append.mpr ⟨?_, ?_⟩
    · rw [hlast]
      exact hold.redirect hnodup (some b)
    · have hne : some b ≠ l.head? := fun he => hb (mem_of_head? he.symm)
      change update _ _ _ _ = _
      rw [update_of_ne hne, update_self]

theorem Links.Forms.foldl (h : k.Forms l) (hnodup : l₁.Nodup) (hdisj : ∀ b ∈ l₁, b ∉ l) :
    (l₁.foldl Links.pushFront k).Forms (l₁.reverse ++ l) := by
  induction l₁ generalizing k l with
  | nil => exact h
  | cons b l₁ ih =>
    obtain ⟨hb, hnodup'⟩ := nodup_cons.mp hnodup
    have hstep := h.pushFront (hdisj b mem_cons_self)
    have hrest := ih hstep hnodup' fun d hd => by
      rintro (_ | ⟨_, hl⟩)
      · exact hb hd
      · exact hdisj d (mem_cons_of_mem _ hd) hl
    simpa using hrest

end update

end Xv6.Linked
