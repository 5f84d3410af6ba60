import Mathlib.Computability.Language
import Xv6.Shell

/-! The matcher of `user/grep.c`. A string is the list of its bytes before the NUL, a pointer into
it the rest of that list. -/
namespace Xv6.Grep

open List

open Shell (ch)
open scoped Computability

mutual

def matchhere (re text : List Byte) : Bool :=
  match re with
  | [] => true
  | c :: re =>
    if re.head? = some (ch '*') then matchstar c re.tail text
    else if c = ch '$' ∧ re = [] then text.isEmpty
    else match text with
      | [] => false
      | t :: text => if c = ch '.' ∨ c = t then matchhere re text else false
termination_by (re.length, text.length, 0)

def matchstar (c : Byte) (re text : List Byte) : Bool :=
  if matchhere re text then true
  else match text with
    | [] => false
    | t :: text => if t = c ∨ c = ch '.' then matchstar c re text else false
termination_by (re.length, text.length, 1)

end

/-- The loop of `match`: `re` at some position of `text`, the end included. -/
def matchFrom (re text : List Byte) : Bool :=
  if matchhere re text then true
  else match text with
    | [] => false
    | _ :: text => matchFrom re text

def matchLine (re text : List Byte) : Bool :=
  match re with
  | c :: re' => if c = ch '^' then matchhere re' text else matchFrom re text
  | [] => matchFrom re text

/-! ### The pattern language -/

/-- A character of the pattern: `.` stands for every character, any other for itself. -/
def Stands (c t : Byte) : Prop := c = ch '.' ∨ c = t

inductive Item
  | one (c : Byte)
  | star (c : Byte)
  deriving DecidableEq, Repr

def chars (c : Byte) : Language Byte := {w | ∃ t, Stands c t ∧ w = [t]}

def Item.lang : Item → Language Byte
  | .one c => chars c
  | .star c => (chars c)∗

def lang (is : List Item) : Language Byte := (is.map Item.lang).prod

/-- The items of a pattern behind its `^`, and whether a final `$` ends it. A `*` without a
character before it, a `$` before the end and a `^` behind the start are characters. -/
def items : List Byte → List Item × Bool
  | [] => ([], false)
  | [c] => if c = ch '$' then ([], true) else ([.one c], false)
  | c :: d :: re =>
    if d = ch '*' then (.star c :: (items re).1, (items re).2)
    else (.one c :: (items (d :: re)).1, (items (d :: re)).2)

/-- What the pattern accepts: a piece of the text that the items denote, at the start of the text
with `^` and at its end with `$`. -/
def Accepts (re text : List Byte) : Prop :=
  let anchored := re.head? = some (ch '^')
  let is := items (if anchored then re.tail else re)
  ∃ u w v, text = u ++ w ++ v ∧ w ∈ lang is.1 ∧ (anchored → u = []) ∧ (is.2 → v = [])

def Starts (is : List Item × Bool) (text : List Byte) : Prop :=
  ∃ w v, text = w ++ v ∧ w ∈ lang is.1 ∧ (is.2 → v = [])

lemma mem_lang_cons {i : Item} {is : List Item} {w : List Byte} :
    w ∈ lang (i :: is) ↔ ∃ a ∈ i.lang, ∃ b ∈ lang is, a ++ b = w := by
  simp [lang, Language.mem_mul]

lemma mem_kstar_chars {c : Byte} {w : List Byte} : w ∈ (chars c)∗ ↔ ∀ t ∈ w, Stands c t := by
  constructor
  · rintro ⟨L, rfl, hL⟩ t ht
    obtain ⟨l, hl, ht⟩ := mem_flatten.mp ht
    obtain ⟨t', hs, rfl⟩ := hL l hl
    rwa [mem_singleton.mp ht]
  · intro h
    refine ⟨w.map ([·]), ?_, ?_⟩
    · induction w with
      | nil => rfl
      | cons a w ih => simpa using ih fun t ht => h t (mem_cons_of_mem a ht)
    · rintro _ hl
      obtain ⟨t, ht, rfl⟩ := mem_map.mp hl
      exact ⟨t, h t ht, rfl⟩

lemma starts_nil (text : List Byte) : Starts ([], false) text :=
  ⟨[], text, rfl, by simp [lang], by simp⟩

lemma starts_end {text : List Byte} : Starts ([], true) text ↔ text = [] := by
  simp [Starts, lang]

lemma starts_one {c : Byte} {is : List Item × Bool} {text : List Byte} :
    Starts (.one c :: is.1, is.2) text ↔ ∃ t rest, text = t :: rest ∧ Stands c t ∧
      Starts is rest := by
  constructor
  · rintro ⟨w, v, rfl, hw, hv⟩
    obtain ⟨a, ⟨t, ht, rfl⟩, b, hb, rfl⟩ := mem_lang_cons.mp hw
    exact ⟨t, b ++ v, rfl, ht, b, v, rfl, hb, hv⟩
  · rintro ⟨t, _, rfl, ht, w, v, rfl, hw, hv⟩
    exact ⟨t :: w, v, rfl, mem_lang_cons.mpr ⟨[t], ⟨t, ht, rfl⟩, w, hw, rfl⟩, hv⟩

lemma starts_star {c : Byte} {is : List Item × Bool} {text : List Byte} :
    Starts (.star c :: is.1, is.2) text ↔ ∃ u rest, text = u ++ rest ∧ (∀ t ∈ u, Stands c t) ∧
      Starts is rest := by
  constructor
  · rintro ⟨w, v, rfl, hw, hv⟩
    obtain ⟨u, hu, b, hb, rfl⟩ := mem_lang_cons.mp hw
    exact ⟨u, b ++ v, by simp, mem_kstar_chars.mp hu, b, v, rfl, hb, hv⟩
  · rintro ⟨u, _, rfl, hu, w, v, rfl, hw, hv⟩
    exact ⟨u ++ w, v, by simp, mem_lang_cons.mpr ⟨u, mem_kstar_chars.mpr hu, w, hw, rfl⟩, hv⟩

/-! ### The matcher -/

lemma matchstar_nil {c : Byte} {re : List Byte} :
    matchstar c re [] = matchhere re [] := by
  rw [matchstar]
  simp

lemma matchstar_cons {c t : Byte} {re text : List Byte} : matchstar c re (t :: text) = true ↔
    matchhere re (t :: text) = true ∨ Stands c t ∧ matchstar c re text = true := by
  have hc : Stands c t ↔ t = c ∨ c = ch '.' := or_comm.trans (or_congr_left eq_comm)
  rw [matchstar, hc]
  simp

lemma matchstar_iff {c : Byte} {re text : List Byte} : matchstar c re text = true ↔
    ∃ u rest, text = u ++ rest ∧ (∀ t ∈ u, Stands c t) ∧ matchhere re rest = true := by
  constructor
  · intro h
    induction text with
    | nil => exact ⟨[], [], rfl, by simp, matchstar_nil ▸ h⟩
    | cons t text ih =>
      obtain h | ⟨ht, h⟩ := matchstar_cons.mp h
      · exact ⟨[], t :: text, rfl, by simp, h⟩
      · obtain ⟨u, rest, rfl, hu, hr⟩ := ih h
        exact ⟨t :: u, rest, rfl, forall_mem_cons.mpr ⟨ht, hu⟩, hr⟩
  · rintro ⟨u, rest, rfl, hu, hr⟩
    induction u with
    | nil =>
      cases rest with
      | nil => exact matchstar_nil.trans hr
      | cons t rest => exact matchstar_cons.mpr (.inl hr)
    | cons t u ih =>
      have hu := forall_mem_cons.mp hu
      exact matchstar_cons.mpr (.inr ⟨hu.1, ih hu.2⟩)

lemma matchhere_nil (text : List Byte) : matchhere [] text = true := by rw [matchhere.eq_def]

lemma matchhere_one {c : Byte} {re text : List Byte} (hs : re.head? ≠ some (ch '*'))
    (he : ¬ (c = ch '$' ∧ re = [])) : matchhere (c :: re) text = true ↔
      ∃ t rest, text = t :: rest ∧ Stands c t ∧ matchhere re rest = true := by
  rw [matchhere.eq_def]
  dsimp only
  rw [if_neg hs, if_neg he]
  cases text <;> simp [Stands]

lemma matchhere_iff : ∀ {re text : List Byte}, matchhere re text = true ↔ Starts (items re) text
  | [], text => iff_of_true (matchhere_nil text) (starts_nil text)
  | [c], text => by
    by_cases hc : c = ch '$'
    · rw [matchhere.eq_def, items, if_pos hc, starts_end]
      simp [hc]
    · rw [matchhere_one (by simp) (by simp [hc]), items, if_neg hc, @starts_one c ([], false)]
      simp only [matchhere_nil, starts_nil]
  | c :: d :: re, text => by
    by_cases hd : d = ch '*'
    · have ih (v : List Byte) := @matchhere_iff re v
      rw [matchhere.eq_def, items, if_pos hd, starts_star]
      simp only [hd, head?_cons, if_true, tail_cons, matchstar_iff, ih]
    · have ih (v : List Byte) := @matchhere_iff (d :: re) v
      rw [matchhere_one (by simpa using hd) (by simp), items, if_neg hd, starts_one]
      simp only [ih]
termination_by re => re.length

lemma matchFrom_nil {re : List Byte} : matchFrom re [] = matchhere re [] := by
  rw [matchFrom]
  simp

lemma matchFrom_cons {t : Byte} {re text : List Byte} : matchFrom re (t :: text) = true ↔
    matchhere re (t :: text) = true ∨ matchFrom re text = true := by
  rw [matchFrom]
  simp

lemma matchFrom_iff {re text : List Byte} : matchFrom re text = true ↔
    ∃ u rest, text = u ++ rest ∧ matchhere re rest = true := by
  constructor
  · intro h
    induction text with
    | nil => exact ⟨[], [], rfl, matchFrom_nil ▸ h⟩
    | cons t text ih =>
      obtain h | h := matchFrom_cons.mp h
      · exact ⟨[], t :: text, rfl, h⟩
      · obtain ⟨u, rest, rfl, hr⟩ := ih h
        exact ⟨t :: u, rest, rfl, hr⟩
  · rintro ⟨u, rest, rfl, hr⟩
    induction u with
    | nil =>
      cases rest with
      | nil => exact matchFrom_nil.trans hr
      | cons t rest => exact matchFrom_cons.mpr (.inl hr)
    | cons t u ih => exact matchFrom_cons.mpr (.inr ih)

/-- The matcher decides the pattern language. -/
theorem matchLine_iff_accepts (re text : List Byte) :
    matchLine re text = true ↔ Accepts re text := by
  have free (re : List Byte) : matchFrom re text = true ↔
      ∃ u w v, text = u ++ w ++ v ∧ w ∈ lang (items re).1 ∧ ((items re).2 → v = []) := by
    rw [matchFrom_iff]
    constructor
    · rintro ⟨u, _, rfl, h⟩
      obtain ⟨w, v, rfl, hw⟩ := matchhere_iff.mp h
      exact ⟨u, w, v, by simp, hw⟩
    · rintro ⟨u, w, v, rfl, hw⟩
      exact ⟨u, w ++ v, by simp, matchhere_iff.mpr ⟨w, v, rfl, hw⟩⟩
  cases re with
  | nil => simp [matchLine, Accepts, free]
  | cons c re =>
    by_cases hc : c = ch '^'
    · simp only [matchLine, Accepts, head?_cons, hc, if_true, tail_cons,
        matchhere_iff, Starts, forall_const]
      constructor
      · rintro ⟨w, v, h, hw, hv⟩
        exact ⟨[], w, v, h, hw, rfl, hv⟩
      · rintro ⟨_, w, v, h, hw, rfl, hv⟩
        exact ⟨w, v, h, hw, hv⟩
    · simp [matchLine, Accepts, hc, free]

end Xv6.Grep
