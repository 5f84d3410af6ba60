import Xv6.Grep
import Xv6.Lines
import Xv6.Ulib

/-! The buffer of `grep`, `user/grep.c`, and the lines it prints. -/
namespace Xv6

open Shell (ch)

namespace Grep

/-- The loop over the buffer, `while((q = strchr(p, '\n')) != 0)`: what it writes, and `p` after
it. -/
def lineLoop (pattern p : List Byte) : List Byte × List Byte :=
  match _h : strchr newline p with
  | none => ([], p)
  | some q =>
    let r := lineLoop pattern (p.drop (q + 1))
    (if matchLine pattern (p.take q) then p.take (q + 1) ++ r.1 else r.1, r.2)
termination_by p.length
decreasing_by
  obtain ⟨t, rest, rfl, rfl, -⟩ := strchr_some _h
  simp
  omega

def bufSize : ℕ := 1024

def grepLoop (pattern : List Byte) (cut : ℕ → ℕ) : ℕ → List Byte → List Byte → List Byte
  | 0, _, _ => []
  | fuel + 1, buf, input =>
    let n := readCount (cut fuel) (bufSize - buf.length - 1) input.length
    if n = 0 then []
    else
      let r := lineLoop pattern (buf ++ input.take n)
      r.1 ++ grepLoop pattern cut fuel r.2 (input.drop n)

def grep (pattern : List Byte) (cut : ℕ → ℕ) (input : List Byte) : List Byte :=
  grepLoop pattern cut (input.length + 1) [] input

/-! ### The lines that are printed -/

open Lines List

def Hit (pattern line : List Byte) : Prop := matchLine pattern (line.takeWhile (· ≠ newline)) = true

instance (pattern line : List Byte) : Decidable (Hit pattern line) :=
  inferInstanceAs (Decidable (_ = true))

def Fits (line : List Byte) : Prop := newline ∈ line ∧ line.length < bufSize

instance (line : List Byte) : Decidable (Fits line) := inferInstanceAs (Decidable (_ ∧ _))

def matching (pattern input : List Byte) : List Byte :=
  ((segments (· = newline) input).filter (Hit pattern ·)).flatten

lemma takeWhile_line {t x : List Byte} (h : newline ∉ t) :
    (t ++ newline :: x).takeWhile (· ≠ newline) = t := by
  rw [takeWhile_append_of_pos (by simpa using fun a ha => ne_of_mem_of_not_mem ha h)]
  simp

lemma lineLoop_spec (pattern : List Byte) : ∀ p : List Byte, 0 ∉ p →
    ∃ ls rest, Parts (· = newline) p ls rest ∧
      lineLoop pattern p = ((ls.filter (Hit pattern ·)).flatten, rest)
  | p, h0 => by
    rw [lineLoop]
    split
    · next h => exact ⟨[], p, ⟨rfl, by simp, free_eq_iff.mpr ((strchr_eq_none h0).mp h)⟩, rfl⟩
    · next q h =>
      obtain ⟨t, x, rfl, rfl, ht⟩ := strchr_some h
      obtain ⟨ls, rest, hp, he⟩ := lineLoop_spec pattern x (by simp_all)
      refine ⟨(t ++ [newline]) :: ls, rest, ⟨by simp [hp.eq], forall_mem_cons.mpr
        ⟨⟨t, _, free_eq_iff.mpr ht, rfl, rfl⟩, hp.ended⟩, hp.free⟩, ?_⟩
      have hd : (t ++ newline :: x).drop (t.length + 1) = x := by simp
      have hk : (t ++ newline :: x).take (t.length + 1) = t ++ [newline] := by
        simp [take_append]
      rw [hd, he, hk, take_left, filter_cons]
      simp only [Hit, takeWhile_line ht, decide_eq_true_eq]
      split_ifs <;> simp
termination_by p => p.length
decreasing_by simp [*]; omega

lemma not_fits_of_full {buf input : List Byte} (hb : newline ∉ buf)
    (h : input = [] ∨ bufSize - buf.length - 1 = 0) :
    (segments (· = newline) (buf ++ input)).takeWhile (Fits ·) = [] := by
  obtain ⟨ls, rest, hp⟩ := Parts.exists_parts (· = newline) (buf ++ input)
  rw [hp.segments_eq]
  cases ls with
  | nil =>
    split_ifs
    · rfl
    · simp [Fits, free_eq_iff.mp hp.free]
  | cons l ls =>
    obtain ⟨⟨t, _, ht, rfl, rfl⟩, -⟩ := forall_mem_cons.mp hp.ended
    have he : buf ++ input = t ++ newline :: (ls.flatten ++ rest) := by simp [hp.eq]
    refine takeWhile_cons_of_neg ?_
    have hle : buf.length ≤ t.length := by
      by_contra hlt
      have hget := congrArg (·[t.length]?) he
      rw [getElem?_append_left (by omega)] at hget
      exact hb (mem_of_getElem? (hget.trans (by simp)))
    obtain rfl | h := h
    · refine absurd (?_ : newline ∈ buf) hb
      have hm : newline ∈ buf ++ [] := he ▸ by simp
      simpa using hm
    · simp [Fits] at h ⊢
      omega

lemma grepLoop_eq {pattern : List Byte} {cut : ℕ → ℕ} : ∀ {fuel : ℕ} {buf input : List Byte},
    0 ∉ buf ++ input → newline ∉ buf → input.length < fuel → grepLoop pattern cut fuel buf input =
      (((segments (· = newline) (buf ++ input)).takeWhile (Fits ·)).filter (Hit pattern ·)).flatten
  | fuel + 1, buf, input, h0, hb, hf => by
    rw [grepLoop]
    generalize hc : readCount _ _ _ = n
    rw [readCount] at hc
    dsimp only
    split_ifs with hn
    · have hend : input = [] ∨ bufSize - buf.length - 1 = 0 := by
        rw [← length_eq_zero_iff]
        omega
      rw [not_fits_of_full hb hend]
      rfl
    · have hsplit : buf ++ input = (buf ++ input.take n) ++ input.drop n := by simp
      have hcap : (buf ++ input.take n).length < bufSize := by
        simp only [length_append, length_take] at hc ⊢
        omega
      have hnul : 0 ∉ buf ++ input.take n := fun h => h0 (hsplit ▸ mem_append_left _ h)
      obtain ⟨ls, rest, hp, hloop⟩ := lineLoop_spec pattern _ hnul
      have hfit : ∀ l ∈ ls, decide (Fits l) = true := by
        intro l hm
        obtain ⟨t, _, -, rfl, rfl⟩ := hp.ended l hm
        have := (sublist_flatten_of_mem hm).length_le
        rw [hp.eq, length_append] at hcap
        exact decide_eq_true ⟨by simp, by omega⟩
      rw [hsplit, hp.eq, append_assoc] at h0
      rw [hloop, grepLoop_eq (fun h => h0 (mem_append_right _ h)) (free_eq_iff.mp hp.free)
        (by simp; omega), hsplit, hp.eq, append_assoc, segments_append hp.ended,
        takeWhile_append_of_pos hfit, filter_append, flatten_append]

/-- `grep` prints the matching lines, however the input is read, if and only if no line matches
from the first one on that does not fit in the buffer or has no newline. -/
theorem grep_prints_matching_iff (pattern input : List Byte) (h0 : 0 ∉ input) (cut : ℕ → ℕ) :
    grep pattern cut input = matching pattern input ↔
      ∀ line ∈ (segments (· = newline) input).dropWhile (Fits ·), ¬ Hit pattern line := by
  rw [grep, grepLoop_eq (by simpa using h0) (by simp) (Nat.lt_succ_self _), nil_append,
    matching]
  nth_rewrite 2 [← takeWhile_append_dropWhile (p := fun line => decide (Fits line))
    (l := segments (· = newline) input)]
  rw [filter_append, flatten_append, self_eq_append_right, flatten_eq_nil_iff]
  constructor
  · intro h line hm hit
    have hmem := (dropWhile_sublist _).subset hm
    exact ne_nil_of_mem_segments hmem (h line (mem_filter.mpr ⟨hm, decide_eq_true hit⟩))
  · intro h line hm
    obtain ⟨hm, hit⟩ := mem_filter.mp hm
    exact absurd (of_decide_eq_true hit) (h line hm)

/-- Byte by byte, `grep a` on the line `ab` and an unfinished line `b`. -/
theorem grep_prints_matching_ab : 0 ∉ [ch 'a', ch 'b', newline, ch 'b'] ∧
    grep [ch 'a'] (fun _ => 1) [ch 'a', ch 'b', newline, ch 'b'] =
      matching [ch 'a'] [ch 'a', ch 'b', newline, ch 'b'] := by
  refine ⟨by decide, (grep_prints_matching_iff _ _ (by decide) _).mpr ?_⟩
  have hrest : (segments (· = newline) [ch 'a', ch 'b', newline, ch 'b']).dropWhile (Fits ·) =
    [[ch 'b']] := by decide
  rw [hrest]
  simp [Hit, matchLine, matchFrom, matchhere, ch, newline]

/-- A last line without a newline is never printed. -/
theorem grep_drops_last_line : (∀ cut, grep [ch 'a'] cut [ch 'a'] = []) ∧
    matching [ch 'a'] [ch 'a'] = [ch 'a'] := by
  constructor
  · intro cut
    rw [grep, grepLoop_eq (by decide) (by simp) (by simp)]
    decide
  · have hit : Hit [ch 'a'] [ch 'a'] := by
      simp [Hit, matchLine, matchFrom, matchhere, ch, newline]
    rw [matching, segments_of_free (free_eq_iff.mpr (by decide)) (by simp), filter_cons_of_pos (by simpa)]
    simp

end Grep

end Xv6
