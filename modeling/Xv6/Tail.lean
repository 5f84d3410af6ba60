import Xv6.Lines
import Xv6.Ulib

/-! `tail`, `user/tail.c`. -/
namespace Xv6.Tail

open Shell (ch)
open Lines List

def maxFileSize : ℕ := 10000

/-- The loop that reads the file into `filebuf`; a file that is too large is `none`. -/
def readAll (cut : ℕ → ℕ) : ℕ → List Byte → List Byte → Option (List Byte)
  | 0, _, _ => none
  | fuel + 1, filebuf, input =>
    let r := readCount (cut fuel) 512 input.length
    if r = 0 then some filebuf
    else if filebuf.length + r > maxFileSize then none
    else readAll cut fuel (filebuf ++ input.take r) (input.drop r)

def startLoop (filebuf : List Byte) (n : ℕ) : ℕ → ℕ → ℕ
  | 0, _ => 0
  | i + 1, linecount =>
    let linecount := if filebuf.getD i 0 = newline then linecount + 1 else linecount
    if linecount = n then i + 1 else startLoop filebuf n i linecount

/-- `tail` with `n` lines: the last bytes of the file that it writes, and the newline it adds. -/
def tail (cut : ℕ → ℕ) (n : ℕ) (file : List Byte) : Option (List Byte × List Byte) :=
  (readAll cut (file.length + 1) [] file).map fun filebuf =>
    (filebuf.drop (startLoop filebuf n filebuf.length 0),
      if filebuf.length = 0 ∨ filebuf.getD (filebuf.length - 1) 0 ≠ newline then [newline] else [])

def linesOf (file : List Byte) : List (List Byte) := segments (· = newline) file

def lastLines (n : ℕ) (file : List Byte) : List Byte :=
  ((linesOf file).drop ((linesOf file).length - n)).flatten

lemma readAll_eq {cut : ℕ → ℕ} : ∀ {fuel : ℕ} {filebuf input : List Byte}, input.length < fuel →
    filebuf.length + input.length ≤ maxFileSize → readAll cut fuel filebuf input =
      some (filebuf ++ input)
  | fuel + 1, filebuf, input, hf, hle => by
    rw [readAll]
    generalize hc : readCount _ _ _ = r
    rw [readCount] at hc
    split_ifs with h0 hbig
    · rw [eq_nil_of_length_eq_zero (by omega : input.length = 0), append_nil]
    · omega
    · rw [readAll_eq (by simp; omega) (by simp; omega)]
      simp

lemma startLoop_spec (p : List Byte) : ∃ ls rest, Parts (· = newline) p ls rest ∧
    ∀ (x : List Byte) (k linecount : ℕ), 0 < k → startLoop (p ++ x) (linecount + k) p.length linecount =
      if k ≤ ls.length then (ls.take (ls.length - k + 1)).flatten.length else 0 := by
  induction p using reverseRecOn with
  | nil => exact ⟨[], [], Parts.nil, fun x k lc hk => by simp [startLoop]⟩
  | append_singleton p c ih =>
    obtain ⟨ls, rest, hp, hs⟩ := ih
    have hget (x : List Byte) : (p ++ [c] ++ x).getD p.length 0 = c := by simp
    have hlen : (p ++ [c]).length = p.length + 1 := by simp
    by_cases hc : c = newline
    · refine ⟨_, _, hp.concat_sep hc, fun x k lc hk => ?_⟩
      rw [hlen, startLoop, hget, if_pos hc]
      obtain rfl | hk1 : k = 1 ∨ 1 < k := by omega
      · simp [hp.eq]
        omega
      · have := hs (c :: x) (k - 1) (lc + 1) (by omega)
        rw [show lc + 1 + (k - 1) = lc + k by omega] at this
        rw [if_neg (by omega), append_assoc, singleton_append, this]
        simp only [length_append, length_singleton]
        split_ifs
        · rw [show ls.length - (k - 1) + 1 = ls.length + 1 - k + 1 by omega,
            take_append_of_le_length (by omega)]
        · omega
        · omega
        · rfl
    · refine ⟨_, _, hp.concat_free hc, fun x k lc hk => ?_⟩
      rw [hlen, startLoop, hget, if_neg hc]
      rw [if_neg (by omega), append_assoc, singleton_append, hs (c :: x) k lc hk]

lemma drop_flatten_take (ls : List (List Byte)) (rest : List Byte) (k : ℕ) :
    (ls.flatten ++ rest).drop (ls.take k).flatten.length = (ls.drop k).flatten ++ rest := by
  have h : ls.flatten ++ rest = (ls.take k).flatten ++ ((ls.drop k).flatten ++ rest) := by
    rw [← append_assoc, ← flatten_append, take_append_drop]
  rw [h, drop_left]

lemma getLast?_eq_newline {file rest : List Byte} {ls : List (List Byte)}
    (h : Parts (· = newline) file ls rest) :
    file.getLast? = some newline ↔ rest = [] ∧ ls ≠ [] := by
  rw [h.eq]
  by_cases h0 : rest = []
  · subst h0
    induction ls using reverseRecOn with
    | nil => simp
    | append_singleton ls l =>
      obtain ⟨t, _, -, rfl, rfl⟩ := h.ended l (by simp)
      simp
  · have hm := free_eq_iff.mp h.free
    rw [getLast?_append_of_ne_nil _ h0]
    simp only [h0, false_and, iff_false]
    exact fun he => hm (mem_of_getLast? he)

/-- `tail` writes the last lines of the file if and only if the file does not end with a newline
or has fewer lines than are asked for. -/
theorem tail_iff (cut : ℕ → ℕ) {n : ℕ} {file : List Byte} (hn : 0 < n)
    (hsize : file.length ≤ maxFileSize) :
    (tail cut n file).map Prod.fst = some (lastLines n file) ↔
      file.getLast? ≠ some newline ∨ (linesOf file).length < n := by
  rw [tail, readAll_eq (Nat.lt_succ_self _) (by simpa using hsize), nil_append]
  obtain ⟨ls, rest, hp, hs⟩ := startLoop_spec file
  have h0 := hs [] n 0 hn
  rw [append_nil, Nat.zero_add] at h0
  rw [Option.map_map, Option.map_some, Option.some.injEq, Function.comp_apply, h0, lastLines,
    linesOf]
  dsimp only
  rw [ne_eq, getLast?_eq_newline hp, hp.segments_eq]
  by_cases hr : rest = []
  · subst hr
    simp only [if_true, append_nil, true_and]
    split_ifs with hle
    · -- the terminating newline is counted: one line too few
      have hlt : ls.length - n < ls.length := by omega
      have hne : ls ≠ [] := by rintro rfl; simp at hlt
      have hline := hp.ended _ (getElem_mem hlt)
      rw [hp.eq, drop_flatten_take, append_nil, drop_eq_getElem_cons hlt,
        flatten_cons]
      obtain ⟨t, c, -, -, hl⟩ := hline
      rw [hl]
      refine iff_of_false (fun h => ?_) (not_or.mpr ⟨not_not.mpr hne, by omega⟩)
      have := congrArg length h
      simp at this
      omega
    · rw [drop_zero, show ls.length - n = 0 by omega, drop_zero, hp.eq, append_nil]
      exact iff_of_true rfl (.inr (by omega))
  · refine iff_of_true ?_ (.inl fun h => hr h.1)
    rw [if_neg hr, hp.eq]
    split_ifs with hle
    · rw [drop_flatten_take, length_append, length_singleton,
        show ls.length + 1 - n = ls.length - n + 1 by omega, drop_append_of_le_length (by omega)]
      simp
    · rw [length_append, length_singleton, show ls.length + 1 - n = 0 by omega]
      simp

/-- The last line of `a` and an unfinished `b`. -/
theorem tail_one : 0 < 1 ∧ [ch 'a', newline, ch 'b'].length ≤ maxFileSize ∧
    (tail (fun _ => 512) 1 [ch 'a', newline, ch 'b']).map Prod.fst =
      some (lastLines 1 [ch 'a', newline, ch 'b']) :=
  ⟨by decide, by decide, (tail_iff _ (by decide) (by decide)).mpr (.inl (by decide))⟩

/-- Of the file with the line `a`, `tail -n 1` writes nothing. -/
theorem tail_drops_line : tail (fun _ => 512) 1 [ch 'a', newline] = some ([], []) ∧
    lastLines 1 [ch 'a', newline] = [ch 'a', newline] := by
  decide

end Xv6.Tail
