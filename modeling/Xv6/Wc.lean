import Xv6.Lines
import Xv6.Ulib

/-! `wc`, `user/wc.c`. The counters are `int`s. -/
namespace Xv6.Wc

open Shell (ch)
open Lines List

def int (x : ℤ) : ℤ := x.bmod (2 ^ 32)

structure Counts where
  l : ℤ := 0
  w : ℤ := 0
  c : ℤ := 0
  inword : Bool := false
  longestLine : ℤ := 0
  currentLineLen : ℤ := 0
  hasContent : Bool := false
  deriving DecidableEq, Repr

def blanks : List Byte := [ch ' ', ch '\r', ch '\t', newline, 11]

section
variable (s : Counts) (b : Byte)

def Counts.countLine : Counts :=
  if b = newline then
    { s with
      l := int (s.l + 1)
      longestLine := if s.currentLineLen > s.longestLine then s.currentLineLen else s.longestLine
      currentLineLen := 0
      hasContent := false }
  else
    { s with
      c := int (s.c + 1)
      currentLineLen := int (s.currentLineLen + 1)
      hasContent := true }

def Counts.countWord : Counts :=
  if (strchr b blanks).isSome then { s with inword := false }
  else if s.inword = false then { s with w := int (s.w + 1), inword := true }
  else s

def Counts.next : Counts := (s.countLine b).countWord b

end

def readLoop (cut : ℕ → ℕ) : ℕ → Counts → List Byte → Counts
  | 0, s, _ => s
  | fuel + 1, s, input =>
    let n := readCount (cut fuel) 512 input.length
    if n = 0 then s else readLoop cut fuel ((input.take n).foldl Counts.next s) (input.drop n)

def Counts.finish (s : Counts) : Counts :=
  if s.hasContent = true ∨ s.currentLineLen > 0 then
    { s with
      l := int (s.l + 1)
      longestLine := if s.currentLineLen > s.longestLine then s.currentLineLen else s.longestLine }
  else s

def wc (cut : ℕ → ℕ) (input : List Byte) : Counts :=
  (readLoop cut (input.length + 1) {} input).finish

structure Totals where
  l : ℤ := 0
  w : ℤ := 0
  c : ℤ := 0
  longest : ℤ := 0
  deriving DecidableEq, Repr

def Totals.add (t : Totals) (s : Counts) : Totals where
  l := int (t.l + s.l)
  w := int (t.w + s.w)
  c := int (t.c + s.c)
  longest := if s.longestLine > t.longest then s.longestLine else t.longest

def wcAll (cut : ℕ → ℕ → ℕ) : List (List Byte) → Totals → Totals
  | [], t => t
  | f :: fs, t => wcAll (fun i => cut (i + 1)) fs (t.add (wc (cut 0) f))

/-! ### What is counted -/

def lines (input : List Byte) : List (List Byte) := segments (· = newline) input

lemma lawfulBEq_byte : LawfulBEq Byte := inferInstance

attribute [local instance] lawfulBEq_byte in
def isWord (p : List Byte) : Bool := p.takeWhile (· ∉ blanks) ≠ []

attribute [local instance] lawfulBEq_byte in
/-- The maximal runs of bytes that are not blank, each with the blank that ends it. -/
def words (input : List Byte) : List (List Byte) := (segments (· ∈ blanks) input).filter isWord

def chars (input : List Byte) : List Byte := input.filter (· ≠ newline)

def longest (input : List Byte) : ℕ :=
  ((lines input).map fun l => (chars l).length).foldl max 0

/-! ### Counting -/

lemma int_eq {x : ℤ} (h0 : 0 ≤ x) (h : x < 2 ^ 31) : int x = x := by
  simp only [int, Int.bmod_def]
  omega

lemma chars_of_free {t : List Byte} (h : Free (· = newline) t) : chars t = t := by
  simpa [chars] using fun b hb => h b hb

lemma takeWhile_of_free {t x : List Byte} (h : Free (· ∈ blanks) t) :
    (t ++ x).takeWhile (· ∉ blanks) = t ++ x.takeWhile (· ∉ blanks) :=
  takeWhile_append_of_pos (by simpa using fun b hb => h b hb)

structure Counted (p : List Byte) (s : Counts) : Prop where
  lines : ∃ ls rest, Parts (· = newline) p ls rest ∧ s.l = ls.length ∧
    s.currentLineLen = rest.length ∧ (s.hasContent = true ↔ rest ≠ []) ∧
    s.longestLine = ((ls.map fun l => (chars l).length).foldl max 0 : ℕ)
  chars : s.c = (chars p).length
  words : ∃ ws rest, Parts (· ∈ blanks) p ws rest ∧
    s.w = (ws.filter isWord).length + (if rest = [] then 0 else 1) ∧ (s.inword = true ↔ rest ≠ [])

lemma Counted.start : Counted [] {} :=
  ⟨⟨[], [], .nil, by simp⟩, rfl, ⟨[], [], .nil, by simp⟩⟩

lemma countWord_keeps (s : Counts) (b : Byte) : (s.countWord b).l = s.l ∧
    (s.countWord b).currentLineLen = s.currentLineLen ∧
    (s.countWord b).hasContent = s.hasContent ∧
    (s.countWord b).longestLine = s.longestLine ∧ (s.countWord b).c = s.c := by
  unfold Counts.countWord
  split_ifs <;> simp

lemma countLine_keeps (s : Counts) (b : Byte) :
    (s.countLine b).w = s.w ∧ (s.countLine b).inword = s.inword := by
  unfold Counts.countLine
  split_ifs <;> simp

lemma isSome_strchr_blanks (b : Byte) : (strchr b blanks).isSome = true ↔ b ∈ blanks := by
  have := strchr_eq_none (c := b) (show 0 ∉ blanks by decide)
  rw [Option.isSome_iff_ne_none, ne_eq, this, not_not]

lemma Counted.next {p : List Byte} {s : Counts} (h : Counted p s) (hp : p.length + 1 < 2 ^ 31)
    (b : Byte) : Counted (p ++ [b]) (s.next b) := by
  obtain ⟨hl, hcur, hhas, hlong, hc⟩ := countWord_keeps (s.countLine b) b
  obtain ⟨ls, rest, hP, h1, h2, h3, h4⟩ := h.lines
  obtain ⟨ws, run, hW, h5, h6⟩ := h.words
  obtain ⟨hw, hin⟩ := countLine_keeps s b
  have hle := hP.length_le
  have hlw := hW.length_le
  have hchars : (Wc.chars p).length ≤ p.length := length_filter_le _ _
  have hfilter : (ws.filter isWord).length ≤ ws.length := length_filter_le _ _
  refine ⟨?_, ?_, ?_⟩
  · rw [Counts.next, hl, hcur, hhas, hlong]
    by_cases hb : b = newline
    · refine ⟨_, _, hP.concat_sep hb, ?_⟩
      have hlast : (Wc.chars (rest ++ [b])).length = rest.length := by
        rw [Wc.chars, filter_append, ← Wc.chars, chars_of_free hP.free]
        simp [hb]
      simp only [Counts.countLine, if_pos hb, h1, h2, h4, map_append, map_cons,
        map_nil, foldl_append, foldl_cons, foldl_nil, hlast]
      rw [int_eq (by omega) (by omega)]
      refine ⟨by simp, by simp, by simp, ?_⟩
      split_ifs <;> omega
    · refine ⟨_, _, hP.concat_free hb, ?_⟩
      simp only [Counts.countLine, if_neg hb, h1, h2, h4]
      rw [int_eq (by omega) (by omega)]
      simp
  · rw [Counts.next, hc, Wc.chars, filter_append, ← Wc.chars]
    by_cases hb : b = newline
    · simp [Counts.countLine, hb, h.chars]
    · simp only [Counts.countLine, if_neg hb, h.chars]
      rw [int_eq (by omega) (by omega)]
      simp [hb]
  · rw [Counts.next, Counts.countWord]
    by_cases hb : b ∈ blanks
    · refine ⟨_, _, hW.concat_sep hb, ?_⟩
      have hword : isWord (run ++ [b]) = decide (run ≠ []) := by
        rw [isWord, takeWhile_of_free hW.free]
        simp [hb]
      rw [if_pos ((isSome_strchr_blanks b).mpr hb)]
      simp only [hw, h5]
      split_ifs with h0 <;> simp_all
    · refine ⟨_, _, hW.concat_free hb, ?_⟩
      rw [if_neg (mt (isSome_strchr_blanks b).mp hb)]
      by_cases h0 : run = []
      · have hout : s.inword = false := by simpa [h0] using h6
        simp only [hin, hout, hw, h5, if_pos h0]
        rw [int_eq (by omega) (by omega)]
        simp
      · have hout : s.inword = true := h6.mpr h0
        simp [hin, hout, hw, h5, h0]

lemma Counted.foldl {p q : List Byte} {s : Counts} (h : Counted p s)
    (hp : (p ++ q).length < 2 ^ 31) : Counted (p ++ q) (q.foldl Counts.next s) := by
  induction q generalizing p s with
  | nil => simpa using h
  | cons b q ih =>
    rw [append_cons] at hp ⊢
    exact ih (h.next (by simp at hp; omega) b) hp

lemma readLoop_eq {cut : ℕ → ℕ} : ∀ {fuel : ℕ} {s : Counts} {input : List Byte},
    input.length < fuel → readLoop cut fuel s input = input.foldl Counts.next s
  | fuel + 1, s, input, hf => by
    rw [readLoop]
    generalize hc : readCount _ _ _ = n
    rw [readCount] at hc
    split_ifs with h0
    · rw [eq_nil_of_length_eq_zero (by omega : input.length = 0), foldl_nil]
    · rw [readLoop_eq (by simp; omega), ← foldl_append, take_append_drop]

structure Right (input : List Byte) (s : Counts) : Prop where
  l : s.l = (lines input).length
  w : s.w = (words input).length
  c : s.c = (chars input).length
  longestLine : s.longestLine = longest input

lemma Counted.finish {input : List Byte} {s : Counts} (h : Counted input s)
    (hp : input.length < 2 ^ 31) : Right input s.finish := by
  obtain ⟨ls, rest, hP, h1, h2, h3, h4⟩ := h.lines
  obtain ⟨ws, run, hW, h5, h6⟩ := h.words
  have hle := hP.length_le
  have hw : s.w = (Wc.words input).length := by
    have hrun : isWord run = decide (run ≠ []) := by
      have := takeWhile_of_free (x := []) hW.free
      simp_all [isWord]
    rw [Wc.words, hW.segments_eq, h5]
    split_ifs with h0 <;> simp [hrun, h0]
  have hl := hP.segments_eq
  unfold Counts.finish
  by_cases h0 : rest = []
  · rw [if_neg (by simp [h3, h2, h0])]
    rw [if_pos h0, append_nil] at hl
    exact ⟨by rw [Wc.lines, hl, h1], hw, h.chars, by rw [longest, Wc.lines, hl, h4]⟩
  · have hpos := length_pos_of_ne_nil h0
    rw [if_pos (.inl (by simp [h3, h0]))]
    rw [if_neg h0] at hl
    refine ⟨?_, hw, h.chars, ?_⟩
    · rw [Wc.lines, hl, h1]
      rw [int_eq (by omega) (by omega)]
      simp
    · rw [longest, Wc.lines, hl, map_append, foldl_append]
      simp only [h2, h4, map_cons, map_nil, foldl_cons, foldl_nil,
        chars_of_free hP.free]
      split_ifs <;> omega

lemma wc_right (cut : ℕ → ℕ) {input : List Byte} (h : input.length < 2 ^ 31) :
    Right input (wc cut input) := by
  rw [wc, readLoop_eq (Nat.lt_succ_self _)]
  exact (Counted.start.foldl (by simpa using h)).finish h

structure Summed (files : List (List Byte)) (t : Totals) : Prop where
  l : t.l = (files.map fun f => (lines f).length).sum
  w : t.w = (files.map fun f => (words f).length).sum
  c : t.c = (files.map fun f => (chars f).length).sum
  longest : t.longest = ((files.map longest).foldl max 0 : ℕ)

lemma Summed.start : Summed [] {} := ⟨rfl, rfl, rfl, rfl⟩

lemma sum_le {g : List Byte → ℕ} (hg : ∀ f, g f ≤ f.length) (files : List (List Byte)) :
    (files.map g).sum ≤ (files.map length).sum :=
  sum_le_sum fun f _ => hg f

lemma Summed.add {files : List (List Byte)} {t : Totals} {f : List Byte} {s : Counts}
    (h : Summed files t) (hs : Right f s)
    (hsize : ((files ++ [f]).map length).sum < 2 ^ 31) : Summed (files ++ [f]) (t.add s) := by
  have hl := sum_le (g := fun f => (lines f).length) (fun f => length_segments_le f) (files ++ [f])
  have hw := sum_le (g := fun f => (words f).length)
    (fun f => (length_filter_le _ _).trans (length_segments_le f)) (files ++ [f])
  have hc := sum_le (g := fun f => (chars f).length) (fun f => length_filter_le _ f)
    (files ++ [f])
  simp only [map_append, map_cons, map_nil, sum_append, sum_singleton]
    at hl hw hc hsize
  refine ⟨?_, ?_, ?_, ?_⟩ <;> simp only [Totals.add, h.l, h.w, h.c, h.longest, hs.l, hs.w, hs.c,
    hs.longestLine, map_append, map_cons, map_nil, sum_append,
    sum_singleton, foldl_append, foldl_cons, foldl_nil]
  · rw [int_eq (by omega) (by omega)]
    simp
  · rw [int_eq (by omega) (by omega)]
    simp
  · rw [int_eq (by omega) (by omega)]
    simp
  · split_ifs <;> omega

lemma wcAll_summed : ∀ (cut : ℕ → ℕ → ℕ) {files done : List (List Byte)} {t : Totals},
    Summed done t → ((done ++ files).map length).sum < 2 ^ 31 →
      Summed (done ++ files) (wcAll cut files t)
  | _, [], done, t, h, _ => by simpa [wcAll] using h
  | cut, f :: files, done, t, h, hsize => by
    rw [append_cons] at hsize ⊢
    have hf : ((done ++ [f]).map length).sum < 2 ^ 31 := by
      rw [map_append, sum_append] at hsize
      omega
    have hlen : f.length < 2 ^ 31 := by
      simp only [map_append, map_cons, map_nil, sum_append,
        sum_singleton] at hf
      omega
    exact wcAll_summed _ (h.add (wc_right (cut 0) hlen) hf) hsize

/-- `wc` counts the lines, words and characters of a file and finds its longest line, however the
file is read, and the totals over several files are the sums. -/
theorem wc_counts (cut : ℕ → ℕ → ℕ) (files : List (List Byte))
    (hsize : (files.map length).sum < 2 ^ 31) :
    (∀ input : List Byte, input.length < 2 ^ 31 → Right input (wc (cut 0) input)) ∧
      Summed files (wcAll cut files {}) :=
  ⟨fun _ h => wc_right (cut 0) h, wcAll_summed cut Summed.start hsize⟩

/-- Two files, read byte by byte. -/
theorem wc_counts_two : Summed [[ch 'a', ch ' ', ch 'b'], [newline]]
    (wcAll (fun _ _ => 1) [[ch 'a', ch ' ', ch 'b'], [newline]] {}) :=
  (wc_counts _ _ (by decide)).2

/-- Two files of `2 ^ 30` characters each: the total does not fit in an `int`. -/
theorem wc_totals_wrap : (replicate (2 ^ 30) (ch 'a')).length < 2 ^ 31 ∧
    ∀ cut, (wcAll cut [replicate (2 ^ 30) (ch 'a'), replicate (2 ^ 30) (ch 'a')] {}).c =
      -2 ^ 31 := by
  have hlen : (replicate (2 ^ 30) (ch 'a')).length = 2 ^ 30 := length_replicate
  have hlt : (replicate (2 ^ 30) (ch 'a')).length < 2 ^ 31 := by omega
  have hc (cut : ℕ → ℕ) : (wc cut (replicate (2 ^ 30) (ch 'a'))).c = 2 ^ 30 := by
    rw [(wc_right cut hlt).c, chars_of_free (free_eq_iff.mpr fun h =>
      absurd (eq_of_mem_replicate h) (by decide)), hlen]
    rfl
  refine ⟨hlt, fun cut => ?_⟩
  simp only [wcAll, Totals.add, hc]
  decide

end Xv6.Wc
