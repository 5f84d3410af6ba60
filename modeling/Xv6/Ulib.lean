import Xv6.Shell

/-! What several user programs share: `user/ulib.c`, and the calls of `read`. -/
namespace Xv6

open Shell (ch)

def newline : Byte := ch '\n'

def strchr (c : Byte) : List Byte → Option ℕ
  | [] => none
  | x :: s => if x = 0 then none else if x = c then some 0 else (strchr c s).map (· + 1)

theorem strchr_some {c : Byte} {s : List Byte} {q : ℕ} (h : strchr c s = some q) :
    ∃ t rest, s = t ++ c :: rest ∧ t.length = q ∧ c ∉ t := by
  induction s generalizing q with
  | nil => simp [strchr] at h
  | cons x s ih =>
    simp only [strchr] at h
    split_ifs at h with h0 hx
    · exact ⟨[], s, by simp [hx], by simpa using h, by simp⟩
    · obtain ⟨q, hq, rfl⟩ := Option.map_eq_some_iff.mp h
      obtain ⟨t, rest, rfl, rfl, ht⟩ := ih hq
      exact ⟨x :: t, rest, rfl, rfl, by simp [ht, Ne.symm hx]⟩

theorem strchr_eq_none {c : Byte} {s : List Byte} (h0 : 0 ∉ s) :
    strchr c s = none ↔ c ∉ s := by
  induction s with
  | nil => simp [strchr]
  | cons x s ih =>
    obtain ⟨hx, h0⟩ := List.ne_and_not_mem_of_not_mem_cons h0
    rw [strchr, if_neg (Ne.symm hx), List.mem_cons, not_or, ← ih h0]
    split_ifs with hc
    · simp [hc]
    · simp [Ne.symm hc]

/-- What a call of `read` gives when it is asked for `n` bytes and `left` are left: any number,
`cut`, but at least one byte if that can be and no more than `n`. -/
def readCount (cut n left : ℕ) : ℕ := min (min (max 1 cut) n) left

end Xv6
