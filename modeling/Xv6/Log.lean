import Xv6.Basic

/-! The in-memory log of `log.c` and the tests its critical sections make.
`lh` lists `log.lh.block[0..n)`, so `log.lh.n` is its length. -/
namespace Xv6

structure Log where
  start : ℕ
  size : ℕ
  outstanding : ℤ
  committing : Bool
  dev : ℕ
  lh : List ℕ
  deriving DecidableEq, Repr

namespace Log

def n (log : Log) : ℕ := log.lh.length

/-- The second test of `begin_op`: this operation might exhaust log space. -/
def wouldExhaust (log : Log) : Prop :=
  (log.n : ℤ) + (log.outstanding + 1) * maxOpBlocks > logSize

instance (log : Log) : Decidable log.wouldExhaust := inferInstanceAs (Decidable (_ > _))

/-- `begin_op` sleeps while a commit is running or the reservation does not fit. -/
def mustWait (log : Log) : Prop := log.committing = true ∨ log.wouldExhaust

instance (log : Log) : Decidable log.mustWait := inferInstanceAs (Decidable (_ ∨ _))

/-- The scan of `log_write`: an already logged block is absorbed, a new one is appended. -/
def absorb (lh : List ℕ) (b : ℕ) : List ℕ := if b ∈ lh then lh else lh ++ [b]

def logWrite (log : Log) (b : ℕ) : Except Panic Log :=
  if logSize ≤ log.n ∨ (log.size : ℤ) - 1 ≤ log.n then .error .tooBigTransaction
  else if log.outstanding < 1 then .error .logWriteOutsideOfTrans
  else .ok { log with lh := absorb log.lh b }

@[simp]
theorem mem_absorb {lh : List ℕ} {a b : ℕ} : a ∈ absorb lh b ↔ a ∈ lh ∨ a = b := by
  unfold absorb
  split_ifs with h
  · constructor
    · exact Or.inl
    · rintro (h' | rfl) <;> assumption
  · simp

theorem absorb_nodup {lh : List ℕ} {b : ℕ} (h : lh.Nodup) : (absorb lh b).Nodup := by
  unfold absorb
  split_ifs with hb
  · exact h
  · exact List.nodup_append.mpr ⟨h, by simp, by aesop⟩

theorem absorb_length (lh : List ℕ) (b : ℕ) :
    (absorb lh b).length = lh.length + if b ∈ lh then 0 else 1 := by
  unfold absorb
  split_ifs <;> simp

theorem logWrite_ok {log log' : Log} {b : ℕ} (h : log.logWrite b = .ok log') :
    log.n < logSize ∧ (log.n : ℤ) < log.size - 1 ∧ 1 ≤ log.outstanding ∧
      log' = { log with lh := absorb log.lh b } := by
  unfold logWrite at h
  split_ifs at h with h1 h2
  simp only [Except.ok.injEq] at h
  push Not at h1
  exact ⟨h1.1, h1.2, by omega, h.symm⟩

end Log

end Xv6
