import Xv6.Block
import Xv6.Log
import Xv6.Program

/-! The buffer cache of `bio.c`. `bufs` is the list from `bcache.head.next`, the most
recently used buffer, to `bcache.head.prev`. A buffer in use is named by its device and
block number, which stay its own while its `refcnt` is positive. `writes` records every
`bwrite` in order and is read by no code. -/
namespace Xv6

open Program List

structure Buf where
  valid : Bool
  dev : ℕ
  blockno : ℕ
  locked : Bool
  refcnt : ℕ
  data : Block

structure Kernel where
  disk : ℕ → Block
  writes : List (ℕ × Block)
  bufs : List Buf
  log : Log

inductive Stop
  | panic (p : Panic)
  | deadlock
  deriving DecidableEq, Repr

abbrev K : Type → Type := Prog Kernel Stop

namespace Buf

def is (dev b : ℕ) (x : Buf) : Bool := x.dev = dev ∧ x.blockno = b

@[simp]
theorem is_iff {x : Buf} {dev b : ℕ} : x.is dev b = true ↔ x.dev = dev ∧ x.blockno = b := by
  simp [is]

def init : Buf := ⟨false, 0, 0, false, 0, fun _ => 0⟩

end Buf

def updateBuf (dev b : ℕ) (f : Buf → Buf) (l : List Buf) : List Buf :=
  l.map fun x => if x.is dev b then f x else x

/-- The second loop of `bget`: from the least recently used end, the first unused buffer. -/
def recycle (dev b : ℕ) : List Buf → Option (List Buf)
  | [] => none
  | x :: l =>
      match recycle dev b l with
      | some l' => some (x :: l')
      | none =>
          if x.refcnt = 0 then
            some ({ x with dev := dev, blockno := b, valid := false, refcnt := 1, locked := true } :: l)
          else none

def moveToFront (dev b : ℕ) (l : List Buf) : List Buf :=
  match l.find? (Buf.is dev b) with
  | some x => if x.refcnt = 0 then x :: l.eraseP (Buf.is dev b) else l
  | none => l

namespace Kernel

def buf (k : Kernel) (dev b : ℕ) : Option Buf := k.bufs.find? (Buf.is dev b)

def setBufs (k : Kernel) (l : List Buf) : Kernel := { k with bufs := l }

def update (k : Kernel) (dev b : ℕ) (f : Buf → Buf) : Kernel :=
  k.setBufs (updateBuf dev b f k.bufs)

end Kernel

def bget (dev b : ℕ) : K PUnit := do
  let k ← get
  match k.buf dev b with
  | some x =>
      if x.locked then throw .deadlock
      else modify fun k => k.update dev b fun x => { x with refcnt := x.refcnt + 1, locked := true }
  | none =>
      match recycle dev b k.bufs with
      | some l => modify fun k => k.setBufs l
      | none => throw (.panic .bgetNoBuffers)

def fill (d : ℕ → Block) (x : Buf) : Buf :=
  if x.valid then x else { x with data := d x.blockno, valid := true }

def bread (dev b : ℕ) : K PUnit := do
  bget dev b
  modify fun k => k.update dev b (fill k.disk)

def bdata (dev b : ℕ) : K Block := do
  let k ← get
  return (((k.buf dev b).map Buf.data).getD fun _ => 0)

def setData (dev b : ℕ) (d : Block) : K PUnit :=
  modify fun k => k.update dev b fun x => { x with data := d }

def holdingsleep (k : Kernel) (dev b : ℕ) : Bool := (k.buf dev b).any Buf.locked

def bwrite (dev b : ℕ) : K PUnit := do
  let k ← get
  if holdingsleep k dev b then
    let d ← bdata dev b
    modify fun k => { k with disk := Function.update k.disk b d, writes := k.writes ++ [(b, d)] }
  else throw (.panic .bwrite)

def brelse (dev b : ℕ) : K PUnit := do
  let k ← get
  if holdingsleep k dev b then
    modify fun k => k.update dev b fun x => { x with locked := false, refcnt := x.refcnt - 1 }
    modify fun k => k.setBufs (moveToFront dev b k.bufs)
  else throw (.panic .brelse)

def bpin (dev b : ℕ) : K PUnit :=
  modify fun k => k.update dev b fun x => { x with refcnt := x.refcnt + 1 }

def bunpin (dev b : ℕ) : K PUnit :=
  modify fun k => k.update dev b fun x => { x with refcnt := x.refcnt - 1 }

def Distinct (l : List Buf) : Prop :=
  l.Pairwise fun x y => x.dev ≠ 0 → y.dev = x.dev → y.blockno ≠ x.blockno

section lists
variable {dev b dev' b' : ℕ} {f : Buf → Buf} {l l' : List Buf}

section
variable (hf : ∀ x, (f x).dev = x.dev ∧ (f x).blockno = x.blockno)
include hf

theorem find_updateBuf :
    (updateBuf dev b f l).find? (Buf.is dev b) = (l.find? (Buf.is dev b)).map f := by
  induction l with
  | nil => rfl
  | cons x l ih =>
    unfold updateBuf at ih ⊢
    rw [map_cons]
    by_cases hx : x.is dev b = true
    · have hfx : (f x).is dev b = true := by simpa [hf x] using hx
      rw [if_pos hx, find?_cons_of_pos hfx, find?_cons_of_pos hx]
      rfl
    · rw [if_neg hx, find?_cons_of_neg hx, find?_cons_of_neg hx, ih]

theorem find_updateBuf_of_ne (hne : dev' ≠ dev ∨ b' ≠ b) :
    (updateBuf dev b f l).find? (Buf.is dev' b') = l.find? (Buf.is dev' b') := by
  induction l with
  | nil => rfl
  | cons x l ih =>
    unfold updateBuf at ih ⊢
    rw [map_cons]
    by_cases hx : x.is dev b = true
    · have hx' : ¬ x.is dev' b' = true := by
        simp only [Buf.is_iff] at hx ⊢
        omega
      have hfx : ¬ (f x).is dev' b' = true := by simpa [hf x] using hx'
      rw [if_pos hx, find?_cons_of_neg hfx, find?_cons_of_neg hx', ih]
    · rw [if_neg hx]
      by_cases hx' : x.is dev' b' = true
      · rw [find?_cons_of_pos hx', find?_cons_of_pos hx']
      · rw [find?_cons_of_neg hx', find?_cons_of_neg hx', ih]

theorem distinct_updateBuf (h : Distinct l) : Distinct (updateBuf dev b f l) := by
  have hkey : ∀ x : Buf, (if x.is dev b then f x else x).dev = x.dev ∧
      (if x.is dev b then f x else x).blockno = x.blockno := by
    intro x
    split
    · exact hf x
    · exact ⟨rfl, rfl⟩
  unfold Distinct updateBuf at *
  rw [pairwise_map]
  refine h.imp ?_
  intro x y hxy
  rw [(hkey x).1, (hkey x).2, (hkey y).1, (hkey y).2]
  exact hxy

end

theorem find_moveToFront :
    (moveToFront dev b l).find? (Buf.is dev b) = l.find? (Buf.is dev b) := by
  unfold moveToFront
  split
  next x hx =>
    split
    · rw [find?_cons_of_pos (find?_some hx)]
      exact hx.symm
    · rfl
  next => rfl

lemma find_eraseP_of_ne (hne : dev' ≠ dev ∨ b' ≠ b) :
    (l.eraseP (Buf.is dev b)).find? (Buf.is dev' b') = l.find? (Buf.is dev' b') := by
  induction l with
  | nil => rfl
  | cons x l ih =>
    by_cases hx : x.is dev b = true
    · have hx' : ¬ x.is dev' b' = true := by
        simp only [Buf.is_iff] at hx ⊢
        omega
      rw [eraseP_cons_of_pos hx, find?_cons_of_neg hx']
    · rw [eraseP_cons_of_neg hx]
      by_cases hx' : x.is dev' b' = true
      · rw [find?_cons_of_pos hx', find?_cons_of_pos hx']
      · rw [find?_cons_of_neg hx', find?_cons_of_neg hx', ih]

theorem find_moveToFront_of_ne (hne : dev' ≠ dev ∨ b' ≠ b) :
    (moveToFront dev b l).find? (Buf.is dev' b') = l.find? (Buf.is dev' b') := by
  unfold moveToFront
  split
  next x hx =>
    have hk := find?_some hx
    have hx' : ¬ x.is dev' b' = true := by
      simp only [Buf.is_iff] at hk ⊢
      omega
    split
    · rw [find?_cons_of_neg hx', find_eraseP_of_ne hne]
    · rfl
  next => rfl

end lists

end Xv6
