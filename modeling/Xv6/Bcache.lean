import Xv6.Basic
import Xv6.LinkedList
import Xv6.Transition

/-! The buffer cache of `bio.c` with its links, used by any number of processes. What a process
does with `bcache.lock` held is one step, and getting the sleeplock of a buffer is another. -/
namespace Xv6.Bcache

open Linked Function

instance : NeZero nbuf := ⟨by decide⟩

structure Buf where
  valid : Bool
  dev : BitVec 32
  blockno : BitVec 32
  refcnt : BitVec 32
  deriving DecidableEq, Repr

/-- `acquiring b`: `bget` has chosen `b` and waits for its sleeplock. `releasing b`: `brelse` has
released the sleeplock of `b` and is still to drop its reference. -/
inductive Pc
  | idle
  | acquiring (b : Fin nbuf)
  | releasing (b : Fin nbuf)
  deriving DecidableEq, Repr

/-- `lock` has the holder of the sleeplock of each buffer. The last three fields are read by no
code: the calls of `bpin` less those of `bunpin`, the time at which `brelse` last brought the
`refcnt` of a buffer to 0, and the number of times it has done so to any. -/
structure Cache (ι : Type) where
  links : Links (Fin nbuf)
  buf : Fin nbuf → Buf
  lock : Fin nbuf → Option ι
  pc : ι → Pc
  pins : Fin nbuf → ℕ
  released : Fin nbuf → WithBot ℕ
  time : ℕ

inductive Event (ι : Type)
  | bget (p : ι) (dev blockno : BitVec 32)
  | acquiresleep (p : ι)
  | brelse (p : ι) (b : Fin nbuf)
  | unref (p : ι)
  | bpin (p : ι) (b : Fin nbuf)
  | bunpin (p : ι) (b : Fin nbuf)
  deriving DecidableEq, Repr

inductive Found
  | cached (b : Fin nbuf)
  | recycled (b : Fin nbuf)
  | noBuffers
  deriving DecidableEq, Repr

def Buf.is (dev blockno : BitVec 32) (x : Buf) : Bool := x.dev = dev ∧ x.blockno = blockno

def binit : Links (Fin nbuf) := (List.finRange nbuf).foldl Links.pushFront Links.empty

def boot {ι : Type} : Cache ι where
  links := binit
  buf := fun _ => ⟨false, 0, 0, 0⟩
  lock := fun _ => none
  pc := fun _ => .idle
  pins := fun _ => 0
  released := fun _ => ⊥
  time := 0

namespace Cache
variable {ι : Type}

section
variable (c : Cache ι)

/-- The loops of `bget`; `none` if one of them does not end within `NBUF` turns. -/
def find (dev blockno : BitVec 32) : Option Found :=
  match search c.links.next (fun b => (c.buf b).is dev blockno) nbuf (c.links.next none) with
  | none => none
  | some (some b) => some (.cached b)
  | some none =>
      match search c.links.prev (fun b => (c.buf b).refcnt = 0) nbuf (c.links.prev none) with
      | none => none
      | some (some b) => some (.recycled b)
      | some none => some .noBuffers

def setBuf (b : Fin nbuf) (x : Buf) : Cache ι :=
  { c with buf := update c.buf b x }

def addRef (b : Fin nbuf) : Cache ι :=
  c.setBuf b { c.buf b with refcnt := (c.buf b).refcnt + 1 }

def dropRef (b : Fin nbuf) : Cache ι :=
  c.setBuf b { c.buf b with refcnt := (c.buf b).refcnt - 1 }

def moveToFront (b : Fin nbuf) : Cache ι :=
  { c with
    links := (c.links.unlink b).pushFront b
    released := update c.released b c.time
    time := c.time + 1 }

end

variable [DecidableEq ι]

section
variable (c : Cache ι)

def goto (p : ι) (x : Pc) : Cache ι := { c with pc := update c.pc p x }

def setLock (b : Fin nbuf) (x : Option ι) : Cache ι :=
  { c with lock := update c.lock b x }

def bget (p : ι) (dev blockno : BitVec 32) : Option (Cache ι) :=
  match c.find dev blockno with
  | some (.cached b) => some ((c.addRef b).goto p (.acquiring b))
  | some (.recycled b) => some ((c.setBuf b ⟨false, dev, blockno, 1⟩).goto p (.acquiring b))
  | some .noBuffers | none => none

def unref (p : ι) (b : Fin nbuf) : Cache ι :=
  let c := c.dropRef b
  let c := if (c.buf b).refcnt = 0 then c.moveToFront b else c
  c.goto p .idle

def next : Event ι → Option (Cache ι)
  | .bget p dev blockno => if c.pc p = .idle then c.bget p dev blockno else none
  | .acquiresleep p =>
      match c.pc p with
      | .acquiring b =>
          if c.lock b = none then some ((c.setLock b (some p)).goto p .idle) else none
      | _ => none
  | .brelse p b =>
      if c.pc p = .idle ∧ c.lock b = some p then
        some ((c.setLock b none).goto p (.releasing b))
      else none
  | .unref p =>
      match c.pc p with
      | .releasing b => some (c.unref p b)
      | _ => none
  | .bpin p b =>
      if c.pc p = .idle then
        some { c.addRef b with pins := update c.pins b (c.pins b + 1) }
      else none
  | .bunpin p b =>
      if c.pc p = .idle then
        some { c.dropRef b with pins := update c.pins b (c.pins b - 1) }
      else none

end

end Cache

def Protocol {ι : Type} (c : Cache ι) : Event ι → Prop
  | .bunpin p b => 0 < c.pins b ∧ c.lock b = some p
  | _ => True

end Xv6.Bcache
