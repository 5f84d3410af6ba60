import Xv6.MonitorRules
import Xv6.Ring

/-! Pipes. One pipe is a monitor: `pi->lock` guards the ring buffer, readers sleep on `nread`
while it is empty and writers on `nwrite` while it is full. Whether `copyin` and `copyout`
succeed, and what `copyin` reads, is up to the caller's memory. -/
namespace Xv6.Pipes

def pipeSize : ℕ := 512

instance : NeZero pipeSize := ⟨by decide⟩

structure Pipe where
  data : Fin pipeSize → UInt8
  nread : BitVec 32
  nwrite : BitVec 32
  readopen : Bool
  writeopen : Bool

/-- The pipe with the bytes it has taken from writers so far, and the bytes that each `piperead`
that returned a count has stored in its caller's memory. -/
structure Traffic where
  pipe : Pipe
  accepted : List UInt8
  reads : List (List UInt8)

inductive Chan
  | nread
  | nwrite
  deriving DecidableEq, Repr

/-- The loop heads of `pipewrite` and `piperead`; `i` is the length of `out`, the bytes that
`piperead` has copied out so far. -/
inductive Block
  | writeLoop (n : ℤ) (i : ℕ)
  | readWait (n : ℤ)
  | readLoop (n : ℤ) (out : List UInt8)

inductive Copy
  | copyin
  | copyout
  deriving DecidableEq, Repr

inductive Call
  | pipewrite (n : ℤ)
  | piperead (n : ℤ)
  | pipeclose (writable : Bool)
  deriving DecidableEq, Repr

abbrev Prog := Monitor.Prog Traffic Chan Block (Option UInt8) Copy

def Pipe.full (pi : Pipe) : Bool := pi.nwrite = pi.nread + BitVec.ofNat 32 pipeSize

def Pipe.empty (pi : Pipe) : Bool := pi.nread = pi.nwrite

def Pipe.front (pi : Pipe) : UInt8 := pi.data (Ring.slot pipeSize pi.nread)

def put (ch : UInt8) (v : Traffic) : Traffic :=
  { v with
    pipe := { v.pipe with
      data := Function.update v.pipe.data (Ring.slot pipeSize v.pipe.nwrite) ch
      nwrite := v.pipe.nwrite + 1 }
    accepted := v.accepted ++ [ch] }

def advance (v : Traffic) : Traffic :=
  { v with pipe := { v.pipe with nread := v.pipe.nread + 1 } }

def report (out : List UInt8) (v : Traffic) : Traffic := { v with reads := v.reads ++ [out] }

def closeEnd (writable : Bool) (v : Traffic) : Traffic :=
  if writable then { v with pipe := { v.pipe with writeopen := false } }
  else { v with pipe := { v.pipe with readopen := false } }

def writeEnd : Prog := .wakeup .nread (.release .ret)

def writeLoop (n : ℤ) (i : ℕ) : Prog :=
  if (i : ℤ) < n then
    .look fun v =>
      if v.pipe.readopen = false then .release .ret
      else .killed (.release .ret) (.look fun v =>
        if v.pipe.full then .wakeup .nread (.sleep .nwrite (.goto (.writeLoop n i)))
        else .ask .copyin fun
          | none => writeEnd
          | some ch => .act (put ch) (.goto (.writeLoop n (i + 1))))
  else writeEnd

def readEnd (out : List UInt8) : Prog := .wakeup .nwrite (.act (report out) (.release .ret))

def readWait (n : ℤ) : Prog :=
  .look fun v =>
    if v.pipe.empty ∧ v.pipe.writeopen then
      .killed (.release .ret) (.sleep .nread (.goto (.readWait n)))
    else .goto (.readLoop n [])

def readLoop (n : ℤ) (out : List UInt8) : Prog :=
  if (out.length : ℤ) < n then
    .look fun v =>
      if v.pipe.empty then readEnd out
      else .act advance (.ask .copyout fun
        | none => readEnd out
        | some _ => .goto (.readLoop n (out ++ [v.pipe.front])))
  else readEnd out

def block : Block → Prog
  | .writeLoop n i => writeLoop n i
  | .readWait n => readWait n
  | .readLoop n out => readLoop n out

def start : Call → Prog
  | .pipewrite n => .acquire (.goto (.writeLoop n 0))
  | .piperead n => .acquire (.goto (.readWait n))
  | .pipeclose writable => .acquire (.act (closeEnd writable)
      (.wakeup (if writable then .nread else .nwrite) (.release .ret)))

def code : Monitor.Code Traffic Chan Block (Option UInt8) Copy Call := ⟨block, start⟩

def pipealloc (data : Fin pipeSize → UInt8) : Traffic := ⟨⟨data, 0, 0, true, true⟩, [], []⟩

abbrev Sys (ι : Type) := Monitor.Sys ι Traffic Chan Block (Option UInt8) Copy Call

abbrev Event (ι : Type) := Monitor.Event ι (Option UInt8) Call

def steps (p : Fin 2) (n : ℕ) : List (Event (Fin 2)) := List.replicate n (.run p)

end Xv6.Pipes
