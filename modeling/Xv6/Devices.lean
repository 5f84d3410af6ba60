import Xv6.Monitor
import Xv6.Ring

/-! The monitors that processes share with the interrupt handlers: console input under
`cons.lock`, and the clock under `tickslock`. A handler is a thread of its own here; it never
sleeps, and the process it interrupts is RUNNING, so it is not one that a wakeup looks for. -/
namespace Xv6

namespace Console

def inputBufSize : ℕ := 128

instance : NeZero inputBufSize := ⟨by decide⟩

structure Cons where
  buf : Fin inputBufSize → UInt8
  r : BitVec 32
  w : BitVec 32
  e : BitVec 32
  keyboardIntCnt : BitVec 32

inductive Chan
  | r
  deriving DecidableEq, Repr

inductive Block
  | readLoop (target n : ℤ)
  | readWait (target n : ℤ)
  | killLine

inductive Copy
  | eitherCopyout
  deriving DecidableEq, Repr

inductive Call
  | consoleread (n : ℤ)
  | consoleintr (c : UInt8)
  deriving DecidableEq, Repr

/-- `either_copyout` answers whether it succeeds. -/
abbrev Prog := Monitor.Prog Cons Chan Block Bool Copy

def ctrl (x : Char) : UInt8 := UInt8.ofNat (x.toNat - 64)

def newline : UInt8 := 10

def carriageReturn : UInt8 := 13

def delete : UInt8 := 127

def Cons.front (v : Cons) : UInt8 := v.buf (Ring.slot inputBufSize v.r)

def Cons.last (v : Cons) : UInt8 := v.buf (Ring.slot inputBufSize (v.e - 1))

def Cons.full (v : Cons) : Bool := v.e - v.r = BitVec.ofNat 32 inputBufSize

def append (c : UInt8) (v : Cons) : Cons :=
  { v with buf := Function.update v.buf (Ring.slot inputBufSize v.e) c, e := v.e + 1 }

section
variable (v : Cons)

def advance : Cons := { v with r := v.r + 1 }

def putBack : Cons := { v with r := v.r - 1 }

def erase : Cons := { v with e := v.e - 1 }

def commit : Cons := { v with w := v.e }

def countInt : Cons := { v with keyboardIntCnt := v.keyboardIntCnt + 1 }

end

def readLoop (target n : ℤ) : Prog :=
  if 0 < n then .goto (.readWait target n) else .release .ret

/-- The rest of a turn of `consoleread`, with the character it has taken. -/
def readChar (target n : ℤ) (c : UInt8) : Prog :=
  if c = ctrl 'D' then
    if n < target then .act putBack (.release .ret) else .release .ret
  else .ask .eitherCopyout fun ok =>
    if ok = false ∨ c = newline then .release .ret else .goto (.readLoop target (n - 1))

def readWait (target n : ℤ) : Prog :=
  .look fun v =>
    if v.r = v.w then .killed (.release .ret) (.sleep .r (.goto (.readWait target n)))
    else .act advance (readChar target n v.front)

def killLine : Prog :=
  .look fun v =>
    if v.e ≠ v.w ∧ v.last ≠ newline then .act erase (.goto .killLine) else .release .ret

def typed (c : UInt8) : Prog :=
  .act (append c) (.look fun v =>
    if c = newline ∨ c = ctrl 'D' ∨ v.full then .act commit (.wakeup .r (.release .ret))
    else .release .ret)

def intr (c : UInt8) : Prog :=
  .act countInt <|
    if c = ctrl 'P' then .release .ret
    else if c = ctrl 'U' then .goto .killLine
    else if c = ctrl 'H' ∨ c = delete then
      .look fun v => if v.e ≠ v.w then .act erase (.release .ret) else .release .ret
    else .look fun v =>
      if c ≠ 0 ∧ v.e - v.r < BitVec.ofNat 32 inputBufSize then
        typed (if c = carriageReturn then newline else c)
      else .release .ret

def block : Block → Prog
  | .readLoop target n => readLoop target n
  | .readWait target n => readWait target n
  | .killLine => killLine

def start : Call → Prog
  | .consoleread n => .acquire (.goto (.readLoop n n))
  | .consoleintr c => .acquire (intr c)

def code : Monitor.Code Cons Chan Block Bool Copy Call := ⟨block, start⟩

def consoleinit : Cons := ⟨fun _ => 0, 0, 0, 0, 0⟩

abbrev Sys (ι : Type) := Monitor.Sys ι Cons Chan Block Bool Copy Call

abbrev Event (ι : Type) := Monitor.Event ι Bool Call

end Console

namespace Clock

inductive Chan
  | ticks
  deriving DecidableEq, Repr

inductive Block
  | sleepLoop (n ticks0 : BitVec 32)

inductive Call
  | sysSleep (n : ℤ)
  | sysUptime
  | clockintr
  deriving DecidableEq, Repr

/-- The shared data are `ticks`; no answers from outside. -/
abbrev Prog := Monitor.Prog (BitVec 32) Chan Block Unit Empty

def sleepLoop (n ticks0 : BitVec 32) : Prog :=
  .look fun ticks =>
    if ticks - ticks0 < n then
      .killed (.release .ret) (.sleep .ticks (.goto (.sleepLoop n ticks0)))
    else .release .ret

def block : Block → Prog
  | .sleepLoop n ticks0 => sleepLoop n ticks0

def start : Call → Prog
  | .sysSleep n =>
      .acquire (.look fun ticks => .goto (.sleepLoop (BitVec.ofInt 32 (max n 0)) ticks))
  | .sysUptime => .acquire (.look fun _ => .release .ret)
  | .clockintr => .acquire (.act (· + 1) (.wakeup .ticks (.release .ret)))

def code : Monitor.Code (BitVec 32) Chan Block Unit Empty Call := ⟨block, start⟩

abbrev Sys (ι : Type) := Monitor.Sys ι (BitVec 32) Chan Block Unit Empty Call

end Clock

end Xv6
