import Xv6.Basic
import Xv6.Ring
import Xv6.Transition

/-! The driver of `virtio_disk.c` with its device. A process calls `virtio_disk_rw` for a buffer
whose sleeplock it holds, as `bread` and `bwrite` do, and the interrupt handler may run at any
time. The device takes heads from the avail ring and publishes each in the used ring, in any order.
A process may come out of `sleep` at any time, so nothing depends on `wakeup`. -/
namespace Xv6.Virtio

open Function

def num : ℕ := 8

instance : NeZero num := ⟨by decide⟩

def descNext : BitVec 16 := 1

def descWrite : BitVec 16 := 2

/-- The panics, a null `info[id].b`, and a `free_chain` that does not end. -/
inductive Halt
  | freeDesc1
  | freeDesc2
  | intrStatus
  | nullBuf
  | noEnd
  deriving DecidableEq, Repr

/-- What a descriptor points to: `&disk.ops[i]`, `b->data` or `&disk.info[i].status`. -/
inductive Addr (β : Type)
  | null
  | op (i : ℕ)
  | data (b : β)
  | status (i : ℕ)
  deriving DecidableEq, Repr

structure Desc (β : Type) where
  addr : Addr β
  len : BitVec 32
  flags : BitVec 16
  next : BitVec 16

structure BlkReq where
  type : BitVec 32
  sector : BitVec 64

structure Info (β : Type) where
  b : Option β
  status : BitVec 8

structure Avail where
  idx : BitVec 16
  ring : Fin num → BitVec 16

structure Used where
  idx : BitVec 16
  ring : Fin num → BitVec 32

structure Disk (β : Type) where
  desc : ℕ → Desc β
  avail : Avail
  used : Used
  free : ℕ → Bool
  usedIdx : BitVec 16
  info : ℕ → Info β
  ops : ℕ → BlkReq

structure Chain where
  head : ℕ
  data : ℕ
  status : ℕ
  deriving DecidableEq, Repr

def Chain.toList (c : Chain) : List ℕ := [c.head, c.data, c.status]

structure Req (β : Type) where
  b : β
  write : Bool
  sector : BitVec 64

/-- Where a thread is in `virtio_disk_rw` or `virtio_disk_intr`. `enter` waits for `vdisk_lock`,
at the start or in the sleep on `disk.free[0]`, and `asleep` is the sleep on the buffer. -/
inductive Pc (β : Type)
  | idle
  | enter (r : Req β)
  | alloc (r : Req β)
  | format (r : Req β) (c : Chain)
  | avail (r : Req β) (c : Chain)
  | notify (r : Req β) (c : Chain)
  | wait (r : Req β) (c : Chain)
  | asleep (r : Req β) (c : Chain)
  | finish (r : Req β) (c : Chain)
  | intrEnter
  | intr

/-- `busy` is `b->disk`, `bufLock` the holder of the sleeplock of a buffer, `lock` that of
`vdisk_lock`. The device has read the avail ring up to `devIdx` and has yet to publish `taken`.
The last two fields are read by no code: whether the device has published the current request of a
thread, and how often `b->disk` has been cleared for it. -/
structure Sys (ι β : Type) where
  disk : Disk β
  busy : β → Bool
  bufLock : β → Option ι
  lock : Option ι
  pc : ι → Pc β
  devIdx : BitVec 16
  taken : List ℕ
  published : ι → Bool
  cleared : ι → ℕ

inductive Event (ι β : Type)
  | acquiresleep (p : ι) (b : β)
  | releasesleep (p : ι) (b : β)
  | rw (p : ι) (b : β) (blockno : BitVec 32) (write : Bool)
  | intr (p : ι)
  | run (p : ι)
  | take
  | publish (h : ℕ)
  deriving DecidableEq, Repr

section driver
variable {β : Type}

def allocDesc (d : Disk β) : Option (ℕ × Disk β) :=
  ((List.range num).find? d.free).map fun i => (i, { d with free := update d.free i false })

def freeDesc (i : ℕ) (d : Disk β) : Except Halt (Disk β) :=
  if num ≤ i then .error .freeDesc1
  else if d.free i then .error .freeDesc2
  else .ok { d with
    desc := update d.desc i ⟨.null, 0, 0, 0⟩
    free := update d.free i true }

def freeChain : ℕ → ℕ → Disk β → Except Halt (Disk β)
  | 0, _, _ => .error .noEnd
  | fuel + 1, i, d =>
      let flag := (d.desc i).flags
      let nxt := (d.desc i).next
      (freeDesc i d).bind fun d =>
        if flag &&& descNext ≠ 0 then freeChain fuel nxt.toNat d else .ok d

/-- No chain if one of the three is missing; those already taken are free again. -/
def alloc3Desc (d : Disk β) : Except Halt (Option Chain × Disk β) :=
  match allocDesc d with
  | none => .ok (none, d)
  | some (i₀, d) =>
      match allocDesc d with
      | none => (freeDesc i₀ d).map fun d => (none, d)
      | some (i₁, d) =>
          match allocDesc d with
          | none => (freeDesc i₀ d).bind fun d => (freeDesc i₁ d).map fun d => (none, d)
          | some (i₂, d) => .ok (some ⟨i₀, i₁, i₂⟩, d)

/-- Format the three descriptors, and record the buffer for the interrupt. -/
def format (r : Req β) (c : Chain) (d : Disk β) : Disk β :=
  { d with
    ops := update d.ops c.head ⟨if r.write then 1 else 0, r.sector⟩
    desc := update (update (update d.desc
      c.head ⟨.op c.head, 16, descNext, BitVec.ofNat 16 c.data⟩)
      c.data ⟨.data r.b, BitVec.ofNat 32 bsize,
        (if r.write then 0 else descWrite) ||| descNext, BitVec.ofNat 16 c.status⟩)
      c.status ⟨.status c.head, 1, descWrite, 0⟩
    info := update d.info c.head ⟨some r.b, 0xff⟩ }

/-- The device writes 0 where the last descriptor of the chain points, and publishes the head. -/
def publish (h : ℕ) (d : Disk β) : Disk β :=
  { d with
    info :=
      match (d.desc (d.desc (d.desc h).next.toNat).next.toNat).addr with
      | .status i => update d.info i { d.info i with status := 0 }
      | _ => d.info
    used :=
      { idx := d.used.idx + 1
        ring := update d.used.ring (Ring.slot num d.used.idx) (BitVec.ofNat 32 h) } }

end driver

namespace Pc
variable {β : Type}

def req : Pc β → Option (Req β)
  | .enter r | .alloc r | .format r _ | .avail r _ | .notify r _ | .wait r _ | .asleep r _
  | .finish r _ => some r
  | .idle | .intrEnter | .intr => none

def chain : Pc β → Option Chain
  | .format _ c | .avail _ c | .notify _ c | .wait _ c | .asleep _ c | .finish _ c => some c
  | _ => none

end Pc

section
variable {ι β : Type} [DecidableEq ι] [DecidableEq β]

section
variable (s : Sys ι β)

def Sys.goto (p : ι) (x : Pc β) : Sys ι β :=
  { s with pc := update s.pc p x }

def Sys.clear (b : β) : Sys ι β :=
  { s with
    busy := update s.busy b false
    cleared := fun q => if (s.pc q).req.any fun r => r.b = b then s.cleared q + 1 else s.cleared q }

def intrStep (p : ι) : Except Halt (Sys ι β) :=
  if s.disk.usedIdx ≠ s.disk.used.idx then
    let id := (s.disk.used.ring (Ring.slot num s.disk.usedIdx)).toNat
    if (s.disk.info id).status ≠ 0 then .error .intrStatus
    else
      match (s.disk.info id).b with
      | none => .error .nullBuf
      | some b =>
          .ok { s.clear b with disk := { s.disk with usedIdx := s.disk.usedIdx + 1 } }
  else .ok ({ s with lock := none }.goto p .idle)

/-- The next piece of code of a thread; `none` when it waits for `vdisk_lock` or does nothing. -/
def runStep (p : ι) : Pc β → Option (Except Halt (Sys ι β))
  | .idle => none
  | .enter r => if s.lock = none then some (.ok ({ s with lock := some p }.goto p (.alloc r))) else none
  | .alloc r => some ((alloc3Desc s.disk).map fun
      | (some c, d) => { s with disk := d }.goto p (.format r c)
      | (none, d) => { s with disk := d, lock := none }.goto p (.enter r))
  | .format r c => some (.ok ({ s with
      disk := format r c s.disk
      busy := update s.busy r.b true }.goto p (.avail r c)))
  | .avail r c => some (.ok ({ s with
      disk := { s.disk with avail := { s.disk.avail with
        ring := update s.disk.avail.ring (Ring.slot num s.disk.avail.idx)
          (BitVec.ofNat 16 c.head) } } }.goto p (.notify r c)))
  | .notify r c => some (.ok ({ s with
      disk := { s.disk with avail := { s.disk.avail with idx := s.disk.avail.idx + 1 } } }.goto p
        (.wait r c)))
  | .wait r c => some (.ok (
      if s.busy r.b then { s with lock := none }.goto p (.asleep r c) else s.goto p (.finish r c)))
  | .asleep r c =>
      if s.lock = none then some (.ok ({ s with lock := some p }.goto p (.wait r c))) else none
  | .finish _ c => some (
      (freeChain num c.head { s.disk with
        info := update s.disk.info c.head { s.disk.info c.head with b := none } }).map
        fun d => { s with disk := d, lock := none }.goto p .idle)
  | .intrEnter => if s.lock = none then some (.ok ({ s with lock := some p }.goto p .intr)) else none
  | .intr => some (intrStep s p)

/-- One step, or what stops the machine; `none` when the event cannot happen. -/
def step : Event ι β → Option (Except Halt (Sys ι β))
  | .acquiresleep p b =>
      match s.pc p with
      | .idle => if s.bufLock b = none then
          some (.ok { s with bufLock := update s.bufLock b (some p) }) else none
      | _ => none
  | .releasesleep p b =>
      match s.pc p with
      | .idle => if s.bufLock b = some p then
          some (.ok { s with bufLock := update s.bufLock b none }) else none
      | _ => none
  | .rw p b blockno write =>
      match s.pc p with
      | .idle => if s.bufLock b = some p then
          some (.ok ({ s with
            published := update s.published p false
            cleared := update s.cleared p 0 }.goto p
              (.enter ⟨b, write, (blockno * BitVec.ofNat 32 (bsize / 512)).setWidth 64⟩))) else none
      | _ => none
  | .intr p =>
      match s.pc p with
      | .idle => some (.ok (s.goto p .intrEnter))
      | _ => none
  | .run p => runStep s p (s.pc p)
  | .take =>
      if s.devIdx ≠ s.disk.avail.idx then some (.ok { s with
        taken := s.taken ++ [(s.disk.avail.ring (Ring.slot num s.devIdx)).toNat]
        devIdx := s.devIdx + 1 })
      else none
  | .publish h =>
      if h ∈ s.taken then some (.ok { s with
        disk := publish h s.disk
        taken := s.taken.erase h
        published := fun q => s.published q || (s.pc q).chain.any fun c => c.head = h })
      else none

def next (e : Event ι β) : Option (Sys ι β) :=
  match step s e with
  | some (.ok t) => some t
  | _ => none

end

end

/-- After `virtio_disk_init`: all descriptors are free, and nothing else is set. -/
def boot {ι β : Type} : Sys ι β where
  disk :=
    { desc := fun _ => ⟨.null, 0, 0, 0⟩
      avail := ⟨0, fun _ => 0⟩
      used := ⟨0, fun _ => 0⟩
      free := fun i => i < num
      usedIdx := 0
      info := fun _ => ⟨none, 0⟩
      ops := fun _ => ⟨0, 0⟩ }
  busy := fun _ => false
  bufLock := fun _ => none
  lock := none
  pc := fun _ => .idle
  devIdx := 0
  taken := []
  published := fun _ => false
  cleared := fun _ => 0

end Xv6.Virtio
