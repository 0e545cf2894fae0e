import Mathlib.Algebra.Group.Nat.Defs
import Xv6.LinkedLists
import Xv6.Runs

namespace Xv6.Ide

open Xv6.Runs

def fssize : ℕ := 1000

def sectorPerBlock : ℕ := 512 / 512

structure Buffer (Data : Type) where
  valid : Bool
  dirty : Bool
  dev : ℕ
  blockno : ℕ
  data : Data

variable {Thread Buf Data : Type}

def Buffer.settled (b : Buffer Data) : Bool :=
  b.valid && !b.dirty

abbrev Sectors (Data : Type) := ℕ → Data

section Memory

def memideSync (memdisk : Sectors Data) (b : Buffer Data) : Sectors Data × Buffer Data :=
  if b.dirty then
    (Function.update memdisk b.blockno b.data, { b with dirty := false, valid := true })
  else
    (memdisk, { b with data := memdisk b.blockno, valid := true })

def memideIderw (memdisk : Sectors Data) (b : Buffer Data) : Option (Sectors Data × Buffer Data) :=
  if b.settled then none
  else if b.dev ≠ 1 then none
  else if fssize ≤ b.blockno then none
  else some (memideSync memdisk b)

theorem memideSync_of_iderw {memdisk : Sectors Data} {b : Buffer Data} {x : Sectors Data × Buffer Data}
    (h : memideIderw memdisk b = some x) : memideSync memdisk b = x := by
  unfold memideIderw at h
  split at h
  · cases h
  split at h
  · cases h
  split at h
  · cases h
  exact Option.some.inj h

end Memory

section Device

inductive Transfer (Data : Type) where
  | read
  | write (data : Data)

structure Command (Data : Type) where
  count : ℕ
  lba0 : ℕ
  lba1 : ℕ
  lba2 : ℕ
  device : ℕ
  transfer : Transfer Data

def command (b : Buffer Data) : Command Data :=
  let sector := b.blockno * sectorPerBlock
  { count := sectorPerBlock
    lba0 := sector &&& 0xff
    lba1 := (sector >>> 8) &&& 0xff
    lba2 := (sector >>> 16) &&& 0xff
    device := 0xe0 ||| ((b.dev &&& 1) <<< 4) ||| ((sector >>> 24) &&& 0x0f)
    transfer := if b.dirty then .write b.data else .read }

def Command.drive (c : Command Data) : Bool :=
  c.device.testBit 4

def Command.sector (c : Command Data) : ℕ :=
  c.lba0 + c.lba1 * 2 ^ 8 + c.lba2 * 2 ^ 16 + (c.device &&& 0x0f) * 2 ^ 24

abbrev Disks (Data : Type) := Bool → Sectors Data

def Command.perform (c : Command Data) (disk : Disks Data) : Disks Data :=
  match c.transfer with
  | .read => disk
  | .write data => Function.update disk c.drive (Function.update (disk c.drive) c.sector data)

def Command.latch (c : Command Data) (disk : Disks Data) (latch : Data) : Data :=
  match c.transfer with
  | .read => disk c.drive c.sector
  | .write _ => latch

end Device

abbrev Cell (Buf : Type) := Option Buf

inductive Pc (Buf : Type) where
  | idle
  | enter (b : Buf)
  | walk (b : Buf) (pp : Cell Buf)
  | test (b : Buf)
  | sleeping (b : Buf)
  | woken (b : Buf)
  | returned (b : Buf)
deriving DecidableEq

structure State (Thread Buf Data : Type) where
  buf : Buf → Buffer Data
  lock : Buf → Option Thread
  pc : Thread → Pc Buf
  idelock : Option Thread
  link : Cell Buf → Option Buf
  havedisk1 : Bool
  -- the device: its command with the buffer it was started for, and the interrupts it has raised
  active : Option (Command Data × Buf)
  pending : ℕ
  latch : Data
  disk : Disks Data
  -- the history: requests queued and started, each buffer at its last call, and the disks before and after
  -- its command
  queued : List Buf
  started : List Buf
  arg : Buf → Buffer Data
  done : Buf → Option (Disks Data × Disks Data)

def State.idequeue (s : State Thread Buf Data) : Option Buf :=
  s.link none

inductive Event (Thread Buf Data : Type) where
  | acquiresleep (t : Thread) (b : Buf)
  | releasesleep (t : Thread) (b : Buf)
  | edit (b : Buf) (v : Buffer Data)
  | iderw (t : Thread) (b : Buf)
  | run (t : Thread)
  | wake (t : Thread)
  | complete
  | ideintr

variable [DecidableEq Thread] [DecidableEq Buf]

/-- `idewait` spins while a command is active. -/
def idestart (s : State Thread Buf Data) (b : Buf) : Option (State Thread Buf Data) :=
  if fssize ≤ (s.buf b).blockno then none
  else if s.active.isSome then none
  else some { s with active := some (command (s.buf b), b), started := s.started ++ [b] }

def wakeup (pc : Thread → Pc Buf) (b : Buf) : Thread → Pc Buf :=
  fun t => if pc t = .sleeping b then .woken b else pc t

def receive (s : State Thread Buf Data) (b : Buf) : Option (Buffer Data) :=
  if (s.buf b).dirty then some (s.buf b)
  else if s.active.isSome then none
  else some { s.buf b with data := s.latch }

def ideintr (s : State Thread Buf Data) : Option (State Thread Buf Data) :=
  match s.idequeue with
  | none => some s
  | some b =>
    (receive s b).bind fun v =>
      let s₁ := { s with
        link := Function.update s.link none (s.link (some b))
        buf := Function.update s.buf b { v with valid := true, dirty := false }
        pc := wakeup s.pc b }
      match s₁.idequeue with
      | none => some s₁
      | some c => idestart s₁ c

def enqueue (s : State Thread Buf Data) (t : Thread) (b : Buf) (pp : Cell Buf) : Option (State Thread Buf Data) :=
  let s₁ := { s with
    link := Function.update s.link pp (some b)
    queued := s.queued ++ [b]
    pc := Function.update s.pc t (.test b) }
  if s₁.idequeue = some b then idestart s₁ b else some s₁

def runIderw (s : State Thread Buf Data) (t : Thread) : Pc Buf → Option (State Thread Buf Data)
  | .idle => none
  | .enter b =>
    if s.idelock = none then
      some { s with
        idelock := some t
        link := Function.update s.link (some b) none
        pc := Function.update s.pc t (.walk b none) }
    else none
  | .walk b pp =>
    match s.link pp with
    | some c => some { s with pc := Function.update s.pc t (.walk b (some c)) }
    | none => enqueue s t b pp
  | .test b =>
    some { s with
      idelock := none
      pc := Function.update s.pc t (if (s.buf b).settled then .returned b else .sleeping b) }
  | .sleeping _ => none
  | .woken b =>
    if s.idelock = none then
      some { s with idelock := some t, pc := Function.update s.pc t (.test b) }
    else none
  | .returned _ => some { s with pc := Function.update s.pc t .idle }

def iderw (s : State Thread Buf Data) (t : Thread) (b : Buf) : Option (State Thread Buf Data) :=
  if s.lock b ≠ some t then none
  else if (s.buf b).settled then none
  else if (s.buf b).dev ≠ 0 ∧ s.havedisk1 = false then none
  else some { s with
    pc := Function.update s.pc t (.enter b)
    arg := Function.update s.arg b (s.buf b)
    done := Function.update s.done b none }

def complete (s : State Thread Buf Data) : Option (State Thread Buf Data) :=
  match s.active with
  | none => none
  | some (c, b) => some { s with
      active := none
      pending := s.pending + 1
      latch := c.latch s.disk s.latch
      disk := c.perform s.disk
      done := Function.update s.done b (some (s.disk, c.perform s.disk)) }

/-- Only the caller's own `iderw` and the interrupt handler touch a buffer while its holder is in `iderw`. -/
def editable (s : State Thread Buf Data) (b : Buf) : Bool :=
  match s.lock b with
  | none => true
  | some t => s.pc t = .idle

def step (s : State Thread Buf Data) : Event Thread Buf Data → Option (State Thread Buf Data)
  | .acquiresleep t b =>
    if s.pc t = .idle ∧ s.lock b = none then some { s with lock := Function.update s.lock b (some t) } else none
  | .releasesleep t b =>
    if s.pc t = .idle ∧ s.lock b = some t then some { s with lock := Function.update s.lock b none } else none
  | .edit b v =>
    if editable s b then some { s with buf := Function.update s.buf b v } else none
  | .iderw t b =>
    if s.pc t = .idle then iderw s t b else none
  | .run t => runIderw s t (s.pc t)
  | .wake t =>
    match s.pc t with
    | .sleeping b => some { s with pc := Function.update s.pc t (.woken b) }
    | _ => none
  | .complete => complete s
  | .ideintr =>
    if s.idelock = none ∧ 0 < s.pending then (ideintr s).map fun s => { s with pending := s.pending - 1 } else none

def start (havedisk1 : Bool) (disk : Disks Data) (buf : Buf → Buffer Data) : State Thread Buf Data where
  buf := buf
  lock := fun _ => none
  pc := fun _ => .idle
  idelock := none
  link := fun _ => none
  havedisk1 := havedisk1
  active := none
  pending := 0
  latch := disk false 0
  disk := disk
  queued := []
  started := []
  arg := buf
  done := fun _ => none

end Xv6.Ide
