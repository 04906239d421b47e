import Ignium.Ipc.Queues

/-!
# Thread control blocks

The data of `kernel/src/sched.rs`: what the scheduler keeps for a thread. A thread is resumed
either from its context, which a cooperative switch saved, or from its trap frame, which an
interrupt saved; the flags `ctxValid` and `frameValid` say which of the two is fresh.
-/

namespace Ignium.Sched

open Ipc

/-- The number of harts. -/
def maxHarts : Nat := 4

/-- The size of the thread table. -/
def maxThreads : Nat := 64

/-- The number of priority levels; `0` is the highest. -/
def prioLevels : Nat := 3

/-- The length of a time slice, in ticks. -/
def sliceTicks : Nat := 10

/-- A hart. -/
abbrev Hart := Fin maxHarts

/-- A priority. Priorities are clamped when a thread is made, so a queue for each always exists. -/
abbrev Prio := Fin prioLevels

/-- The lowest priority. -/
def prioLow : Prio := ⟨2, by decide⟩

/-- The clamping of priorities. -/
def clampPrio (prio : Nat) : Prio := ⟨min prio (prioLevels - 1), by unfold prioLevels; omega⟩

/-- The clamping of hart numbers. -/
def clampHart (hart : Nat) : Hart := ⟨min hart (maxHarts - 1), by unfold maxHarts; omega⟩

/-- The state of a thread. -/
inductive ThreadState where
  | ready
  | running
  | blocked
  | exited
  deriving DecidableEq, Repr

/-- A wake-up that arrives before its thread has blocked. -/
inductive IpcWake where
  | msg (words : Message)
  | err (code : Nat)
  deriving DecidableEq, Repr

/-- The registers that a cooperative switch saves. -/
structure Context where
  ra : Nat
  sp : Nat
  s : Vector Nat 12
  deriving DecidableEq, Repr

/-! ## Trap frames -/

/-- The number of words of a trap frame: 31 registers, padding, and four status registers. -/
def frameWords : Nat := 36

/-- A trap frame. -/
abbrev TrapFrame := Vector Nat frameWords

/-- The slots of a trap frame that the kernel reads and writes by name. -/
def xSp : Fin frameWords := ⟨1, by decide⟩

def xGp : Fin frameWords := ⟨2, by decide⟩

def xS0 : Fin frameWords := ⟨7, by decide⟩

def xS1 : Fin frameWords := ⟨8, by decide⟩

def xA0 : Fin frameWords := ⟨9, by decide⟩

def xA1 : Fin frameWords := ⟨10, by decide⟩

def xS2 : Fin frameWords := ⟨17, by decide⟩

def frameSstatus : Fin frameWords := ⟨32, by decide⟩

def frameSepc : Fin frameWords := ⟨33, by decide⟩

namespace TrapFrame

/-- A frame of zeros. -/
def zero : TrapFrame := .replicate frameWords 0

/-- Write one word. -/
def put (frame : TrapFrame) (i : Fin frameWords) (word : Nat) : TrapFrame :=
  frame.set i.val word i.isLt

/-- Write consecutive words from a slot on. -/
def putAll (frame : TrapFrame) (i : Fin frameWords) {n : Nat} (words : Vector Nat n) : TrapFrame :=
  .ofFn fun j =>
    if h : i.val ≤ j.val ∧ j.val - i.val < n then words.get ⟨j.val - i.val, h.2⟩ else frame[j]

/-- Step over the `ecall`. -/
def skipEcall (frame : TrapFrame) : TrapFrame :=
  frame.put frameSepc (frame[frameSepc] + 4)

end TrapFrame

/-- `SPIE`, and `SPP` for a return to supervisor mode. -/
def sstatusSpie : Nat := 2 ^ 5

def sstatusSpp : Nat := 2 ^ 8

/-! ## Threads -/

/-- The size of a kernel stack and of the guard page below it. -/
def threadStackSize : Nat := 16 * 1024

def stackGuardSize : Nat := 4096

/-- The top of a kernel stack that starts at an address, with 16-byte alignment. -/
def stackSp (ptr : Nat) : Nat := (ptr + threadStackSize + stackGuardSize) / 16 * 16

/-- A thread control block. The entry function and the stack are addresses. -/
structure Thread where
  prio : Prio
  state : ThreadState
  ctx : Context
  frame : TrapFrame
  frameValid : Bool
  ctxValid : Bool
  woken : Bool
  ipcMsg : Option Message
  ipcWake : Option IpcWake
  proc : Option Nat
  hart : Hart
  root : Nat
  entry : Nat
  stack : Option Nat
  deriving DecidableEq, Repr

/-- What the linker and the boot fix: the kernel's root table and the addresses of the code that
threads start in. -/
structure Boot where
  kernelRoot : Nat
  globalPointer : Nat
  threadEntry : Nat
  idleEntry : Nat
  userEntryStub : Nat
  deriving DecidableEq, Repr

/-- A kernel thread that has not run. -/
def Thread.kernel (b : Boot) (hart : Hart) (entry prio stack : Nat) : Thread where
  prio := clampPrio prio
  state := .ready
  ctx := ⟨b.threadEntry, stackSp stack, .replicate 12 0⟩
  frame := (((TrapFrame.zero.put frameSepc b.threadEntry).put frameSstatus
    (sstatusSpie + sstatusSpp)).put xSp (stackSp stack)).put xGp b.globalPointer
  frameValid := true
  ctxValid := true
  woken := false
  ipcMsg := none
  ipcWake := none
  proc := none
  hart := hart
  root := b.kernelRoot
  entry := entry
  stack := some stack

/-- A user thread that has not run. -/
def Thread.user (b : Boot) (hart : Hart) (proc root entryPc stackTop prio argc argv : Nat) :
    Thread where
  prio := clampPrio prio
  state := .ready
  ctx := ⟨entryPc, stackTop, .replicate 12 0⟩
  frame := (((((TrapFrame.zero.put frameSepc entryPc).put frameSstatus sstatusSpie).put xSp
    stackTop).put xGp 0).put xA0 argc).put xA1 argv
  frameValid := true
  ctxValid := false
  woken := false
  ipcMsg := none
  ipcWake := none
  proc := some proc
  hart := hart
  root := root
  entry := b.userEntryStub
  stack := none

/-- The idle thread of a hart. It runs from boot on. -/
def Thread.idle (b : Boot) (hart : Hart) (stack : Nat) : Thread where
  prio := prioLow
  state := .running
  ctx := ⟨b.idleEntry, stackSp stack, .replicate 12 0⟩
  frame := (TrapFrame.zero.put frameSepc b.idleEntry).put frameSstatus (sstatusSpie + sstatusSpp)
  frameValid := false
  ctxValid := true
  woken := false
  ipcMsg := none
  ipcWake := none
  proc := none
  hart := hart
  root := b.kernelRoot
  entry := b.idleEntry
  stack := some stack

/-- The frame that resumes a thread at its saved context. -/
def Context.toFrame (b : Boot) (ctx : Context) : TrapFrame :=
  ((((((TrapFrame.zero.put frameSepc ctx.ra).put frameSstatus (sstatusSpie + sstatusSpp)).put xSp
    ctx.sp).put xGp b.globalPointer).put xS0 ctx.s[0]).put xS1 ctx.s[1]).putAll xS2
      (ctx.s.extract 2 12)

end Ignium.Sched
