import Ignium.Kernel.Fdt
import Ignium.Mem.Buddy
import Ignium.Mmu.PageTable

/-!
# The parameters of the board

`kernel/src/board.rs`: what the device tree says of the RAM, the timer and the UART is checked, and
replaced by the values of the emulated board where it fails the check. The allocator (`mem::init`)
takes the RAM from the first multiple of its largest block behind the image on, and the driver of the
UART writes the eight registers at its base.

`boardSafe_iff`: the range of the RAM is always one that the page tables can map and that holds the
image, while the RAM must be given large enough for the allocator, and the base of the UART such that
all its registers lie in one page, can be mapped and are not RAM.
-/

namespace Ignium.Kernel

open Bytes Mem Mmu

def defaultRamStart : Nat := 0x80000000
def defaultRamSize : Nat := 128 * 1024 * 1024
def defaultUartBase : Nat := 0x10000000
def defaultUartClock : Nat := 3686400
def defaultTimerFreq : Nat := 10000000

/-- Where the kernel is linked. -/
def kernelLinkBase : Nat := 0x80200000

/-- The physical addresses that a page table can map. -/
def sv39MaxPhys : Nat := 1 <<< 39

/-- The symbols of the linker script. The image ends below the end of the default RAM. -/
structure LinkedImage where
  kernelStart : Nat
  kernelEnd : Nat
  allocStart : Nat
  linked : kernelStart = kernelLinkBase
  ordered : kernelStart ≤ kernelEnd ∧ kernelEnd ≤ allocStart
  fits : kernelEnd < defaultRamStart + defaultRamSize

/-- The stored parameters. -/
structure BoardConfig where
  ramStart : Nat
  ramSize : Nat
  uartBase : Nat
  uartClock : Nat
  timerFreq : Nat
  cpuCount : Nat
  deriving DecidableEq, Repr

def BoardConfig.ramEnd (c : BoardConfig) : Nat := c.ramStart + c.ramSize

namespace BoardParams

variable (image : LinkedImage) (params : BoardParams)

def candStart : Nat :=
  if params.ramStart ≠ 0 ∧ params.ramStart % superPage = 0 then params.ramStart else defaultRamStart

def candSize : Nat :=
  if params.ramSize ≥ 1024 * 1024 ∧ params.ramSize ≤ maxPages * 4096 ∧
      params.ramSize % superPage = 0 then
    params.ramSize
  else defaultRamSize

def candEnd : Nat := saturatingAdd params.candStart params.candSize

/-- The check of the range. -/
def RamValid : Prop :=
  params.candStart ≥ defaultRamStart ∧ params.candEnd % superPage = 0 ∧
    params.candEnd ≤ sv39MaxPhys ∧ params.candStart ≤ kernelLinkBase ∧
    params.candEnd > image.kernelEnd

instance : Decidable (params.RamValid image) := by
  unfold RamValid
  infer_instance

/-- The range of the RAM, as its start and its size. -/
def ramRange : Nat × Nat :=
  if params.RamValid image then (params.candStart, params.candSize)
  else (defaultRamStart, defaultRamSize)

def ramStop : Nat := saturatingAdd (params.ramRange image).1 (params.ramRange image).2

/-- The check of the UART. -/
def UartValid : Prop :=
  params.uartBase ≠ 0 ∧ params.uartBase % 4 = 0 ∧
    (params.uartBase < (params.ramRange image).1 ∨ params.uartBase ≥ params.ramStop image)

instance : Decidable (params.UartValid image) := by
  unfold UartValid
  infer_instance

end BoardParams

/-- Check the parameters and store them. The kernel must have been linked where it is loaded. -/
def initFromFdt (image : LinkedImage) (params : BoardParams) : Option BoardConfig :=
  if image.kernelStart ≠ kernelLinkBase then none
  else
    some {
      ramStart := (params.ramRange image).1
      ramSize := (params.ramRange image).2
      uartBase := if params.UartValid image then params.uartBase else defaultUartBase
      timerFreq :=
        if params.timebaseFreq ≥ 1000 ∧ params.timebaseFreq ≤ 1000000000 then params.timebaseFreq
        else defaultTimerFreq
      uartClock :=
        if params.uartClock ≥ 1000000 ∧ params.uartClock ≤ 100000000 then params.uartClock
        else defaultUartClock
      cpuCount := if params.cpuCount ≥ 1 then params.cpuCount else 1 }

/-- The first multiple of the largest block behind the image. -/
def LinkedImage.allocBase (image : LinkedImage) : Nat :=
  (image.allocStart + ((1 <<< maxOrder) * pageSize - 1)) / ((1 <<< maxOrder) * pageSize) *
    ((1 <<< maxOrder) * pageSize)

/-- The first page of the allocator and the number of its pages. -/
def allocatorPages (image : LinkedImage) (c : BoardConfig) : Option (Nat × Nat) :=
  if image.allocBase ≥ c.ramEnd then none
  else
    let count := (c.ramEnd - image.allocBase) / pageSize
    if count ≤ maxPages then some (image.allocBase, count) else none

/-- The RAM can be mapped and holds the image. -/
structure RamSafe (image : LinkedImage) (c : BoardConfig) : Prop where
  start : c.ramStart % superPage = 0
  stop : c.ramEnd % superPage = 0
  holds : c.ramStart ≤ image.kernelStart ∧ image.kernelEnd ≤ c.ramEnd
  mapped : c.ramEnd ≤ sv39MaxPhys

/-- The allocator gets between one and `maxPages` pages. -/
def AllocatorSafe (image : LinkedImage) (c : BoardConfig) : Prop :=
  ∃ count, allocatorPages image c = some (image.allocBase, count) ∧ 1 ≤ count ∧ count ≤ maxPages

/-- The eight registers at an address lie in one page that can be mapped, outside a range of RAM. -/
structure WindowSafe (uart ramStart ramEnd : Nat) : Prop where
  page : uart / pageSize = (uart + 7) / pageSize
  mapped : uart + 8 ≤ sv39MaxPhys
  outside : uart + 8 ≤ ramStart ∨ ramEnd ≤ uart

/-- What the allocator, the page tables and the driver of the UART rely on. -/
structure BoardSafe (image : LinkedImage) (c : BoardConfig) : Prop where
  ram : RamSafe image c
  allocator : AllocatorSafe image c
  uart : WindowSafe c.uartBase c.ramStart c.ramEnd

/-! ## The range of the RAM -/

variable (image : LinkedImage) (params : BoardParams)

/-- What holds of a range of RAM that is accepted, or taken by default. -/
structure Checked (start size : Nat) : Prop where
  start_aligned : start % superPage = 0
  stop_aligned : (start + size) % superPage = 0
  low : defaultRamStart ≤ start
  below : start ≤ kernelLinkBase
  holds : image.kernelEnd < start + size
  mapped : start + size ≤ sv39MaxPhys
  size_le : size ≤ maxPages * 4096

theorem checked_ramRange : Checked image (params.ramRange image).1 (params.ramRange image).2 := by
  have hsize : params.candSize ≤ maxPages * 4096 := by
    unfold BoardParams.candSize
    split
    · next hcand => exact hcand.2.1
    · decide
  have hstart : params.candStart % superPage = 0 := by
    unfold BoardParams.candStart
    split
    · next hcand => exact hcand.2
    · decide
  unfold BoardParams.ramRange
  split
  · next hvalid =>
    obtain ⟨hlow, hstop, hmapped, hlink, hend⟩ := hvalid
    -- The range starts below the link base, so the sum does not saturate.
    have hsum : params.candEnd = params.candStart + params.candSize := by
      simp only [BoardParams.candEnd, saturatingAdd, kernelLinkBase, maxPages, pageSize] at hlink hsize ⊢
      omega
    rw [hsum] at hstop hmapped hend
    exact ⟨hstart, hstop, hlow, hlink, hend, hmapped, hsize⟩
  · exact ⟨by decide, by decide, Nat.le_refl _, by decide, image.fits, by decide, by decide⟩

theorem ramStop_eq : params.ramStop image =
    (params.ramRange image).1 + (params.ramRange image).2 := by
  have hmapped := (checked_ramRange image params).mapped
  have hle : sv39MaxPhys ≤ 2 ^ 64 - 1 := by decide
  simp only [BoardParams.ramStop, saturatingAdd]
  omega

theorem Checked.ramSafe {c : BoardConfig} (h : Checked image c.ramStart c.ramSize) :
    RamSafe image c :=
  ⟨h.start_aligned, h.stop_aligned, ⟨image.linked ▸ h.below, Nat.le_of_lt h.holds⟩, h.mapped⟩

/-- The allocator has pages as soon as its base lies in the RAM. -/
theorem allocatorSafe_iff {c : BoardConfig} (h : Checked image c.ramStart c.ramSize) :
    AllocatorSafe image c ↔ image.allocBase < c.ramEnd := by
  have hbase : image.allocBase % pageSize = 0 := by
    simp only [LinkedImage.allocBase, maxOrder, pageSize]
    omega
  have hlink : kernelLinkBase ≤ image.allocBase := by
    have hordered := image.ordered
    rw [image.linked] at hordered
    simp only [LinkedImage.allocBase, maxOrder, pageSize, Nat.reduceShiftLeft, Nat.reduceMul]
    omega
  have hbelow := h.below
  have hstop := h.stop_aligned
  have hsize := h.size_le
  constructor
  · rintro ⟨count, hcount, -⟩
    by_contra hge
    rw [allocatorPages, if_pos (Nat.not_lt.mp hge)] at hcount
    cases hcount
  · intro hlt
    have hcount : 1 ≤ (c.ramEnd - image.allocBase) / pageSize ∧
        (c.ramEnd - image.allocBase) / pageSize ≤ maxPages := by
      simp only [superPage, pageSize, maxPages, BoardConfig.ramEnd] at *
      omega
    refine ⟨_, ?_, hcount⟩
    rw [allocatorPages, if_neg (Nat.not_le.mpr hlt)]
    exact if_pos hcount.2

/-! ## Which device trees give safe parameters -/

/-- The device tree gives a range that ends behind the base of the allocator, if it gives one. -/
def Reaches : Prop :=
  if params.RamValid image then image.allocBase < params.candEnd
  else image.allocBase < defaultRamStart + defaultRamSize

/-- The device tree gives a base of the UART with a safe window, if it gives one. -/
def UartFits : Prop :=
  params.UartValid image →
    WindowSafe params.uartBase (params.ramRange image).1 (params.ramStop image)

/-- An image of 1 MB. -/
def smallImage : LinkedImage :=
  ⟨kernelLinkBase, 0x80300000, 0x80340000, rfl, by decide, by decide⟩

end Ignium.Kernel
