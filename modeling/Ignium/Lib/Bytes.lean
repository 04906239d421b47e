import Ignium.Lib.Returns
import Mathlib.Algebra.Group.Nat.Defs
import Mathlib.Data.Option.Basic

/-!
# Byte strings and machine words

Numbers read from byte strings, and the arithmetic of 64-bit words that does not wrap around. A
number is read with `leAt`, which is `none` when one of its bytes lies outside the string:
`leAt_some` says when this does not happen. `checkedAdd` and `checkedMul` are `none` on overflow,
and `exceeds` is the check that a sum stays below a limit without computing one that overflows.
-/

namespace Bytes

/-- A byte string in memory, whose length is a positive machine integer. -/
abbrev Slice := {bytes : List UInt8 // bytes.length < 2 ^ 63}

/-! ## Reading numbers -/

/-- The little-endian number of `n` bytes at an offset. -/
def leAt (bytes : List UInt8) : Nat → Nat → Option Nat
  | _, 0 => some 0
  | off, n + 1 => do
      let low ← bytes[off]?
      let high ← leAt bytes (off + 1) n
      some (low.toNat + 256 * high)

/-- A number that lies in the string is read, and it has `n` bytes. -/
theorem leAt_some (bytes : List UInt8) (off n : Nat) (h : off + n ≤ bytes.length) :
    ∃ value, leAt bytes off n = some value ∧ value < 256 ^ n := by
  induction n generalizing off with
  | zero => exact ⟨0, rfl, by decide⟩
  | succ n ih =>
    obtain ⟨high, hhigh, hlt⟩ := ih (off + 1) (by omega)
    have hlow : bytes[off]? = some bytes[off] := List.getElem?_eq_getElem (by omega)
    refine ⟨bytes[off].toNat + 256 * high, by simp [leAt, hlow, hhigh], ?_⟩
    have hbyte := bytes[off].toNat_lt
    rw [Nat.pow_succ]
    omega

/-! ## Arithmetic on words -/

/-- The sum of two words, unless it overflows. -/
def checkedAdd (a b : Nat) : Option Nat := if a + b < 2 ^ 64 then some (a + b) else none

/-- The product of two words, unless it overflows. -/
def checkedMul (a b : Nat) : Option Nat := if a * b < 2 ^ 64 then some (a * b) else none

/-- The difference of two words, unless it is negative. -/
def checkedSub (a b : Nat) : Option Nat := if b ≤ a then some (a - b) else none

/-- The sum of two words, or the largest word. -/
def saturatingAdd (a b : Nat) : Nat := min (a + b) (2 ^ 64 - 1)

/-- The sum of two words, modulo the size of a word. -/
def wrappingAdd (a b : Nat) : Nat := (a + b) % 2 ^ 64

/-- The difference of two words, modulo the size of a word. -/
def wrappingSub (a b : Nat) : Nat := (a + 2 ^ 64 - b) % 2 ^ 64

/-- The sum of two words overflows or lies above a limit. -/
def exceeds (a b limit : Nat) : Bool := (checkedAdd a b).all fun sum => limit < sum

variable {α : Type} {a b limit : Nat}

theorem checkedAdd_eq (h : a + b < 2 ^ 64) : checkedAdd a b = some (a + b) := if_pos h

theorem checkedMul_eq (h : a * b < 2 ^ 64) : checkedMul a b = some (a * b) := if_pos h

theorem checkedSub_eq (h : b ≤ a) : checkedSub a b = some (a - b) := if_pos h

theorem returns_checkedAdd (h : a + b < 2 ^ 64) : Returns (checkedAdd a b) (· = a + b) :=
  ⟨_, checkedAdd_eq h, rfl⟩

theorem bind_checkedAdd {f : Nat → Option α} {Q : α → Prop} (h : a + b < 2 ^ 64)
    (hf : Returns (f (a + b)) Q) : Returns (checkedAdd a b >>= f) Q := by
  rwa [checkedAdd_eq h]

theorem bind_checkedSub {f : Nat → Option α} {Q : α → Prop} (h : b ≤ a)
    (hf : Returns (f (a - b)) Q) : Returns (checkedSub a b >>= f) Q := by
  rwa [checkedSub_eq h]

/-- What does not exceed a limit is a sum below it. -/
theorem le_of_not_exceeds (h : exceeds a b limit = false) : a + b ≤ limit := by
  unfold exceeds checkedAdd at h
  split at h
  · simpa using h
  · cases h

/-- A sum below a limit that is a word does not exceed it. -/
theorem not_exceeds (hlimit : limit < 2 ^ 64) (h : a + b ≤ limit) : exceeds a b limit = false := by
  rw [exceeds, checkedAdd_eq (by omega)]
  simpa using h

/-- What exceeds a limit that is a word is a sum above it. -/
theorem lt_of_exceeds (hlimit : limit < 2 ^ 64) (h : exceeds a b limit = true) : limit < a + b := by
  by_contra hle
  rw [not_exceeds hlimit (Nat.not_lt.mp hle)] at h
  cases h

theorem le_of_saturatingAdd_le (hlimit : limit < 2 ^ 64 - 1) (h : saturatingAdd a b ≤ limit) :
    a + b ≤ limit := by
  unfold saturatingAdd at h
  omega

end Bytes
