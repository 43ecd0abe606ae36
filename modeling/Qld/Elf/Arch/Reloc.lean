import Mathlib.Data.Int.Notation
import Mathlib.Data.Nat.Notation
import Mathlib.Tactic.Common

/-!
# Relocations

What the backends of all architectures share.

* `Relocation` — a relocation of a section;
* `Kind`, `ApplyError` — what a relocation computes, and why it fails.
-/

namespace Qld.Elf.Arch

/-- A relocation of a section. -/
structure Relocation where
  offset : ℕ
  symbol : ℕ
  rType : ℕ
  addend : ℤ
  deriving DecidableEq, Repr

/-- What a relocation computes. -/
inductive Kind where
  | none | abs | pc | page | got | gotPage | gotAbs | gotPageOff | gotSlotRel | gotRelax | gotRel
  | gotBasePc | gotBase | size | tpOff | dtpOff | relaxGotPc | relaxGotPcNoPic | relaxGotOff
  | gdToLe | ldToLe | ieToLe | descToLe | descCallToLe | gdToIe | descToIe
  | add | sub | pageOff | relax | addend
  deriving DecidableEq, Repr

/-- Why a relocation could not be written. -/
inductive ApplyError where
  | overflow
  | outOfBounds
  | badInstruction
  deriving DecidableEq, Repr

end Qld.Elf.Arch
