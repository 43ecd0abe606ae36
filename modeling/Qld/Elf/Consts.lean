import Mathlib.Data.Nat.Notation

/-!
# ELF constants

Section types and flags, and segment flags, under the names of the specification.
-/

namespace Qld.Elf

/-! ### Sections -/

def SHT_NOBITS : ℕ := 8

def SHF_WRITE : ℕ := 0x1

def SHF_ALLOC : ℕ := 2

def SHF_EXECINSTR : ℕ := 0x4

def SHF_TLS : ℕ := 0x400

/-! ### Segments -/

def PT_LOAD : ℕ := 1

def PF_X : ℕ := 1

def PF_W : ℕ := 2

def PF_R : ℕ := 4

end Qld.Elf
