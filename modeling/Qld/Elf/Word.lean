import Qld.Lib.Word64

/-!
# The ELF class

* `ElfKind` — the class and byte order of an output, and the widths of its words.
-/

namespace Qld.Elf

/-- The ELF class and byte order. -/
inductive ElfKind where
  | elf64Le
  | elf64Be
  | elf32Le
  | elf32Be
  deriving DecidableEq, Repr

namespace ElfKind

def is32 : ElfKind → Bool
  | elf32Le | elf32Be => true
  | elf64Le | elf64Be => false

/-- Size of an address, and of one `.got` or `.relr.dyn` entry. -/
def wordSize (kind : ElfKind) : ℕ := if kind.is32 then 4 else 8

/-- One bitmap bit for each following word, and one bit that marks a bitmap. -/
def relrBits (kind : ElfKind) : ℕ := kind.wordSize * 8 - 1

/-- The bytes that a bitmap covers. -/
def relrSpan (kind : ElfKind) : ℕ := kind.relrBits * kind.wordSize

/-- The end of the address space. -/
def top (kind : ElfKind) : ℕ := 2 ^ (8 * kind.wordSize)

end ElfKind

end Qld.Elf
