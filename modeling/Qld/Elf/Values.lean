import Qld.Elf.Word

/-!
# Symbols and input sections of a link

* `Def` — where a symbol is defined;
* `SectionKind` — how an input section is used.
-/

namespace Qld.Elf

/-- Where a relocation's symbol is defined. -/
inductive Def where
  | inSection (file index value : ℕ)
  | absolute (value : ℕ)
  | common (id : ℕ)
  | linker (id : ℕ)
  | shared (id : ℕ)
  | undefined (weak : Bool)
  deriving DecidableEq, Repr

/-- How an input section is used. -/
inductive SectionKind where
  | ignored
  | regular
  | merge
  | ehFrame
  deriving DecidableEq, Repr

end Qld.Elf
