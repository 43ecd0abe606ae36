import Qld.Arch.Aarch64Fields
import Qld.Arch.ArmFields
import Qld.Arch.Ppc64Toc
import Qld.Arch.RiscVFields
import Qld.Args.Response
import Qld.Coff.EdataCorrect
import Qld.Debug.GdbIndexCorrect
import Qld.Debug.ZlibChunks
import Qld.Debug.ZstdSequences
import Qld.Demangle.Punycode
import Qld.Elf.Arch.Aarch64AdrpCorrect
import Qld.Elf.Arch.Aarch64Errata
import Qld.Elf.Arch.Shrink
import Qld.Elf.Defsym
import Qld.Elf.Dynsym.VersionsCorrect
import Qld.Elf.EhFrameCorrect
import Qld.Elf.EhFrameRanges
import Qld.Elf.RawoutRecords
import Qld.Elf.Relr
import Qld.Elf.RelroCorrect
import Qld.Elf.RuleSetCorrect
import Qld.Elf.ScriptLayout.OrphansCorrect
import Qld.Elf.ScriptLayout.OutputCorrect
import Qld.Elf.ScriptLayout.SortCorrect
import Qld.Elf.Tls
import Qld.Hints.Near
import Qld.Input.ArchiveCorrect
import Qld.Macho.LayoutCorrect
import Qld.Macho.OpcodesCorrect
import Qld.Macho.TrieCorrect
import Qld.Output.HashCorrect
import Qld.Output.WrittenCorrect
import Qld.Passes.CsrParallel
import Qld.Passes.IcfCorrect
import Qld.Passes.KeepTogether
import Qld.Passes.Merge.SplitCorrect
import Qld.Passes.Merge.TailMerge
import Qld.Passes.ReferenceTree
import Qld.Symbols.ClaimsCorrect
import Qld.Symbols.ResolveFixpoint
