import Qld.Input.Archive

/-!
# The archive reader is consistent

* `Regular` — a member that is none of the special ones;
* `Contents` — where the contents of a member stored in the archive are;
* `memberFromHeader_eq_ok` — what the member of a header is;
* `members_walk` — one member after the other;
* `parse_consistent` — for every archive that parses, the walk and the lookup agree.
-/

namespace Qld.Input

open Qld.Lib Qld.Elf Qld.Elf.Read

variable {Path : Type}

/-! ### What a member is -/

/-- The header at the offset and the name are those of no special member. -/
structure Regular (data : List UInt8) (member : Member Path) : Prop where
  notIndex : trimTrailing ((data.drop member.headerOffset).take 16) 0x20 ∉
    [ascii "/", ascii "//", ascii "/SYM64/"]
  notBracketed : ∀ text, trimTrailing ((data.drop member.headerOffset).take 16) 0x20 ≠
    ascii "/<" ++ text ++ ascii ">/"
  notSymdef : member.name ∉ [ascii "__.SYMDEF", ascii "__.SYMDEF SORTED", ascii "__.SYMDEF_64",
    ascii "__.SYMDEF_64 SORTED"]

/-- The contents of a member, from `start` on, lie in the file and after the header. -/
structure Contents (data : List UInt8) (member : Member Path) (start : ℕ) : Prop where
  data_eq : member.data = .inline start ((data.drop start).take member.size)
  after : member.headerOffset + HEADER_SIZE ≤ start
  inside : start + member.size ≤ data.length

/-- Two ranges, each from its first position to the one after its last. -/
def RangesApart (a b : ℕ × ℕ) : Prop := a.2 ≤ b.1 ∨ b.2 ≤ a.1

/-- The contents of two members, and the contents of one and the header of the other. -/
def MembersApart (data : List UInt8) (a b : Member Path) : Prop :=
  ∀ start start', Contents data a start → Contents data b start' →
    RangesApart (start, start + a.size) (start', start' + b.size) ∧
    RangesApart (start, start + a.size) (b.headerOffset, b.headerOffset + HEADER_SIZE) ∧
    RangesApart (start', start' + b.size) (a.headerOffset, a.headerOffset + HEADER_SIZE)

/-! ### Members of headers -/

theorem isBsdSymdef_eq_none {name : List UInt8} (h : isBsdSymdef name = none) :
    name ∉ [ascii "__.SYMDEF", ascii "__.SYMDEF SORTED", ascii "__.SYMDEF_64",
      ascii "__.SYMDEF_64 SORTED"] := by
  rw [isBsdSymdef] at h
  split at h
  · exact nomatch h
  next hfirst =>
  split at h
  · exact nomatch h
  next hsecond =>
  simp only [List.mem_cons, List.not_mem_nil, or_false]
  tauto

variable {archive : Archive Path} {header : Header}

theorem rawName_eq_ok {raw : RawName} (h : archive.rawName header = .ok raw)
    (hraw : raw.isSpecial = false) :
    trimTrailing header.name 0x20 ∉ [ascii "/", ascii "//", ascii "/SYM64/"] ∧
      ∀ text, trimTrailing header.name 0x20 ≠ ascii "/<" ++ text ++ ascii ">/" := by
  simp only [Archive.rawName] at h
  split at h
  · obtain rfl := Except.ok.inj h
    exact nomatch hraw
  next hindex =>
  split at h
  · obtain rfl := Except.ok.inj h
    exact nomatch hraw
  next hlong =>
  split at h
  · obtain rfl := Except.ok.inj h
    exact nomatch hraw
  next hindex64 =>
  refine ⟨by simp only [List.mem_cons, List.not_mem_nil, or_false]; tauto, fun text htext => ?_⟩
  rw [htext] at h
  have hbsd : (ascii "/<" ++ text ++ ascii ">/").dropPrefix? (ascii "#1/") = none := rfl
  have hslash : (ascii "/<" ++ text ++ ascii ">/").dropPrefix? (ascii "/") =
      some (ascii "<" ++ text ++ ascii ">/") := rfl
  rw [hbsd, hslash] at h
  simp only at h
  rw [if_pos ⟨⟨text ++ ascii ">/", by rw [List.append_assoc]⟩, ⟨ascii "<" ++ text, rfl⟩⟩] at h
  obtain rfl := Except.ok.inj h
  exact nomatch hraw

/-- The contents end where those of the header end. -/
theorem resolveName_eq_ok {raw : RawName} {named : List UInt8 × ℕ × ℕ}
    (h : archive.resolveName header raw = .ok named) :
    header.dataStart ≤ named.2.1 ∧ named.2.1 + named.2.2 = header.dataStart + header.size := by
  cases raw with
  | short name =>
    obtain rfl := Except.ok.inj h
    exact ⟨Nat.le_refl _, rfl⟩
  | longName offset =>
    obtain ⟨table, -, h⟩ := bind_eq_ok.mp h
    obtain ⟨rest, -, h⟩ := bind_eq_ok.mp h
    simp only at h
    split at h
    · exact nomatch h
    · obtain rfl := Except.ok.inj h
      exact ⟨Nat.le_refl _, rfl⟩
  | bsdName len =>
    obtain ⟨size, hsize, h⟩ := bind_eq_ok.mp h
    obtain ⟨name, -, h⟩ := bind_eq_ok.mp h
    obtain ⟨start, hstart, h⟩ := bind_eq_ok.mp h
    obtain rfl := Except.ok.inj h
    obtain ⟨hle, hsize⟩ := Option.ite_none_right_eq_some.mp (okOrElse_eq_ok.mp hsize)
    obtain rfl := Option.some.inj hsize
    obtain ⟨rfl, -⟩ := checkedAdd_eq_some (okOrElse_eq_ok.mp hstart)
    exact ⟨Nat.le_add_right _ _, by simp only; omega⟩
  | symbolIndex | symbolIndex64 | longNames | otherSpecial => exact nomatch h

variable {parent : Path → Path}

variable {offset : ℕ} {member : Member Path}

/-- **What the member of a header is.** -/
theorem memberFromHeader_eq_ok (hheader : archive.headerAt offset = .ok header)
    (h : archive.memberFromHeader parent header = .ok (some member)) :
    member.headerOffset = offset ∧ Regular archive.data member ∧
      (archive.thin = true → member.data = .external (parent archive.path)) ∧
      (archive.thin = false → ∃ start, Contents archive.data member start ∧
        start + member.size = header.dataStart + header.size) := by
  obtain ⟨hoffset, hstart, -, -, hname⟩ := Archive.headerAt_eq_ok hheader
  obtain ⟨raw, hraw, h⟩ := bind_eq_ok.mp h
  split at h
  · exact nomatch Except.ok.inj h
  next hspecial =>
  obtain ⟨named, hnamed, h⟩ := bind_eq_ok.mp h
  obtain ⟨hafter, hend⟩ := resolveName_eq_ok hnamed
  obtain ⟨hindex, hbracketed⟩ := rawName_eq_ok hraw (Bool.not_eq_true _ ▸ hspecial)
  rw [hname] at hindex hbracketed
  split at h
  · exact nomatch Except.ok.inj h
  next hsymdef =>
  have hnotsymdef := isBsdSymdef_eq_none (Option.not_isSome_iff_eq_none.mp hsymdef)
  split at h
  · next hthin =>
    obtain rfl := Option.some.inj (Except.ok.inj h)
    simp only [hoffset]
    exact ⟨trivial, ⟨hindex, hbracketed, hnotsymdef⟩, fun _ => trivial,
      fun hnot => nomatch hthin.symm.trans hnot⟩
  · next hthin =>
    obtain ⟨len, hlen, h⟩ := bind_eq_ok.mp h
    obtain ⟨contents, hcontents, h⟩ := bind_eq_ok.mp h
    obtain ⟨rfl, -⟩ := toUsize_eq_some (okOrElse_eq_ok.mp hlen)
    obtain ⟨-, hinside, rfl, -⟩ := bytes_eq_some (okOrElse_eq_ok.mp hcontents)
    obtain rfl := Option.some.inj (Except.ok.inj h)
    simp only [hoffset]
    refine ⟨trivial, ⟨hindex, hbracketed, hnotsymdef⟩, fun hnot => absurd hnot hthin,
      fun _ => ⟨named.2.1, ⟨rfl, ?_, hinside⟩, hend⟩⟩
    simp only
    omega

/-! ### The walk -/

variable (parent) in
/-- A member that the walk reads at or after an offset. -/
def WalkedFrom (archive : Archive Path) (offset : ℕ) (member : Member Path) : Prop :=
  offset ≤ member.headerOffset ∧ member.headerOffset < archive.data.length ∧
    ∃ header, archive.headerAt member.headerOffset = .ok header ∧
      archive.memberFromHeader parent header = .ok (some member)

/-- A member that the walk reads after another one. -/
def Follows (archive : Archive Path) (member next : Member Path) : Prop :=
  member.headerOffset < next.headerOffset ∧
    (archive.thin = false → ∀ start, Contents archive.data member start →
      start + member.size ≤ next.headerOffset)

theorem memberNext_eq_ok {next : ℕ} (hlt : offset < archive.data.length)
    (h : archive.memberNext parent offset = .ok (some member, next)) :
    WalkedFrom parent archive offset member ∧ offset < next ∧
      ∀ later : Member Path, next ≤ later.headerOffset → Follows archive member later := by
  have hforward := Archive.lt_of_memberNext parent h
  obtain ⟨header, hheader, h⟩ := bind_eq_ok.mp h
  obtain ⟨member', hmember, h⟩ := bind_eq_ok.mp h
  obtain ⟨next', hnext, h⟩ := bind_eq_ok.mp h
  obtain ⟨rfl, rfl⟩ := Prod.mk.inj (Except.ok.inj h)
  obtain ⟨hoffset, -, -, hcontents⟩ := memberFromHeader_eq_ok hheader hmember
  refine ⟨⟨hoffset.ge, hoffset ▸ hlt, header, hoffset ▸ hheader, hmember⟩, hforward,
    fun later hlater => ⟨by omega, fun hthin start hstart => ?_⟩⟩
  obtain ⟨start', hstart', hend⟩ := hcontents hthin
  rw [hthin, Bool.not_false, Bool.true_or] at hnext
  obtain ⟨rfl, -⟩ : start = start' ∧ _ := by
    simpa using hstart.data_eq.symm.trans hstart'.data_eq
  have hle := ((Archive.nextOffset_eq_ok hnext).2 rfl).1
  omega

/-- The members among what the iterator yields. -/
def okItems (items : List (Except (Malformed Path) (Member Path))) : List (Member Path) :=
  items.filterMap Except.toOption

theorem Members.items_of_done {members : Members} (h : members.done = true) :
    members.items parent archive = [] := by
  rw [Members.items]
  split
  · rfl
  · next hnext =>
    rw [Members.next, if_pos h] at hnext
    exact nomatch (Prod.mk.inj hnext).1

variable (parent) in
/-- **One member after the other.** -/
theorem members_walk (archive : Archive Path) (members : Members) :
    (∀ m ∈ okItems (members.items parent archive), WalkedFrom parent archive members.offset m) ∧
      (okItems (members.items parent archive)).Pairwise (Follows archive) ∧
      (members.items parent archive).length ≤ members.remaining archive := by
  fun_induction Members.items parent archive members with
  | case1 members _ hnext => exact ⟨List.forall_mem_nil _, List.Pairwise.nil, Nat.zero_le _⟩
  | case2 members item members' hnext ih =>
    have hless := Members.remaining_next hnext
    obtain ⟨hwalked, hfollows, hlength⟩ := ih
    have hcount : (item :: members'.items parent archive).length ≤ members.remaining archive := by
      rw [List.length_cons]
      omega
    rw [Members.next] at hnext
    split at hnext
    · cases (Prod.mk.inj hnext).1
    split at hnext
    · next member offset hstep =>
      obtain ⟨hitem, rfl⟩ := Prod.mk.inj hnext
      obtain rfl := Option.some.inj hitem
      obtain ⟨at_, hle, hlt, hfound⟩ := Archive.step_eq_ok parent hstep
      obtain ⟨⟨hfrom, hin, hheader⟩, hforward, hlater⟩ := memberNext_eq_ok hlt hfound
      refine ⟨fun m hm => ?_, List.pairwise_cons.mpr ⟨fun m hm => ?_, hfollows⟩, hcount⟩
      · rcases List.mem_cons.mp hm with rfl | hm
        · exact ⟨hle.trans hfrom, hin, hheader⟩
        · obtain ⟨hm, hrest⟩ := hwalked m hm
          exact ⟨(hle.trans hforward.le).trans hm, hrest⟩
      · exact hlater m (hwalked m hm).1
    · cases (Prod.mk.inj hnext).1
    · obtain ⟨hitem, rfl⟩ := Prod.mk.inj hnext
      obtain rfl := Option.some.inj hitem
      rw [Members.items_of_done rfl] at hcount ⊢
      exact ⟨List.forall_mem_nil _, List.Pairwise.nil, hcount⟩

/-! ### Lookup -/

/-- A member that the walk reads is found by its header offset. -/
theorem memberAt_of_walked (h : WalkedFrom parent archive archive.firstMember member) :
    archive.memberAt parent member.headerOffset = .ok member := by
  obtain ⟨hfirst, hlt, header, hheader, hmember⟩ := h
  have hsize := (Archive.headerAt_eq_ok hheader).2.2.1
  have husize : toUsize member.headerOffset = some member.headerOffset :=
    if_pos ((Nat.le_add_right _ _).trans_lt hsize)
  refine bind_eq_ok.mpr ⟨_, okOrElse_eq_ok.mpr husize, ?_⟩
  rw [if_neg (by omega)]
  exact bind_eq_ok.mpr ⟨header, hheader, bind_eq_ok.mpr ⟨some member, hmember, rfl⟩⟩

theorem memberAt_eq_ok (h : archive.memberAt parent offset = .ok member) :
    ∃ header, archive.headerAt offset = .ok header ∧
      archive.memberFromHeader parent header = .ok (some member) := by
  obtain ⟨offset', husize, h⟩ := bind_eq_ok.mp h
  obtain ⟨rfl, -⟩ := toUsize_eq_some (okOrElse_eq_ok.mp husize)
  split at h
  · exact nomatch h
  obtain ⟨header, hheader, h⟩ := bind_eq_ok.mp h
  obtain ⟨found, hfound, h⟩ := bind_eq_ok.mp h
  rw [okOrElse_eq_ok.mp h] at hfound
  exact ⟨header, hheader, hfound⟩

/-! ### The symbol index -/

theorem notMem_take_findNul (bytes : List UInt8) :
    0 ∉ bytes.take ((findNul bytes).getD bytes.length) := by
  intro hmem
  obtain ⟨k, hk, hzero⟩ := List.getElem_of_mem hmem
  rw [List.length_take] at hk
  rw [List.getElem_take] at hzero
  rw [findNul_eq] at hk
  cases hfind : bytes.findIdx? fun b => b == 0 with
  | none =>
    have hnot := List.findIdx?_eq_none_iff.mp hfind _ (List.getElem_mem (by omega : k < bytes.length))
    rw [hzero] at hnot
    exact nomatch hnot
  | some i =>
    rw [hfind, Option.getD_some] at hk
    obtain ⟨_, _, hbefore⟩ := List.findIdx?_eq_some_iff_getElem.mp hfind
    have hnot := hbefore k (by omega)
    rw [hzero] at hnot
    exact hnot rfl

variable {index : SymbolIndex Path}

theorem nameAt_eq_ok {start : ℕ} {name : List UInt8 × ℕ} (h : index.nameAt start = .ok name) :
    0 ∉ name.1 := by
  simp only [SymbolIndex.nameAt] at h
  split at h
  · exact nomatch h
  · split at h
    · exact nomatch h
    · obtain rfl := Except.ok.inj h
      exact notMem_take_findNul _

theorem entry_eq_ok {it : SymbolIter} {found : ArchiveSymbol × ℕ} (h : it.entry index = .ok found) :
    0 ∉ found.1.name := by
  obtain ⟨at_, -, h⟩ := bind_eq_ok.mp h
  cases hkind : index.kind with
  | sysv32 | sysv64 =>
    simp only [hkind] at h
    obtain ⟨member, -, h⟩ := bind_eq_ok.mp h
    obtain ⟨name, hname, h⟩ := bind_eq_ok.mp h
    obtain rfl := Except.ok.inj h
    exact nameAt_eq_ok hname
  | bsd32 bigEndian | bsd64 bigEndian =>
    simp only [hkind] at h
    obtain ⟨strx, -, h⟩ := bind_eq_ok.mp h
    obtain ⟨member, -, h⟩ := bind_eq_ok.mp h
    obtain ⟨start, -, h⟩ := bind_eq_ok.mp h
    obtain ⟨name, hname, h⟩ := bind_eq_ok.mp h
    obtain rfl := Except.ok.inj h
    exact nameAt_eq_ok hname

/-- **What the iterator over an index yields.** -/
theorem symbolIter_items (it : SymbolIter) :
    (it.items index).length ≤ it.remaining index ∧
      ∀ symbol, .ok symbol ∈ it.items index → 0 ∉ symbol.name := by
  fun_induction SymbolIter.items index it with
  | case1 it _ hstep => exact ⟨Nat.zero_le _, by simp⟩
  | case2 it item it' hstep ih =>
    have hless := SymbolIter.remaining_step hstep
    refine ⟨by rw [List.length_cons]; omega, fun symbol hmem => ?_⟩
    rcases List.mem_cons.mp hmem with heq | hmem
    · rw [SymbolIter.step, ← heq] at hstep
      split at hstep
      · cases (Prod.mk.inj hstep).1
      split at hstep
      · next found stringPos hentry =>
        obtain rfl : found = symbol := by simpa using (Prod.mk.inj hstep).1
        exact entry_eq_ok hentry
      · cases Option.some.inj (Prod.mk.inj hstep).1
    · exact ih.2 symbol hmem

/-! ### Archives that parse -/

theorem parseFrom_data {parsed : Archive Path} {kind : Option ArchiveKind}
    (h : archive.parseFrom kind offset = .ok parsed) : parsed.data = archive.data := by
  fun_induction Archive.parseFrom archive kind offset with
  | case1 => exact nomatch h
  | case2 archive kind offset hlt archive' kind' hnext =>
    obtain rfl := Except.ok.inj h
    exact (Archive.parseNext_eq_ok hnext).1
  | case3 archive kind offset hlt archive' kind' next hnext ih =>
    rw [ih h]
    exact (Archive.parseNext_eq_ok hnext).1
  | case4 archive kind offset hlt =>
    obtain rfl := Except.ok.inj h
    rfl

theorem parse_data {path : Path} {data : List UInt8} (h : Archive.parse path data = .ok archive) :
    archive.data = data := by
  simp only [Archive.parse] at h
  split at h
  · exact parseFrom_data h
  · split at h
    · exact parseFrom_data h
    · exact nomatch h

variable (parent) in
/-- The walk, the lookup and the symbol index of an archive agree. -/
structure Consistent (data : List UInt8) (archive : Archive Path) : Prop where
  data_eq : archive.data = data
  members_le : (archive.members parent).length ≤ data.length + 1
  increasing : (okItems (archive.members parent)).Pairwise
    fun a b => a.headerOffset < b.headerOffset
  regular : ∀ m ∈ okItems (archive.members parent), Regular data m
  contents : archive.thin = false → ∀ m ∈ okItems (archive.members parent),
    ∃ start, Contents data m start
  apart : archive.thin = false →
    (okItems (archive.members parent)).Pairwise (MembersApart data)
  memberAt : ∀ m ∈ okItems (archive.members parent),
    archive.memberAt parent m.headerOffset = .ok m
  found : ∀ offset m, archive.memberAt parent offset = .ok m →
    if archive.thin then m.data = .external (parent archive.path) else ∃ start, Contents data m start
  symbols : ∀ index, archive.index = some index → index.symbols.length ≤ index.len ∧
    ∀ symbol, .ok symbol ∈ index.symbols → 0 ∉ symbol.name

/-- **The archive reader is consistent on arbitrary bytes (proved).** -/
theorem parse_consistent (path : Path) (data : List UInt8) (archive : Archive Path)
    (h : Archive.parse path data = .ok archive) : Consistent parent data archive := by
  obtain rfl := parse_data h
  obtain ⟨hwalked, hfollows, hlength⟩ :=
    members_walk parent archive ⟨archive.firstMember, false⟩
  have hof : ∀ {offset : ℕ} {m : Member Path}, WalkedFrom parent archive offset m →
      Regular archive.data m ∧ (archive.thin = false → ∃ start, Contents archive.data m start) := by
    rintro offset m ⟨-, -, header, hheader, hmember⟩
    obtain ⟨-, hregular, -, hcontents⟩ := memberFromHeader_eq_ok hheader hmember
    refine ⟨hregular, fun hthin => ?_⟩
    obtain ⟨start, hstart, -⟩ := hcontents hthin
    exact ⟨start, hstart⟩
  refine ⟨rfl, ?_, hfollows.imp fun hab => hab.1, fun m hm => (hof (hwalked m hm)).1,
    fun hthin m hm => (hof (hwalked m hm)).2 hthin, fun hthin => ?_,
    fun m hm => memberAt_of_walked (hwalked m hm), fun offset m hm => ?_, fun index _ => ?_⟩
  · refine hlength.trans ?_
    rw [Members.remaining, if_neg Bool.false_ne_true]
    exact Nat.succ_le_succ (Nat.sub_le _ _)
  · refine hfollows.imp fun {a b} hab start start' hstart hstart' => ?_
    have hend := hab.2 hthin start hstart
    have hafter := hstart.after
    have hafter' := hstart'.after
    refine ⟨.inl ?_, .inl hend, .inr ?_⟩
    · show start + a.size ≤ start'
      omega
    · show a.headerOffset + HEADER_SIZE ≤ start'
      omega
  · obtain ⟨header, hheader, hmember⟩ := memberAt_eq_ok hm
    obtain ⟨-, -, hexternal, hcontents⟩ := memberFromHeader_eq_ok hheader hmember
    split
    · next hthin => exact hexternal hthin
    · next hthin =>
      obtain ⟨start, hstart, -⟩ := hcontents (Bool.not_eq_true _ ▸ hthin)
      exact ⟨start, hstart⟩
  · exact symbolIter_items ⟨0, 0, false⟩

/-- An archive with a symbol index, a table of long names and two members, one of odd size. -/
def sampleArchive : List UInt8 :=
  MAGIC ++ ascii "/               0           0     0     0       16        `\n" ++
    [0, 0, 0, 2, 0, 0, 0, 162, 0, 0, 0, 226] ++ ascii "f" ++ [0] ++ ascii "g" ++ [0] ++
    ascii "//                                              17        `\na_member_name.o/\n\n" ++
    ascii "/0              0           0     0     644     3         `\nhi!\n" ++
    ascii "b.o/            0           0     0     644     2         `\nok"

theorem parse_consistent_sample :
    ∃ archive, Archive.parse () sampleArchive = .ok archive ∧ Consistent id sampleArchive archive ∧
      okItems (archive.members id) = [⟨ascii "a_member_name.o", 162, 3, .inline 222 (ascii "hi!")⟩,
        ⟨ascii "b.o", 226, 2, .inline 286 (ascii "ok")⟩] := by
  have hparse : Archive.parse () sampleArchive =
      .ok ⟨sampleArchive, (), false, .gnu, some (ascii "a_member_name.o/\n", 144),
        some ⟨.sysv32, (), [0, 0, 0, 162, 0, 0, 0, 226], [102, 0, 103, 0], 80, 2⟩, 162⟩ := by
    decide +kernel
  exact ⟨_, hparse, parse_consistent () sampleArchive _ hparse, by decide +kernel⟩

end Qld.Input
