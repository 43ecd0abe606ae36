import Qld.Elf.EhFrameSpec

/-!
# Splitting unwind sections

The model of `elf/read/eh_frame.rs` and of `split` of `elf/ehframe.rs`: the record boundaries of an
`.eh_frame` section, the CIE that each FDE points to, and which relocations belong to which record.

* `parseOne`, `takeRelocs`, `splitFrom` — one record, its relocations, all records;
* `splitSection` — the records of a section;
* `Split` — a section that is split into records; `Split.wellSplit` — what that gives.
-/

namespace Qld.Elf.EhFrame

open Qld.Lib

/-! ### The model -/

/-- An `.eh_frame` record with the relocations that apply to it. -/
structure Entry where
  offset : ℕ
  size : ℕ
  /-- Section offset of the CIE of an FDE. -/
  cieOffset : Option ℕ
  relocs : ℕ × ℕ
  pcBegin : Option ℕ
  deriving DecidableEq, Repr

/-- A number in the section. -/
def readUint (e : Endian) (data : List UInt8) (pos width : ℕ) : Option ℕ :=
  (getRange data pos (pos + width)).map e.getUint

/-- The size of the length field at `pos`, and the length; no length at a terminator. -/
def parseLength (e : Endian) (data : List UInt8) (pos : ℕ) : Except String (Option (ℕ × ℕ)) := do
  let length ← okOrElse (readUint e data pos 4) ".eh_frame record length (truncated)"
  if length = 0 then return none
  else if length = U32_MAX then
    let ext ← okOrElse (readUint e data (pos + 4) 8) ".eh_frame record length (truncated)"
    return some (12, ext)
  else return some (4, length)

/-- The CIE offset of a record whose CIE pointer is at `idPos`; a CIE has none. -/
def parseKind (idPos id : ℕ) : Except String (Option ℕ) :=
  if id = 0 then .ok none
  else if id ≤ idPos then .ok (some (idPos - id))
  else .error ".eh_frame CIE pointer (out of range)"

/-- Parses the record at `pos`: its size, its length field's size and its CIE offset.  There is
none at a terminator. -/
def parseOne (e : Endian) (data : List UInt8) (pos : ℕ) :
    Except String (Option (ℕ × ℕ × Option ℕ)) := do
  match ← parseLength e data pos with
  | none => return none
  | some (lengthSize, length) =>
    if length < 4 then .error ".eh_frame record length (too short)"
    else if 2 ^ 64 ≤ pos + lengthSize + length then .error ".eh_frame record length"
    else if data.length < pos + lengthSize + length then
      .error ".eh_frame record (extends past end of section)"
    else
      let id ← okOrElse (readUint e data (pos + lengthSize) 4) ".eh_frame record"
      let kind ← parseKind (pos + lengthSize) id
      return some (lengthSize + length, lengthSize, kind)

/-- Where the relocations of a record end: those that remain, the last offset, the next index and
the relocation of `pc_begin`. -/
structure RelocCursor where
  rest : List (ℕ × ℕ)
  last : ℕ
  next : ℕ
  pcBegin : Option ℕ
  deriving DecidableEq, Repr

/-- Takes the relocations of a record from `start` to `stop`; `pcBegin` is the offset of the field
that names the function, if the record is an FDE. -/
def takeRelocs (start stop : ℕ) (pcBegin : Option ℕ) :
    List (ℕ × ℕ) → ℕ → ℕ → Option ℕ → Except String RelocCursor
  | [], last, next, found => .ok ⟨[], last, next, found⟩
  | (index, offset) :: rest, last, next, found =>
    if stop ≤ offset then .ok ⟨(index, offset) :: rest, last, next, found⟩
    else if offset < last then .error ".eh_frame relocations (not sorted)"
    else if offset < start then .error ".eh_frame relocation (outside any record)"
    else
      takeRelocs start stop pcBegin rest offset (index + 1)
        (if pcBegin = some offset ∧ found = none then some index else found)

/-- The records from `pos` on, and the relocations after them. -/
def splitFrom (e : Endian) (data : List UInt8) :
    ℕ → ℕ → List (ℕ × ℕ) → ℕ → ℕ → Except String (List Entry × List (ℕ × ℕ))
  | 0, _, relocs, _, _ => .ok ([], relocs)
  | fuel + 1, pos, relocs, last, next =>
    if data.length ≤ pos then .ok ([], relocs)
    else do
      match ← parseOne e data pos with
      | none => return ([], relocs)
      | some (size, lengthSize, cieOffset) =>
        let pcBegin := cieOffset.map fun _ => pos + lengthSize + 4
        let cursor ← takeRelocs pos (pos + size) pcBegin relocs last next none
        let more ← splitFrom e data fuel (pos + size) cursor.rest cursor.last cursor.next
        return (⟨pos, size, cieOffset, (next, cursor.next), cursor.pcBegin⟩ :: more.1, more.2)

/-- `u32::try_from(v).unwrap_or(u32::MAX)`. -/
def toU32 (v : ℕ) : ℕ := min v U32_MAX

/-- The record of an entry; the CIE of an FDE is the one at its offset. -/
def toRecord (entries : List Entry) (x : Entry) : Except String Record := do
  let record : Record := ⟨toU32 x.offset, toU32 x.size, none, (toU32 x.relocs.1, toU32 x.relocs.2),
    x.pcBegin.map toU32, false, 0, none⟩
  match x.cieOffset with
  | none => return record
  | some cieOffset =>
    let cie ← okOrElse (entries.findIdx? fun y => y.cieOffset = none ∧ y.offset = cieOffset)
      ".eh_frame FDE (CIE pointer does not name a CIE)"
    return { record with cie := some (toU32 cie) }

/-- Splits an `.eh_frame` section into records. -/
def splitSection (e : Endian) (id file : ℕ) (data : List UInt8) (rela : Bool)
    (relocs : List Relocation) : Except String EhSection := do
  let offsets := relocs.zipIdx.map fun rel => (rel.2, rel.1.offset)
  let entries ← splitFrom e data data.length 0 offsets 0 0
  if entries.2 ≠ [] then .error ".eh_frame relocation (outside any record)"
  else
    let records ← entries.1.mapM (toRecord entries.1)
    return ⟨id, file, data, rela, relocs, records, 0⟩

/-- The entries of a section. -/
def entriesOf (e : Endian) (s : EhSection) : List Entry :=
  match splitFrom e s.data s.data.length 0
    (s.relocs.zipIdx.map fun rel => (rel.2, rel.1.offset)) 0 0 with
  | .ok entries => entries.1
  | .error _ => []

/-- A section that is split into records: they are its entries, and no number of these is too large
for its `u32`. -/
def Split (e : Endian) (s : EhSection) : Prop :=
  splitSection e s.id s.file s.data s.rela s.relocs = .ok s ∧
    s.records.map (fun r => (r.offset, r.size, r.relocs, r.pcBegin)) =
      (entriesOf e s).map fun x => (x.offset, x.size, x.relocs, x.pcBegin)

instance (e : Endian) (s : EhSection) : Decidable (Split e s) := inferInstanceAs (Decidable (_ ∧ _))

/-! ### Relocations of a record -/

variable {stop pos width : ℕ}

/-- **The relocations that a record takes lie inside it.** -/
theorem takeRelocs_spec {start : ℕ} {pcBegin : Option ℕ} (l : List (ℕ × ℕ)) :
    ∀ {last next : ℕ} {found : Option ℕ} {cursor : RelocCursor},
      (∀ k x, l[k]? = some x → x.1 = next + k) →
      takeRelocs start stop pcBegin l last next found = .ok cursor →
      (∃ m, cursor.rest = l.drop m ∧ cursor.next = next + m ∧
        ∀ k < m, ∀ x, l[k]? = some x → start ≤ x.2 ∧ x.2 < stop) ∧
        (pcBegin = none → found = none → cursor.pcBegin = none) := by
  induction l with
  | nil =>
    intro last next found cursor _ h
    obtain rfl := Except.ok.inj h
    exact ⟨⟨0, rfl, rfl, fun k hk => absurd hk (Nat.not_lt_zero k)⟩, fun _ h => h⟩
  | cons x l ih =>
    obtain ⟨index, offset⟩ := x
    intro last next found cursor hindex h
    rw [takeRelocs] at h
    split at h
    · obtain rfl := Except.ok.inj h
      exact ⟨⟨0, rfl, rfl, fun k hk => absurd hk (Nat.not_lt_zero k)⟩, fun _ h => h⟩
    split at h
    · exact nomatch h
    split at h
    · exact nomatch h
    · next hstop hlast hstart =>
      have hhead : index = next := hindex 0 (index, offset) rfl
      have hrest : ∀ k x, l[k]? = some x → x.1 = index + 1 + k := by
        intro k x hx
        have := hindex (k + 1) x hx
        omega
      obtain ⟨⟨m, hm, hnext, hall⟩, hnone⟩ := ih hrest h
      refine ⟨⟨m + 1, hm, by omega, ?_⟩, ?_⟩
      · intro k hk x hx
        cases k with
        | zero =>
          obtain rfl := Option.some.inj hx
          exact ⟨by omega, by omega⟩
        | succ k => exact hall k (by omega) x hx
      · intro hpc hfound
        refine hnone hpc ?_
        rw [hpc, if_neg (by simp), hfound]

/-! ### Records -/

/-- What is known of an entry of a section. -/
structure EntryOk (e : Endian) (data : List UInt8) (offsets : List ℕ) (x : Entry) : Prop where
  inside : x.offset + x.size ≤ data.length
  length : ∀ bytes, getRange data x.offset (x.offset + x.size) = some bytes →
    lengthSize bytes + 4 ≤ x.size ∧ ∀ c ∈ x.cieOffset, c < x.offset + lengthSize bytes
  cie : x.cieOffset = none → x.pcBegin = none
  relocs : ∀ index, x.relocs.1 ≤ index → index < x.relocs.2 → ∀ o, offsets[index]? = some o →
    x.offset ≤ o ∧ o < x.offset + x.size

variable {e : Endian} {data : List UInt8}

theorem readUint_eq_some {value : ℕ} (h : readUint e data pos width = some value) :
    pos + width ≤ data.length ∧ value = e.getUint ((data.drop pos).take width) := by
  obtain ⟨bytes, hbytes, rfl⟩ := Option.map_eq_some_iff.mp h
  rw [getRange, Option.ite_none_right_eq_some] at hbytes
  obtain ⟨⟨-, hlen⟩, hbytes⟩ := hbytes
  obtain rfl := Option.some.inj hbytes
  rw [Nat.add_sub_cancel_left]
  exact ⟨hlen, rfl⟩

/-- The size of the length field that was read is the one that the writer finds. -/
theorem parseLength_spec {length : ℕ} (h : parseLength e data pos = .ok (some (width, length))) :
    width = lengthSize (data.drop pos) := by
  obtain ⟨first, hfirst, h⟩ := bind_eq_ok.mp h
  obtain ⟨hlen, hvalue⟩ := readUint_eq_some (okOrElse_eq_ok.mp hfirst)
  have hfour : ((data.drop pos).take 4).length = 4 := by
    rw [List.length_take, List.length_drop]
    omega
  have hmax := Endian.getUint_eq_max (e := e) hfour
  rw [← hvalue] at hmax
  rw [lengthSize]
  split at h
  · exact nomatch Except.ok.inj h
  split at h
  · next hones =>
    obtain ⟨ext, -, h⟩ := bind_eq_ok.mp h
    rw [if_pos (hmax.mp hones)]
    exact (Prod.mk.inj (Option.some.inj (Except.ok.inj h))).1.symm
  · next hones =>
    rw [if_neg fun hall => hones (hmax.mpr hall)]
    exact (Prod.mk.inj (Option.some.inj (Except.ok.inj h))).1.symm

theorem lengthSize_take {bytes : List UInt8} {n : ℕ} (hn : 4 ≤ n) :
    lengthSize (bytes.take n) = lengthSize bytes := by
  rw [lengthSize, lengthSize, List.take_take, Nat.min_eq_left hn]

/-- **A parsed record.** -/
theorem parseOne_spec {size : ℕ} {cie : Option ℕ}
    (h : parseOne e data pos = .ok (some (size, width, cie))) :
    pos + size ≤ data.length ∧ width = lengthSize (data.drop pos) ∧ width + 4 ≤ size ∧
      ∀ c ∈ cie, c < pos + width := by
  obtain ⟨parsed, hparsed, h⟩ := bind_eq_ok.mp h
  cases parsed with
  | none => exact nomatch Except.ok.inj h
  | some x =>
    obtain ⟨width', length⟩ := x
    have hwidth := parseLength_spec hparsed
    dsimp only at h
    split at h
    · exact nomatch h
    split at h
    · exact nomatch h
    split at h
    · exact nomatch h
    · next hshort _ hlen =>
      obtain ⟨id, -, h⟩ := bind_eq_ok.mp h
      obtain ⟨kind, hkind, h⟩ := bind_eq_ok.mp h
      obtain ⟨rfl, hrest⟩ := Prod.mk.inj (Option.some.inj (Except.ok.inj h))
      obtain ⟨rfl, rfl⟩ := Prod.mk.inj hrest
      refine ⟨by omega, hwidth, by omega, fun c hc => ?_⟩
      rw [parseKind] at hkind
      split at hkind
      · rw [← Except.ok.inj hkind] at hc
        exact nomatch hc
      split at hkind
      · next hzero _ =>
        rw [← Except.ok.inj hkind, Option.mem_some_iff] at hc
        omega
      · exact nomatch hkind

variable {offsets : List ℕ}

/-- **The records of a section follow one another.**  The relocations are those of the
section from `next` on. -/
theorem splitFrom_spec (fuel : ℕ) :
    ∀ {pos : ℕ} {relocs : List (ℕ × ℕ)} {last next : ℕ} {entries : List Entry}
      {rest : List (ℕ × ℕ)}, pos ≤ data.length →
      relocs = (offsets.zipIdx.map fun o => (o.2, o.1)).drop next →
      splitFrom e data fuel pos relocs last next = .ok (entries, rest) →
      (∃ stop ≤ data.length, Tiles pos stop (entries.map fun x => (x.offset, x.size))) ∧
        ∀ x ∈ entries, EntryOk e data offsets x := by
  induction fuel with
  | zero =>
    intro pos relocs last next entries rest hpos _ h
    obtain ⟨rfl, rfl⟩ := Prod.mk.inj (Except.ok.inj h)
    exact ⟨⟨pos, hpos, rfl⟩, fun x hx => absurd hx List.not_mem_nil⟩
  | succ fuel ih =>
    intro pos relocs last next entries rest hpos hrelocs h
    rw [splitFrom] at h
    split at h
    · obtain ⟨rfl, rfl⟩ := Prod.mk.inj (Except.ok.inj h)
      exact ⟨⟨pos, hpos, rfl⟩, fun x hx => absurd hx List.not_mem_nil⟩
    obtain ⟨parsed, hparsed, h⟩ := bind_eq_ok.mp h
    cases parsed with
    | none =>
      obtain ⟨rfl, rfl⟩ := Prod.mk.inj (Except.ok.inj h)
      exact ⟨⟨pos, hpos, rfl⟩, fun x hx => absurd hx List.not_mem_nil⟩
    | some x =>
      obtain ⟨size, width, cie⟩ := x
      obtain ⟨cursor, hcursor, h⟩ := bind_eq_ok.mp h
      obtain ⟨more, hmore, h⟩ := bind_eq_ok.mp h
      obtain ⟨rfl, rfl⟩ := Prod.mk.inj (Except.ok.inj h)
      obtain ⟨hend, hwidth, hlength, hcie⟩ := parseOne_spec hparsed
      have hindex : ∀ (k : ℕ) (x : ℕ × ℕ), relocs[k]? = some x →
          x.1 = next + k ∧ offsets[next + k]? = some x.2 := by
        intro k x hx
        rw [hrelocs, List.getElem?_drop, List.getElem?_map, List.getElem?_zipIdx] at hx
        cases ho : offsets[next + k]? with
        | none =>
          rw [ho] at hx
          exact nomatch hx
        | some o =>
          rw [ho] at hx
          obtain rfl := Option.some.inj hx
          exact ⟨Nat.zero_add _, rfl⟩
      obtain ⟨⟨m, hm, hnext, hall⟩, hnone⟩ :=
        takeRelocs_spec relocs (fun k x hx => (hindex k x hx).1) hcursor
      have hrest : cursor.rest =
          (offsets.zipIdx.map fun o => (o.2, o.1)).drop cursor.next := by
        rw [hm, hrelocs, List.drop_drop, hnext]
      obtain ⟨⟨stop, hstop, htiles⟩, hmoreOk⟩ := ih hend hrest hmore
      refine ⟨⟨stop, hstop, rfl, htiles⟩, ?_⟩
      refine List.forall_mem_cons.mpr ⟨⟨hend, ?_, ?_, ?_⟩, hmoreOk⟩
      · intro bytes (hbytes : getRange data pos (pos + size) = some bytes)
        show lengthSize bytes + 4 ≤ size ∧ ∀ c ∈ cie, c < pos + lengthSize bytes
        rw [getRange, Option.ite_none_right_eq_some] at hbytes
        obtain rfl := Option.some.inj hbytes.2
        rw [Nat.add_sub_cancel_left, lengthSize_take (by omega), ← hwidth]
        exact ⟨hlength, hcie⟩
      · intro (hcie : cie = none)
        exact hnone (by rw [hcie]; rfl) rfl
      · intro index hle hlt o ho
        change next ≤ index at hle
        change index < cursor.next at hlt
        have hget : relocs[index - next]? = some (index, o) := by
          rw [hrelocs, List.getElem?_drop, List.getElem?_map, List.getElem?_zipIdx,
            Nat.add_sub_cancel' hle, ho]
          simp
        exact hall (index - next) (by omega) _ hget

/-! ### The section -/

theorem toU32_le (v : ℕ) : toU32 v ≤ U32_MAX := Nat.min_le_right v _

/-- What the record of an entry is. -/
structure RecordOf (entries : List Entry) (x : Entry) (r : Record) : Prop where
  offset : r.offset = toU32 x.offset
  size : r.size = toU32 x.size
  relocs : r.relocs = (toU32 x.relocs.1, toU32 x.relocs.2)
  pcBegin : r.pcBegin = x.pcBegin.map toU32
  fresh : r.live = false ∧ r.canonical = none
  cie : match x.cieOffset with
    | none => r.cie = none
    | some o => ∃ c, entries.findIdx? (fun y => y.cieOffset = none ∧ y.offset = o) = some c ∧
        r.cie = some (toU32 c)

variable {entries : List Entry} {x : Entry} {r : Record}

theorem toRecord_spec (h : toRecord entries x = .ok r) : RecordOf entries x r := by
  rw [toRecord] at h
  dsimp only at h
  cases hx : x.cieOffset with
  | none =>
    rw [hx] at h
    obtain rfl := Except.ok.inj h
    exact ⟨rfl, rfl, rfl, rfl, ⟨rfl, rfl⟩, by rw [hx]⟩
  | some o =>
    rw [hx] at h
    obtain ⟨c, hc, h⟩ := bind_eq_ok.mp h
    obtain rfl := Except.ok.inj h
    exact ⟨rfl, rfl, rfl, rfl, ⟨rfl, rfl⟩, by rw [hx]; exact ⟨c, okOrElse_eq_ok.mp hc, rfl⟩⟩

theorem tiles_getElem? (l : List (ℕ × ℕ)) (hpos : ∀ x ∈ l, 0 < x.2) :
    ∀ start, Tiles start stop l → ∀ k x, l[k]? = some x → start + k ≤ x.1 ∧
      ∀ m y, k < m → l[m]? = some y → x.1 + x.2 ≤ y.1 := by
  induction l with
  | nil => exact fun start _ k x hx => nomatch hx
  | cons z l ih =>
    rintro start ⟨rfl, hrest⟩ k x hx
    have hz := hpos z List.mem_cons_self
    have ih := ih (fun y hy => hpos y (List.mem_cons_of_mem _ hy)) _ hrest
    cases k with
    | zero =>
      obtain rfl := Option.some.inj hx
      refine ⟨le_rfl, fun m y hm hy => ?_⟩
      cases m with
      | zero => exact absurd hm (Nat.lt_irrefl 0)
      | succ m =>
        have := (ih m y hy).1
        omega
    | succ k =>
      obtain ⟨hle, hnext⟩ := ih k x hx
      refine ⟨by omega, fun m y hm hy => ?_⟩
      cases m with
      | zero => exact absurd hm (by omega)
      | succ m => exact hnext m y (by omega) hy

theorem fde_wellSplit {records : List Record} {j c : ℕ} (hsmall : ∀ x ∈ entries, x.offset ≤ U32_MAX)
    (htiles : Tiles 0 stop (entries.map fun x => (x.offset, x.size)))
    (hok : ∀ x ∈ entries, EntryOk e data offsets x)
    (hall : List.Forall₂ (fun x r => toRecord entries x = .ok r) entries records)
    (hx : entries[j]? = some x) (hxok : EntryOk e data offsets x) (hrec : RecordOf entries x r)
    (hc : r.cie = some c) : c < j ∧ ∃ d, records[c]? = some d ∧ d.cie = none := by
  have hbytes : ∀ x, EntryOk e data offsets x →
      ∃ bytes, getRange data x.offset (x.offset + x.size) = some bytes := by
    intro x hx
    exact ⟨_, if_pos ⟨Nat.le_add_right _ _, hx.inside⟩⟩
  have hsizes : ∀ y ∈ entries.map fun x => (x.offset, x.size), 0 < y.2 := by
    intro y hy
    obtain ⟨x, hx, rfl⟩ := List.mem_map.mp hy
    obtain ⟨bytes, hb⟩ := hbytes x (hok x hx)
    have := ((hok x hx).length bytes hb).1
    show 0 < x.size
    omega
  have horder := tiles_getElem? _ hsizes 0 htiles
  have hkind := hrec.cie
  cases hx' : x.cieOffset with
  | none =>
    rw [hx', hc] at hkind
    exact nomatch hkind
  | some o =>
    rw [hx', hc] at hkind
    obtain ⟨idx, hidx, hcidx⟩ := hkind
    obtain ⟨hlt, hpred, -⟩ := List.findIdx?_eq_some_iff_getElem.mp hidx
    rw [decide_eq_true_eq] at hpred
    have hget : entries[idx]? = some entries[idx] := List.getElem?_eq_getElem hlt
    have hplace : (entries.map fun x => (x.offset, x.size))[idx]? =
        some (entries[idx].offset, entries[idx].size) := by
      rw [List.getElem?_map, hget, Option.map_some]
    have hfar := horder idx _ hplace
    have hsmall := hsmall _ (List.getElem_mem hlt)
    obtain ⟨bytes, hb⟩ := hbytes x hxok
    obtain ⟨hlength, hcie⟩ := hxok.length bytes hb
    have hbefore := hcie o hx'
    obtain rfl : c = idx := by
      rw [Option.some.inj hcidx, toU32, Nat.min_eq_left]
      have := hfar.1
      dsimp only at this
      omega
    refine ⟨?_, ?_⟩
    · -- the CIE starts before the end of the FDE, and is no FDE
      by_contra hge
      rcases Nat.lt_or_eq_of_le (Nat.le_of_not_lt hge) with hjc | rfl
      · have hplace' : (entries.map fun x => (x.offset, x.size))[j]? = some (x.offset, x.size) := by
          rw [List.getElem?_map, hx, Option.map_some]
        have := (horder j _ hplace').2 c _ hjc hplace
        dsimp only at this
        omega
      · rw [hx] at hget
        rw [← Option.some.inj hget, hx'] at hpred
        exact nomatch hpred.1
    · have hlt' : c < records.length := hall.length_eq ▸ hlt
      obtain ⟨y, hy, hyr⟩ := getElem?_of_forall₂ hall c _ (List.getElem?_eq_getElem hlt')
      refine ⟨_, List.getElem?_eq_getElem hlt', ?_⟩
      have hycie := (toRecord_spec hyr).cie
      obtain rfl := Option.some.inj (hget.symm.trans hy)
      rw [hpred.1] at hycie
      exact hycie

/-- **What splitting a section gives.** -/
theorem Split.wellSplit {s : EhSection} (hs : Split e s) : WellSplit s := by
  obtain ⟨h, hexact⟩ := hs
  obtain ⟨⟨entries, rest⟩, hentries, h⟩ := bind_eq_ok.mp h
  have hof : entriesOf e s = entries := by rw [entriesOf, hentries]
  dsimp only at h
  split at h
  · exact nomatch h
  obtain ⟨records, hrecords, h⟩ := bind_eq_ok.mp h
  have hsame : s.records = records := by rw [← Except.ok.inj h]
  rw [hof] at hexact
  have hoffsets : (s.relocs.zipIdx.map fun rel => (rel.2, rel.1.offset)) =
      ((s.relocs.map Relocation.offset).zipIdx.map fun o => (o.2, o.1)).drop 0 := by
    rw [List.drop_zero, List.zipIdx_map, List.map_map]
    rfl
  obtain ⟨⟨stop, hstop, htiles⟩, hok⟩ := splitFrom_spec _ (Nat.zero_le _) hoffsets hentries
  have hall := mapM_eq_ok.mp hrecords
  rw [← hsame] at hall
  -- the record at an index, with its entry
  have hat : ∀ (j : ℕ) (r : Record), s.records[j]? = some r →
      ∃ x, entries[j]? = some x ∧ RecordOf entries x r ∧ EntryOk e s.data
        (s.relocs.map Relocation.offset) x ∧ r.offset = x.offset ∧ r.size = x.size := by
    intro j r hr
    obtain ⟨x, hx, hrec⟩ := getElem?_of_forall₂ hall j r hr
    have hfields := congrArg (fun l : List (ℕ × ℕ × (ℕ × ℕ) × Option ℕ) => l[j]?) hexact
    rw [List.getElem?_map, List.getElem?_map, hr, hx] at hfields
    obtain ⟨hoffset, hfields⟩ := Prod.mk.inj (Option.some.inj hfields)
    exact ⟨x, hx, toRecord_spec hrec, hok x (List.mem_of_getElem? hx), hoffset,
      (Prod.mk.inj hfields).1⟩
  have hmem : ∀ r ∈ s.records, ∃ x ∈ entries, RecordOf entries x r ∧ EntryOk e s.data
      (s.relocs.map Relocation.offset) x ∧ r.offset = x.offset ∧ r.size = x.size := by
    intro r hr
    obtain ⟨j, hj⟩ := List.getElem?_of_mem hr
    obtain ⟨x, hx, hrest⟩ := hat j r hj
    exact ⟨x, List.mem_of_getElem? hx, hrest⟩
  have hplaces : s.records.map (fun r => (r.offset, r.size)) =
      entries.map fun x => (x.offset, x.size) := by
    have h := congrArg (List.map fun x : ℕ × ℕ × (ℕ × ℕ) × Option ℕ => (x.1, x.2.1)) hexact
    rw [List.map_map, List.map_map] at h
    exact h
  have hsmall : ∀ r ∈ s.records, r.offset ≤ U32_MAX ∧ r.size ≤ U32_MAX := by
    intro r hr
    obtain ⟨x, -, hrec, -⟩ := hmem r hr
    rw [hrec.offset, hrec.size]
    exact ⟨toU32_le _, toU32_le _⟩
  have hentry : ∀ x ∈ entries, x.offset ≤ U32_MAX := by
    intro x hx
    obtain ⟨r, hr, heq⟩ := List.mem_map.mp (hplaces.symm ▸ List.mem_map_of_mem
      (f := fun x : Entry => (x.offset, x.size)) hx)
    rw [← (Prod.mk.inj heq).1]
    exact (hsmall r hr).1
  refine ⟨hsmall, ⟨stop, hstop, ?_⟩, ?_, ?_, ?_, ?_, ?_⟩
  · rw [hplaces]
    exact htiles
  · intro r hr bytes hbytes
    obtain ⟨x, -, -, hx, hoffset, hsize⟩ := hmem r hr
    rw [EhSection.bytes, hoffset, hsize] at hbytes
    rw [hsize]
    exact (hx.length bytes hbytes).1
  · intro j r c hr hc
    obtain ⟨x, hx, hrec, hxok, -, -⟩ := hat j r hr
    exact fde_wellSplit hentry htiles hok hall hx hxok hrec hc
  · intro r hr hcie
    obtain ⟨x, -, hrec, hx, -, -⟩ := hmem r hr
    have hkind := hrec.cie
    cases hx' : x.cieOffset with
    | none => rw [hrec.pcBegin, hx.cie hx', Option.map_none]
    | some o =>
      rw [hx'] at hkind
      obtain ⟨c, -, hc⟩ := hkind
      rw [hcie] at hc
      exact nomatch hc
  · intro r hr index hle hlt rel hrel
    obtain ⟨x, -, hrec, hx, hoffset, hsize⟩ := hmem r hr
    rw [hrec.relocs] at hle hlt
    rw [hoffset, hsize]
    have hrange : x.relocs.1 ≤ index ∧ index < x.relocs.2 := by
      change min x.relocs.1 U32_MAX ≤ index at hle
      change index < min x.relocs.2 U32_MAX at hlt
      omega
    refine hx.relocs index hrange.1 hrange.2 rel.offset ?_
    rw [List.getElem?_map]
    exact congrArg (Option.map Relocation.offset) hrel
  · intro r hr
    obtain ⟨x, -, hrec, -⟩ := hmem r hr
    exact hrec.fresh

end Qld.Elf.EhFrame
