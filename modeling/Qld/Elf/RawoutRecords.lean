import Qld.Elf.RawoutPieces
import Qld.Elf.RawoutRead
import Qld.Lib.LittleEndian

/-!
# The records of a raw output

* `ihexRebase_spec`, `ihexData_spec` — what one change of the base, and the records of
  some data, stand for;
* `ihex_spec` — an Intel HEX text is read back, and stores what the pieces store;
* `srec_spec` — so is an S-record text, when the addresses fit;
* `rawFormats_same_memory` — the three formats describe the same memory.
-/

namespace Qld.Elf

open Qld.Lib

/-! ### Bases -/

/-- The bases that the writer can reach: on 64 KiB, one of them zero. -/
structure IhexBase.Ok (base : IhexBase) : Prop where
  seg : base.segbase % 0x10000 = 0
  segLe : base.segbase ≤ 0xf0000
  ext : base.extbase % 0x10000 = 0
  extLe : base.extbase ≤ 0xffff0000
  one : base.segbase = 0 ∨ base.extbase = 0

/-- A record of data or of a base: valid, and inside the 64 KiB of its base. -/
structure IhexRecord.Body (r : IhexRecord) : Prop where
  valid : r.Valid
  kind : r.kind = 0 ∨ r.kind = 2 ∨ r.kind = 4
  within : r.kind = 0 → r.address + r.data.length ≤ 0x10000

variable {value start : ℕ}

theorem u16OrZero_of_lt (h : value < 2 ^ 16) : u16OrZero value = value := if_pos h

variable {kind : UInt8}

theorem body_base (hkind : kind = 2 ∨ kind = 4) (value : ℕ) :
    IhexRecord.Body ⟨0, kind, beBytes 2 value⟩ := by
  have hlen : (beBytes 2 value).length = 2 := length_beBytes 2 value
  refine ⟨⟨Nat.two_pow_pos 16, ?_, ?_⟩, .inr hkind, ?_⟩
  · show (beBytes 2 value).length ≤ 255
    omega
  · show ihexLengthOk kind (beBytes 2 value).length = true
    rw [hlen]
    rcases hkind with rfl | rfl <;> rfl
  · intro (hzero : kind = 0)
    rw [hzero] at hkind
    exact absurd hkind (by decide)

theorem beValue_u16OrZero (h : value < 2 ^ 16) :
    beValue (beBytes 2 (u16OrZero value)) = value := by
  rw [u16OrZero_of_lt h, beValue_beBytes]
  exact Nat.mod_eq_of_lt h

section

variable (exclusive : Bool) (base : IhexBase) (data : List UInt8) (rest : List IhexRecord)

include exclusive base data rest

theorem ihexStores_seg :
    ihexStores exclusive base (⟨0, 2, data⟩ :: rest) =
      ihexStores exclusive ⟨beValue data * 16, if exclusive then 0 else base.extbase⟩ rest := rfl

theorem ihexStores_ext :
    ihexStores exclusive base (⟨0, 4, data⟩ :: rest) =
      ihexStores exclusive ⟨if exclusive then 0 else base.segbase, beValue data * 65536⟩ rest := rfl

theorem ihexStores_reset :
    ihexStores exclusive base (ihexReset base ++ ⟨0, 4, data⟩ :: rest) =
      ihexStores exclusive ⟨0, beValue data * 65536⟩ rest := by
  rw [ihexReset]
  split
  · rw [List.singleton_append, ihexStores_seg, ihexStores_ext]
    congr 2
    exact ite_self 0
  · next hseg =>
    rw [not_not] at hseg
    rw [List.nil_append, ihexStores_ext, hseg]
    congr 2
    exact ite_self 0

end

/-- What a change of the base does: the new base reaches the address, and a reader follows it. -/
structure Rebased (base : IhexBase) (address : ℕ) (moved : List IhexRecord) (next : IhexBase) :
    Prop where
  ok : next.Ok
  le : next.segbase + next.extbase ≤ address
  reach : address ≤ next.segbase + next.extbase + 0xffff
  body : ∀ r ∈ moved, r.Body
  stores : ∀ exclusive rest,
    ihexStores exclusive base (moved ++ rest) = ihexStores exclusive next rest

variable {base : IhexBase} {address : ℕ}

theorem rebased_seg (hext : base.extbase = 0) (haddress : address ≤ 0xfffff) :
    Rebased base address [⟨0, 2, beBytes 2 (u16OrZero ((address &&& 0xf0000) >>> 4))⟩]
      ⟨address &&& 0xf0000, base.extbase⟩ := by
  have hmask : address &&& 0xf0000 = address / 0x10000 % 16 * 0x10000 := land_mask address 4 16
  have hshift : (address &&& 0xf0000) >>> 4 = address / 0x10000 % 16 * 0x1000 := by
    rw [hmask, Nat.shiftRight_eq_div_pow]
    omega
  refine ⟨⟨?_, ?_, ?_, ?_, .inr hext⟩, ?_, ?_, ?_, ?_⟩
  · show (address &&& 0xf0000) % 0x10000 = 0
    omega
  · show address &&& 0xf0000 ≤ 0xf0000
    omega
  · show base.extbase % 0x10000 = 0
    omega
  · show base.extbase ≤ 0xffff0000
    omega
  · show (address &&& 0xf0000) + base.extbase ≤ address
    omega
  · show address ≤ (address &&& 0xf0000) + base.extbase + 0xffff
    omega
  · intro r hr
    rw [List.mem_singleton.mp hr]
    exact body_base (.inl rfl) _
  · intro exclusive rest
    rw [List.singleton_append, ihexStores_seg, beValue_u16OrZero (by omega), hshift, hmask, hext]
    congr 2
    · omega
    · exact ite_self 0

theorem rebased_ext (hreach : address ≤ (address &&& 0xffff0000) + 0xffff) :
    Rebased base address
      (ihexReset base ++ [⟨0, 4, beBytes 2 (u16OrZero ((address &&& 0xffff0000) >>> 16))⟩])
      ⟨0, address &&& 0xffff0000⟩ := by
  have hmask : address &&& 0xffff0000 = address / 0x10000 % 0x10000 * 0x10000 :=
    land_mask address 16 16
  have hshift : (address &&& 0xffff0000) >>> 16 = address / 0x10000 % 0x10000 := by
    rw [hmask, Nat.shiftRight_eq_div_pow]
    omega
  refine ⟨⟨rfl, Nat.zero_le _, ?_, ?_, .inl rfl⟩, ?_, ?_, ?_, ?_⟩
  · show (address &&& 0xffff0000) % 0x10000 = 0
    omega
  · show address &&& 0xffff0000 ≤ 0xffff0000
    omega
  · show 0 + (address &&& 0xffff0000) ≤ address
    omega
  · show address ≤ 0 + (address &&& 0xffff0000) + 0xffff
    omega
  · intro r hr
    rcases List.mem_append.mp hr with hr | hr
    · rw [ihexReset] at hr
      split at hr
      · rw [List.mem_singleton.mp hr]
        exact body_base (.inl rfl) 0
      · exact absurd hr List.not_mem_nil
    · rw [List.mem_singleton.mp hr]
      exact body_base (.inr rfl) _
  · intro exclusive rest
    rw [List.append_assoc, List.singleton_append, ihexStores_reset, beValue_u16OrZero (by omega),
      hshift]
    congr 2
    omega

/-- **A change of the base.** -/
theorem ihexRebase_spec (hbase : base.Ok) (haddress : address < 2 ^ 64) {moved : List IhexRecord}
    {next : IhexBase} (h : ihexRebase base address = .ok (moved, next)) :
    Rebased base address moved next := by
  rw [ihexRebase] at h
  split at h
  · split at h
    · next hseg =>
      obtain ⟨rfl, rfl⟩ := Prod.mk.inj (Except.ok.inj h)
      exact rebased_seg hseg.1 hseg.2
    · dsimp only at h
      split at h
      · exact nomatch h
      · next hrange =>
        obtain ⟨rfl, rfl⟩ := Prod.mk.inj (Except.ok.inj h)
        have hmask : address &&& 0xffff0000 = address / 0x10000 % 0x10000 * 0x10000 :=
          land_mask address 16 16
        rw [wrappingAdd_of_lt (by omega)] at hrange
        exact rebased_ext (by omega)
  · next hin =>
    obtain ⟨rfl, rfl⟩ := Prod.mk.inj (Except.ok.inj h)
    rw [not_or, not_or] at hin
    obtain ⟨hle, hseg, hreach⟩ := hin
    rw [wrappingSub_of_le (by omega) haddress] at hseg hreach
    rw [wrappingSub_of_le (by omega) (by omega)] at hreach
    refine ⟨hbase, by omega, by omega, fun r hr => absurd hr List.not_mem_nil, fun _ _ => rfl⟩

/-! ### Data -/

/-- **The next data record.**  It takes a byte at least, and stays inside the 64 KiB of the
base. -/
theorem ihexChunk_spec (hbase : base.Ok) {data : List UInt8}
    (hle : base.segbase + base.extbase ≤ address)
    (hreach : address ≤ base.segbase + base.extbase + 0xffff) (hdata : data ≠ []) :
    ∃ now, 0 < now ∧ now ≤ data.length ∧
      ihexChunk base address data =
        ⟨address - (base.segbase + base.extbase), 0, data.take now⟩ ∧
      (ihexChunk base address data).Body := by
  have hseg := hbase.segLe
  have hext := hbase.extLe
  have hlen : 0 < data.length := List.length_pos_iff.mpr hdata
  have hrec : wrappingSub address (wrappingAdd base.extbase base.segbase) =
      address - (base.segbase + base.extbase) := by
    rw [wrappingAdd_of_lt (by omega), wrappingSub_of_le (by omega) (by omega), Nat.add_comm]
  have haddr : u16OrZero ((address - (base.segbase + base.extbase)) &&& 0xffff) =
      address - (base.segbase + base.extbase) := by
    have hmod : (address - (base.segbase + base.extbase)) &&& 0xffff =
        (address - (base.segbase + base.extbase)) % 2 ^ 16 := Nat.and_two_pow_sub_one_eq_mod _ 16
    rw [hmod, u16OrZero_of_lt (Nat.mod_lt _ (by decide))]
    omega
  rw [ihexChunk, hrec, haddr]
  generalize hrel : address - (base.segbase + base.extbase) = relative
  have hrelative : relative ≤ 0xffff := by omega
  rw [wrappingAdd_of_lt (by omega), wrappingSub_of_le (by omega) (by omega)]
  generalize hnow : (if 0xffff < relative + min data.length 16 then 0x10000 - relative
    else min data.length 16) = now
  have hbounds : 0 < now ∧ now ≤ data.length ∧ now ≤ 16 ∧ relative + now ≤ 0x10000 := by
    split at hnow <;> omega
  obtain ⟨hpos, hnow, hshort, hwithin⟩ := hbounds
  have htake : (data.take now).length = now := by
    rw [List.length_take]
    omega
  refine ⟨now, hpos, hnow, rfl, ⟨⟨?_, ?_, rfl⟩, .inl rfl, fun _ => ?_⟩⟩
  · show relative < 2 ^ 16
    omega
  · show (data.take now).length ≤ 255
    omega
  · show relative + (data.take now).length ≤ 0x10000
    omega

/-- What the records of some data do: a reader stores the data and follows the base. -/
structure Described (base : IhexBase) (address : ℕ) (data : List UInt8)
    (records : List IhexRecord) (next : IhexBase) : Prop where
  ok : next.Ok
  body : ∀ r ∈ records, r.Body
  stores : ∀ exclusive rest, ihexStores exclusive base (records ++ rest) =
    Lib.stores (2 ^ 32) address data ++ ihexStores exclusive next rest

/-- **The records of some data.** -/
theorem ihexData_spec (rounds : ℕ) :
    ∀ {base : IhexBase} {address : ℕ} {data : List UInt8} {records : List IhexRecord}
      {next : IhexBase}, base.Ok → address < 2 ^ 64 → data.length ≤ rounds →
      ihexData rounds base address data = .ok (records, next) →
      Described base address data records next := by
  induction rounds with
  | zero =>
    intro base address data records next hbase _ hlen h
    obtain ⟨rfl, rfl⟩ := Prod.mk.inj (Except.ok.inj h)
    rw [List.length_eq_zero_iff.mp (Nat.le_zero.mp hlen)]
    exact ⟨hbase, fun r hr => absurd hr List.not_mem_nil, fun _ _ => rfl⟩
  | succ rounds ih =>
    intro base address data records next hbase haddress hlen h
    rw [ihexData] at h
    split at h
    · next hnil =>
      obtain ⟨rfl, rfl⟩ := Prod.mk.inj (Except.ok.inj h)
      rw [hnil]
      exact ⟨hbase, fun r hr => absurd hr List.not_mem_nil, fun _ _ => rfl⟩
    · next hdata =>
      obtain ⟨⟨moved, reached⟩, hmoved, h⟩ := bind_eq_ok.mp h
      obtain ⟨⟨tail, final⟩, htail, h⟩ := bind_eq_ok.mp h
      obtain ⟨rfl, rfl⟩ := Prod.mk.inj (Except.ok.inj h)
      have hre := ihexRebase_spec hbase haddress hmoved
      obtain ⟨now, hpos, hnow, hchunk, hbody⟩ := ihexChunk_spec hre.ok hre.le hre.reach hdata
      have htake : (data.take now).length = now := by
        rw [List.length_take]
        omega
      have hseg := hre.ok.segLe
      have hext := hre.ok.extLe
      have hreach := hre.reach
      dsimp only at htail hseg hext hreach hchunk hbody ⊢
      rw [hchunk] at htail hbody ⊢
      dsimp only at htail
      rw [htake] at htail
      have hrest := ih hre.ok (Nat.mod_lt _ (Nat.two_pow_pos 64)) (by
        rw [List.length_drop]
        omega) htail
      refine ⟨hrest.ok, ?_, ?_⟩
      · intro r hr
        rcases List.mem_append.mp hr with hr | hr
        · exact hre.body r hr
        · rcases List.mem_cons.mp hr with rfl | hr
          · exact hbody
          · exact hrest.body r hr
      · intro exclusive rest
        have hstep : Lib.stores (2 ^ 32) ((address + now) % 2 ^ 64) (data.drop now) =
            Lib.stores (2 ^ 32) (address + now) (data.drop now) :=
          stores_congr (Nat.mod_mod_of_dvd _ (Nat.pow_dvd_pow 2 (by decide))) _
        have hsplit : Lib.stores (2 ^ 32) address data = Lib.stores (2 ^ 32) address (data.take now) ++
            Lib.stores (2 ^ 32) (address + now) (data.drop now) := by
          conv_lhs => rw [← List.take_append_drop now data, stores_append, htake]
        have hbase : reached.segbase + reached.extbase +
            (address - (reached.segbase + reached.extbase)) = address :=
          Nat.add_sub_cancel' hre.le
        rw [List.append_assoc, hre.stores, List.cons_append, ihexStores, if_pos rfl, hbase,
          hrest.stores, hstep, hsplit, List.append_assoc]

/-- **The records of the pieces.** -/
theorem ihexPieces_spec (ps : List Piece) :
    ∀ {base : IhexBase} {records : List IhexRecord}, base.Ok → ihexPieces base ps = .ok records →
      (∀ r ∈ records, r.Body) ∧ ∀ exclusive, ∃ next, ∀ rest,
        ihexStores exclusive base (records ++ rest) =
          (ps.flatMap Piece.stores).map (fun a => (a.1 % 2 ^ 32, a.2)) ++
            ihexStores exclusive next rest := by
  induction ps with
  | nil =>
    intro base records _ h
    obtain rfl := Except.ok.inj h
    exact ⟨fun r hr => absurd hr List.not_mem_nil, fun _ => ⟨base, fun _ => rfl⟩⟩
  | cons p ps ih =>
    intro base records hbase h
    obtain ⟨⟨first, next⟩, hfirst, h⟩ := bind_eq_ok.mp h
    obtain ⟨tail, htail, h⟩ := bind_eq_ok.mp h
    obtain rfl := Except.ok.inj h
    rw [ihexPiece] at hfirst
    split at hfirst
    · exact nomatch hfirst
    · have hmask : p.lma &&& 0xffffffff = p.lma % 2 ^ 32 := Nat.and_two_pow_sub_one_eq_mod _ 32
      rw [hmask] at hfirst
      have hpiece := ihexData_spec _ hbase (by omega) le_rfl hfirst
      obtain ⟨hbody, hstores⟩ := ih hpiece.ok htail
      refine ⟨fun r hr => ?_, fun exclusive => ?_⟩
      · rcases List.mem_append.mp hr with hr | hr
        · exact hpiece.body r hr
        · exact hbody r hr
      · obtain ⟨final, hfinal⟩ := hstores exclusive
        refine ⟨final, fun rest => ?_⟩
        have hp : p.stores.map (fun a => (a.1 % 2 ^ 32, a.2)) =
            Lib.stores (2 ^ 32) (p.lma % 2 ^ 32) p.data := by
          rw [Piece.stores, map_stores_mod (Nat.pow_dvd_pow 2 (by decide))]
          exact stores_congr (Nat.mod_mod _ _).symm _
        rw [List.append_assoc, hpiece.stores, hfinal, List.flatMap_cons, List.map_append, hp,
          List.append_assoc]

/-! ### Intel HEX -/

theorem ihexStart_valid (start : ℕ) :
    ∀ r ∈ ihexStart start, r.Valid ∧ (r.kind = 3 ∨ r.kind = 5) := by
  intro r hr
  rw [ihexStart] at hr
  split_ifs at hr
  · exact absurd hr List.not_mem_nil
  · rw [List.mem_singleton.mp hr]
    exact ⟨⟨Nat.two_pow_pos 16, (by decide : 4 ≤ 255), rfl⟩, .inl rfl⟩
  · rw [List.mem_singleton.mp hr]
    exact ⟨⟨Nat.two_pow_pos 16, (by decide : 4 ≤ 255), rfl⟩, .inr rfl⟩

theorem ihexEntry_segment (data : List UInt8) :
    ihexEntry [⟨0, 3, data⟩] = [beValue (data.take 2) * 16 + beValue (data.drop 2)] := rfl

theorem ihexEntry_linear (data : List UInt8) : ihexEntry [⟨0, 5, data⟩] = [beValue data] := rfl

theorem ihexEntry_ihexStart (hstart : start < 2 ^ 32) :
    ihexEntry (ihexStart start) = if start = 0 then [] else [start] := by
  rw [ihexStart]
  have hmask : start &&& 0xffffffff = start := by
    have hmod : start &&& 0xffffffff = start % 2 ^ 32 := Nat.and_two_pow_sub_one_eq_mod _ 32
    omega
  split_ifs with hzero hseg
  · rfl
  · have hsegment : (start &&& 0xf0000) >>> 12 = start / 0x10000 * 16 := by
      have hand : start &&& 0xf0000 = start / 0x10000 % 16 * 0x10000 := land_mask start 4 16
      rw [hand, Nat.shiftRight_eq_div_pow]
      omega
    have hhigh : beValue [UInt8.ofNat (start / 0x10000 * 16), 0] = start / 0x10000 * 0x1000 := by
      simp only [beValue, List.foldl_cons, List.foldl_nil, UInt8.toNat_ofNat', UInt8.toNat_zero]
      omega
    have hsum : start / 0x10000 * 0x1000 * 16 + start % 256 ^ 2 = start := by omega
    rw [hmask, hsegment, ihexEntry_segment, List.take_succ_cons, List.take_succ_cons,
      List.take_zero, List.drop_succ_cons, List.drop_succ_cons, List.drop_zero, hhigh,
      beValue_beBytes, hsum]
  · have hfits : start % 256 ^ 4 = start := by omega
    rw [hmask, ihexEntry_linear, beValue_beBytes, hfits]

variable {records : List IhexRecord}

theorem readIhex_flatMap (hvalid : ∀ r ∈ records, r.Valid ∧ r.kind ≠ 1) :
    readIhex ((records ++ [ihexEnd]).flatMap ihexRecord) = some (records ++ [ihexEnd]) := by
  have hall : ∀ r ∈ records ++ [ihexEnd], r.Valid := by
    intro r hr
    rcases List.mem_append.mp hr with hr | hr
    · exact (hvalid r hr).1
    · rw [List.mem_singleton.mp hr]
      exact ⟨Nat.two_pow_pos 16, Nat.zero_le _, rfl⟩
  have hread : readMany readIhexRecord ((records ++ [ihexEnd]).flatMap ihexRecord).length
      ((records ++ [ihexEnd]).flatMap ihexRecord) = some ((records ++ [ihexEnd]).map id) := by
    refine readMany_flatMap _ (fun r _ => ?_) fun r hr rest => ?_
    · rw [ihexRecord]
      exact List.cons_ne_nil _ _
    · exact readIhexRecord_ihexRecord (hall r hr) rest
  rw [List.map_id] at hread
  rw [readIhex, hread]
  refine if_pos ⟨?_, ?_⟩
  · rw [List.getLast?_concat]
    rfl
  · rw [List.dropLast_concat]
    exact fun r hr => (hvalid r hr).2

/-- What an Intel HEX text says: each record inside the 64 KiB of its base, the stores of the
pieces, and the entry point when it is below 4 GiB and not 0. -/
structure IsIhex (ps : List Piece) (start : ℕ) (records : List IhexRecord) : Prop where
  within : ∀ r ∈ records, r.kind = 0 → r.address + r.data.length ≤ 0x10000
  stores : ∀ exclusive, (ihexStores exclusive ⟨0, 0⟩ records).Perm
    ((ps.flatMap Piece.stores).map fun a => (a.1 % 2 ^ 32, a.2))
  entry : start < 2 ^ 32 → ihexEntry records = if start = 0 then [] else [start]

theorem ihexStores_start (exclusive : Bool) (base : IhexBase) (start : ℕ) :
    ihexStores exclusive base (ihexStart start ++ [ihexEnd]) = [] := by
  rw [ihexStart]
  split_ifs <;> rfl

theorem ihexEntry_body (hbody : ∀ r ∈ records, r.Body) :
    ihexEntry records = [] := by
  refine List.filterMap_eq_nil_iff.mpr fun r hr => ?_
  rw [ihexStartOf]
  rcases (hbody r hr).kind with hkind | hkind | hkind <;> rw [hkind] <;> rfl

variable {ps : List Piece}

/-- **An Intel HEX text is read back and stores what the pieces store.** -/
theorem ihex_spec {text : List UInt8} (h : ihex ps start = .ok text) :
    ∃ records, readIhex text = some records ∧ IsIhex ps start records := by
  obtain ⟨records, hrecords, h⟩ := bind_eq_ok.mp h
  obtain rfl := Except.ok.inj h
  have hzero : IhexBase.Ok ⟨0, 0⟩ := ⟨rfl, Nat.zero_le _, rfl, Nat.zero_le _, .inl rfl⟩
  obtain ⟨hbody, hstores⟩ := ihexPieces_spec _ hzero hrecords
  refine ⟨_, readIhex_flatMap ?_, ?_, ?_, ?_⟩
  · intro r hr
    rcases List.mem_append.mp hr with hr | hr
    · refine ⟨(hbody r hr).valid, fun hone => ?_⟩
      have hkind := (hbody r hr).kind
      rw [hone] at hkind
      exact absurd hkind (by decide)
    · obtain ⟨hvalid, hkind⟩ := ihexStart_valid start r hr
      refine ⟨hvalid, fun hone => ?_⟩
      rw [hone] at hkind
      exact absurd hkind (by decide)
  · intro r hr hzero
    rcases List.mem_append.mp hr with hr | hr
    · rcases List.mem_append.mp hr with hr | hr
      · exact (hbody r hr).within hzero
      · have hkind := (ihexStart_valid start r hr).2
        rw [hzero] at hkind
        exact absurd hkind (by decide)
    · rw [List.mem_singleton.mp hr] at hzero
      exact absurd hzero (by decide)
  · intro exclusive
    obtain ⟨next, hnext⟩ := hstores exclusive
    rw [List.append_assoc, hnext, ihexStores_start, List.append_nil]
    exact ((sorted_perm ps).flatMap_right _).map _
  · intro hstart
    rw [ihexEntry, List.filterMap_append, List.filterMap_append]
    show ihexEntry records ++ ihexEntry (ihexStart start) ++ [] = _
    rw [ihexEntry_body hbody, ihexEntry_ihexStart hstart, List.nil_append, List.append_nil]

/-! ### S-records -/

theorem addressBytes_data (hkind : kind = 1 ∨ kind = 2 ∨ kind = 3) :
    addressBytes kind = kind.toNat + 1 ∧ addressBytes (10 - kind) = kind.toNat + 1 := by
  rcases hkind with rfl | rfl | rfl <;> exact ⟨rfl, rfl⟩

/-- The last address of a piece. -/
def Piece.last (p : Piece) : ℕ := wrappingSub (wrappingAdd p.lma p.data.length) 1

/-- One more piece: the kind does not shrink, and fits the piece. -/
theorem srecWiden_spec (hkind : kind = 1 ∨ kind = 2 ∨ kind = 3) (p : Piece) :
    (srecWiden kind p = 1 ∨ srecWiden kind p = 2 ∨ srecWiden kind p = 3) ∧
      kind.toNat ≤ (srecWiden kind p).toNat ∧
      min p.last 0xffffffff < 256 ^ ((srecWiden kind p).toNat + 1) := by
  have hone : (1 : UInt8).toNat = 1 := rfl
  have htwo : (2 : UInt8).toNat = 2 := rfl
  have hthree : (3 : UInt8).toNat = 3 := rfl
  have hdef : srecWiden kind p =
      if p.last ≤ 0xffff then kind else if p.last ≤ 0xffffff ∧ kind ≤ 2 then 2 else 3 := by
    rw [srecWiden, Piece.last]
  rw [hdef]
  by_cases hsmall : p.last ≤ 0xffff
  · rw [if_pos hsmall]
    refine ⟨hkind, le_rfl, ?_⟩
    have hpow : 256 ^ 2 ≤ 256 ^ (kind.toNat + 1) := by
      refine Nat.pow_le_pow_right (by decide) ?_
      rcases hkind with rfl | rfl | rfl <;> omega
    omega
  · by_cases hmiddle : p.last ≤ 0xffffff ∧ kind ≤ 2
    · rw [if_neg hsmall, if_pos hmiddle, htwo]
      exact ⟨.inr (.inl rfl), hmiddle.2, by omega⟩
    · rw [if_neg hsmall, if_neg hmiddle, hthree]
      refine ⟨.inr (.inr rfl), ?_, by omega⟩
      rcases hkind with rfl | rfl | rfl <;> omega

theorem foldl_srecWiden (ps : List Piece) :
    ∀ kind : UInt8, kind = 1 ∨ kind = 2 ∨ kind = 3 →
      (ps.foldl srecWiden kind = 1 ∨ ps.foldl srecWiden kind = 2 ∨ ps.foldl srecWiden kind = 3) ∧
        kind.toNat ≤ (ps.foldl srecWiden kind).toNat ∧
        ∀ p ∈ ps, min p.last 0xffffffff < 256 ^ ((ps.foldl srecWiden kind).toNat + 1) := by
  induction ps with
  | nil => exact fun kind hkind => ⟨hkind, le_rfl, fun p hp => absurd hp List.not_mem_nil⟩
  | cons p ps ih =>
    intro kind hkind
    obtain ⟨hnext, hle, hfits⟩ := srecWiden_spec hkind p
    obtain ⟨hfinal, hmono, hall⟩ := ih _ hnext
    rw [List.foldl_cons]
    refine ⟨hfinal, hle.trans hmono, fun q hq => ?_⟩
    rcases List.mem_cons.mp hq with rfl | hq
    · refine hfits.trans_le (Nat.pow_le_pow_right (by decide) ?_)
      omega
    · exact hall q hq

/-- **The kind fits the last address of every piece, up to 32 bits.** -/
theorem srecKind_spec (ps : List Piece) :
    (srecKind ps = 1 ∨ srecKind ps = 2 ∨ srecKind ps = 3) ∧
      ∀ p ∈ ps, min p.last 0xffffffff < 256 ^ ((srecKind ps).toNat + 1) := by
  obtain ⟨hkind, -, hall⟩ := foldl_srecWiden ps 1 (.inl rfl)
  exact ⟨hkind, hall⟩

theorem stores_chunks (top address : ℕ) (data : List UInt8) (n : ℕ) :
    ((List.range n).flatMap fun index =>
      Lib.stores top (address + index * 16) ((data.drop (index * 16)).take 16)) =
      Lib.stores top address (data.take (n * 16)) := by
  induction n with
  | zero => rw [List.range_zero, List.flatMap_nil, Nat.zero_mul, List.take_zero, stores_nil]
  | succ n ih =>
    rw [List.range_succ, List.flatMap_append, ih, List.flatMap_singleton, Nat.succ_mul,
      List.take_add, stores_append]
    congr 1
    by_cases hlen : n * 16 ≤ data.length
    · rw [List.length_take, Nat.min_eq_left hlen]
    · rw [List.drop_eq_nil_of_le (by omega), List.take_nil, stores_nil, stores_nil]

theorem srecStores_append (l r : List SrecRecord) :
    srecStores (l ++ r) = srecStores l ++ srecStores r := by
  rw [srecStores, List.filter_append, List.flatMap_append]
  rfl

variable {p : Piece}

/-- The data records of a piece whose addresses fit. -/
theorem srecPiece_stores (hkind : kind = 1 ∨ kind = 2 ∨ kind = 3)
    (hfits : p.lma + p.data.length ≤ 256 ^ (kind.toNat + 1)) :
    srecStores ((srecPiece kind p).map SrecRecord.truncate) = Lib.stores (2 ^ 32) p.lma p.data := by
  have hsize : 256 ^ (kind.toNat + 1) ≤ 2 ^ 32 := by
    rcases hkind with rfl | rfl | rfl <;> decide
  have hall : ∀ r ∈ (srecPiece kind p).map SrecRecord.truncate,
      decide (r.kind = 1 ∨ r.kind = 2 ∨ r.kind = 3) = true := by
    intro r hr
    obtain ⟨q, hq, rfl⟩ := List.mem_map.mp hr
    obtain ⟨index, -, rfl⟩ := List.mem_map.mp hq
    exact decide_eq_true hkind
  have hchunks := stores_chunks (2 ^ 32) p.lma p.data ((p.data.length + 15) / 16)
  rw [List.take_of_length_le (by omega)] at hchunks
  rw [srecStores, List.filter_eq_self.mpr hall, srecPiece, List.map_map, List.flatMap_map,
    ← hchunks]
  refine List.flatMap_congr fun index hindex => ?_
  have hindex : index < (p.data.length + 15) / 16 := List.mem_range.mp hindex
  have haddress : wrappingAdd p.lma (index * 16) % 256 ^ addressBytes kind =
      p.lma + index * 16 := by
    rw [(addressBytes_data hkind).1, wrappingAdd_of_lt (by omega), Nat.mod_eq_of_lt (by omega)]
  show Lib.stores (2 ^ 32) (wrappingAdd p.lma (index * 16) % 256 ^ addressBytes kind)
    ((p.data.drop (index * 16)).take 16) = _
  rw [haddress]

/-- What an S-record text says, when the addresses of the pieces are below 4 GiB: the stores of the
pieces.  The entry point is right when it lies in a piece. -/
structure IsSrec (ps : List Piece) (start : ℕ) (records : List SrecRecord) : Prop where
  stores : (∀ p ∈ ps, p.lma + p.data.length ≤ 2 ^ 32) →
    (srecStores records).Perm (ps.flatMap Piece.stores)
  entry : (∃ a ∈ ps.flatMap Piece.stores, a.1 = start) → start < 2 ^ 32 →
    srecEntry records = [start]

/-- The records before the termination record. -/
def srecHead (ps : List Piece) (name : List UInt8) : List SrecRecord :=
  ⟨0, 0, name.take 40⟩ :: (sorted ps).flatMap (srecPiece (srecKind ps))

theorem srecRecords_eq (ps : List Piece) (start : ℕ) (name : List UInt8) :
    srecRecords ps start name = srecHead ps name ++ [⟨10 - srecKind ps, start, []⟩] := rfl

theorem srecHead_valid (ps : List Piece) (name : List UInt8) :
    ∀ r ∈ srecHead ps name, r.Valid ∧ r.kind < 7 := by
  intro r hr
  rcases List.mem_cons.mp hr with rfl | hr
  · refine ⟨⟨List.mem_cons_self, ?_⟩, (by decide : (0 : UInt8) < 7)⟩
    show (name.take 40).length ≤ 250
    rw [List.length_take]
    omega
  · obtain ⟨p, -, hr⟩ := List.mem_flatMap.mp hr
    obtain ⟨index, -, rfl⟩ := List.mem_map.mp hr
    have hkind : srecKind ps ∈ [0, 1, 2, 3, 7, 8, 9] ∧ srecKind ps < 7 := by
      rcases (srecKind_spec ps).1 with h | h | h <;> rw [h] <;> decide
    refine ⟨⟨hkind.1, ?_⟩, hkind.2⟩
    show ((p.data.drop (index * 16)).take 16).length ≤ 250
    rw [List.length_take]
    omega

theorem srecEnd_valid (ps : List Piece) (start : ℕ) :
    SrecRecord.Valid ⟨10 - srecKind ps, start, []⟩ ∧ 7 ≤ 10 - srecKind ps := by
  have hkind : 10 - srecKind ps ∈ [0, 1, 2, 3, 7, 8, 9] ∧ 7 ≤ 10 - srecKind ps := by
    rcases (srecKind_spec ps).1 with h | h | h <;> rw [h] <;> decide
  exact ⟨⟨hkind.1, Nat.zero_le _⟩, hkind.2⟩

/-- An S-record text is read back, with the addresses that fit. -/
theorem readSrec_srec (ps : List Piece) (start : ℕ) (name : List UInt8) :
    readSrec (srec ps start name) =
      some ((srecRecords ps start name).map SrecRecord.truncate) := by
  have hread : readMany readSrecRecord (srec ps start name).length (srec ps start name) =
      some ((srecRecords ps start name).map SrecRecord.truncate) := by
    refine readMany_flatMap _ (fun r _ => ?_) fun r hr rest => readSrecRecord_srecRecord ?_ rest
    · rw [srecRecord]
      exact List.cons_ne_nil _ _
    · rw [srecRecords_eq] at hr
      rcases List.mem_append.mp hr with hr | hr
      · exact (srecHead_valid ps name r hr).1
      · rw [List.mem_singleton.mp hr]
        exact (srecEnd_valid ps start).1
  rw [readSrec, hread]
  refine if_pos ?_
  rw [srecRecords_eq, List.map_append, List.map_singleton, List.getLast?_concat,
    List.dropLast_concat]
  refine ⟨⟨_, rfl, (srecEnd_valid ps start).2⟩, fun r hr => ?_⟩
  obtain ⟨q, hq, rfl⟩ := List.mem_map.mp hr
  exact (srecHead_valid ps name q hq).2

theorem srecPieces_stores (hkind : kind = 1 ∨ kind = 2 ∨ kind = 3) (ps : List Piece)
    (hfits : ∀ p ∈ ps, p.lma + p.data.length ≤ 256 ^ (kind.toNat + 1)) :
    srecStores ((ps.flatMap (srecPiece kind)).map SrecRecord.truncate) =
      ps.flatMap fun p => Lib.stores (2 ^ 32) p.lma p.data := by
  induction ps with
  | nil => rfl
  | cons p ps ih =>
    rw [List.flatMap_cons, List.map_append, srecStores_append,
      srecPiece_stores hkind (hfits p List.mem_cons_self),
      ih fun q hq => hfits q (List.mem_cons_of_mem _ hq), List.flatMap_cons]

/-- The records before and after the data store nothing. -/
theorem srecRecords_stores (ps : List Piece) (start : ℕ) (name : List UInt8) :
    srecStores ((srecRecords ps start name).map SrecRecord.truncate) =
      srecStores (((sorted ps).flatMap (srecPiece (srecKind ps))).map SrecRecord.truncate) := by
  have hend : srecStores [SrecRecord.truncate ⟨10 - srecKind ps, start, []⟩] = [] := by
    rw [srecStores, List.filter_singleton]
    rcases (srecKind_spec ps).1 with h | h | h <;> rw [h] <;> rfl
  rw [srecRecords_eq, List.map_append, List.map_singleton, srecStores_append, hend,
    List.append_nil]
  rfl

/-- The termination record holds what fits of the entry point. -/
theorem srecRecords_entry (ps : List Piece) (start : ℕ) (name : List UInt8) :
    srecEntry ((srecRecords ps start name).map SrecRecord.truncate) =
      [start % 256 ^ addressBytes (10 - srecKind ps)] := by
  have hhead : ((srecHead ps name).map SrecRecord.truncate).filter (fun r => 7 ≤ r.kind) = [] := by
    refine List.filter_eq_nil_iff.mpr fun r hr => ?_
    obtain ⟨q, hq, rfl⟩ := List.mem_map.mp hr
    have hlt : q.kind < 7 := (srecHead_valid ps name q hq).2
    rw [decide_eq_true_eq]
    exact UInt8.not_le.mpr hlt
  have hend : [SrecRecord.truncate ⟨10 - srecKind ps, start, []⟩].filter (fun r => 7 ≤ r.kind) =
      [SrecRecord.truncate ⟨10 - srecKind ps, start, []⟩] :=
    List.filter_eq_self.mpr fun r hr => by
      rw [List.mem_singleton.mp hr]
      exact decide_eq_true (srecEnd_valid ps start).2
  rw [srecEntry, srecRecords_eq, List.map_append, List.filter_append, hhead, List.map_singleton,
    hend]
  rfl

/-- An address inside a piece, below 4 GiB, is not above the last one. -/
theorem le_last (hlen : p.data.length < 2 ^ 63) {i : ℕ} (hi : i < p.data.length)
    (hbelow : (p.lma + i) % 2 ^ 64 < 2 ^ 32) : (p.lma + i) % 2 ^ 64 ≤ p.last := by
  rw [Piece.last, wrappingSub, wrappingAdd]
  omega

/-- **An S-record text is read back and stores what the pieces store.** -/
theorem srec_spec (start : ℕ) (name : List UInt8)
    (hps : ∀ p ∈ ps, p.data ≠ [] ∧ p.data.length < 2 ^ 63) :
    ∃ records, readSrec (srec ps start name) = some records ∧ IsSrec ps start records := by
  obtain ⟨hkind, hfits⟩ := srecKind_spec ps
  refine ⟨_, readSrec_srec ps start name, fun hbelow => ?_, ?_⟩
  · have hpieces : ∀ p ∈ sorted ps,
        p.lma + p.data.length ≤ 256 ^ ((srecKind ps).toNat + 1) := by
      intro p hp
      have hp : p ∈ ps := (sorted_perm ps).mem_iff.mp hp
      have hle := hbelow p hp
      have hpos : 0 < p.data.length := List.length_pos_iff.mpr (hps p hp).1
      have hlast : p.last = p.lma + p.data.length - 1 := by
        rw [Piece.last, wrappingSub, wrappingAdd]
        omega
      have hfit := hfits p hp
      omega
    rw [srecRecords_stores, srecPieces_stores hkind _ hpieces]
    refine ((sorted_perm ps).flatMap_right _).trans ?_
    refine (List.flatMap_congr fun p hp => ?_) ▸ List.Perm.refl _
    have hle := hbelow p hp
    exact stores_of_le _ _ (by omega) (by omega)
  · rintro ⟨a, ha, rfl⟩ hstart
    obtain ⟨p, hp, ha⟩ := List.mem_flatMap.mp ha
    obtain ⟨i, hi, haddress⟩ := mem_stores.mp ha
    have hi : i < p.data.length := (List.getElem?_eq_some_iff.mp hi).1
    rw [haddress] at hstart ⊢
    have hle := le_last (hps p hp).2 hi hstart
    have hfit := hfits p hp
    rw [srecRecords_entry, (addressBytes_data hkind).2, Nat.mod_eq_of_lt (by omega)]

/-! ### The same memory -/

/-- **The three raw formats describe the same memory (proved).** -/
theorem rawFormats_same_memory {sections : List OutSection} {image : List UInt8}
    (himage : image.length < 2 ^ 63) (hin : ∀ s ∈ sections, s.loadable → s.Inside)
    (hapart : (sections.filter OutSection.loadable).Pairwise Apart) (start : ℕ)
    (name : List UInt8) :
    ((∃ ps, pieces sections image = .ok ps) ↔
      ∀ s ∈ sections, s.loadable → s.offset + s.size ≤ image.length) ∧
    ∀ ps, pieces sections image = .ok ps →
      (∃ cuts, List.Forall₂ (Cuts image) (sections.filter OutSection.loadable) cuts ∧
        ps = cuts.flatten) ∧
      ps.flatMap Piece.stores = loads sections image ∧
      (∀ a b c, (a, b) ∈ loads sections image → (a, c) ∈ loads sections image → b = c) ∧
      (∀ text, ihex ps start = .ok text →
        ∃ records, readIhex text = some records ∧ IsIhex ps start records) ∧
      (∃ records, readSrec (srec ps start name) = some records ∧ IsSrec ps start records) ∧
      ((∀ p ∈ ps, ∀ q ∈ ps, q.lma ≤ p.lma → p.lma - q.lma + p.data.length < 2 ^ 64) →
        ∃ out, binary ps = .ok out) ∧
      ∀ out, binary ps = .ok out → ∃ low, IsFlat ps low out := by
  refine ⟨pieces_ok_iff (by omega) hin, fun ps hps => ?_⟩
  have hbounds := pieces_bounds hin hps
  have hlma : ∀ p ∈ ps, p.lma < 2 ^ 64 := fun p hp => (hbounds p hp).2.2
  have hstores := pieces_stores hin hps
  have hfun : ∀ a b c, (a, b) ∈ loads sections image → (a, c) ∈ loads sections image → b = c :=
    fun a b c => loads_functional hin hapart
  refine ⟨pieces_cuts hin hps, hstores, hfun, fun text => ihex_spec, ?_, binary_ok hlma, ?_⟩
  · refine srec_spec start name fun p hp => ⟨(hbounds p hp).1, ?_⟩
    have hlen := (hbounds p hp).2.1
    omega
  · rw [← hstores] at hfun
    exact fun out => binary_spec hlma hfun

/-- A section that crosses a 64 KiB boundary, with a fill inside a member, and one behind it. -/
def crossingSections : List OutSection :=
  [⟨.none, 1, 6, 0, 16, [⟨0, 6⟩, ⟨8, 8⟩], 0xfff8, [(4, 4, 0)], []⟩,
    ⟨.none, 1, 3, 16, 4, [⟨0, 3⟩], 0x20000, [], [(3, [7])]⟩]

/-- Their pieces. -/
def crossingPieces : List Piece :=
  [⟨0xfff8, [0, 1, 2, 3, 4, 5]⟩, ⟨0xfffe, [6, 7]⟩, ⟨0x10000, [8, 9, 10, 11, 12, 13, 14, 15]⟩,
    ⟨0x20000, [16, 17, 18]⟩, ⟨0x20003, [19]⟩]

theorem rawFormats_crossing :
    pieces crossingSections ((List.range 20).map UInt8.ofNat) = .ok crossingPieces ∧
    (∃ text records, ihex crossingPieces 0xfff8 = .ok text ∧ readIhex text = some records ∧
      IsIhex crossingPieces 0xfff8 records) ∧
    (∃ records, readSrec (srec crossingPieces 0xfff8 []) = some records ∧
      IsSrec crossingPieces 0xfff8 records) ∧
    ∃ low out, binary crossingPieces = .ok out ∧ IsFlat crossingPieces low out := by
  have hin : ∀ s ∈ crossingSections, s.loadable → s.Inside := by
    intro s hs _
    rcases List.mem_cons.mp hs with rfl | hs
    · exact ⟨by decide, by decide, by decide, by decide⟩
    · rw [List.mem_singleton.mp hs]
      exact ⟨by decide, by decide, by decide, by decide⟩
  have hpieces : pieces crossingSections ((List.range 20).map UInt8.ofNat) = .ok crossingPieces := by
    have hfirst : OutSection.bounds
        ⟨.none, 1, 6, 0, 16, [⟨0, 6⟩, ⟨8, 8⟩], 0xfff8, [(4, 4, 0)], []⟩ =
          [(0, 6), (4, 4), (8, 8)] := by
      simp [OutSection.bounds, List.mergeSort, List.MergeSort.Internal.splitInTwo]
    have hsecond : OutSection.bounds
        ⟨.none, 1, 3, 16, 4, [⟨0, 3⟩], 0x20000, [], [(3, [7])]⟩ = [(0, 3), (3, 1)] := by
      simp [OutSection.bounds, List.mergeSort, List.MergeSort.Internal.splitInTwo]
    rw [pieces, crossingSections, List.filter_eq_self.mpr (by decide), List.mapM_cons,
      List.mapM_cons, sectionPieces, sectionPieces, hfirst, hsecond]
    rfl
  have hapart : (crossingSections.filter OutSection.loadable).Pairwise Apart := by
    refine List.pairwise_cons.mpr ⟨fun t ht => ?_, List.pairwise_singleton _ _⟩
    rw [List.mem_singleton.mp ht]
    intro i (hi : i < 16) j (hj : j < 4)
    show (0xfff8 + i) % 2 ^ 64 ≠ (0x20000 + j) % 2 ^ 64
    omega
  obtain ⟨-, -, -, hihex, hsrec, hbinary, hflat⟩ :=
    (rawFormats_same_memory (by decide) hin hapart 0xfff8 []).2 crossingPieces hpieces
  have hisOk : (ihex crossingPieces 0xfff8).isOk = true := by decide
  obtain ⟨text, htext⟩ := exists_ok_of_isOk hisOk
  obtain ⟨records, hrecords⟩ := hihex text htext
  obtain ⟨out, hout⟩ := hbinary (by decide)
  obtain ⟨low, hflat⟩ := hflat out hout
  exact ⟨hpieces, ⟨text, records, htext, hrecords⟩, hsrec, low, out, hout, hflat⟩

end Qld.Elf
