import Qld.Elf.Rawout
import Qld.Lib.Framing

/-!
# Reading raw formats

What an Intel HEX or S-record text stands for: readers that refuse a record whose length or checksum
is wrong, and the bytes that the records store.

* `readIhex`, `readSrec` — the records of a text;
* `ihexStores`, `srecStores` — the bytes they store; `ihexEntry`, `srecEntry` — the start address;
* `readIhexRecord_ihexRecord`, `readSrecRecord_srecRecord` — a written record is read
  back.
-/

namespace Qld.Elf

open Qld.Lib

/-! ### Hexadecimal text -/

/-- The value of a hexadecimal digit. -/
def hexDigit? (c : UInt8) : Option ℕ :=
  if 48 ≤ c ∧ c ≤ 57 then some (c.toNat - 48)
  else if 65 ≤ c ∧ c ≤ 70 then some (c.toNat - 55)
  else if 97 ≤ c ∧ c ≤ 102 then some (c.toNat - 87)
  else none

/-- Two digits. -/
def readByte : List UInt8 → Option (UInt8 × List UInt8)
  | high :: low :: rest =>
    match hexDigit? high, hexDigit? low with
    | some h, some l => some (UInt8.ofNat (h * 16 + l), rest)
    | _, _ => none
  | _ => none

/-- So many bytes of two digits each. -/
def readBytes : ℕ → List UInt8 → Option (List UInt8 × List UInt8)
  | 0, text => some ([], text)
  | n + 1, text =>
    match readByte text with
    | none => none
    | some (b, text) => (readBytes n text).map fun read => (b :: read.1, read.2)

/-- A count, as many bytes as it says and `extra` more, and the end of the line. -/
def readLine (extra : ℕ) (text : List UInt8) : Option (List UInt8 × List UInt8) :=
  match readByte text with
  | none => none
  | some (count, text) =>
    match readBytes (count.toNat + extra) text with
    | some (bytes, 13 :: 10 :: rest) => some (count :: bytes, rest)
    | _ => none

/-! ### Intel HEX -/

/-- The data lengths of the record types. -/
def ihexLengthOk (kind : UInt8) (length : ℕ) : Bool :=
  if kind = 0 then true
  else if kind = 1 then length = 0
  else if kind = 2 ∨ kind = 4 then length = 2
  else if kind = 3 ∨ kind = 5 then length = 4
  else false

/-- The record of the bytes of a line, the checksum among them. -/
def ihexOfBytes : List UInt8 → Option IhexRecord
  | _ :: high :: low :: kind :: data =>
    if ihexLengthOk kind data.dropLast.length then
      some ⟨beValue [high, low], kind, data.dropLast⟩
    else none
  | _ => none

/-- One record: a colon, count, address, type, data and a checksum that makes the sum zero. -/
def readIhexRecord : List UInt8 → Option (IhexRecord × List UInt8)
  | [] => none
  | mark :: text =>
    if mark ≠ 58 then none
    else
      match readLine 4 text with
      | none => none
      | some (bytes, rest) => if bytes.sum = 0 then (ihexOfBytes bytes).map (·, rest) else none

/-- The records of a text, the last of which, and no other, is the end record. -/
def readIhex (text : List UInt8) : Option (List IhexRecord) :=
  match readMany readIhexRecord text.length text with
  | none => none
  | some records =>
    if (records.getLast?.map IhexRecord.kind = some 1) ∧ ∀ r ∈ records.dropLast, r.kind ≠ 1 then
      some records
    else none

/-- The bytes that records store.  An extended segment address and an extended linear address add
up, or each of them ends the other when `exclusive`; readers differ. -/
def ihexStores (exclusive : Bool) : IhexBase → List IhexRecord → List (ℕ × UInt8)
  | _, [] => []
  | base, r :: records =>
    if r.kind = 0 then
      stores (2 ^ 32) (base.segbase + base.extbase + r.address) r.data ++
        ihexStores exclusive base records
    else if r.kind = 2 then
      ihexStores exclusive ⟨beValue r.data * 16, if exclusive then 0 else base.extbase⟩ records
    else if r.kind = 4 then
      ihexStores exclusive ⟨if exclusive then 0 else base.segbase, beValue r.data * 65536⟩ records
    else ihexStores exclusive base records

/-- The entry point of a start record: a segment and an offset in it, or a linear address. -/
def ihexStartOf (r : IhexRecord) : Option ℕ :=
  if r.kind = 3 then some (beValue (r.data.take 2) * 16 + beValue (r.data.drop 2))
  else if r.kind = 5 then some (beValue r.data)
  else none

/-- The entry points of the start records. -/
def ihexEntry (records : List IhexRecord) : List ℕ := records.filterMap ihexStartOf

/-! ### S-records -/

/-- The record of the bytes of a line, the checksum among them. -/
def srecOfBytes (kind : UInt8) : List UInt8 → Option SrecRecord
  | [] => none
  | _ :: body =>
    if addressBytes kind < body.length then
      some ⟨kind, beValue (body.take (addressBytes kind)),
        (body.drop (addressBytes kind)).dropLast⟩
    else none

/-- One record: `S`, the type, a count, address, data and a checksum that makes the sum 255. -/
def readSrecRecord : List UInt8 → Option (SrecRecord × List UInt8)
  | mark :: digit :: text =>
    if mark ≠ 83 ∨ digit - 48 ∉ [0, 1, 2, 3, 7, 8, 9] then none
    else
      match readLine 0 text with
      | none => none
      | some (bytes, rest) =>
        if bytes.sum = 255 then (srecOfBytes (digit - 48) bytes).map (·, rest) else none
  | _ => none

/-- The records of a text, the last of which, and no other, is a termination record. -/
def readSrec (text : List UInt8) : Option (List SrecRecord) :=
  match readMany readSrecRecord text.length text with
  | none => none
  | some records =>
    if (∃ r ∈ records.getLast?, 7 ≤ r.kind) ∧ ∀ r ∈ records.dropLast, r.kind < 7 then
      some records
    else none

/-- The bytes that records store. -/
def srecStores (records : List SrecRecord) : List (ℕ × UInt8) :=
  (records.filter fun r => r.kind = 1 ∨ r.kind = 2 ∨ r.kind = 3).flatMap fun r =>
    stores (2 ^ 32) r.address r.data

/-- The entry points of the termination records. -/
def srecEntry (records : List SrecRecord) : List ℕ :=
  (records.filter fun r => 7 ≤ r.kind).map SrecRecord.address

/-! ### Lines -/

theorem hexDigit?_HEX : ∀ n, n < 16 → hexDigit? (HEX.getD n 0) = some n := by
  decide

theorem readByte_pushHex (b : UInt8) (rest : List UInt8) :
    readByte (pushHex b ++ rest) = some (b, rest) := by
  have hhigh : (b >>> 4).toNat = b.toNat / 16 := by
    rw [UInt8.toNat_shiftRight, Nat.shiftRight_eq_div_pow]
    rfl
  have hlow : (b &&& 0xf).toNat = b.toNat % 16 := by
    rw [UInt8.toNat_and]
    exact Nat.and_two_pow_sub_one_eq_mod b.toNat 4
  have hb := b.toNat_lt
  have hsum : b.toNat / 16 * 16 + b.toNat % 16 = b.toNat := Nat.div_add_mod' _ _
  rw [pushHex, hhigh, hlow, List.cons_append, List.cons_append, readByte,
    hexDigit?_HEX _ (by omega), hexDigit?_HEX _ (by omega)]
  simp only [List.nil_append, hsum, UInt8.ofNat_toNat]

theorem readBytes_pushHex (bytes rest : List UInt8) :
    readBytes bytes.length (bytes.flatMap pushHex ++ rest) = some (bytes, rest) := by
  induction bytes with
  | nil => rfl
  | cons b bytes ih =>
    rw [List.length_cons, readBytes, List.flatMap_cons, List.append_assoc, readByte_pushHex]
    simp only [ih, Option.map_some]

theorem readLine_hexLine {extra : ℕ} {count check : UInt8} {body : List UInt8}
    (h : count.toNat + extra = body.length + 1) (rest : List UInt8) :
    readLine extra (hexLine (count :: body) check ++ rest) =
      some (count :: (body ++ [check]), rest) := by
  have htext : hexLine (count :: body) check ++ rest =
      pushHex count ++ ((body ++ [check]).flatMap pushHex ++ (13 :: 10 :: rest)) := by
    simp only [hexLine, List.flatMap_cons, List.flatMap_append, List.flatMap_nil,
      List.append_assoc, crlf, List.append_nil, List.cons_append, List.nil_append]
  have hlen : count.toNat + extra = (body ++ [check]).length := by
    rw [h, List.length_append, List.length_singleton]
  rw [htext, readLine, readByte_pushHex]
  simp only [hlen, readBytes_pushHex]

/-! ### Records -/

/-- A record that the format allows. -/
structure IhexRecord.Valid (r : IhexRecord) : Prop where
  address : r.address < 2 ^ 16
  length : r.data.length ≤ 255
  kind : ihexLengthOk r.kind r.data.length = true

theorem sum_checked (bytes : List UInt8) (check : UInt8) :
    (bytes ++ [check]).sum = bytes.sum + check := by
  rw [List.sum_append, List.sum_singleton]

/-- **A written Intel HEX record is read back.** -/
theorem readIhexRecord_ihexRecord {r : IhexRecord} (h : r.Valid) (rest : List UInt8) :
    readIhexRecord (ihexRecord r ++ rest) = some (r, rest) := by
  have hcount : (UInt8.ofNat (min r.data.length 255)).toNat = r.data.length := by
    rw [UInt8.toNat_ofNat', Nat.min_eq_left h.length]
    exact Nat.mod_eq_of_lt (Nat.lt_succ_of_le h.length)
  have hline : readLine 4 (hexLine (ihexFront r) (-(ihexFront r).sum) ++ rest) =
      some (ihexFront r ++ [-(ihexFront r).sum], rest) := by
    refine readLine_hexLine ?_ rest
    rw [hcount, List.length_append, length_beBytes, List.length_cons]
    omega
  have hsum : (ihexFront r ++ [-(ihexFront r).sum]).sum = 0 := by
    rw [sum_checked, UInt8.add_right_neg]
  have hrecord : ihexOfBytes (ihexFront r ++ [-(ihexFront r).sum]) = some r := by
    generalize -(ihexFront r).sum = check
    have haddress : beValue (beBytes 2 r.address) = r.address := by
      rw [beValue_beBytes]
      exact Nat.mod_eq_of_lt h.address
    rw [ihexFront]
    simp only [beBytes, List.cons_append, List.nil_append, ihexOfBytes, List.dropLast_concat,
      h.kind, if_true] at haddress ⊢
    rw [haddress]
  rw [ihexRecord, List.cons_append, readIhexRecord, if_neg (by decide), hline]
  simp only [hsum, if_true, hrecord, Option.map_some]

/-- An S-record that the format allows. -/
structure SrecRecord.Valid (r : SrecRecord) : Prop where
  kind : r.kind ∈ [0, 1, 2, 3, 7, 8, 9]
  length : r.data.length ≤ 250

/-- The record with what its address field holds. -/
def SrecRecord.truncate (r : SrecRecord) : SrecRecord :=
  { r with address := r.address % 256 ^ addressBytes r.kind }

theorem addressBytes_le (kind : UInt8) : addressBytes kind ≤ 4 := by
  rw [addressBytes]
  split_ifs <;> omega

/-- **A written S-record is read back, with the part of its address that fits.** -/
theorem readSrecRecord_srecRecord {r : SrecRecord} (h : r.Valid) (rest : List UInt8) :
    readSrecRecord (srecRecord r ++ rest) = some (r.truncate, rest) := by
  have hle := addressBytes_le r.kind
  have hlen := h.length
  have hcount : (UInt8.ofNat (min (addressBytes r.kind + r.data.length + 1) 255)).toNat =
      addressBytes r.kind + r.data.length + 1 := by
    rw [UInt8.toNat_ofNat', Nat.min_eq_left (by omega)]
    exact Nat.mod_eq_of_lt (by omega)
  have hline : readLine 0 (hexLine (srecFront r) (255 - (srecFront r).sum) ++ rest) =
      some (srecFront r ++ [255 - (srecFront r).sum], rest) := by
    refine readLine_hexLine ?_ rest
    rw [hcount, List.length_append, length_beBytes]
  have hsum : (srecFront r ++ [255 - (srecFront r).sum]).sum = 255 := by
    rw [sum_checked, UInt8.add_comm, UInt8.sub_add_cancel]
  have hrecord : srecOfBytes r.kind (srecFront r ++ [255 - (srecFront r).sum]) =
      some r.truncate := by
    generalize 255 - (srecFront r).sum = check
    have htake : (beBytes (addressBytes r.kind) r.address ++ r.data ++ [check]).take
        (addressBytes r.kind) = beBytes (addressBytes r.kind) r.address := by
      rw [List.append_assoc, List.take_left' (length_beBytes _ _)]
    have hdrop : (beBytes (addressBytes r.kind) r.address ++ r.data ++ [check]).drop
        (addressBytes r.kind) = r.data ++ [check] := by
      rw [List.append_assoc, List.drop_left' (length_beBytes _ _)]
    rw [srecFront, List.cons_append, srecOfBytes, htake, hdrop, List.dropLast_concat,
      beValue_beBytes, if_pos (by
        rw [List.length_append, List.length_append, length_beBytes, List.length_singleton]
        omega)]
    rfl
  have hdigit : 48 + r.kind - 48 = r.kind := by
    rw [UInt8.add_comm, UInt8.add_sub_cancel]
  rw [srecRecord, List.cons_append, List.cons_append, readSrecRecord, hdigit,
    if_neg (not_or.mpr ⟨by decide, not_not.mpr h.kind⟩), hline]
  simp only [hsum, if_true, hrecord, Option.map_some]

end Qld.Elf
