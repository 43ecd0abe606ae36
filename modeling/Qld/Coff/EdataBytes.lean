import Mathlib.Data.List.TakeWhile
import Qld.Coff.EdataPlan
import Qld.Lib.BinarySearch

/-!
# The bytes of the export section

What the loader reads of an export section at an address: positions in its data are addresses less
the section's.

* `cString` — a NUL-terminated string;
* `lookupOrdinal` — the address slot of an ordinal;
* `lookupName` — the address slot of a name, by binary search;
* `Exports.bytes` — the exact size; `length_render`, `size_eq` — what is rendered has it,
  and so has what was computed ahead when it is below 4 GiB;
* `fillSlots_spec`, `namePointers_spec` — the tables and their strings;
* `Exports.Layout` — where everything stands; `layout_render` — **proved**.
-/

namespace Qld.Coff.Edata

open Qld.Lib

namespace Read

/-- The NUL-terminated string at a position. -/
def cString (data : List UInt8) (pos : ℕ) : Option (List UInt8) :=
  if 0 ∈ data.drop pos then some ((data.drop pos).takeWhile (· ≠ 0)) else none

def word (data : List UInt8) (pos : ℕ) : Option ℕ := readLe 4 data pos

/-- A slot of the export address table. -/
def slot (data : List UInt8) (rva index : ℕ) : Option ℕ := do
  let count ← word data 20
  let table ← word data 28
  if index < count then word data (table - rva + index * 4) else none

/-- The address slot of an ordinal. -/
def lookupOrdinal (data : List UInt8) (rva ordinal : ℕ) : Option ℕ := do
  let base ← word data 16
  if ordinal < base then none else slot data rva (ordinal - base)

/-- A name of the name pointer table. -/
def nameAt (data : List UInt8) (rva index : ℕ) : Option (List UInt8) := do
  let table ← word data 32
  let pointer ← word data (table - rva + index * 4)
  cString data (pointer - rva)

/-- The address slot of a name. -/
def lookupName (data : List UInt8) (rva : ℕ) (name : List UInt8) : Option ℕ := do
  let count ← word data 24
  match ← searchEq (nameAt data rva) name 0 count with
  | none => none
  | some index =>
    let ordinals ← word data 36
    slot data rva (← readLe 2 data (ordinals - rva + index * 2))

theorem cString_of_standsAt {data text : List UInt8} {pos : ℕ} (h : StandsAt data pos (text ++ [0]))
    (hnul : 0 ∉ text) : cString data pos = some text := by
  have hdrop : data.drop pos = text ++ 0 :: (data.drop pos).drop (text.length + 1) := by
    have htake := h.take_drop
    rw [List.length_append, List.length_singleton] at htake
    rw [← List.singleton_append, ← List.append_assoc, ← htake, List.take_append_drop]
  have hpos : ∀ b ∈ text, decide (b ≠ 0) = true := fun b hb =>
    decide_eq_true fun hzero => hnul (hzero ▸ hb)
  rw [cString, hdrop, if_pos (List.mem_append_right _ List.mem_cons_self),
    List.takeWhile_append_of_pos hpos, List.takeWhile_cons_of_neg (by simp), List.append_nil]

theorem zero_notMem_of_cString {data text : List UInt8} {pos : ℕ} (h : cString data pos = some text) :
    0 ∉ text := by
  rw [cString] at h
  split at h
  · obtain rfl := Option.some.inj h
    intro hmem
    have hne := List.mem_takeWhile_imp hmem
    exact of_decide_eq_true hne rfl
  · exact nomatch h

end Read

theorem add32_le (a b : ℕ) : add32 a b ≤ U32_MAX := min_le_right _ _

theorem add32_eq {a b : ℕ} (h : a + b ≤ U32_MAX) : add32 a b = a + b := min_eq_left h

theorem mul32_eq {a b : ℕ} (h : a * b ≤ U32_MAX) : mul32 a b = a * b := min_eq_left h

theorem u32OrZero_eq {n : ℕ} (h : n ≤ U32_MAX) : u32OrZero n = n := by
  rw [u32OrZero, if_pos (by rw [U32_MAX] at h; omega)]

/-- The bytes of a NUL-terminated string. -/
def terminated (text : Name) : List UInt8 := text ++ [0]

theorem length_terminated (text : Name) : (terminated text).length = text.length + 1 := by
  rw [terminated, List.length_append, List.length_singleton]

theorem stringSize_eq {text : Name} (h : (terminated text).length ≤ U32_MAX) :
    stringSize text = (terminated text).length := by
  rw [length_terminated] at h ⊢
  rw [stringSize, u32OrZero_eq (by omega), add32_eq h]

theorem foldl_add32 (texts : List Name) (start : ℕ)
    (h : start + (texts.flatMap terminated).length ≤ U32_MAX) :
    (texts.map stringSize).foldl add32 start = start + (texts.flatMap terminated).length := by
  induction texts generalizing start with
  | nil => rfl
  | cons text texts ih =>
    rw [List.flatMap_cons, List.length_append] at h ⊢
    rw [List.map_cons, List.foldl_cons, stringSize_eq (by omega), add32_eq (by omega),
      ih _ (by omega), Nat.add_assoc]

namespace Exports

variable (x : Exports)

/-- All strings of the section. -/
def strings : List UInt8 :=
  terminated x.dllName ++ x.forwarders.flatMap terminated ++
    (x.named.map Export.name).flatMap terminated

/-- The exact size of the section. -/
def bytes : ℕ := 40 + x.addressSlots * 4 + x.named.length * 4 + x.named.length * 2 + x.strings.length

/-- **The size computed ahead is exact below 4 GiB.** -/
theorem size_eq (hne : x.entries ≠ []) (h : x.bytes ≤ U32_MAX) : x.size = x.bytes := by
  have hstrings : x.strings.length = (terminated x.dllName).length +
      ((x.named.map Export.name ++ x.forwarders).flatMap terminated).length := by
    simp only [strings, List.length_append, List.flatMap_append]
    omega
  rw [bytes] at h ⊢
  have hfold := foldl_add32 (x.named.map Export.name ++ x.forwarders)
    (stringSize x.dllName) (by rw [stringSize_eq (by omega)]; omega)
  rw [List.map_append, List.map_map] at hfold
  rw [size, if_neg (by simpa using hne), nameCount, u32OrZero_eq (by omega)]
  simp only
  rw [show (fun e => stringSize e.name) = stringSize ∘ Export.name from rfl, hfold,
    stringSize_eq (by omega), ← hstrings, mul32_eq (by omega), mul32_eq (by omega),
    mul32_eq (by omega), EXPORT_DIRECTORY_SIZE, add32_eq (a := 40) (by omega),
    add32_eq (a := 40 + x.addressSlots * 4) (by omega),
    add32_eq (a := 40 + x.addressSlots * 4 + x.named.length * 4) (by omega), add32_eq (by omega)]

theorem size_le : x.size ≤ U32_MAX := by
  rw [size]
  split
  · exact Nat.zero_le _
  · exact add32_le _ _

/-! ### The tables -/

section Fill

variable (byName : Name → Option UInt32) (stringsRva : ℕ)

/-- The value of an export's slot, where its string stands in the strings. -/
def ValueOk (strings : List UInt8) (e : Export) (value : ℕ) : Prop :=
  match e.forwarder, e.symbol with
  | some forwarder, _ => ∃ pos, StandsAt strings pos (terminated forwarder) ∧
    value = add32 stringsRva (u32OrZero pos)
  | none, some symbol => value = (byName symbol).elim 0 UInt32.toNat
  | none, none => value = 0

theorem ValueOk.append {strings : List UInt8} {e : Export} {value : ℕ}
    (h : ValueOk byName stringsRva strings e value) (after : List UInt8) :
    ValueOk byName stringsRva (strings ++ after) e value := by
  rw [ValueOk] at h ⊢
  split
  · next forwarder _ hforwarder =>
    rw [hforwarder] at h
    obtain ⟨pos, hstands, hvalue⟩ := h
    exact ⟨pos, hstands.append after, hvalue⟩
  · next symbol hforwarder hsymbol =>
    rw [hforwarder, hsymbol] at h
    exact h
  · next hforwarder hsymbol =>
    rw [hforwarder, hsymbol] at h
    exact h

theorem slotValue_spec (strings : List UInt8) (e : Export) :
    (slotValue byName stringsRva strings e).2.1 =
        strings ++ e.forwarder.toList.flatMap terminated ∧
      ValueOk byName stringsRva (slotValue byName stringsRva strings e).2.1 e
        (slotValue byName stringsRva strings e).1 := by
  rw [slotValue, ValueOk]
  cases hforwarder : e.forwarder with
  | some forwarder =>
    refine ⟨?_, strings.length, ?_, rfl⟩
    · simp [pushString, terminated]
    · have := standsAt_append strings (terminated forwarder) []
      rwa [List.append_nil, terminated, ← List.append_assoc] at this
  | none =>
    cases hsymbol : e.symbol with
    | none => exact ⟨(List.append_nil _).symm, rfl⟩
    | some symbol =>
      simp only
      cases hname : byName symbol with
      | none => exact ⟨(List.append_nil _).symm, rfl⟩
      | some rva => exact ⟨(List.append_nil _).symm, rfl⟩

/-- **The export address table and its strings.** -/
theorem fillSlots_spec (l : List Export) (eat : List ℕ) (strings : List UInt8) :
    (x.fillSlots byName stringsRva l eat strings).2.1 =
        strings ++ (l.filterMap Export.forwarder).flatMap terminated ∧
      (x.fillSlots byName stringsRva l eat strings).1.length = eat.length ∧
      (∀ i, (∀ e ∈ l, x.slotOf e.ordinal ≠ i) →
        (x.fillSlots byName stringsRva l eat strings).1[i]? = eat[i]?) ∧
      ((l.map fun e => x.slotOf e.ordinal).Nodup → ∀ e ∈ l, x.slotOf e.ordinal < eat.length →
        ∃ value, (x.fillSlots byName stringsRva l eat strings).1[x.slotOf e.ordinal]? = some value ∧
          ValueOk byName stringsRva (x.fillSlots byName stringsRva l eat strings).2.1 e value) := by
  induction l generalizing eat strings with
  | nil =>
    exact ⟨(List.append_nil _).symm, rfl, fun _ _ => rfl, fun _ e he => absurd he List.not_mem_nil⟩
  | cons e l ih =>
    obtain ⟨hstrings, hvalue⟩ := slotValue_spec byName stringsRva strings e
    simp only [fillSlots]
    generalize slotValue byName stringsRva strings e = value at hstrings hvalue ⊢
    obtain ⟨hall, hlen, hother, hfilled⟩ := ih (eat.set (x.slotOf e.ordinal) value.1) value.2.1
    refine ⟨?_, by rw [hlen, List.length_set], fun i hi => ?_, fun hnodup f hf hlt => ?_⟩
    · rw [hall, hstrings, List.append_assoc, ← List.flatMap_append]
      congr 2
      cases hforwarder : e.forwarder with
      | none => rw [List.filterMap_cons_none hforwarder]; rfl
      | some forwarder => rw [List.filterMap_cons_some hforwarder]; rfl
    · obtain ⟨he, hl⟩ := List.forall_mem_cons.mp hi
      rw [hother i hl, List.getElem?_set_ne he]
    · obtain ⟨hnot, hnodup⟩ := List.nodup_cons.mp hnodup
      rcases List.mem_cons.mp hf with rfl | hf
      · have hlater : ∀ g ∈ l, x.slotOf g.ordinal ≠ x.slotOf f.ordinal := fun g hg heq =>
          hnot (List.mem_map.mpr ⟨g, hg, heq⟩)
        refine ⟨value.1, ?_, ?_⟩
        · rw [hother _ hlater, List.getElem?_set_self hlt]
        · rw [hall]
          exact hvalue.append byName stringsRva _
      · exact hfilled hnodup f hf (by rwa [List.length_set])

/-- **The name pointers and their strings.** -/
theorem namePointers_spec (l : List Export) (strings : List UInt8) :
    (namePointers stringsRva l strings).2 =
        strings ++ (l.map Export.name).flatMap terminated ∧
      (namePointers stringsRva l strings).1.length = l.length ∧
      ∀ (i : ℕ) (e : Export), l[i]? = some e → ∃ pos,
        (namePointers stringsRva l strings).1[i]? = some (add32 stringsRva (u32OrZero pos)) ∧
        StandsAt (namePointers stringsRva l strings).2 pos (terminated e.name) := by
  induction l generalizing strings with
  | nil => exact ⟨(List.append_nil _).symm, rfl, fun i e he => nomatch he⟩
  | cons e l ih =>
    obtain ⟨hall, hlen, hget⟩ := ih (strings ++ terminated e.name)
    have hpushed : (pushString stringsRva strings e.name).2 = strings ++ terminated e.name := by
      rw [pushString, terminated, List.append_assoc]
    simp only [namePointers, hpushed]
    refine ⟨?_, by rw [List.length_cons, hlen, List.length_cons], fun i f hf => ?_⟩
    · rw [hall, List.map_cons, List.flatMap_cons, List.append_assoc]
    · cases i with
      | zero =>
        obtain rfl := Option.some.inj hf
        refine ⟨strings.length, rfl, ?_⟩
        rw [hall]
        exact standsAt_append _ _ _
      | succ i => exact hget i f hf

end Fill

/-! ### The section -/

theorem length_flatMap_leBytes {α : Type*} {f : α → List UInt8} {width : ℕ}
    (hwidth : ∀ a, (f a).length = width) (l : List α) : (l.flatMap f).length = l.length * width := by
  rw [List.length_flatMap, List.map_congr_left fun a _ => hwidth a, List.map_const',
    List.sum_replicate_nat]

/-- Where everything stands in a section at an address. -/
structure Layout (byName : Name → Option UInt32) (rva : ℕ) (data : List UInt8) : Prop where
  length : data.length = x.bytes
  base : readLe 4 data 16 = some x.ordinalBase
  slots : readLe 4 data 20 = some x.addressSlots
  names : readLe 4 data 24 = some x.named.length
  slotTable : readLe 4 data 28 = some (rva + 40)
  nameTable : readLe 4 data 32 = some (rva + 40 + x.addressSlots * 4)
  ordinalTable : readLe 4 data 36 = some (rva + 40 + x.addressSlots * 4 + x.named.length * 4)
  value : ∀ e ∈ x.entries, ∃ value, readLe 4 data (40 + x.slotOf e.ordinal * 4) = some value ∧
    match e.forwarder, e.symbol with
    | some forwarder, _ => ∃ pos, StandsAt data pos (terminated forwarder) ∧ value = rva + pos
    | none, some symbol => value = (byName symbol).elim 0 UInt32.toNat
    | none, none => value = 0
  unused : ∀ i < x.addressSlots, (∀ e ∈ x.entries, x.slotOf e.ordinal ≠ i) →
    readLe 4 data (40 + i * 4) = some 0
  name : ∀ (i : ℕ) (e : Export), x.named[i]? = some e →
    readLe 2 data (40 + x.addressSlots * 4 + x.named.length * 4 + i * 2) =
        some (x.slotOf e.ordinal) ∧
      ∃ pos, readLe 4 data (40 + x.addressSlots * 4 + i * 4) = some (rva + pos) ∧
        StandsAt data pos (terminated e.name)

/-- The export address table and the strings after it. -/
def filled (byName : Name → Option UInt32) (rva : ℕ) : List ℕ × List UInt8 × List Diagnostic :=
  x.fillSlots byName (x.stringsRva rva) x.entries (List.replicate x.addressSlots 0)
    (terminated x.dllName)

/-- The name pointers and the strings after them. -/
def pointers (byName : Name → Option UInt32) (rva : ℕ) : List ℕ × List UInt8 :=
  namePointers (x.stringsRva rva) x.named (x.filled byName rva).2.1

theorem render_eq (hne : x.entries ≠ []) (byName : Name → Option UInt32) (rva : ℕ) :
    (x.render byName rva).1 = leBytes 4 0 ++ (leBytes 4 0 ++ (leBytes 2 0 ++ (leBytes 2 0 ++
      (leBytes 4 (pushString (x.stringsRva rva) [] x.dllName).1 ++ (leBytes 4 x.ordinalBase ++
      (leBytes 4 x.addressSlots ++ (leBytes 4 x.nameCount ++ (leBytes 4 (eatRva rva) ++
      (leBytes 4 (x.nameTableRva rva) ++ (leBytes 4 (x.ordinalTableRva rva) ++
      ((x.filled byName rva).1.flatMap (leBytes 4) ++ ((x.pointers byName rva).1.flatMap (leBytes 4) ++
      (x.named.flatMap (fun e => leBytes 2 (x.slotOf e.ordinal)) ++
      (x.pointers byName rva).2))))))))))))) := by
  rw [render, if_neg (by simpa using hne)]
  simp only [List.append_assoc]
  rfl

theorem strings_pointers (byName : Name → Option UInt32) (rva : ℕ) :
    (x.pointers byName rva).2 = x.strings := by
  obtain ⟨hstrings, -⟩ := x.fillSlots_spec byName (x.stringsRva rva) x.entries
    (List.replicate x.addressSlots 0) (terminated x.dllName)
  obtain ⟨hall, -⟩ := namePointers_spec (x.stringsRva rva) x.named (x.filled byName rva).2.1
  rw [pointers, hall, filled, hstrings, strings, forwarders]

theorem length_render (hne : x.entries ≠ []) (byName : Name → Option UInt32) (rva : ℕ) :
    (x.render byName rva).1.length = x.bytes := by
  have hlen : (x.filled byName rva).1.length = x.addressSlots := by
    rw [filled, (x.fillSlots_spec byName (x.stringsRva rva) x.entries _ _).2.1,
      List.length_replicate]
  have hcount : (x.pointers byName rva).1.length = x.named.length :=
    (namePointers_spec (x.stringsRva rva) x.named (x.filled byName rva).2.1).2.1
  rw [x.render_eq hne, strings_pointers]
  simp only [List.length_append, length_leBytes, length_flatMap_leBytes (length_leBytes 4), hlen,
    hcount, length_flatMap_leBytes (fun e : Export => length_leBytes 2 (x.slotOf e.ordinal))]
  rw [bytes]
  omega

theorem rvas_eq {rva : ℕ} (hfit : rva + x.bytes ≤ U32_MAX) :
    x.nameCount = x.named.length ∧ eatRva rva = rva + 40 ∧
      x.nameTableRva rva = rva + 40 + x.addressSlots * 4 ∧
      x.ordinalTableRva rva = rva + 40 + x.addressSlots * 4 + x.named.length * 4 ∧
      x.stringsRva rva =
        rva + 40 + x.addressSlots * 4 + x.named.length * 4 + x.named.length * 2 := by
  rw [bytes] at hfit
  have hcount : x.nameCount = x.named.length := u32OrZero_eq (by omega)
  have heat : eatRva rva = rva + 40 := add32_eq (by rw [EXPORT_DIRECTORY_SIZE]; omega)
  have hnames : x.nameTableRva rva = rva + 40 + x.addressSlots * 4 := by
    rw [nameTableRva, heat, mul32_eq (by omega), add32_eq (by omega)]
  have hordinals : x.ordinalTableRva rva =
      rva + 40 + x.addressSlots * 4 + x.named.length * 4 := by
    rw [ordinalTableRva, hnames, hcount, mul32_eq (by omega), add32_eq (by omega)]
  refine ⟨hcount, heat, hnames, hordinals, ?_⟩
  rw [stringsRva, hordinals, hcount, mul32_eq (by omega), add32_eq (by omega)]

/-- The address of a string that stands in the strings. -/
theorem stringRva_eq {rva pos : ℕ} {text : Name} (hfit : rva + x.bytes ≤ U32_MAX)
    (h : StandsAt x.strings pos (terminated text)) :
    add32 (x.stringsRva rva) (u32OrZero pos) =
      rva + (40 + x.addressSlots * 4 + x.named.length * 4 + x.named.length * 2 + pos) := by
  have hle := h.le_length (by rw [length_terminated]; omega)
  rw [length_terminated] at hle
  obtain ⟨-, -, -, -, hrva⟩ := x.rvas_eq hfit
  rw [bytes] at hfit
  rw [hrva, u32OrZero_eq (by omega), add32_eq (by omega)]
  omega

/-- **Everything stands where the loader looks for it.** -/
theorem layout_render (hne : x.entries ≠ []) (byName : Name → Option UInt32) {rva : ℕ}
    (hfit : rva + x.bytes ≤ U32_MAX) (hbase : x.ordinalBase ≤ U16_MAX)
    (hslots : ∀ e ∈ x.entries, x.slotOf e.ordinal < x.addressSlots)
    (hnodup : (x.entries.map fun e => x.slotOf e.ordinal).Nodup) :
    x.Layout byName rva (x.render byName rva).1 := by
  obtain ⟨hcount, heat, hnames, hordinals, -⟩ := x.rvas_eq hfit
  obtain ⟨hstrings, hlen, hother, hfilled⟩ := x.fillSlots_spec byName (x.stringsRva rva) x.entries
    (List.replicate x.addressSlots 0) (terminated x.dllName)
  obtain ⟨-, hpointers, hpointer⟩ := namePointers_spec (x.stringsRva rva) x.named
    (x.filled byName rva).2.1
  have hall := x.strings_pointers byName rva
  have hlength := x.length_render hne byName rva
  have hstands := standsAt_self (x.render byName rva).1
  nth_rewrite 2 [x.render_eq hne byName rva] at hstands
  generalize (x.render byName rva).1 = data at hlength hstands ⊢
  rw [← filled, List.length_replicate] at hlen
  rw [← pointers] at hpointers
  simp only [standsAt_append_iff, length_leBytes, length_flatMap_leBytes (length_leBytes 4), hlen,
    hpointers, length_flatMap_leBytes (fun e : Export => length_leBytes 2 (x.slotOf e.ordinal)),
    Nat.zero_add, Nat.reduceAdd, hall, hcount, heat, hnames, hordinals] at hstands
  obtain ⟨-, -, -, -, -, hbaseAt, hslotsAt, hnamesAt, heatAt, hnameTableAt, hordinalTableAt, htable,
    hpointerTable, hordinalTable, hstringTable⟩ := hstands
  have hsize := hfit
  rw [bytes, U32_MAX] at hsize
  rw [U16_MAX] at hbase
  have hstring : ∀ {pos : ℕ} {text : Name}, StandsAt x.strings pos (terminated text) →
      StandsAt data (40 + x.addressSlots * 4 + x.named.length * 4 + x.named.length * 2 + pos)
        (terminated text) := fun h => hstringTable.trans h (by rw [length_terminated]; omega)
  have hslot : ∀ {i value : ℕ}, (x.filled byName rva).1[i]? = some value → value < 2 ^ 32 →
      readLe 4 data (40 + i * 4) = some value := fun hi hlt =>
    readLe_of_standsAt (htable.trans (standsAt_flatMap (length_leBytes 4) hi)
      (by rw [length_leBytes]; omega)) (by decide) hlt
  refine ⟨hlength, readLe_of_standsAt hbaseAt (by decide) (by omega),
    readLe_of_standsAt hslotsAt (by decide) (by omega),
    readLe_of_standsAt hnamesAt (by decide) (by omega),
    readLe_of_standsAt heatAt (by decide) (by omega),
    readLe_of_standsAt hnameTableAt (by decide) (by omega),
    readLe_of_standsAt hordinalTableAt (by decide) (by omega), fun e he => ?_, fun i hi hi' => ?_,
    fun i e hi => ⟨?_, ?_⟩⟩
  · obtain ⟨value, hvalue, hok⟩ := hfilled hnodup e he (by rw [List.length_replicate]; exact hslots e he)
    have hok' : ValueOk byName (x.stringsRva rva) x.strings e value := by
      rw [← hall, pointers, (namePointers_spec _ _ _).1]
      exact hok.append byName _ _
    rw [ValueOk] at hok'
    cases hforwarder : e.forwarder with
    | some forwarder =>
      rw [hforwarder] at hok'
      obtain ⟨pos, hat, rfl⟩ := hok'
      have hle := hat.le_length (by rw [length_terminated]; omega)
      rw [length_terminated] at hle
      rw [x.stringRva_eq hfit hat] at hvalue
      exact ⟨_, hslot hvalue (by omega), _, hstring hat, rfl⟩
    | none =>
      cases hsymbol : e.symbol with
      | none =>
        rw [hforwarder, hsymbol] at hok'
        exact ⟨value, hslot hvalue (by rw [show value = 0 from hok']; decide), hok'⟩
      | some symbol =>
        rw [hforwarder, hsymbol] at hok'
        refine ⟨value, hslot hvalue ?_, hok'⟩
        rw [show value = (byName symbol).elim 0 UInt32.toNat from hok']
        cases byName symbol with
        | none => exact Nat.two_pow_pos 32
        | some address => exact address.toNat_lt
  · refine hslot ?_ (by decide)
    rw [filled, hother i hi', List.getElem?_replicate, if_pos hi]
  · refine readLe_of_standsAt (hordinalTable.trans (standsAt_flatMap (f := fun e : Export =>
      leBytes 2 (x.slotOf e.ordinal)) (fun e => length_leBytes 2 _) hi)
      (by rw [length_leBytes]; omega)) (by decide) ?_
    exact Nat.mod_lt _ (by decide)
  · obtain ⟨pos, hpos, hat⟩ := hpointer i e hi
    rw [← pointers] at hpos hat
    rw [hall] at hat
    rw [x.stringRva_eq hfit hat] at hpos
    refine ⟨_, readLe_of_standsAt (hpointerTable.trans (standsAt_flatMap (length_leBytes 4) hpos)
      (by rw [length_leBytes]; omega)) (by decide) ?_, hstring hat⟩
    have hle := hat.le_length (by rw [length_terminated]; omega)
    rw [length_terminated] at hle
    omega

end Exports

end Qld.Coff.Edata
