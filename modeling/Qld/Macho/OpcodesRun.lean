import Qld.Macho.FixupsCorrect
import Qld.Macho.Opcodes

/-!
# Opcodes and what they do

What dyld does with the opcode streams of `LC_DYLD_INFO_ONLY`: opcodes `SET_*` set registers, and
opcodes `DO_*` rebase or bind the pointer that the registers describe.  `World` is what dyld knows of
the other images, and `loaded` the memory after all streams; `chainedWord` is the same for chained
fixups.

* `rebaseRun`, `bindRun` — what the streams rebase and bind;
* `rebaseMemory`, `bindMemory`, `loaded` — what is then in memory;
* `Emits`, `RebaseEmits` — bytes that take the interpreter from one state to another, with what they
  bind or rebase; they compose;
* `emits_ordinal` … `emits_place` — the opcodes of each register;
* `emits_bindOpcodes` — a bind is told in full, whatever is left out.
-/

namespace Qld.Macho

open Qld.Lib

namespace Read

/-! ### Rebase -/

/-- The registers of the rebase interpreter. -/
structure RebaseState where
  kind : ℕ
  segment : ℕ
  offset : ℕ
  deriving DecidableEq, Repr

/-- A pointer that is rebased. -/
structure Rebasing where
  kind : ℕ
  segment : ℕ
  offset : ℕ
  deriving DecidableEq, Repr

/-- Pointers one after the other. -/
def RebaseState.times (s : RebaseState) (count : ℕ) : List Rebasing :=
  (List.range count).map fun k => ⟨s.kind, s.segment, s.offset + k * 8⟩

/-- What a rebase stream rebases; `none` when it is malformed. -/
def rebaseRun (data : List UInt8) (s : RebaseState) : Option (List Rebasing) :=
  match data with
  | [] => some []
  | byte :: rest =>
    let op := byte.toNat / 16 * 16
    let imm := byte.toNat % 16
    let uleb := readUlebFrom rest 0 0
    if op = REBASE_OPCODE_DONE then some []
    else if op = REBASE_OPCODE_SET_TYPE_IMM then rebaseRun rest { s with kind := imm }
    else if op = REBASE_OPCODE_SET_SEGMENT_AND_OFFSET_ULEB then
      uleb.1.bind fun value => rebaseRun (rest.drop uleb.2) { s with segment := imm, offset := value }
    else if op = REBASE_OPCODE_ADD_ADDR_ULEB then
      uleb.1.bind fun value =>
        rebaseRun (rest.drop uleb.2) { s with offset := (s.offset + value) % 2 ^ 64 }
    else if op = REBASE_OPCODE_DO_REBASE_IMM_TIMES then
      (rebaseRun rest { s with offset := s.offset + imm * 8 }).map (s.times imm ++ ·)
    else if op = REBASE_OPCODE_DO_REBASE_ULEB_TIMES then
      uleb.1.bind fun count =>
        (rebaseRun (rest.drop uleb.2) { s with offset := s.offset + count * 8 }).map
          (s.times count ++ ·)
    else none
termination_by data.length
decreasing_by all_goals simp only [List.length_cons, List.length_drop]; omega

/-! ### Bind -/

/-- The registers of the bind interpreter. -/
structure BindState where
  kind : ℕ
  ordinal : ℤ
  symbol : List UInt8
  flags : ℕ
  addend : ℤ
  segment : ℕ
  offset : ℕ
  deriving DecidableEq, Repr

/-- A pointer that is bound. -/
structure Binding where
  kind : ℕ
  segment : ℕ
  offset : ℕ
  ordinal : ℤ
  symbol : List UInt8
  flags : ℕ
  addend : ℤ
  deriving DecidableEq, Repr

/-- The registers at the start of a stream. -/
def BindState.start : BindState := ⟨0, 0, [], 0, 0, 0, 0⟩

def BindState.binding (s : BindState) : Binding :=
  ⟨s.kind, s.segment, s.offset, s.ordinal, s.symbol, s.flags, s.addend⟩

/-- A special ordinal from its low four bits. -/
def specialOrdinal (imm : ℕ) : ℤ := if imm = 0 then 0 else (imm : ℤ) - 16

/-- What a bind stream binds; `none` when it is malformed. -/
def bindRun (data : List UInt8) (s : BindState) : Option (List Binding) :=
  match data with
  | [] => some []
  | byte :: rest =>
    let op := byte.toNat / 16 * 16
    let imm := byte.toNat % 16
    let uleb := readUlebFrom rest 0 0
    if op = BIND_OPCODE_DONE then some []
    else if op = BIND_OPCODE_SET_DYLIB_ORDINAL_IMM then bindRun rest { s with ordinal := imm }
    else if op = BIND_OPCODE_SET_DYLIB_ORDINAL_ULEB then
      uleb.1.bind fun value => bindRun (rest.drop uleb.2) { s with ordinal := value }
    else if op = BIND_OPCODE_SET_DYLIB_SPECIAL_IMM then
      bindRun rest { s with ordinal := specialOrdinal imm }
    else if op = BIND_OPCODE_SET_SYMBOL_TRAILING_FLAGS_IMM then
      (cstr rest).bind fun name =>
        bindRun (rest.drop (name.length + 1)) { s with symbol := name, flags := imm }
    else if op = BIND_OPCODE_SET_TYPE_IMM then bindRun rest { s with kind := imm }
    else if op = BIND_OPCODE_SET_ADDEND_SLEB then
      (readSlebFrom rest 0 0).bind fun read =>
        bindRun (rest.drop read.2) { s with addend := read.1 }
    else if op = BIND_OPCODE_SET_SEGMENT_AND_OFFSET_ULEB then
      uleb.1.bind fun value => bindRun (rest.drop uleb.2) { s with segment := imm, offset := value }
    else if op = BIND_OPCODE_DO_BIND then
      (bindRun rest { s with offset := s.offset + 8 }).map (s.binding :: ·)
    else none
termination_by data.length
decreasing_by all_goals simp only [List.length_cons, List.length_drop]; omega

/-! ### Memory -/

/-- What dyld knows when it loads the image: where it is, and the symbols of all images. -/
structure World where
  slide : ℕ
  /-- A symbol of the library with an ordinal. -/
  lookup : ℤ → List UInt8 → Bool → ℕ
  /-- The definition that wins among all images. -/
  coalesce : List UInt8 → ℕ

/-- The address that an import is bound to. -/
def World.resolve (world : World) (ordinal : ℤ) (name : List UInt8) (weak : Bool) : ℕ :=
  if ordinal = BIND_SPECIAL_DYLIB_WEAK_LOOKUP then world.coalesce name
  else world.lookup ordinal name weak

/-- An address plus an addend. -/
def plus (address : ℕ) (addend : ℤ) : ℕ := (((address : ℤ) + addend) % 2 ^ 64).toNat

/-- The address of a place in a segment. -/
def addressOf (layout : Layout) (segment offset : ℕ) : ℕ :=
  (layout.segments[segment]?.map fun s => s.vmaddr + offset).getD 0

/-- Changes words of memory, one after the other. -/
def changeWords (changes : List (ℕ × (ℕ → ℕ))) (memory : ℕ → ℕ) : ℕ → ℕ :=
  changes.foldl (fun memory change => Function.update memory change.1 (change.2 (memory change.1)))
    memory

/-- Memory after a rebase stream. -/
def rebaseMemory (layout : Layout) (world : World) (rebasings : List Rebasing) :
    (ℕ → ℕ) → ℕ → ℕ :=
  changeWords (rebasings.map fun r =>
    (addressOf layout r.segment r.offset, fun word => plus word world.slide))

/-- Memory after a bind stream. -/
def bindMemory (layout : Layout) (world : World) (bindings : List Binding) : (ℕ → ℕ) → ℕ → ℕ :=
  changeWords (bindings.map fun b => (addressOf layout b.segment b.offset, fun _ =>
    plus (world.resolve b.ordinal b.symbol (decide (b.flags = BIND_SYMBOL_FLAGS_WEAK_IMPORT)))
      b.addend))

/-- Memory after a weak binding stream. -/
def weakMemory (layout : Layout) (world : World) (bindings : List Binding) : (ℕ → ℕ) → ℕ → ℕ :=
  changeWords (bindings.map fun b =>
    (addressOf layout b.segment b.offset, fun _ => plus (world.coalesce b.symbol) b.addend))

/-- The words of an image, as it is mapped. -/
def mapped (layout : Layout) (image : List UInt8) (address : ℕ) : ℕ :=
  ((layout.fileOffset address).bind (readLe 8 image)).getD 0

/-- A pointer in memory: its address, and how it is signed. -/
abbrev SignedPointer : Type := ℕ × Option PtrAuth

/-- The pointers after all streams; opcodes do not sign. -/
def loaded (layout : Layout) (world : World) (streams : Opcodes) (image : List UInt8)
    (address : ℕ) : Option SignedPointer := do
  let rebasings ← rebaseRun streams.rebase ⟨0, 0, 0⟩
  let bindings ← bindRun streams.bind .start
  let weak ← bindRun streams.weakBind .start
  return (weakMemory layout world weak (bindMemory layout world bindings
    (rebaseMemory layout world rebasings (mapped layout image))) address, none)

/-- The pointer that dyld makes of a chained one. -/
def chainedWord (layout : Layout) (world : World) (chosen : PointerFormat) (imageBase : ℕ)
    (c : ChainedFixups) (image : List UInt8) (address : ℕ) : Option SignedPointer := do
  let file ← layout.fileOffset address
  let raw ← readLe 8 image file
  match decode chosen imageBase raw with
  | .rebase target auth => some (plus target world.slide, auth)
  | .bind index stored auth =>
    match c.importAt index with
    | .ok entry => some (plus (world.resolve entry.libOrdinal entry.name entry.weakImport)
        (stored + entry.addend), auth)
    | .error _ => none

end Read

open Read

/-! ### Bytes -/

theorem opcode_spec (op : ℕ) {imm : ℕ} (hop : op % 16 = 0 ∧ op < 256) (himm : imm < 16) :
    (opcode op imm).toNat / 16 * 16 = op ∧ (opcode op imm).toNat % 16 = imm := by
  have hor : op ||| imm = op + imm := by
    have hshift : op = (op / 16) <<< 4 := by
      rw [Nat.shiftLeft_eq]
      omega
    rw [Nat.or_comm, hshift, or_shiftLeft _ (by omega), Nat.shiftLeft_eq, Nat.add_comm]
  rw [opcode, hor, UInt8.toNat_ofNat']
  omega

theorem readUlebFrom_append {value : ℕ} (hvalue : value < 2 ^ 64) (rest : List UInt8) :
    readUlebFrom (pushUleb value ++ rest) 0 0 = (some value, (pushUleb value).length) := by
  rw [readUlebFrom_pushUleb rest value 0 0 (by decide) (fun _ => rfl) (by rwa [Nat.shiftLeft_zero]),
    Nat.shiftLeft_zero, Nat.zero_add]

theorem run_append {σ δ : Type} {run : List UInt8 → σ → Option (List δ)}
    {bytes bytes' : List UInt8} {s s' s'' : σ} {done done' : List δ}
    (h : ∀ rest, run (bytes ++ rest) s = (run rest s').map (done ++ ·))
    (h' : ∀ rest, run (bytes' ++ rest) s' = (run rest s'').map (done' ++ ·)) (rest : List UInt8) :
    run (bytes ++ bytes' ++ rest) s = (run rest s'').map (done ++ done' ++ ·) := by
  rw [List.append_assoc, h, h', Option.map_map]
  congr 1
  funext more
  exact (List.append_assoc _ _ _).symm

/-! ### Rebase -/

/-- Bytes of a rebase stream, and what they do. -/
def RebaseEmits (bytes : List UInt8) (s : RebaseState) (done : List Rebasing) (s' : RebaseState) :
    Prop :=
  ∀ rest, rebaseRun (bytes ++ rest) s = (rebaseRun rest s').map (done ++ ·)

theorem RebaseEmits.nil (s : RebaseState) : RebaseEmits [] s [] s := by
  intro rest
  rw [List.nil_append]
  exact Option.map_id'.symm

variable {bytes : List UInt8} {s s' : RebaseState} {done : List Rebasing}

theorem RebaseEmits.append {bytes' : List UInt8} {s'' : RebaseState} {done' : List Rebasing}
    (h : RebaseEmits bytes s done s') (h' : RebaseEmits bytes' s' done' s'') :
    RebaseEmits (bytes ++ bytes') s (done ++ done') s'' :=
  run_append h h'

theorem rebaseEmits_type (s : RebaseState) :
    RebaseEmits [opcode REBASE_OPCODE_SET_TYPE_IMM REBASE_TYPE_POINTER] s []
      { s with kind := REBASE_TYPE_POINTER } := by
  obtain ⟨hop, himm⟩ := opcode_spec REBASE_OPCODE_SET_TYPE_IMM (by decide)
    (by decide : REBASE_TYPE_POINTER < 16)
  intro rest
  rw [List.singleton_append, rebaseRun]
  simp only [hop, himm]
  rw [if_neg (by decide), if_pos trivial]
  exact Option.map_id'.symm

theorem rebaseEmits_place {segment offset : ℕ} (hsegment : segment < 16) (hoffset : offset < 2 ^ 64)
    (s : RebaseState) :
    RebaseEmits ([opcode REBASE_OPCODE_SET_SEGMENT_AND_OFFSET_ULEB segment] ++ pushUleb offset) s []
      { s with segment := segment, offset := offset } := by
  obtain ⟨hop, himm⟩ := opcode_spec REBASE_OPCODE_SET_SEGMENT_AND_OFFSET_ULEB (by decide)
    hsegment
  intro rest
  rw [List.append_assoc, List.singleton_append, rebaseRun]
  simp only [hop, himm, readUlebFrom_append hoffset, List.drop_left]
  rw [if_neg (by decide), if_neg (by decide), if_pos trivial]
  exact Option.map_id'.symm

theorem rebaseEmits_once (s : RebaseState) :
    RebaseEmits [opcode REBASE_OPCODE_DO_REBASE_IMM_TIMES 1] s
      [⟨s.kind, s.segment, s.offset⟩] { s with offset := s.offset + 8 } := by
  obtain ⟨hop, himm⟩ := opcode_spec REBASE_OPCODE_DO_REBASE_IMM_TIMES (by decide)
    (by decide : 1 < 16)
  intro rest
  rw [List.singleton_append, rebaseRun]
  simp only [hop, himm]
  rw [if_neg (by decide), if_neg (by decide), if_neg (by decide), if_neg (by decide),
    if_pos trivial]
  rfl

theorem RebaseEmits.run (h : RebaseEmits bytes s done s') : rebaseRun bytes s = some done := by
  have hall := h []
  rw [List.append_nil, rebaseRun.eq_def [], Option.map_some, List.append_nil] at hall
  exact hall

theorem rebaseRun_done (s : RebaseState) (rest : List UInt8) :
    rebaseRun (opcode REBASE_OPCODE_DONE 0 :: rest) s = some [] := by
  obtain ⟨hop, -⟩ := opcode_spec REBASE_OPCODE_DONE (by decide) (by decide : 0 < 16)
  rw [rebaseRun]
  simp only [hop]
  rw [if_pos trivial]

/-! ### Bind -/

/-- Bytes of a bind stream, and what they do. -/
def Emits (bytes : List UInt8) (s : BindState) (done : List Binding) (s' : BindState) : Prop :=
  ∀ rest, bindRun (bytes ++ rest) s = (bindRun rest s').map (done ++ ·)

theorem Emits.nil (s : BindState) : Emits [] s [] s := by
  intro rest
  rw [List.nil_append]
  exact Option.map_id'.symm

theorem Emits.append {bytes' : List UInt8} {s s' s'' : BindState} {done done' : List Binding}
    (h : Emits bytes s done s') (h' : Emits bytes' s' done' s'') :
    Emits (bytes ++ bytes') s (done ++ done') s'' :=
  run_append h h'

theorem emits_type (s : BindState) :
    Emits [opcode BIND_OPCODE_SET_TYPE_IMM BIND_TYPE_POINTER] s []
      { s with kind := BIND_TYPE_POINTER } := by
  obtain ⟨hop, himm⟩ := opcode_spec BIND_OPCODE_SET_TYPE_IMM (by decide)
    (by decide : BIND_TYPE_POINTER < 16)
  intro rest
  rw [List.singleton_append, bindRun]
  simp only [hop, himm]
  rw [if_neg (by decide), if_neg (by decide), if_neg (by decide), if_neg (by decide),
    if_neg (by decide), if_pos trivial]
  exact Option.map_id'.symm

/-- A special ordinal is known by its low four bits. -/
theorem specialOrdinal_eq {ordinal : ℤ} (hlow : -15 ≤ ordinal) (hhigh : ordinal < 0) :
    asU64 ordinal % 2 ^ 8 &&& 0x0f < 16 ∧
      specialOrdinal (asU64 ordinal % 2 ^ 8 &&& 0x0f) = ordinal := by
  have himm : asU64 ordinal % 2 ^ 8 &&& 0x0f = (ordinal + 16).toNat := by
    rw [show (0x0f : ℕ) = 2 ^ 4 - 1 from rfl, Nat.and_two_pow_sub_one_eq_mod, asU64]
    omega
  rw [himm, specialOrdinal, if_neg (by omega)]
  omega

theorem emits_ordinal {ordinal : ℤ} (hlow : -15 ≤ ordinal) (hhigh : ordinal < 2 ^ 31)
    (s : BindState) : Emits (ordinalOpcodes ordinal) s [] { s with ordinal := ordinal } := by
  intro rest
  rw [ordinalOpcodes]
  split
  · next himm =>
    have hvalue : asU64 ordinal % 2 ^ 8 = ordinal.toNat := by
      rw [asU64]
      omega
    obtain ⟨hop, hnibble⟩ := opcode_spec BIND_OPCODE_SET_DYLIB_ORDINAL_IMM (by decide)
      (by omega : ordinal.toNat < 16)
    rw [hvalue, List.singleton_append, bindRun]
    simp only [hop, hnibble]
    rw [if_neg (by decide), if_pos trivial, Int.toNat_of_nonneg himm.1]
    exact Option.map_id'.symm
  split
  · next hlarge =>
    have hvalue : asU64 ordinal = ordinal.toNat := by
      rw [asU64]
      omega
    obtain ⟨hop, -⟩ := opcode_spec BIND_OPCODE_SET_DYLIB_ORDINAL_ULEB (by decide)
      (by decide : 0 < 16)
    rw [hvalue, List.cons_append, bindRun]
    simp only [hop, readUlebFrom_append (by omega : ordinal.toNat < 2 ^ 64), List.drop_left]
    rw [if_neg (by decide), if_neg (by decide), if_pos trivial, Option.bind_some,
      Int.toNat_of_nonneg (by omega)]
    exact Option.map_id'.symm
  · obtain ⟨hlt, hspecial⟩ := specialOrdinal_eq hlow (by omega : ordinal < 0)
    obtain ⟨hop, hnibble⟩ := opcode_spec BIND_OPCODE_SET_DYLIB_SPECIAL_IMM (by decide) hlt
    rw [List.singleton_append, bindRun]
    simp only [hop, hnibble]
    rw [if_neg (by decide), if_neg (by decide), if_neg (by decide), if_pos trivial, hspecial]
    exact Option.map_id'.symm

theorem emits_symbol {flags : ℕ} {name : List UInt8} (hflags : flags < 16) (hname : 0 ∉ name)
    (s : BindState) :
    Emits (symbolOpcodes flags name) s [] { s with symbol := name, flags := flags } := by
  obtain ⟨hop, himm⟩ := opcode_spec BIND_OPCODE_SET_SYMBOL_TRAILING_FLAGS_IMM (by decide)
    hflags
  intro rest
  have hdrop : (name ++ 0 :: rest).drop (name.length + 1) = rest := by
    rw [← List.drop_drop, List.drop_left]
    rfl
  rw [symbolOpcodes, List.append_assoc, List.append_assoc, List.singleton_append,
    List.singleton_append, bindRun]
  simp only [hop, himm, cstr_append hname]
  rw [if_neg (by decide), if_neg (by decide), if_neg (by decide), if_neg (by decide),
    if_pos trivial, Option.bind_some, hdrop]
  exact Option.map_id'.symm

theorem emits_addend {addend : ℤ} (hlow : -2 ^ 63 ≤ addend) (hhigh : addend < 2 ^ 63)
    (s : BindState) : Emits (addendOpcodes addend) s [] { s with addend := addend } := by
  obtain ⟨hop, -⟩ := opcode_spec BIND_OPCODE_SET_ADDEND_SLEB (by decide)
    (by decide : 0 < 16)
  intro rest
  rw [addendOpcodes, List.cons_append, bindRun]
  simp only [hop, readSleb_pushSleb rest hlow hhigh]
  rw [if_neg (by decide), if_neg (by decide), if_neg (by decide), if_neg (by decide),
    if_neg (by decide), if_neg (by decide), if_pos trivial, Option.bind_some, List.drop_left]
  exact Option.map_id'.symm

theorem emits_place {segment offset : ℕ} (hsegment : segment < 16) (hoffset : offset < 2 ^ 64)
    (s : BindState) :
    Emits (placeOpcodes segment offset) s
      [{ s with segment := segment, offset := offset : BindState }.binding]
      { s with segment := segment, offset := offset + 8 } := by
  obtain ⟨hop, himm⟩ := opcode_spec BIND_OPCODE_SET_SEGMENT_AND_OFFSET_ULEB (by decide)
    hsegment
  obtain ⟨hop', -⟩ := opcode_spec BIND_OPCODE_DO_BIND (by decide) (by decide : 0 < 16)
  intro rest
  rw [placeOpcodes, List.append_assoc, List.append_assoc, List.singleton_append, bindRun]
  simp only [hop, himm, readUlebFrom_append hoffset, List.drop_left]
  rw [if_neg (by decide), if_neg (by decide), if_neg (by decide), if_neg (by decide),
    if_neg (by decide), if_neg (by decide), if_neg (by decide), if_pos trivial, Option.bind_some,
    List.singleton_append, bindRun]
  simp only [hop']
  rw [if_neg (by decide), if_neg (by decide), if_neg (by decide), if_neg (by decide),
    if_neg (by decide), if_neg (by decide), if_neg (by decide), if_neg (by decide), if_pos trivial]
  rfl

theorem Emits.run {s s' : BindState} {done : List Binding} (h : Emits bytes s done s') :
    bindRun bytes s = some done := by
  have hall := h []
  rw [List.append_nil, bindRun.eq_def [], Option.map_some, List.append_nil] at hall
  exact hall

theorem bindRun_done (s : BindState) (rest : List UInt8) :
    bindRun (opcode BIND_OPCODE_DONE 0 :: rest) s = some [] := by
  obtain ⟨hop, -⟩ := opcode_spec BIND_OPCODE_DONE (by decide) (by decide : 0 < 16)
  rw [bindRun]
  simp only [hop]
  rw [if_pos trivial]

/-! ### Binds -/

/-- What the interpreter needs of an import: an `i32` ordinal, which is special from `-15` on. -/
def Import.Typed (m : Import) : Prop := -15 ≤ m.ordinal ∧ m.ordinal < 2 ^ 31

/-- The flags of an import. -/
def Import.flags (m : Import) : ℕ := if m.weak then BIND_SYMBOL_FLAGS_WEAK_IMPORT else 0

theorem Import.flags_lt (m : Import) : m.flags < 16 := by
  rw [Import.flags]
  split <;> decide

/-- The registers hold what the encoder last set. -/
def Holds (imports : List Import) : Option (ℤ × ℕ × ℤ) → BindState → Prop
  | none, r => r = .start
  | some (ordinal, symbol, addend), r => r.kind = BIND_TYPE_POINTER ∧ r.ordinal = ordinal ∧
      r.addend = addend ∧ ∃ m, imports[symbol]? = some m ∧ r.symbol = m.name ∧ r.flags = m.flags

/-- **A bind is told in full, whatever is left out.** -/
theorem emits_bindOpcodes {imports : List Import} {current : Option (ℤ × ℕ × ℤ)} {r : BindState}
    {x : Located} {symbol : ℕ} {m : Import} {addend : ℤ} (hholds : Holds imports current r)
    (hm : imports[symbol]? = some m) (hordinal : m.Typed)
    (haddend : -2 ^ 63 ≤ addend ∧ addend < 2 ^ 63) (hsegment : x.segment < 16)
    (hoffset : x.offset < 2 ^ 64) :
    ∃ r', Emits (bindOpcodes current x symbol m addend) r
        [⟨BIND_TYPE_POINTER, x.segment, x.offset, m.ordinal, m.name, m.flags, addend⟩] r' ∧
      Holds imports (some (m.ordinal, symbol, addend)) r' := by
  have hfirst : Emits (if current.map (fun c => c.1) ≠ some m.ordinal then ordinalOpcodes m.ordinal
      else []) r [] { r with ordinal := m.ordinal } := by
    split
    · exact emits_ordinal hordinal.1 hordinal.2 r
    · next hsame =>
      obtain ⟨⟨ordinal, i, a⟩, rfl, hi⟩ := Option.map_eq_some_iff.mp (not_not.mp hsame)
      have hr : { r with ordinal := m.ordinal } = r := by
        rw [← hi, ← hholds.2.1]
      rw [hr]
      exact .nil r
  have hsecond : Emits (if current.any fun c => c.2.1 = symbol then []
      else symbolOpcodes m.flags m.name ++
        if current.isNone then [opcode BIND_OPCODE_SET_TYPE_IMM BIND_TYPE_POINTER] else [])
      { r with ordinal := m.ordinal } []
      { r with ordinal := m.ordinal, symbol := m.name, flags := m.flags,
               kind := BIND_TYPE_POINTER } := by
    cases current with
    | none =>
      exact (emits_symbol m.flags_lt m.terminated _).append (emits_type _)
    | some c =>
      obtain ⟨ordinal, i, a⟩ := c
      obtain ⟨hkind, -, -, m', hm', hname, hflags⟩ := hholds
      rw [Option.any_some, ← hkind]
      by_cases hsame : i = symbol
      · rw [if_pos (decide_eq_true hsame)]
        obtain rfl := Option.some.inj (hm'.symm.trans (hsame ▸ hm))
        rw [← hname, ← hflags]
        exact .nil _
      · rw [if_neg (by rw [decide_eq_true_eq]; exact hsame)]
        exact (emits_symbol m.flags_lt m.terminated _).append (.nil _)
  have hthird : Emits (if current.map (fun c => c.2.2) ≠ some addend then addendOpcodes addend
      else [])
      { r with ordinal := m.ordinal, symbol := m.name, flags := m.flags, kind := BIND_TYPE_POINTER }
      [] { r with ordinal := m.ordinal, symbol := m.name, flags := m.flags,
                  kind := BIND_TYPE_POINTER, addend := addend } := by
    split
    · exact emits_addend haddend.1 haddend.2 _
    · next hsame =>
      obtain ⟨⟨ordinal, i, a⟩, rfl, hi⟩ := Option.map_eq_some_iff.mp (not_not.mp hsame)
      rw [← hi, ← hholds.2.2.1]
      exact .nil _
  refine ⟨_, ((hfirst.append hsecond).append hthird).append (emits_place hsegment hoffset _), rfl,
    rfl, rfl, m, hm, rfl, rfl⟩

/-! ### Weak binds -/

/-- The registers hold the name and the addend of the last entry. -/
def HoldsWeak : Option (List UInt8 × ℤ) → BindState → Prop
  | none, r => r = { BindState.start with kind := BIND_TYPE_POINTER }
  | some (name, addend), r => r.kind = BIND_TYPE_POINTER ∧ r.ordinal = 0 ∧ r.flags = 0 ∧
      r.symbol = name ∧ r.addend = addend

/-- What is known of an entry. -/
structure WeakEntry.Typed (entry : WeakEntry) : Prop where
  name : 0 ∉ entry.name
  segment : entry.segment < 16
  offset : entry.offset < 2 ^ 64
  addend : -2 ^ 63 ≤ entry.addend ∧ entry.addend < 2 ^ 63

/-- The binding of an entry. -/
def WeakEntry.binding (entry : WeakEntry) : Binding :=
  ⟨BIND_TYPE_POINTER, entry.segment, entry.offset, 0, entry.name, 0, entry.addend⟩

theorem emits_weakEntry {current : Option (List UInt8 × ℤ)} {r : BindState} {entry : WeakEntry}
    (hholds : HoldsWeak current r) (hentry : entry.Typed) :
    ∃ r', Emits (weakEntryOpcodes current entry) r [entry.binding] r' ∧
      HoldsWeak (some (entry.name, entry.addend)) r' := by
  have hkept : r.kind = BIND_TYPE_POINTER ∧ r.ordinal = 0 ∧ r.flags = 0 := by
    cases current with
    | none =>
      rw [show r = _ from hholds]
      exact ⟨rfl, rfl, rfl⟩
    | some c => exact ⟨hholds.1, hholds.2.1, hholds.2.2.1⟩
  have hfirst : Emits (if current.map (fun c => c.1) ≠ some entry.name
      then symbolOpcodes 0 entry.name else []) r [] { r with symbol := entry.name, flags := 0 } := by
    split
    · exact emits_symbol (by decide) hentry.name r
    · next hsame =>
      obtain ⟨⟨name, a⟩, rfl, hname⟩ := Option.map_eq_some_iff.mp (not_not.mp hsame)
      have hr : { r with symbol := entry.name, flags := 0 } = r := by
        rw [← hname, ← hholds.2.2.2.1, ← hkept.2.2]
      rw [hr]
      exact .nil r
  have hsecond : Emits (if current.map (fun c => c.2) ≠ some entry.addend
      then addendOpcodes entry.addend else []) { r with symbol := entry.name, flags := 0 } []
      { r with symbol := entry.name, flags := 0, addend := entry.addend } := by
    split
    · exact emits_addend hentry.addend.1 hentry.addend.2 _
    · next hsame =>
      obtain ⟨⟨name, a⟩, rfl, ha⟩ := Option.map_eq_some_iff.mp (not_not.mp hsame)
      rw [← ha, ← hholds.2.2.2.2]
      exact .nil _
  have hall := (hfirst.append hsecond).append (emits_place hentry.segment hentry.offset _)
  rw [BindState.binding, hkept.1, hkept.2.1] at hall
  exact ⟨_, hall, rfl, rfl, rfl, rfl, rfl⟩

theorem emits_weakEntries (entries : List WeakEntry) : ∀ (current : Option (List UInt8 × ℤ))
    {r : BindState}, HoldsWeak current r → (∀ entry ∈ entries, entry.Typed) →
    ∃ r', Emits (weakEntriesOpcodes current entries) r (entries.map WeakEntry.binding) r' := by
  induction entries with
  | nil => exact fun _ {r} _ _ => ⟨r, .nil r⟩
  | cons entry entries ih =>
    intro current r hholds htyped
    obtain ⟨hentry, hentries⟩ := List.forall_mem_cons.mp htyped
    obtain ⟨r', hfirst, hholds'⟩ := emits_weakEntry hholds hentry
    obtain ⟨r'', hrest⟩ := ih _ hholds' hentries
    exact ⟨r'', hfirst.append hrest⟩

theorem bindRun_padded {s s' : BindState} {done : List Binding} (h : Emits bytes s done s') :
    bindRun (pad8 (bytes ++ [opcode BIND_OPCODE_DONE 0])) s = some done := by
  rw [pad8, List.append_assoc, h, List.singleton_append, bindRun_done, Option.map_some,
    List.append_nil]

theorem rebaseRun_padded (h : RebaseEmits bytes s done s') :
    rebaseRun (pad8 (bytes ++ [opcode REBASE_OPCODE_DONE 0])) s = some done := by
  rw [pad8, List.append_assoc, h, List.singleton_append, rebaseRun_done, Option.map_some,
    List.append_nil]

/-- **The weak binding stream lists its entries, sorted.** -/
theorem bindRun_weakBindOpcodes {entries : List WeakEntry} (htyped : ∀ entry ∈ entries, entry.Typed) :
    bindRun (weakBindOpcodes entries) .start =
      some ((entries.mergeSort weakLe).map WeakEntry.binding) := by
  rw [weakBindOpcodes]
  split
  · next hempty =>
    rw [List.isEmpty_iff.mp hempty, bindRun, List.mergeSort_nil]
    rfl
  · obtain ⟨r', hentries⟩ := emits_weakEntries (entries.mergeSort weakLe) none rfl
      fun entry hentry => htyped entry (List.mem_mergeSort.mp hentry)
    exact bindRun_padded ((emits_type _).append hentries)

end Qld.Macho
