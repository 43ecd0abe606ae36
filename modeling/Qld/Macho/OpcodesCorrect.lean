import Qld.Macho.OpcodesTold

/-!
# Opcodes and memory

* `World.valueOf` — the pointer that a fixup asks for;
* `opcodes_told` — the streams tell the fixups, the memory that dyld makes of them has
  the pointers that they ask for, and these are the pointers of the chained form;
* `opcodes_unsigned` — not so for signed pointers and for fields that overlap.
-/

namespace Qld.Macho

open Qld.Lib Read

variable {layout : Layout} {imports : List Import} {weakTargets : List (Option ℕ)}

/-! ### Memory -/

theorem changeWords_of_notMem (changes : List (ℕ × (ℕ → ℕ))) : ∀ {memory : ℕ → ℕ} {a : ℕ},
    a ∉ changes.map Prod.fst → changeWords changes memory a = memory a := by
  induction changes with
  | nil => exact fun {_ _} _ => rfl
  | cons change changes ih =>
    intro memory a ha
    rw [List.map_cons, List.mem_cons, not_or] at ha
    show changeWords changes (Function.update memory change.1 (change.2 (memory change.1))) a = _
    rw [ih ha.2, Function.update_of_ne ha.1]

theorem changeWords_of_mem (changes : List (ℕ × (ℕ → ℕ))) : ∀ {memory : ℕ → ℕ} {a : ℕ} {g : ℕ → ℕ},
    (changes.map Prod.fst).Nodup → (a, g) ∈ changes → changeWords changes memory a = g (memory a) := by
  induction changes with
  | nil => exact fun {_ _ _} _ h => absurd h List.not_mem_nil
  | cons change changes ih =>
    intro memory a g hnodup h
    rw [List.map_cons, List.nodup_cons] at hnodup
    show changeWords changes (Function.update memory change.1 (change.2 (memory change.1))) a = _
    rcases List.mem_cons.mp h with rfl | h
    · rw [changeWords_of_notMem changes hnodup.1, Function.update_self]
    · have hne : a ≠ change.1 := by
        rintro rfl
        exact hnodup.1 (List.mem_map.mpr ⟨_, h, rfl⟩)
      rw [ih hnodup.2 h, Function.update_of_ne hne]

/-- The pointer that a fixup asks for. -/
def Read.World.valueOf (world : World) (imports : List Import) (f : Fixup) : Option ℕ :=
  match f.kind with
  | .rebase target => some (plus target world.slide)
  | .bind symbol addend => imports[symbol]?.map fun m =>
      plus (world.resolve m.ordinal m.name m.weak) addend

variable {located : List Located}

/-- Addresses of part of a list without repetition. -/
theorem addresses_nodup {α : Type} {f : Located → Option α} {g : α → ℕ}
    (hnodup : (located.map fun x => x.fixup.address).Nodup)
    (hfg : ∀ x ∈ located, ∀ y, f x = some y → g y = x.fixup.address) :
    ((located.filterMap f).map g).Nodup := by
  refine List.Nodup.sublist ?_ hnodup
  clear hnodup
  induction located with
  | nil => exact .slnil
  | cons x located ih =>
    obtain ⟨hx, hrest⟩ := List.forall_mem_cons.mp hfg
    rw [List.filterMap_cons, List.map_cons]
    cases hy : f x with
    | none => exact (ih hrest).cons _
    | some y =>
      dsimp only
      rw [List.map_cons, hx y hy]
      exact (ih hrest).cons_cons _

theorem address_notMem {α : Type} {f : Located → Option α} {g : α → ℕ}
    (hnodup : (located.map fun x => x.fixup.address).Nodup)
    (hfg : ∀ x ∈ located, ∀ y, f x = some y → g y = x.fixup.address) {x : Located}
    (hx : x ∈ located) (hnone : f x = none) : x.fixup.address ∉ (located.filterMap f).map g := by
  intro hmem
  obtain ⟨y, hy, hyx⟩ := List.mem_map.mp hmem
  obtain ⟨z, hz, hzy⟩ := List.mem_filterMap.mp hy
  have hsame : z.fixup.address = x.fixup.address := (hfg z hz y hzy).symm.trans hyx
  obtain rfl := List.inj_on_of_nodup_map hnodup hz hx hsame
  rw [hnone] at hzy
  exact nomatch hzy

/-! ### Loading -/

theorem IsWord.lt {f : Fixup} {word : ℕ} (h : IsWord imports weakTargets f word) :
    word < 2 ^ 64 := by
  have htyped := f.typed
  rw [IsWord] at h
  cases hkind : f.kind with
  | rebase target =>
    rw [hkind] at h htyped
    rw [show word = target from h]
    exact htyped
  | bind symbol addend =>
    rw [hkind] at h
    obtain ⟨m, -, h⟩ := h
    split at h
    · obtain ⟨target, -, rfl⟩ := h
      exact Nat.mod_lt _ (Nat.two_pow_pos 64)
    · rw [h]
      exact Nat.two_pow_pos 64

/-- The address that a bind changes. -/
def bindAddress (layout : Layout) (b : Binding) : ℕ := addressOf layout b.segment b.offset

section Memory

variable {world : World} {memory : ℕ → ℕ}

theorem rebaseMemory_of_mem {rebasings : List Rebasing} {r : Rebasing}
    (hnodup : (rebasings.map (rebasedAt layout)).Nodup) (h : r ∈ rebasings) :
    rebaseMemory layout world rebasings memory (rebasedAt layout r) =
      plus (memory (rebasedAt layout r)) world.slide := by
  refine changeWords_of_mem _ (g := fun word => plus word world.slide) ?_
    (List.mem_map.mpr ⟨r, h, rfl⟩)
  rw [List.map_map]
  exact hnodup

variable {bindings : List Binding}

theorem bindMemory_of_notMem {a : ℕ} (h : a ∉ bindings.map (bindAddress layout)) :
    bindMemory layout world bindings memory a = memory a := by
  refine changeWords_of_notMem _ ?_
  rw [List.map_map]
  exact h

theorem bindMemory_of_mem {b : Binding} (hnodup : (bindings.map (bindAddress layout)).Nodup)
    (h : b ∈ bindings) :
    bindMemory layout world bindings memory (bindAddress layout b) = plus (world.resolve b.ordinal
      b.symbol (decide (b.flags = BIND_SYMBOL_FLAGS_WEAK_IMPORT))) b.addend := by
  refine changeWords_of_mem _ (g := fun _ => plus (world.resolve b.ordinal b.symbol
    (decide (b.flags = BIND_SYMBOL_FLAGS_WEAK_IMPORT))) b.addend) ?_
    (List.mem_map.mpr ⟨b, h, rfl⟩)
  rw [List.map_map]
  exact hnodup

theorem weakMemory_of_notMem {a : ℕ} (h : a ∉ bindings.map (bindAddress layout)) :
    weakMemory layout world bindings memory a = memory a := by
  refine changeWords_of_notMem _ ?_
  rw [List.map_map]
  exact h

theorem weakMemory_of_mem {b : Binding} (hnodup : (bindings.map (bindAddress layout)).Nodup)
    (h : b ∈ bindings) :
    weakMemory layout world bindings memory (bindAddress layout b) =
      plus (world.coalesce b.symbol) b.addend := by
  refine changeWords_of_mem _ (g := fun _ => plus (world.coalesce b.symbol) b.addend) ?_
    (List.mem_map.mpr ⟨b, h, rfl⟩)
  rw [List.map_map]
  exact hnodup

end Memory

namespace Streamed

variable {fixups : List Fixup} {streams : Opcodes} {image : List UInt8} {located : List Located}

section

variable (h : Streamed layout fixups imports weakTargets streams image located)

include h

theorem rebased_address :
    ∀ x ∈ located, ∀ r, rebasingOf imports x = some r → rebasedAt layout r = x.fixup.address := by
  intro x hx r hr
  rw [rebasingOf_place hr]
  exact addressOf_eq (h.found x hx)

theorem bound_address :
    ∀ x ∈ located, ∀ b, bindingOf imports x = some b → bindAddress layout b = x.fixup.address := by
  intro x hx b hb
  obtain ⟨-, hsegment, hoffset⟩ := bindingOf_place hb
  rw [bindAddress, hsegment, hoffset]
  exact addressOf_eq (h.found x hx)

theorem weak_address :
    ∀ x ∈ located, ∀ entry, weakEntryOf imports x = some entry →
      bindAddress layout entry.binding = x.fixup.address := by
  intro x hx entry hentry
  obtain ⟨symbol, addend, m, -, rfl⟩ := weakEntryOf_eq_some hentry
  exact addressOf_eq (h.found x hx)

end

theorem weak_perm :
    ((((located.filterMap (weakEntryOf imports)).mergeSort weakLe).map WeakEntry.binding).map
      (bindAddress layout)).Perm ((located.filterMap (weakEntryOf imports)).map
        fun entry => bindAddress layout entry.binding) := by
  rw [List.map_map]
  exact (List.mergeSort_perm _ _).map _

variable {x : Located}

theorem mapped_eq (h : Streamed layout fixups imports weakTargets streams image located)
    (hapart : located.Pairwise FilesApart) (hx : x ∈ located) :
    IsWord imports weakTargets x.fixup (mapped layout image x.fixup.address) := by
  obtain ⟨word, hword, hat⟩ := h.image hapart x hx
  rw [mapped, (locate_places (h.found x hx)).2, Option.bind_some,
    readLe_of_standsAt hat (by decide) hword.lt]
  exact hword

/-- The address of a fixup that is not in the weak binding stream. -/
theorem weak_notMem (h : Streamed layout fixups imports weakTargets streams image located)
    (hnodup : (located.map fun x => x.fixup.address).Nodup) (hx : x ∈ located)
    (hnone : weakEntryOf imports x = none) : x.fixup.address ∉
      (((located.filterMap (weakEntryOf imports)).mergeSort weakLe).map WeakEntry.binding).map
        (bindAddress layout) := by
  intro hmem
  exact address_notMem hnodup h.weak_address hx hnone (weak_perm.mem_iff.mp hmem)

theorem loaded_memory (h : Streamed layout fixups imports weakTargets streams image located)
    (world : World) (address : ℕ) :
    loaded layout world streams image address = some (weakMemory layout world
      (((located.filterMap (weakEntryOf imports)).mergeSort weakLe).map WeakEntry.binding)
      (bindMemory layout world (located.filterMap (bindingOf imports))
        (rebaseMemory layout world (located.filterMap (rebasingOf imports)) (mapped layout image)))
      address, none) := by
  rw [loaded, h.rebase, h.bind, h.weak]
  rfl

theorem loaded_rebase (h : Streamed layout fixups imports weakTargets streams image located)
    (hnodup : (located.map fun x => x.fixup.address).Nodup) (world : World) (hx : x ∈ located)
    {target : ℕ} (hkind : x.fixup.kind = .rebase target) :
    loaded layout world streams image x.fixup.address =
      some (plus (mapped layout image x.fixup.address) world.slide, none) := by
  obtain ⟨hrebasing, hbinding, hentry⟩ := parts_rebase imports hkind
  have haddress := h.rebased_address x hx _ hrebasing
  rw [h.loaded_memory, weakMemory_of_notMem (h.weak_notMem hnodup hx hentry),
    bindMemory_of_notMem (address_notMem hnodup h.bound_address hx hbinding), ← haddress,
    rebaseMemory_of_mem (addresses_nodup hnodup h.rebased_address)
      (List.mem_filterMap.mpr ⟨x, hx, hrebasing⟩)]

/-- **dyld makes the pointer that the fixup asks for.** -/
theorem loaded_eq (h : Streamed layout fixups imports weakTargets streams image located)
    (hapart : located.Pairwise FilesApart) (hnodup : (located.map fun x => x.fixup.address).Nodup)
    (world : World) (hx : x ∈ located) : ∃ value, world.valueOf imports x.fixup = some value ∧
      loaded layout world streams image x.fixup.address = some (value, none) := by
  have hword := h.mapped_eq hapart hx
  rw [IsWord] at hword
  rw [Read.World.valueOf]
  cases hkind : x.fixup.kind with
  | rebase target =>
    rw [hkind] at hword
    refine ⟨_, rfl, ?_⟩
    rw [h.loaded_rebase hnodup world hx hkind,
      show mapped layout image x.fixup.address = target from hword]
  | bind symbol addend =>
    rw [hkind] at hword
    obtain ⟨m, hm, -⟩ := hword
    rw [h.loaded_memory]
    by_cases hlookup : m.weakLookup
    · obtain ⟨-, -, hentry⟩ := parts_weak hkind hm hlookup
      have haddress := h.weak_address x hx _ hentry
      have hweaks := weak_perm.nodup_iff.mpr
        (addresses_nodup hnodup h.weak_address)
      refine ⟨plus (world.coalesce m.name) addend, ?_, ?_⟩
      · dsimp only
        rw [hm, Option.map_some, World.resolve, if_pos (show m.ordinal = _ from hlookup)]
      · rw [← haddress, weakMemory_of_mem hweaks (List.mem_map.mpr ⟨_, List.mem_mergeSort.mpr
          (List.mem_filterMap.mpr ⟨x, hx, hentry⟩), rfl⟩)]
        rfl
    · obtain ⟨-, hbinding, hentry⟩ := parts_bind hkind hm hlookup
      have haddress := h.bound_address x hx _ hbinding
      refine ⟨plus (world.resolve m.ordinal m.name m.weak) addend, ?_, ?_⟩
      · dsimp only
        rw [hm, Option.map_some]
      · rw [weakMemory_of_notMem (h.weak_notMem hnodup hx hentry), ← haddress,
          bindMemory_of_mem (addresses_nodup hnodup h.bound_address)
            (List.mem_filterMap.mpr ⟨x, hx, hbinding⟩), m.flags_eq]

end Streamed

/-! ### The chained form -/

variable {fixups : List Fixup} {image : List UInt8}

theorem Written.chainedWord_eq {imageBase pageSize : ℕ} {format : PointerFormat}
    {starts : List UInt8} {entries : Entries} {c : ChainedFixups}
    (h : Written layout imageBase pageSize format fixups imports image located starts entries c)
    (hfits : Fits format fixups imports) (world : World) {f : Fixup} (hf : f ∈ fixups) :
    ∃ value, world.valueOf imports f = some value ∧
      chainedWord layout world (chosenFormat format (importTable format fixups imports)) imageBase c
        image f.address = some (value, f.auth) := by
  obtain ⟨file, raw, hfile, hread, hsaid⟩ := h.pointer hf
  have hrecovers := h.recovers hfits hf hsaid
  rw [Recovers] at hrecovers
  rw [chainedWord, hfile, Option.bind_eq_bind, Option.bind_some, hread, Option.bind_some,
    Read.World.valueOf]
  cases hkind : f.kind with
  | rebase target =>
    rw [hkind] at hrecovers
    refine ⟨_, rfl, ?_⟩
    rw [show decode _ imageBase raw = _ from hrecovers]
  | bind symbol addend =>
    rw [hkind] at hrecovers
    obtain ⟨index, stored, entry, m, hpointer, hm, hentry, ⟨hname, hweak, hordinal⟩, hsum⟩ :=
      hrecovers
    refine ⟨plus (world.resolve m.ordinal m.name m.weak) addend, ?_, ?_⟩
    · dsimp only
      rw [hm, Option.map_some]
    · rw [hpointer]
      dsimp only
      rw [hentry]
      dsimp only
      rw [hname, hweak, hordinal, hsum]

section

variable {streams : Opcodes} (h : Streamed layout fixups imports weakTargets streams image located)
  (hapart : fixups.Pairwise (FieldsApart layout))

include h hapart

theorem Streamed.places : Places layout fixups located := by
  refine Places.of_mapM hapart (mapM_eq_ok.mpr ?_)
  rw [← h.sorted, List.forall₂_map_left_iff]
  exact List.forall₂_same.mpr h.found

theorem Streamed.addresses :
    (located.map fun x => x.fixup.address).Nodup := by
  have hnodup : (fixups.map Fixup.address).Nodup := by
    refine List.pairwise_map.mpr (hapart.imp fun {a b} hab heq => ?_)
    have := hab.1
    omega
  have hperm := (h.perm.map Fixup.address).nodup_iff.mpr hnodup
  rw [List.map_map] at hperm
  exact hperm

end

/-- **The streams tell the fixups, and dyld makes the pointers that they ask for (proved)**, which
are those of the chained form when its table holds the ordinals and nothing is signed. -/
theorem opcodes_told {fixups : List Fixup} {image final : List UInt8} {streams : Opcodes}
    (htyped : ∀ m ∈ imports, m.Typed)
    (h : opcodes layout fixups imports weakTargets image = .ok (streams, final)) :
    Told layout fixups imports streams ∧
    (fixups.Pairwise (FieldsApart layout) →
      (∀ world : World, ∀ f ∈ fixups, ∃ value, world.valueOf imports f = some value ∧
        loaded layout world streams final f.address = some (value, none)) ∧
      ∀ (imageBase pageSize : ℕ) (format : PointerFormat) (image' final' blob : List UInt8),
        imageBase < 2 ^ 64 →
        chained layout imageBase pageSize format fixups imports image' = .ok (final', blob) →
        (∀ f ∈ fixups, f.auth = none) → Fits format fixups imports →
        ∃ c, parse blob = .ok c ∧ ∀ world : World, ∀ f ∈ fixups,
          chainedWord layout world (chosenFormat format (importTable format fixups imports))
            imageBase c final' f.address = loaded layout world streams final f.address) := by
  obtain ⟨located, hstreamed⟩ := opcodes_streamed htyped h
  refine ⟨hstreamed.told, fun hapart => ?_⟩
  have hplaces := hstreamed.places hapart
  have hvalue : ∀ world : World, ∀ f ∈ fixups, ∃ value, world.valueOf imports f = some value ∧
      loaded layout world streams final f.address = some (value, none) := by
    intro world f hf
    obtain ⟨x, hx, rfl⟩ := hplaces.exists_located hf
    exact hstreamed.loaded_eq hplaces.apart (hstreamed.addresses hapart) world hx
  refine ⟨hvalue, fun imageBase pageSize format image' final' blob hbase hchained hplain hfits => ?_⟩
  obtain ⟨places, starts, entries, c, hparse, hwritten⟩ := chained_written hbase hapart hchained
  refine ⟨c, hparse, fun world f hf => ?_⟩
  obtain ⟨value, hsome, hload⟩ := hvalue world f hf
  obtain ⟨value', hsome', hword⟩ := hwritten.chainedWord_eq hfits world hf
  obtain rfl := Option.some.inj (hsome.symm.trans hsome')
  rw [hload, hword, hplain f hf]

/-! ### Samples -/

/-- A `__DATA` of two pointers. -/
def pairLayout : Layout where
  segments := [⟨[95, 95, 68, 65, 84, 65], 2 ^ 32, 2 ^ 14, 0, 16⟩]
  ordered := List.pairwise_singleton _ _
  inside := by decide

/-- A bind to the 20th library, with an addend. -/
def farFixup : Fixup := ⟨2 ^ 32, .bind 0 5, none, by decide⟩

/-- The pointer is bound as it asks for, in both forms. -/
theorem opcodes_sample : ∃ streams final final' blob c,
    opcodes pairLayout [farFixup] [sampleImport 20] [] (List.replicate 16 0) = .ok (streams, final) ∧
    chained pairLayout (2 ^ 32) 4096 .ptr64 [farFixup] [sampleImport 20] (List.replicate 16 0) =
      .ok (final', blob) ∧ parse blob = .ok c ∧
    Told pairLayout [farFixup] [sampleImport 20] streams ∧ ∀ world : World,
      loaded pairLayout world streams final (2 ^ 32) =
        some (plus (world.lookup 20 [95, 102] false) 5, none) ∧
      chainedWord pairLayout world
        (chosenFormat .ptr64 (importTable .ptr64 [farFixup] [sampleImport 20])) (2 ^ 32) c final'
        (2 ^ 32) = loaded pairLayout world streams final (2 ^ 32) := by
  have hok : (opcodes pairLayout [farFixup] [sampleImport 20] [] (List.replicate 16 0)).isOk = true := by
    rw [opcodes, List.mergeSort_singleton]
    decide +kernel
  have hok' : (chained pairLayout (2 ^ 32) 4096 .ptr64 [farFixup] [sampleImport 20]
      (List.replicate 16 0)).isOk = true := by decide +kernel
  obtain ⟨⟨streams, final⟩, h⟩ := exists_ok_of_isOk hok
  obtain ⟨⟨final', blob⟩, h'⟩ := exists_ok_of_isOk hok'
  have htyped : ∀ m ∈ [sampleImport 20], m.Typed := by
    intro m hm
    rw [List.mem_singleton.mp hm]
    exact ⟨by decide, by decide⟩
  have hfits : Fits .ptr64 [farFixup] [sampleImport 20] := by
    refine ⟨fun _ f hf => ?_, fun symbol m hm _ => ?_⟩
    · rw [List.mem_singleton.mp hf]
      rfl
    · rw [List.mem_singleton.mp (List.mem_of_getElem? hm)]
      exact ⟨by decide, by split <;> decide⟩
  obtain ⟨htold, hvalues⟩ := opcodes_told htyped h
  obtain ⟨hload, hsame⟩ := hvalues (List.pairwise_singleton _ _)
  obtain ⟨c, hparse, hwords⟩ := hsame (2 ^ 32) 4096 .ptr64 _ final' blob (by decide) h'
    (fun f hf => by rw [List.mem_singleton.mp hf]; rfl) hfits
  refine ⟨streams, final, final', blob, c, h, h', hparse, htold, fun world => ⟨?_, ?_⟩⟩
  · obtain ⟨value, hvalue, hloaded⟩ := hload world farFixup (List.mem_singleton_self _)
    obtain rfl := Option.some.inj hvalue
    exact hloaded
  · exact hwords world farFixup (List.mem_singleton_self _)

/-- A signed pointer to the start of the image. -/
def signedFixup : Fixup :=
  ⟨2 ^ 32, .rebase (2 ^ 32), some ⟨0, false, 0, by decide, by decide⟩, by decide⟩

/-- Two pointers that share four bytes. -/
def overlapping : List Fixup :=
  [⟨2 ^ 32, .rebase (2 ^ 32), none, by decide⟩,
    ⟨2 ^ 32 + 4, .rebase (2 ^ 32 + 2 ^ 19), none, by decide⟩]

/-- The pointers that the two forms give to a fixup are not the same. -/
def Differ (layout : Layout) (format : PointerFormat) (fixups : List Fixup) (world : World)
    (address : ℕ) : Prop :=
  ∃ streams final final' blob c,
    opcodes layout fixups [] [] (List.replicate 16 0) = .ok (streams, final) ∧
    chained layout (2 ^ 32) 4096 format fixups [] (List.replicate 16 0) = .ok (final', blob) ∧
    parse blob = .ok c ∧
    chainedWord layout world (chosenFormat format (importTable format fixups [])) (2 ^ 32) c final'
      address ≠ loaded layout world streams final address

theorem signed_differ (world : World) :
    Differ pairLayout .arm64e [signedFixup] world signedFixup.address := by
  have hok : (opcodes pairLayout [signedFixup] [] [] (List.replicate 16 0)).isOk = true := by
    rw [opcodes, List.mergeSort_singleton]
    decide +kernel
  have hok' : (chained pairLayout (2 ^ 32) 4096 .arm64e [signedFixup] []
      (List.replicate 16 0)).isOk = true := by decide +kernel
  obtain ⟨⟨streams, final⟩, h⟩ := exists_ok_of_isOk hok
  obtain ⟨⟨final', blob⟩, h'⟩ := exists_ok_of_isOk hok'
  have hapart : [signedFixup].Pairwise (FieldsApart pairLayout) := List.pairwise_singleton _ _
  obtain ⟨located, hstreamed⟩ :=
    opcodes_streamed (fun m hm => absurd hm List.not_mem_nil) h
  obtain ⟨places, starts, entries, c, hparse, hwritten⟩ := chained_written (by decide) hapart h'
  refine ⟨streams, final, final', blob, c, h, h', hparse, ?_⟩
  have hfits : Fits .arm64e [signedFixup] [] :=
    ⟨fun hformat => (nomatch hformat), fun symbol m hm => (nomatch hm)⟩
  obtain ⟨value, -, hword⟩ := hwritten.chainedWord_eq hfits world (List.mem_singleton_self _)
  obtain ⟨x, hx, hxf⟩ := (hstreamed.places hapart).exists_located (List.mem_singleton_self _)
  obtain ⟨value', -, hload⟩ := hstreamed.loaded_eq (hstreamed.places hapart).apart
    (hstreamed.addresses hapart) world hx
  rw [hxf] at hload
  rw [hword, hload]
  exact fun heq => nomatch congrArg Prod.snd (Option.some.inj heq)

theorem overlapping_sorted :
    overlapping.mergeSort (fun a b => a.address ≤ b.address) = overlapping :=
  List.mergeSort_of_pairwise (by decide)

theorem overlapping_differ : Differ pairLayout .ptr64 overlapping ⟨0, fun _ _ _ => 0, fun _ => 0⟩
    (2 ^ 32) := by
  have himage : (opcodes pairLayout overlapping [] [] (List.replicate 16 0)).toOption.map Prod.snd =
      some [0, 0, 0, 0, 0, 0, 8, 0, 1, 0, 0, 0, 0, 0, 0, 0] := by
    rw [opcodes, overlapping_sorted]
    decide +kernel
  have hchained : (chained pairLayout (2 ^ 32) 4096 .ptr64 overlapping []
      (List.replicate 16 0)).toOption.map (fun r => (r.1, (parse r.2).isOk)) =
      some ([0, 0, 0, 0, 0, 0, 8, 0, 1, 0, 0, 0, 0, 0, 0, 0], true) := by
    rw [chained, overlapping_sorted]
    decide +kernel
  cases h : opcodes pairLayout overlapping [] [] (List.replicate 16 0) with
  | error e =>
    rw [h] at himage
    exact nomatch himage
  | ok r =>
    obtain ⟨streams, final⟩ := r
    rw [h] at himage
    obtain rfl : final = _ := Option.some.inj himage
    cases h' : chained pairLayout (2 ^ 32) 4096 .ptr64 overlapping [] (List.replicate 16 0) with
    | error e =>
      rw [h'] at hchained
      exact nomatch hchained
    | ok r' =>
      obtain ⟨final', blob⟩ := r'
      rw [h'] at hchained
      obtain ⟨hfinal, hblob⟩ := Prod.mk.inj (Option.some.inj hchained)
      obtain ⟨c, hparse⟩ := exists_ok_of_isOk hblob
      obtain ⟨located, hstreamed⟩ :=
        opcodes_streamed (fun m hm => absurd hm List.not_mem_nil) h
      have hmap := hstreamed.sorted
      rw [overlapping_sorted] at hmap
      have hnodup : (located.map fun x => x.fixup.address).Nodup := by
        have hall : (overlapping.map Fixup.address).Nodup := by decide
        rw [← hmap, List.map_map] at hall
        exact hall
      obtain ⟨x, hx, hxf⟩ : ∃ x ∈ located, x.fixup = ⟨2 ^ 32, .rebase (2 ^ 32), none, by decide⟩ := by
        refine List.mem_map.mp ?_
        rw [hmap]
        exact List.mem_cons_self
      have hload := hstreamed.loaded_rebase hnodup ⟨0, fun _ _ _ => 0, fun _ => 0⟩ hx
        (show x.fixup.kind = .rebase (2 ^ 32) by rw [hxf])
      rw [show x.fixup.address = 2 ^ 32 by rw [hxf]] at hload
      obtain rfl : final' = _ := hfinal
      have hchosen : chosenFormat .ptr64 (importTable .ptr64 overlapping []) = .ptr64 := by
        decide +kernel
      have hword : chainedWord pairLayout ⟨0, fun _ _ _ => 0, fun _ => 0⟩ .ptr64 (2 ^ 32) c
          [0, 0, 0, 0, 0, 0, 8, 0, 1, 0, 0, 0, 0, 0, 0, 0] (2 ^ 32) = some (0, none) := by
        rw [chainedWord, show pairLayout.fileOffset (2 ^ 32) = some 0 by decide +kernel,
          Option.bind_eq_bind, Option.bind_some,
          show readLe 8 [0, 0, 0, 0, 0, 0, 8, 0, 1, 0, 0, 0, 0, 0, 0, 0] 0 = some (2 ^ 51) by
            decide +kernel, Option.bind_some,
          show decode .ptr64 (2 ^ 32) (2 ^ 51) = .rebase 0 none by decide +kernel]
        rfl
      refine ⟨streams, _, _, blob, c, h, h', hparse, ?_⟩
      rw [hload, hchosen, hword]
      decide +kernel

/-- **Signed pointers, and pointers that share bytes, are not those of the chained form.** -/
theorem opcodes_unsigned :
    (∀ world : World, Differ pairLayout .arm64e [signedFixup] world signedFixup.address) ∧
    (overlapping.map Fixup.address).Nodup ∧
    ∃ world : World, Differ pairLayout .ptr64 overlapping world (2 ^ 32) :=
  ⟨signed_differ, by decide, _, overlapping_differ⟩

end Qld.Macho
