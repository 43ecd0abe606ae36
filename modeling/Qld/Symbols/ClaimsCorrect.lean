import Mathlib.Data.Nat.Log
import Qld.Lib.LittleEndian
import Qld.Symbols.Claims

/-!
# The two tables of claims decide alike

* `Holder` — the offer of a key that wins: the lowest rank of the earliest round;
* `find_offer`, `ClaimsInv` — what an offer leaves in the map under locks, and what the map holds
  after offers in rounds that do not decrease;
* `Numbered` — keys and calls have numbers of their own (proved for every step);
* `cell_inj`, `word_fetchMin` — the segments keep the words of different slots apart;
* `WordsInv` — the word of a key's slot is the best of its offers (proved for every step);
* `claims_agree` — the tables agree in every state of every run;
* `claims_offeredTwice` — but not about a file that offers a key in two rounds.
-/

namespace Qld.Symbols

open Qld.Lib

/-! ### Entries -/

section Entries

variable {hash : SymbolName → UInt64} {α : Type} {keyOf : α → SymbolName} {key : SymbolName}

theorem isEntry_iff {e : α} : isEntry hash keyOf key e = true ↔ keyOf e = key := by
  rw [isEntry, Bool.and_eq_true, beq_iff_eq, beq_iff_eq]
  exact ⟨fun h => h.2, fun h => ⟨by rw [h], h⟩⟩

theorem findEntry_eq_none {table : List α} :
    findEntry hash keyOf table key = none ↔ ∀ e ∈ table, keyOf e ≠ key := by
  rw [findEntry, List.find?_eq_none]
  exact forall₂_congr fun e _ => not_congr isEntry_iff

theorem findEntry_eq_some {table : List α} {e : α} (h : findEntry hash keyOf table key = some e) :
    e ∈ table ∧ keyOf e = key :=
  ⟨List.mem_of_find?_eq_some h, isEntry_iff.mp (List.find?_some h)⟩

theorem findEntry_cons (e : α) (table : List α) :
    findEntry hash keyOf (e :: table) key =
      if keyOf e = key then some e else findEntry hash keyOf table key := by
  rw [findEntry, List.find?_cons, findEntry]
  by_cases h : keyOf e = key
  · rw [isEntry_iff.mpr h, if_pos h]
  · rw [if_neg h]
    cases hentry : isEntry hash keyOf key e with
    | true => exact absurd (isEntry_iff.mp hentry) h
    | false => rfl

theorem findEntry_modifyEntry {f : α → α} (hf : ∀ e, keyOf (f e) = keyOf e) (key' : SymbolName)
    (table : List α) : findEntry hash keyOf (modifyEntry hash keyOf key f table) key' =
      if key = key' then (findEntry hash keyOf table key).map f
      else findEntry hash keyOf table key' := by
  induction table with
  | nil => split <;> rfl
  | cons e table ih =>
    rw [modifyEntry]
    by_cases he : keyOf e = key
    · rw [if_pos (isEntry_iff.mpr he), findEntry_cons, hf, findEntry_cons, findEntry_cons,
        if_pos he, he]
      by_cases hkey : key = key'
      · rw [if_pos hkey, if_pos hkey]
        rfl
      · rw [if_neg hkey, if_neg hkey, if_neg hkey]
    · have hcons : findEntry hash keyOf (e :: table) key = findEntry hash keyOf table key := by
        rw [findEntry_cons, if_neg he]
      rw [if_neg fun h => he (isEntry_iff.mp h), findEntry_cons, ih, hcons, findEntry_cons]
      by_cases hkey : key = key'
      · rw [if_pos hkey, if_neg (hkey ▸ he), if_pos hkey]
      · rw [if_neg hkey, if_neg hkey]

end Entries

/-! ### Offers -/

/-- The offer of a key that wins: the lowest rank of the earliest round. -/
structure Holder (files : Files) (offers : List Offer) (key : SymbolName) (round file : ℕ) :
    Prop where
  mem : ⟨round, key, file⟩ ∈ offers
  lt : file < files.count
  le : ∀ o ∈ offers, o.key = key →
    toLex (round, files.rank file) ≤ toLex (o.round, files.rank o.file)

section Holder

variable {files : Files} {offers : List Offer} {key : SymbolName} {round file : ℕ}

theorem Files.rank_inj {f g : ℕ} (hf : f < files.count) (hg : g < files.count)
    (h : files.rank f = files.rank g) : f = g := by
  have hfg := mt (files.rank_lt_iff f hf g hg).mpr (Nat.not_lt_of_le (Nat.le_of_eq h.symm))
  have hgf := mt (files.rank_lt_iff g hg f hf).mpr (Nat.not_lt_of_le (Nat.le_of_eq h))
  have heq := le_antisymm (not_lt.mp hgf) (not_lt.mp hfg)
  exact (Prod.mk.inj (toLex_inj.mp heq)).2

section

variable (h : Holder files offers key round file)

include h

theorem Holder.unique {round' file' : ℕ} (h' : Holder files offers key round' file') :
    round = round' ∧ file = file' := by
  have heq := le_antisymm (h.le _ h'.mem rfl) (h'.le _ h.mem rfl)
  obtain ⟨hround, hrank⟩ := Prod.mk.inj (toLex_inj.mp heq)
  exact ⟨hround, Files.rank_inj h.lt h'.lt hrank⟩

theorem Holder.cons_of_ne {o : Offer} (ho : o.key ≠ key) :
    Holder files (o :: offers) key round file where
  mem := List.mem_cons_of_mem _ h.mem
  lt := h.lt
  le := List.forall_mem_cons.mpr ⟨fun hkey => absurd hkey ho, h.le⟩

theorem Holder.cons_of_le {o : Offer}
    (ho : toLex (round, files.rank file) ≤ toLex (o.round, files.rank o.file)) :
    Holder files (o :: offers) key round file where
  mem := List.mem_cons_of_mem _ h.mem
  lt := h.lt
  le := List.forall_mem_cons.mpr ⟨fun _ => ho, h.le⟩

theorem Holder.cons_of_lt {o : Offer} (hkey : o.key = key) (hlt : o.file < files.count)
    (ho : toLex (o.round, files.rank o.file) ≤ toLex (round, files.rank file)) :
    Holder files (o :: offers) key o.round o.file where
  mem := hkey ▸ List.mem_cons_self
  lt := hlt
  le := List.forall_mem_cons.mpr ⟨fun _ => le_rfl, fun o' ho' hkey' => ho.trans (h.le o' ho' hkey')⟩

end

theorem holder_of_first {o : Offer} (hkey : o.key = key) (hlt : o.file < files.count)
    (hnone : ∀ o' ∈ offers, o'.key ≠ key) :
    Holder files (o :: offers) key o.round o.file where
  mem := hkey ▸ List.mem_cons_self
  lt := hlt
  le := List.forall_mem_cons.mpr
    ⟨fun _ => le_rfl, fun o' ho' hkey' => absurd hkey' (hnone o' ho')⟩

end Holder

/-! ### Claims by key -/

section Claims

variable {hash : SymbolName → UInt64} {files : Files}

/-- What an offer leaves of the claim on its key. -/
def Claim.settle (claim : Option Claim) (round : ℕ) (key : SymbolName) (position file : ℕ) :
    Claim :=
  match claim with
  | none => ⟨key, position, file, round⟩
  | some claim =>
    if claim.round = round ∧ toLex (position, file) < toLex (claim.position, claim.owner) then
      { claim with position := position, owner := file }
    else claim

/-- **The claims after an offer.** -/
theorem find_offer (claims : GroupClaims) (round : ℕ) (key : SymbolName) (position file : ℕ)
    (key' : SymbolName) : (claims.offer hash round key position file).1.find hash key' =
      if key = key' then some (Claim.settle (claims.find hash key) round key position file)
      else claims.find hash key' := by
  -- A table that is put in place of that of the key's shard.
  have hupdate : ∀ table : List Claim,
      (∀ key', findEntry hash Claim.key table key' =
        if key = key' then some (Claim.settle (claims.find hash key) round key position file)
        else findEntry hash Claim.key (claims.shards (claimShardOf (hash key))) key') →
      findEntry hash Claim.key
          (Function.update claims.shards (claimShardOf (hash key)) table (claimShardOf (hash key')))
          key' =
        if key = key' then some (Claim.settle (claims.find hash key) round key position file)
        else claims.find hash key' := by
    intro table htable
    by_cases hshard : claimShardOf (hash key') = claimShardOf (hash key)
    · rw [hshard, Function.update_self, htable]
      show _ = if key = key' then _ else
        findEntry hash Claim.key (claims.shards (claimShardOf (hash key'))) key'
      rw [hshard]
    · have hne : key ≠ key' := fun h => hshard (by rw [h])
      rw [Function.update_of_ne hshard, if_neg hne, GroupClaims.find]
  unfold GroupClaims.offer
  dsimp only
  split
  · next hnone =>
    refine hupdate _ fun key' => ?_
    rw [findEntry_cons, GroupClaims.find, hnone]
    rfl
  · next claim hsome =>
    split
    · next hlower =>
      refine hupdate _ fun key' => ?_
      rw [findEntry_modifyEntry (f := fun claim : Claim =>
          { claim with position := position, owner := file }) fun _ => rfl, GroupClaims.find, hsome,
        Claim.settle, if_pos hlower]
      rfl
    · next hlower =>
      by_cases hkey : key = key'
      · rw [if_pos hkey, ← hkey, GroupClaims.find, hsome, Claim.settle, if_neg hlower]
      · rw [if_neg hkey]

/-- The map holds the winner of each key. -/
structure ClaimsInv (hash : SymbolName → UInt64) (files : Files) (claims : GroupClaims)
    (claimed : List Offer) : Prop where
  none : ∀ key, claims.find hash key = none → ∀ o ∈ claimed, o.key ≠ key
  some : ∀ key claim, claims.find hash key = some claim →
    Holder files claimed key claim.round claim.owner ∧ claim.position = files.position claim.owner

theorem claimsInv_new : ClaimsInv hash files .new [] :=
  ⟨fun _ _ => List.forall_mem_nil _, fun _ _ h => nomatch h⟩

/-- **An offer in a round that is not earlier.** -/
theorem ClaimsInv.offer {claims : GroupClaims} {claimed : List Offer}
    (h : ClaimsInv hash files claims claimed) (o : Offer) (hfile : o.file < files.count)
    (hround : ∀ earlier ∈ claimed, earlier.round ≤ o.round) :
    ClaimsInv hash files (claims.offer hash o.round o.key (files.position o.file) o.file).1
      (o :: claimed) := by
  refine ⟨fun key hnone => ?_, fun key claim hsome => ?_⟩
  · rw [find_offer] at hnone
    split at hnone
    · exact nomatch hnone
    · next hkey => exact List.forall_mem_cons.mpr ⟨hkey, h.none key hnone⟩
  · rw [find_offer] at hsome
    split at hsome
    · next hkey =>
      rw [Option.some_inj] at hsome
      subst hkey
      cases hold : claims.find hash o.key with
      | none =>
        rw [hold] at hsome
        rw [← hsome]
        exact ⟨holder_of_first rfl hfile (h.none _ hold), rfl⟩
      | some old =>
        obtain ⟨hholder, hposition⟩ := h.some _ old hold
        rw [hold, Claim.settle, hposition] at hsome
        split at hsome
        · next hlower =>
          rw [← files.rank_lt_iff _ hfile _ hholder.lt] at hlower
          rw [← hsome]
          refine ⟨?_, rfl⟩
          dsimp only
          rw [hlower.1]
          refine hholder.cons_of_lt rfl hfile ?_
          rw [hlower.1]
          exact Prod.Lex.toLex_le_toLex.mpr (.inr ⟨rfl, hlower.2.le⟩)
        · next hlower =>
          rw [← files.rank_lt_iff _ hfile _ hholder.lt] at hlower
          rw [← hsome]
          refine ⟨hholder.cons_of_le (Prod.Lex.toLex_le_toLex.mpr ?_), hposition⟩
          have hle : old.round ≤ o.round := hround _ hholder.mem
          rcases Nat.lt_or_eq_of_le hle with hlt | heq
          · exact .inl hlt
          · exact .inr ⟨heq, Nat.le_of_not_lt fun hlt => hlower ⟨heq, hlt⟩⟩
    · next hkey =>
      obtain ⟨hholder, hposition⟩ := h.some key claim hsome
      exact ⟨hholder.cons_of_ne hkey, hposition⟩

end Claims

/-! ### Numbers -/

/-- A key has a number: it is in its shard, or about to be inserted there. -/
def Numbers (keys : Fin CLAIM_SHARDS → List (SymbolName × ℕ))
    (calls : Fin CLAIM_SHARDS → Option Call) (s : Fin CLAIM_SHARDS) (key : SymbolName)
    (slot : ℕ) : Prop :=
  (key, slot) ∈ keys s ∨ calls s = some (.insert key slot)

/-- The key of a call. -/
def Call.key : Call → SymbolName
  | .exchange key _ | .insert key _ => key

/-- Keys and calls have numbers of their own, below the next one. -/
structure Numbered (hash : SymbolName → UInt64) (slots : GroupSlots)
    (calls : Fin CLAIM_SHARDS → Option Call) (returned : List (SymbolName × Option ℕ)) : Prop where
  shard : ∀ s, ∀ e ∈ slots.keys s, claimShardOf (hash e.1) = s
  /-- The key of a call is not in its shard, which the call holds the lock of. -/
  call : ∀ s c, calls s = some c →
    claimShardOf (hash c.key) = s ∧ ∀ e ∈ slots.keys s, e.1 ≠ c.key
  next_le : slots.next ≤ U32_MAX
  lt : ∀ s key slot, Numbers slots.keys calls s key slot → slot < slots.next
  inj : ∀ s s' key key' slot slot', Numbers slots.keys calls s key slot →
    Numbers slots.keys calls s' key' slot' → (slot = slot' ↔ key = key')
  returned : ∀ key slot, (key, some slot) ∈ returned ↔
    (key, slot) ∈ slots.keys (claimShardOf (hash key))

section Numbered

variable {hash : SymbolName → UInt64} {slots : GroupSlots}
  {calls : Fin CLAIM_SHARDS → Option Call} {returned : List (SymbolName × Option ℕ)}

theorem Numbered.congr {slots' : GroupSlots} (h : Numbered hash slots calls returned)
    (hkeys : slots'.keys = slots.keys) (hnext : slots'.next = slots.next) :
    Numbered hash slots' calls returned := by
  obtain ⟨hshard, hcall, hle, hlt, hinj, hreturned⟩ := h
  rw [← hkeys] at hshard hcall hlt hinj hreturned
  rw [← hnext] at hle hlt
  exact ⟨hshard, hcall, hle, hlt, hinj, hreturned⟩

theorem numbered_new : Numbered hash .new (fun _ => none) [] where
  shard := fun _ => List.forall_mem_nil _
  call := fun _ _ h => nomatch h
  next_le := Nat.zero_le _
  lt := fun _ _ _ h => h.elim (fun h => nomatch h) fun h => nomatch h
  inj := fun _ _ _ _ _ _ h => h.elim (fun h => nomatch h) fun h => nomatch h
  returned := fun _ _ => iff_of_false List.not_mem_nil List.not_mem_nil

variable {s : Fin CLAIM_SHARDS}

/-- A call that does not insert yet takes and gives no number. -/
theorem numbers_update {c : Option Call} (hold : ∀ key slot, calls s ≠ some (.insert key slot))
    (hnew : ∀ key slot, c ≠ some (.insert key slot)) (s' : Fin CLAIM_SHARDS) (key : SymbolName)
    (slot : ℕ) : Numbers slots.keys (Function.update calls s c) s' key slot ↔
      Numbers slots.keys calls s' key slot := by
  refine or_congr_right ?_
  by_cases hs : s' = s
  · rw [hs, Function.update_self]
    exact iff_of_false (hnew key slot) (hold key slot)
  · rw [Function.update_of_ne hs]

/-- **A call that looks its key up, fails to exchange, or gives up.** -/
theorem Numbered.update (h : Numbered hash slots calls returned) {c : Option Call}
    (hold : ∀ key slot, calls s ≠ some (.insert key slot))
    (hnew : ∀ key slot, c ≠ some (.insert key slot)) (hcall : ∀ d, c = some d →
      claimShardOf (hash d.key) = s ∧ ∀ e ∈ slots.keys s, e.1 ≠ d.key) :
    Numbered hash slots (Function.update calls s c) returned where
  shard := h.shard
  call := by
    intro s' d hd
    by_cases hs : s' = s
    · subst hs
      rw [Function.update_self] at hd
      exact hcall d hd
    · rw [Function.update_of_ne hs] at hd
      exact h.call s' d hd
  next_le := h.next_le
  lt := fun s' key slot hn => h.lt s' key slot ((numbers_update hold hnew s' key slot).mp hn)
  inj := fun s' t key key' slot slot' hn hn' =>
    h.inj s' t key key' slot slot' ((numbers_update hold hnew s' key slot).mp hn)
      ((numbers_update hold hnew t key' slot').mp hn')
  returned := h.returned

/-- **The exchange that succeeds.** -/
theorem Numbered.take (h : Numbered hash slots calls returned) {key : SymbolName}
    (hcall : calls s = some (.exchange key slots.next)) (hne : slots.next ≠ U32_MAX) :
    Numbered hash { slots with next := slots.next + 1 }
      (Function.update calls s (some (.insert key slots.next))) returned := by
  -- A number now: one from before, or the new one.
  have hcases : ∀ s' key' slot', Numbers slots.keys
      (Function.update calls s (some (.insert key slots.next))) s' key' slot' →
      Numbers slots.keys calls s' key' slot' ∨ (key' = key ∧ slot' = slots.next) := by
    rintro s' key' slot' (hmem | hins)
    · exact .inl (.inl hmem)
    · by_cases hs : s' = s
      · rw [hs, Function.update_self, Option.some_inj, Call.insert.injEq] at hins
        exact .inr ⟨hins.1.symm, hins.2.symm⟩
      · rw [Function.update_of_ne hs] at hins
        exact .inl (.inr hins)
  obtain ⟨hshard, habsent⟩ := h.call s _ hcall
  have hfresh : ∀ s' slot', ¬ Numbers slots.keys calls s' key slot' := by
    rintro s' slot' (hmem | hins)
    · obtain rfl := (h.shard s' _ hmem).symm.trans hshard
      exact habsent _ hmem rfl
    · obtain rfl := (h.call s' _ hins).1.symm.trans hshard
      exact nomatch hcall.symm.trans hins
  refine ⟨h.shard, ?_, ?_, ?_, ?_, h.returned⟩
  · intro s' d hd
    by_cases hs : s' = s
    · subst hs
      rw [Function.update_self] at hd
      obtain rfl := Option.some.inj hd
      exact ⟨hshard, habsent⟩
    · rw [Function.update_of_ne hs] at hd
      exact h.call s' d hd
  · have := h.next_le
    dsimp only
    omega
  · intro s' key' slot' hn
    rcases hcases s' key' slot' hn with hold | ⟨-, rfl⟩
    · exact Nat.lt_succ_of_lt (h.lt s' key' slot' hold)
    · exact Nat.lt_succ_self _
  · intro s' t key₁ key₂ slot₁ slot₂ hn₁ hn₂
    rcases hcases s' key₁ slot₁ hn₁ with h₁ | ⟨rfl, rfl⟩
    · rcases hcases t key₂ slot₂ hn₂ with h₂ | ⟨rfl, rfl⟩
      · exact h.inj s' t key₁ key₂ slot₁ slot₂ h₁ h₂
      · have hlt := h.lt s' key₁ slot₁ h₁
        exact iff_of_false (Nat.ne_of_lt hlt) fun hkey => hfresh s' slot₁ (hkey ▸ h₁)
    · rcases hcases t key₂ slot₂ hn₂ with h₂ | ⟨rfl, rfl⟩
      · have hlt := h.lt t key₂ slot₂ h₂
        exact iff_of_false (Nat.ne_of_gt hlt) fun hkey => hfresh t slot₂ (hkey ▸ h₂)
      · exact iff_of_true rfl rfl

/-- **The key goes into its shard.** -/
theorem Numbered.insert (h : Numbered hash slots calls returned) {key : SymbolName} {slot : ℕ}
    (hcall : calls s = some (.insert key slot)) :
    Numbered hash { slots with keys := Function.update slots.keys s ((key, slot) :: slots.keys s) }
      (Function.update calls s none) ((key, some slot) :: returned) := by
  obtain ⟨hshard, habsent⟩ := h.call s _ hcall
  have hnumbers : ∀ s' key' slot', Numbers
      (Function.update slots.keys s ((key, slot) :: slots.keys s)) (Function.update calls s none)
      s' key' slot' ↔ Numbers slots.keys calls s' key' slot' := by
    intro s' key' slot'
    unfold Numbers
    by_cases hs : s' = s
    · rw [hs, Function.update_self, Function.update_self, hcall, List.mem_cons, Prod.mk.injEq,
        Option.some_inj, Call.insert.injEq]
      constructor
      · rintro ((⟨rfl, rfl⟩ | hmem) | hnone)
        · exact .inr ⟨rfl, rfl⟩
        · exact .inl hmem
        · exact nomatch hnone
      · rintro (hmem | ⟨rfl, rfl⟩)
        · exact .inl (.inr hmem)
        · exact .inl (.inl ⟨rfl, rfl⟩)
    · rw [Function.update_of_ne hs, Function.update_of_ne hs]
  refine ⟨?_, ?_, h.next_le, ?_, ?_, ?_⟩
  · intro s' e he
    by_cases hs : s' = s
    · subst hs
      dsimp only at he
      rw [Function.update_self] at he
      rcases List.mem_cons.mp he with rfl | he
      · exact hshard
      · exact h.shard s' e he
    · dsimp only at he
      rw [Function.update_of_ne hs] at he
      exact h.shard s' e he
  · intro s' d hd
    have hs : s' ≠ s := by
      rintro rfl
      rw [Function.update_self] at hd
      exact nomatch hd
    rw [Function.update_of_ne hs] at hd
    dsimp only
    rw [Function.update_of_ne hs]
    exact h.call s' d hd
  · exact fun s' key' slot' hn => h.lt s' key' slot' ((hnumbers s' key' slot').mp hn)
  · exact fun s' t key₁ key₂ slot₁ slot₂ hn₁ hn₂ => h.inj s' t key₁ key₂ slot₁ slot₂
      ((hnumbers s' key₁ slot₁).mp hn₁) ((hnumbers t key₂ slot₂).mp hn₂)
  · intro key' slot'
    rw [List.mem_cons, Prod.mk.injEq, Option.some_inj, h.returned]
    dsimp only
    by_cases hs : claimShardOf (hash key') = s
    · rw [hs, Function.update_self, List.mem_cons, Prod.mk.injEq]
    · rw [Function.update_of_ne hs]
      exact or_iff_right fun heq => hs (heq.1 ▸ hshard)

end Numbered

/-! ### Words -/

namespace GroupSlots

variable {slot rank round : ℕ}

/-- The number of a slot, from its segment and its index. -/
theorem segment_spec (h : slot ≤ U32_MAX) : segmentOf slot < SLOT_SEGMENTS ∧
    startOf (segmentOf slot) ≤ slot ∧
    slot - startOf (segmentOf slot) < SLOT_BASE <<< segmentOf slot := by
  have hne : slot / SLOT_BASE + 1 ≠ 0 := Nat.succ_ne_zero _
  have hle : 2 ^ segmentOf slot ≤ slot / SLOT_BASE + 1 := Nat.log2_self_le hne
  have hlt : slot / SLOT_BASE + 1 < 2 ^ (segmentOf slot + 1) := Nat.lt_log2_self
  have hpos := Nat.two_pow_pos (segmentOf slot)
  have hstart : startOf (segmentOf slot) = 1024 * 2 ^ segmentOf slot - 1024 := by
    rw [startOf, Nat.shiftLeft_eq, SLOT_BASE, Nat.one_mul, Nat.mul_sub, Nat.mul_one]
  have hsize : SLOT_BASE <<< segmentOf slot = 1024 * 2 ^ segmentOf slot := by
    rw [Nat.shiftLeft_eq, SLOT_BASE]
  unfold SLOT_BASE at hle hlt
  rw [Nat.pow_succ] at hlt
  refine ⟨?_, by omega, by omega⟩
  by_contra hge
  have hmono : 2 ^ 23 ≤ 2 ^ segmentOf slot :=
    Nat.pow_le_pow_right (by decide) (Nat.le_of_not_lt hge)
  unfold U32_MAX at h
  omega

/-- **Different slots have different cells.** -/
theorem cell_inj {slot' : ℕ} (h : slot ≤ U32_MAX) (h' : slot' ≤ U32_MAX) :
    cell slot = cell slot' ↔ slot = slot' := by
  refine ⟨fun heq => ?_, fun heq => by rw [heq]⟩
  obtain ⟨hsegment, hindex⟩ := Prod.mk.inj heq
  have hlow := (segment_spec h).2.1
  have hlow' := (segment_spec h').2.1
  rw [← hsegment] at hlow' hindex
  omega

/-- The segments have their sizes. -/
def Sized (slots : GroupSlots) : Prop :=
  ∀ k cells, slots.claims k = some cells → cells.length = SLOT_BASE <<< k

/-- The word of a slot. -/
def word (slots : GroupSlots) (slot : ℕ) : ℕ :=
  match slots.claims (cell slot).1 with
  | some cells => cells.getD (cell slot).2 U64_MAX
  | none => U64_MAX

variable {slots : GroupSlots}

theorem Sized.openSegment (h : slots.Sized) (slot : ℕ) : (slots.openSegment slot).Sized := by
  unfold GroupSlots.openSegment
  dsimp only
  split
  · exact h
  · intro k cells hk
    dsimp only at hk
    by_cases heq : k = segmentOf slot
    · rw [heq, Function.update_self, Option.some_inj] at hk
      rw [← hk, heq, List.length_replicate]
    · rw [Function.update_of_ne heq] at hk
      exact h k cells hk

/-- A new segment holds what a missing one stands for. -/
theorem word_openSegment (slots : GroupSlots) (slot slot' : ℕ) :
    (slots.openSegment slot).word slot' = slots.word slot' := by
  unfold GroupSlots.openSegment
  dsimp only
  split
  · rfl
  · next hnone =>
    unfold word
    dsimp only
    by_cases heq : (cell slot').1 = segmentOf slot
    · rw [heq, Function.update_self, hnone]
      dsimp only
      rw [List.getD_eq_getElem?_getD, List.getElem?_replicate]
      split <;> rfl
    · rw [Function.update_of_ne heq]

theorem load_eq (h : slots.Sized) (hslot : slot ≤ U32_MAX) :
    slots.load slot = some (slots.word slot) := by
  rw [← word_openSegment slots slot slot]
  obtain ⟨cells, hcells⟩ : ∃ cells,
      (slots.openSegment slot).claims (segmentOf slot) = some cells := by
    unfold GroupSlots.openSegment
    dsimp only
    split
    · next cells hcells => exact ⟨cells, hcells⟩
    · exact ⟨_, Function.update_self _ _ _⟩
  have hlen := h.openSegment slot _ _ hcells
  have hindex := (segment_spec hslot).2.2
  rw [← hlen] at hindex
  unfold load word cell
  dsimp only
  rw [hcells]
  dsimp only [Option.bind_eq_bind, Option.bind_some]
  rw [List.getD_eq_getElem?_getD, List.getElem?_eq_getElem hindex]
  rfl

/-- **The minimum goes to the word of the slot, and to no other.** -/
theorem word_fetchMin (h : slots.Sized) {value : ℕ} {slots' : GroupSlots} (hslot : slot ≤ U32_MAX)
    (hfetch : slots.fetchMin slot value = some slots') :
    slots'.Sized ∧ slots'.keys = slots.keys ∧ slots'.next = slots.next ∧
      ∀ slot' ≤ U32_MAX, slots'.word slot' =
        if slot = slot' then min (slots.word slot) value else slots.word slot' := by
  unfold fetchMin at hfetch
  dsimp only at hfetch
  cases hcells : slots.claims (cell slot).1 with
  | none => rw [hcells] at hfetch; exact nomatch hfetch
  | some cells =>
    have hlen := h _ _ hcells
    have hindex : (cell slot).2 < cells.length := hlen ▸ (segment_spec hslot).2.2
    rw [hcells] at hfetch
    dsimp only [Option.bind_eq_bind, Option.bind_some] at hfetch
    rw [List.getElem?_eq_getElem hindex] at hfetch
    obtain rfl := Option.some.inj hfetch
    have hword : slots.word slot = cells[(cell slot).2] := by
      unfold word
      rw [hcells]
      dsimp only
      rw [List.getD_eq_getElem?_getD, List.getElem?_eq_getElem hindex]
      rfl
    refine ⟨?_, rfl, rfl, ?_⟩
    · intro k cells' hk
      dsimp only at hk
      by_cases heq : k = (cell slot).1
      · rw [heq, Function.update_self, Option.some_inj] at hk
        rw [← hk, List.length_set, heq]
        exact hlen
      · rw [Function.update_of_ne heq] at hk
        exact h k cells' hk
    · intro slot' hslot'
      rw [hword]
      by_cases hsame : slot = slot'
      · rw [if_pos hsame, ← hsame, word]
        dsimp only
        rw [Function.update_self]
        dsimp only
        rw [List.getD_eq_getElem?_getD, List.getElem?_set_self hindex]
        rfl
      · have hcell : cell slot ≠ cell slot' := mt (cell_inj hslot hslot').mp hsame
        rw [if_neg hsame, word, word]
        dsimp only
        by_cases hsegment : (cell slot').1 = (cell slot).1
        · have hne : (cell slot).2 ≠ (cell slot').2 := fun hindex' =>
            hcell (Prod.ext hsegment.symm hindex')
          rw [hsegment, Function.update_self, hcells]
          dsimp only
          rw [List.getD_eq_getElem?_getD, List.getD_eq_getElem?_getD, List.getElem?_set_ne hne]
        · rw [Function.update_of_ne hsegment]

theorem pack_eq (round : ℕ) (h : rank ≤ U32_MAX) :
    pack round rank = rank + round * 2 ^ 32 := by
  rw [pack, Nat.or_comm, or_shiftLeft]
  unfold U32_MAX at h
  omega

theorem pack_le_iff {round' rank' : ℕ} (h : rank ≤ U32_MAX) (h' : rank' ≤ U32_MAX) :
    pack round rank ≤ pack round' rank' ↔ toLex (round, rank) ≤ toLex (round', rank') := by
  rw [pack_eq _ h, pack_eq _ h', Prod.Lex.toLex_le_toLex]
  unfold U32_MAX at h h'
  dsimp only
  omega

theorem pack_inj {round' rank' : ℕ} (h : rank ≤ U32_MAX) (h' : rank' ≤ U32_MAX) :
    pack round rank = pack round' rank' ↔ round = round' ∧ rank = rank' := by
  rw [pack_eq _ h, pack_eq _ h']
  unfold U32_MAX at h h'
  omega

theorem pack_le_max (hround : round ≤ U32_MAX) (h : rank ≤ U32_MAX) :
    pack round rank ≤ U64_MAX := by
  rw [pack_eq _ h]
  unfold U32_MAX at h hround
  unfold U64_MAX
  omega

end GroupSlots

/-! ### Runs -/

/-- A word holds the best of the offers of a key. -/
def Best (files : Files) (offers : List Offer) (key : SymbolName) (word : ℕ) : Prop :=
  (word = U64_MAX ∧ ∀ o ∈ offers, o.key ≠ key) ∨
    ∃ round file, Holder files offers key round file ∧
      word = GroupSlots.pack round (files.rank file)

/-- The words of the slots that were returned, and of the others. -/
structure WordsInv (files : Files) (slots : GroupSlots) (returned : List (SymbolName × Option ℕ))
    (offered : List Offer) : Prop where
  sized : slots.Sized
  best : ∀ key slot, (key, some slot) ∈ returned → Best files offered key (slots.word slot)
  fresh : ∀ slot ≤ U32_MAX, (∀ key, (key, some slot) ∉ returned) → slots.word slot = U64_MAX
  offered : ∀ o ∈ offered, ∃ slot, (o.key, some slot) ∈ returned

section Runs

variable {hash : SymbolName → UInt64} {files : Files}

variable {key : SymbolName}

variable {offers : List Offer} {word : ℕ} {o : Offer}

theorem Best.cons_of_ne (h : Best files offers key word) (ho : o.key ≠ key) :
    Best files (o :: offers) key word := by
  rcases h with ⟨hword, hnone⟩ | ⟨round, file, hholder, hword⟩
  · exact .inl ⟨hword, List.forall_mem_cons.mpr ⟨ho, hnone⟩⟩
  · exact .inr ⟨round, file, hholder.cons_of_ne ho, hword⟩

/-- **The minimum with an offer's word.** -/
theorem Best.min (h : Best files offers o.key word) (hround : o.round ≤ U32_MAX)
    (hfile : o.file < files.count) :
    Best files (o :: offers) o.key
      (min word (GroupSlots.pack o.round (files.rank o.file))) := by
  have hrank := files.rank_le o.file hfile
  rcases h with ⟨hword, hnone⟩ | ⟨round, file, hholder, hword⟩
  · refine .inr ⟨o.round, o.file, holder_of_first rfl hfile hnone, ?_⟩
    rw [hword]
    exact Nat.min_eq_right (GroupSlots.pack_le_max hround hrank)
  · have hbest := files.rank_le file hholder.lt
    rw [hword]
    rcases le_total (toLex (round, files.rank file)) (toLex (o.round, files.rank o.file))
      with hle | hle
    · refine .inr ⟨round, file, hholder.cons_of_le hle, Nat.min_eq_left ?_⟩
      exact (GroupSlots.pack_le_iff hbest hrank).mpr hle
    · refine .inr ⟨o.round, o.file, hholder.cons_of_lt rfl hfile hle, Nat.min_eq_right ?_⟩
      exact (GroupSlots.pack_le_iff hrank hbest).mpr hle

/-- What every step keeps. -/
structure System.Inv (hash : SymbolName → UInt64) (files : Files) (st : System) : Prop where
  claims : ClaimsInv hash files st.claims st.claimed
  numbered : Numbered hash st.slots st.calls st.returned
  words : WordsInv files st.slots st.returned st.offered

theorem System.inv_new : System.Inv hash files .new where
  claims := claimsInv_new
  numbered := numbered_new
  words := ⟨fun _ _ h => (nomatch h), fun _ _ h => absurd h List.not_mem_nil, fun _ _ _ => rfl,
    List.forall_mem_nil _⟩

variable {st : System}

variable {slot : ℕ}

section

variable (h : System.Inv hash files st) (hreturned : (key, some slot) ∈ st.returned)

include h hreturned

theorem System.Inv.slot_lt : slot < st.slots.next :=
  h.numbered.lt _ key slot (.inl ((h.numbered.returned key slot).mp hreturned))

theorem System.Inv.slot_le : slot ≤ U32_MAX :=
  (h.slot_lt hreturned).le.trans h.numbered.next_le

/-- **Distinct keys have distinct slots.** -/
theorem System.Inv.slot_inj {key' : SymbolName} {slot' : ℕ}
    (hreturned' : (key', some slot') ∈ st.returned) :
    slot = slot' ↔ key = key' :=
  h.numbered.inj _ _ key key' slot slot' (.inl ((h.numbered.returned key slot).mp hreturned))
    (.inl ((h.numbered.returned key' slot').mp hreturned'))

end

/-- More that `slot` returned, of which nothing is new. -/
theorem WordsInv.congr {slots slots' : GroupSlots}
    {returned returned' : List (SymbolName × Option ℕ)} {offered : List Offer}
    (h : WordsInv files slots returned offered)
    (hclaims : slots'.claims = slots.claims)
    (hreturned : ∀ key slot, (key, some slot) ∈ returned' ↔ (key, some slot) ∈ returned) :
    WordsInv files slots' returned' offered := by
  have hword : ∀ slot, slots'.word slot = slots.word slot := fun slot => by
    rw [GroupSlots.word, GroupSlots.word, hclaims]
  refine ⟨fun k cells hk => h.sized k cells (hclaims ▸ hk), fun key slot hmem => ?_,
    fun slot hle hfresh => ?_, fun o ho => ?_⟩
  · rw [hword]
    exact h.best key slot ((hreturned key slot).mp hmem)
  · rw [hword]
    exact h.fresh slot hle fun key hmem => hfresh key ((hreturned key slot).mpr hmem)
  · obtain ⟨slot, hslot⟩ := h.offered o ho
    exact ⟨slot, (hreturned _ _).mpr hslot⟩

/-- **One step.** -/
theorem System.Inv.step (h : System.Inv hash files st) {e : Event} {st' : System}
    (hstep : st.step hash files e = some st') : System.Inv hash files st' := by
  cases e with
  | look key =>
    unfold System.step at hstep
    dsimp only at hstep
    split at hstep
    · exact nomatch hstep
    next hfree =>
    have hidle : st.calls (claimShardOf (hash key)) = none := not_not.mp hfree
    split at hstep
    · next entry hentry =>
      obtain rfl := Option.some.inj hstep
      obtain ⟨hmem, hkey⟩ := findEntry_eq_some hentry
      have hreturned : (key, some entry.2) ∈ st.returned :=
        (h.numbered.returned key entry.2).mpr (hkey ▸ hmem)
      have hsame : ∀ key' slot', (key', some slot') ∈ (key, some entry.2) :: st.returned ↔
          (key', some slot') ∈ st.returned := fun key' slot' => by
        rw [List.mem_cons]
        exact or_iff_right_of_imp fun heq => heq ▸ hreturned
      exact ⟨h.claims,
        { h.numbered with
          returned := fun key' slot' => (hsame key' slot').trans (h.numbered.returned key' slot') },
        h.words.congr rfl hsame⟩
    · next hnone =>
      obtain rfl := Option.some.inj hstep
      refine ⟨h.claims, h.numbered.update (fun _ _ hins => nomatch hidle.symm.trans hins)
        (fun _ _ hins => nomatch hins) fun d hd => ?_, h.words⟩
      obtain rfl := Option.some.inj hd
      exact ⟨rfl, findEntry_eq_none.mp hnone⟩
  | retry s =>
    unfold System.step at hstep
    dsimp only at hstep
    split at hstep
    · next key slot hcall =>
      obtain rfl := Option.some.inj hstep
      refine ⟨h.claims, h.numbered.update (fun _ _ hins => nomatch hcall.symm.trans hins)
        (fun _ _ hins => nomatch hins) fun d hd => ?_, h.words⟩
      obtain rfl := Option.some.inj hd
      have hold := h.numbered.call s _ hcall
      exact hold
    · exact nomatch hstep
  | full s =>
    unfold System.step at hstep
    dsimp only at hstep
    split at hstep
    · next key slot hcall =>
      split at hstep
      · obtain rfl := Option.some.inj hstep
        have hupdate := h.numbered.update (c := none)
          (fun _ _ hins => nomatch hcall.symm.trans hins) (fun _ _ hins => nomatch hins)
          fun d hd => nomatch hd
        have hsame : ∀ key' slot', (key', some slot') ∈ (key, none) :: st.returned ↔
            (key', some slot') ∈ st.returned := fun key' slot' => by
          rw [List.mem_cons]
          exact or_iff_right fun heq => nomatch (Prod.mk.inj heq).2
        exact ⟨h.claims,
          { hupdate with
            returned := fun key' slot' => (hsame key' slot').trans (hupdate.returned key' slot') },
          h.words.congr rfl hsame⟩
      · exact nomatch hstep
    · exact nomatch hstep
  | take s =>
    unfold System.step at hstep
    dsimp only at hstep
    split at hstep
    · next key slot hcall =>
      split at hstep
      · next hnext =>
        obtain ⟨hne, rfl⟩ := hnext
        obtain rfl := Option.some.inj hstep
        exact ⟨h.claims, h.numbered.take hcall hne, h.words.congr rfl fun _ _ => Iff.rfl⟩
      · exact nomatch hstep
    · exact nomatch hstep
  | insert s =>
    unfold System.step at hstep
    dsimp only at hstep
    split at hstep
    · next key slot hcall =>
      obtain rfl := Option.some.inj hstep
      refine ⟨h.claims, h.numbered.insert hcall, ?_⟩
      obtain ⟨hshard, habsent⟩ := h.numbered.call s _ hcall
      -- Neither the key nor the number was returned before.
      have hkey : ∀ slot', (key, some slot') ∉ st.returned := fun slot' hmem =>
        habsent _ (hshard ▸ (h.numbered.returned key slot').mp hmem) rfl
      have hslot : ∀ key', (key', some slot) ∉ st.returned := fun key' hmem => by
        have hsame := (h.numbered.inj _ s key' key slot slot
          (.inl ((h.numbered.returned key' slot).mp hmem)) (.inr hcall)).mp rfl
        exact hkey slot (hsame ▸ hmem)
      have hle : slot ≤ U32_MAX :=
        (h.numbered.lt s key slot (.inr hcall)).le.trans h.numbered.next_le
      refine ⟨h.words.sized, fun key' slot' hmem => ?_, fun slot' hle' hfresh => ?_, fun o ho => ?_⟩
      · rcases List.mem_cons.mp hmem with heq | hmem
        · obtain ⟨rfl, hslot'⟩ := Prod.mk.inj heq
          obtain rfl := Option.some.inj hslot'
          refine .inl ⟨h.words.fresh slot' hle hslot, fun o ho hkey' => ?_⟩
          obtain ⟨slot'', hslot''⟩ := h.words.offered o ho
          exact hkey slot'' (hkey' ▸ hslot'')
        · exact h.words.best key' slot' hmem
      · exact h.words.fresh slot' hle' fun key' hmem => hfresh key' (List.mem_cons_of_mem _ hmem)
      · obtain ⟨slot', hslot'⟩ := h.words.offered o ho
        exact ⟨slot', List.mem_cons_of_mem _ hslot'⟩
    · exact nomatch hstep
  | openSegment slot =>
    obtain rfl := Option.some.inj hstep
    have hkeys : (st.slots.openSegment slot).keys = st.slots.keys ∧
        (st.slots.openSegment slot).next = st.slots.next := by
      unfold GroupSlots.openSegment
      dsimp only
      split <;> exact ⟨rfl, rfl⟩
    have hword := GroupSlots.word_openSegment st.slots slot
    refine ⟨h.claims, ?_, h.words.sized.openSegment slot, ?_, ?_, h.words.offered⟩
    · exact h.numbered.congr hkeys.1 hkeys.2
    · intro key slot' hmem
      rw [hword]
      exact h.words.best key slot' hmem
    · intro slot' hle hfresh
      rw [hword]
      exact h.words.fresh slot' hle hfresh
  | offer slot o =>
    unfold System.step at hstep
    dsimp only at hstep
    split at hstep
    · next hguard =>
      obtain ⟨hreturned, hround, hfile⟩ := hguard
      cases hfetch : st.slots.fetchMin slot (GroupSlots.pack o.round (files.rank o.file)) with
      | none => rw [hfetch] at hstep; exact nomatch hstep
      | some slots =>
        rw [hfetch] at hstep
        obtain rfl := Option.some.inj hstep
        have hslot := h.slot_le hreturned
        obtain ⟨hsized, hkeys, hnext, hword⟩ := GroupSlots.word_fetchMin h.words.sized hslot hfetch
        refine ⟨h.claims, ?_, hsized, ?_, ?_, ?_⟩
        · exact h.numbered.congr hkeys hnext
        · intro key slot' hmem
          rw [hword slot' (h.slot_le hmem)]
          have hinj := h.slot_inj hreturned hmem
          by_cases hkey : o.key = key
          · rw [if_pos (hinj.mpr hkey), ← hkey]
            exact (h.words.best o.key slot hreturned).min hround hfile
          · rw [if_neg fun heq => hkey (hinj.mp heq)]
            exact (h.words.best key slot' hmem).cons_of_ne hkey
        · intro slot' hle hfresh
          have hne : slot ≠ slot' := fun heq => hfresh o.key (heq ▸ hreturned)
          rw [hword slot' hle, if_neg hne]
          exact h.words.fresh slot' hle hfresh
        · exact List.forall_mem_cons.mpr ⟨⟨slot, hreturned⟩, h.words.offered⟩
    · exact nomatch hstep
  | claim o =>
    unfold System.step at hstep
    dsimp only at hstep
    split at hstep
    · next hguard =>
      obtain rfl := Option.some.inj hstep
      exact ⟨h.claims.offer o hguard.2.1 hguard.2.2, h.numbered, h.words⟩
    · exact nomatch hstep

/-- **A run.** -/
theorem System.Inv.run (events : List Event) : ∀ {st st' : System}, System.Inv hash files st →
    st.run hash files events = some st' → System.Inv hash files st' := by
  induction events with
  | nil =>
    intro st st' h hrun
    obtain rfl := Option.some.inj hrun
    exact h
  | cons e events ih =>
    intro st st' h hrun
    rw [System.run, List.foldlM_cons] at hrun
    obtain ⟨mid, hmid, hrest⟩ := Option.bind_eq_some_iff.mp hrun
    exact ih (h.step hmid) hrest

end Runs

/-! ### Agreement -/

/-- **The two tables decide alike (proved).** -/
theorem claims_agree (hash : SymbolName → UInt64) (files : Files) (events : List Event)
    (st : System) (hrun : System.new.run hash files events = some st) (key : SymbolName) (slot : ℕ)
    (hslot : (key, some slot) ∈ st.returned)
    (hoffers : ∀ o : Offer, o.key = key → (o ∈ st.claimed ↔ o ∈ st.offered)) :
    (∀ round, ∀ file < files.count,
      (∃ o ∈ st.offered, o.key = key) ∨ round ≠ U32_MAX ∨ files.rank file ≠ U32_MAX →
      (st.slots.holds slot round (files.rank file) = true ↔
        st.claims.owner hash key = some file ∧ ⟨round, key, file⟩ ∈ st.offered ∧
          ∀ o ∈ st.offered, o.key = key → round ≤ o.round)) ∧
    (∀ file, st.claims.owner hash key = some file ↔
      ∃ round, Holder files st.offered key round file) ∧
    (∀ key' slot', (key', some slot') ∈ st.returned →
      (slot = slot' ↔ key = key') ∧
        (GroupSlots.cell slot = GroupSlots.cell slot' ↔ key = key')) ∧
    (GroupSlots.cell slot).1 < SLOT_SEGMENTS ∧
      (GroupSlots.cell slot).2 < SLOT_BASE <<< (GroupSlots.cell slot).1 := by
  have h := System.inv_new.run events hrun
  have hle := h.slot_le hslot
  have hsegment := GroupSlots.segment_spec hle
  have hholds : ∀ round rank, st.slots.holds slot round rank = true ↔
      st.slots.word slot = GroupSlots.pack round rank := fun round rank => by
    rw [GroupSlots.holds, GroupSlots.load_eq h.words.sized hle, beq_iff_eq, Option.some_inj]
  have hholder : ∀ round file, Holder files st.claimed key round file ↔
      Holder files st.offered key round file := fun round file =>
    ⟨fun hh => ⟨(hoffers _ rfl).mp hh.mem, hh.lt,
        fun o ho hkey => hh.le o ((hoffers o hkey).mpr ho) hkey⟩,
      fun hh => ⟨(hoffers _ rfl).mpr hh.mem, hh.lt,
        fun o ho hkey => hh.le o ((hoffers o hkey).mp ho) hkey⟩⟩
  have howner : ∀ file, st.claims.owner hash key = some file ↔
      ∃ round, Holder files st.offered key round file := by
    intro file
    unfold GroupClaims.owner
    cases hfind : st.claims.find hash key with
    | none =>
      refine iff_of_false (fun hnone => nomatch hnone) ?_
      rintro ⟨round, hh⟩
      exact h.claims.none key hfind _ ((hholder round file).mpr hh).mem rfl
    | some claim =>
      have hclaim := (hholder _ _).mp (h.claims.some key claim hfind).1
      rw [Option.map_some, Option.some_inj]
      exact ⟨fun heq => ⟨claim.round, heq ▸ hclaim⟩, fun ⟨round, hh⟩ => (hclaim.unique hh).2⟩
  refine ⟨fun round file hfile hcorner => ?_, howner, fun key' slot' hslot' => ?_, hsegment.1,
    hsegment.2.2⟩
  · have hrank := files.rank_le file hfile
    rw [hholds, howner]
    rcases h.words.best key slot hslot with ⟨hword, hnone⟩ | ⟨best, winner, hbest, hword⟩
    · -- No file offered the key: the word is that of no offer.
      have hcorner' := hcorner.resolve_left fun ⟨o, ho, hkey⟩ => hnone o ho hkey
      refine iff_of_false (fun heq => ?_) fun hh => hnone _ hh.2.1 rfl
      have hmax : U64_MAX = GroupSlots.pack U32_MAX U32_MAX := rfl
      rw [hword, hmax, GroupSlots.pack_inj (Nat.le_refl _) hrank] at heq
      exact hcorner'.elim (fun hne => hne heq.1.symm) fun hne => hne heq.2.symm
    · rw [hword, GroupSlots.pack_inj (files.rank_le winner hbest.lt) hrank]
      constructor
      · rintro ⟨rfl, hsame⟩
        obtain rfl := Files.rank_inj hbest.lt hfile hsame
        refine ⟨⟨best, hbest⟩, hbest.mem, fun o ho hkey => ?_⟩
        rcases Prod.Lex.toLex_le_toLex.mp (hbest.le o ho hkey) with hlt | heq
        · exact hlt.le
        · exact Nat.le_of_eq heq.1
      · rintro ⟨⟨first, hfirst⟩, hmem, hearliest⟩
        obtain ⟨rfl, rfl⟩ := hbest.unique hfirst
        refine ⟨Nat.le_antisymm ?_ (hearliest _ hbest.mem rfl), rfl⟩
        rcases Prod.Lex.toLex_le_toLex.mp (hbest.le _ hmem rfl) with hlt | heq
        · exact Nat.le_of_lt hlt
        · exact Nat.le_of_eq heq.1
  · rw [GroupSlots.cell_inj hle (h.slot_le hslot'), h.slot_inj hslot hslot']
    exact ⟨Iff.rfl, Iff.rfl⟩

/-! ### Two files -/

/-- Two files in the order of their numbers. -/
def sampleFiles : Files where
  count := 2
  position := fun _ => 0
  rank := fun file => file
  rank_le := by decide
  rank_lt_iff := by decide

/-- A key that both files offer in the first round, the second file before the other. -/
def sampleEvents (key : SymbolName) : List Event :=
  let s := claimShardOf 0
  [.look key, .retry s, .take s, .insert s, .openSegment 0, .claim ⟨1, key, 1⟩,
    .offer 0 ⟨1, key, 1⟩, .offer 0 ⟨1, key, 0⟩, .claim ⟨1, key, 0⟩]

theorem claims_agree_sample : ∃ st, System.new.run (fun _ => 0) sampleFiles
      (sampleEvents ⟨[103], none⟩) = some st ∧
    (st.slots.holds 0 1 0 = true ↔ st.claims.owner (fun _ => 0) ⟨[103], none⟩ = some 0 ∧
      ⟨1, ⟨[103], none⟩, 0⟩ ∈ st.offered ∧
      ∀ o ∈ st.offered, o.key = ⟨[103], none⟩ → 1 ≤ o.round) := by
  refine ⟨_, rfl, ?_⟩
  exact (claims_agree _ sampleFiles (sampleEvents ⟨[103], none⟩) _ rfl ⟨[103], none⟩ 0
    (by decide) fun _ _ => Iff.rfl).1 1 0 (by decide) (.inr (.inl (by decide)))

/-- **A file that offers a key in two rounds does not hold it in the second.** -/
theorem claims_offeredTwice : ∃ st, System.new.run (fun _ => 0) sampleFiles
      [.look ⟨[103], none⟩, .take (claimShardOf 0), .insert (claimShardOf 0), .openSegment 0,
        .claim ⟨1, ⟨[103], none⟩, 0⟩, .offer 0 ⟨1, ⟨[103], none⟩, 0⟩,
        .claim ⟨2, ⟨[103], none⟩, 0⟩, .offer 0 ⟨2, ⟨[103], none⟩, 0⟩] = some st ∧
    st.claimed = st.offered ∧ (⟨[103], none⟩, some 0) ∈ st.returned ∧
    st.claims.owner (fun _ => 0) ⟨[103], none⟩ = some 0 ∧ ⟨2, ⟨[103], none⟩, 0⟩ ∈ st.offered ∧
    st.slots.holds 0 2 (sampleFiles.rank 0) = false :=
  ⟨_, rfl, rfl, by decide, by decide, by decide, by decide⟩

end Qld.Symbols
