import Qld.Elf.Dynsym.Hash

/-!
# Lookups in `.gnu.hash`

* `gnuVisits`, `walkGnu` — the lookup of the format: the bloom word and its two bits, the bucket,
  and the chain until the low bit;
* `GnuInv`, `gnuStep_inv`, `gnuFold_inv` — what the table has after some symbols;
* `walkGnu_spec` — the walk visits the entries of its bucket with the hash, and ends;
* `gnuVisits_spec` — the lookup visits exactly these.
-/

namespace Qld.Elf.Dynsym

open Qld.Lib

/-! ### The lookup -/

/-- The walk over a chain, to the first word with its low bit set.  `none` before the chain array,
and behind it, where the section ends. -/
def walkGnu (kind : ElfKind) (data : List UInt8) (chains symoffset hash : ℕ) :
    ℕ → ℕ → Option (List ℕ)
  | 0, _ => none
  | fuel + 1, symix =>
    if symix < symoffset then none
    else do
      let chain ← kind.read 4 data (chains + 4 * (symix - symoffset))
      let rest ← if chain % 2 = 1 then some [] else
        walkGnu kind data chains symoffset hash fuel (symix + 1)
      some (if chain / 2 = hash / 2 then symix :: rest else rest)

/-- The entries whose names a lookup compares, by their `.dynsym` indices. -/
def gnuVisits (kind : ElfKind) (data : List UInt8) (hash : ℕ) : Option (List ℕ) := do
  let nbuckets ← kind.read 4 data 0
  let symoffset ← kind.read 4 data 4
  let maskWords ← kind.read 4 data 8
  let shift ← kind.read 4 data 12
  let wordBits := kind.wordSize * 8
  let word ← kind.read kind.wordSize data (16 + kind.wordSize * (hash / wordBits % maskWords))
  if word.testBit (hash % wordBits) && word.testBit ((hash >>> shift) % wordBits) then do
    let buckets := 16 + kind.wordSize * maskWords
    let symix ← kind.read 4 data (buckets + 4 * (hash % nbuckets))
    if symix = 0 then some []
    else walkGnu kind data (buckets + 4 * nbuckets) symoffset hash data.length symix
  else some []

/-! ### The number of buckets -/

theorem bestSize_bounds (symbols : ℕ) : ∀ (sizes : List ℕ) (best : ℕ), 0 < best → best < 2 ^ 32 →
    (∀ size ∈ sizes, 0 < size ∧ size < 2 ^ 32) →
    0 < bestSize symbols best sizes ∧ bestSize symbols best sizes < 2 ^ 32
  | [], best, hpos, hlt, _ => ⟨hpos, hlt⟩
  | [size], best, hpos, hlt, hsizes => hsizes size List.mem_cons_self
  | size :: next :: sizes, best, hpos, hlt, hsizes => by
    have hsize := hsizes size List.mem_cons_self
    rw [bestSize]
    split
    · exact bestSize_bounds symbols (next :: sizes) size hsize.1 hsize.2
        fun s hs => hsizes s (List.mem_cons_of_mem _ hs)
    · exact hsize

theorem bucketCount_bounds (symbols : ℕ) (gnu : Bool) :
    0 < bucketCount symbols gnu ∧ bucketCount symbols gnu < 2 ^ 32 := by
  have h := bestSize_bounds symbols SIZES 1 (by decide) (by decide) (by decide)
  unfold bucketCount
  cases gnu with
  | false => exact h
  | true =>
    show 0 < max _ 2 ∧ max _ 2 < 2 ^ 32
    omega

theorem two_le_bucketCount (symbols : ℕ) : 2 ≤ bucketCount symbols true :=
  Nat.le_max_right _ _

/-! ### Words -/

/-- The chain word of the symbol at a position. -/
def chainWord (hashed : List (ℕ × List UInt8)) (nbuckets : ℕ) (p : ℕ) (hash : ℕ) : ℕ :=
  if hashed[p + 1]?.all fun next => next.1 % nbuckets ≠ hash % nbuckets then hash ||| 1
  else hash &&& (2 ^ 32 - 2)

theorem marked_word (hash : ℕ) : (hash ||| 1) / 2 = hash / 2 ∧ (hash ||| 1) % 2 = 1 :=
  ⟨by rw [Nat.or_div_two, Nat.div_eq_of_lt (by decide : 1 < 2), Nat.or_zero],
    Nat.or_mod_two_eq_one.mpr (.inr rfl)⟩

variable {hash nbuckets p wordBits symoffset k : ℕ}

theorem unmarked_word (h : hash < 2 ^ 32) :
    (hash &&& (2 ^ 32 - 2)) / 2 = hash / 2 ∧ (hash &&& (2 ^ 32 - 2)) % 2 = 0 := by
  refine ⟨?_, ?_⟩
  · rw [Nat.and_div_two, show (2 ^ 32 - 2) / 2 = 2 ^ 31 - 1 from rfl,
      Nat.and_two_pow_sub_one_eq_mod, Nat.mod_eq_of_lt (by omega)]
  · rcases Nat.mod_two_eq_zero_or_one (hash &&& (2 ^ 32 - 2)) with hzero | hone
    · exact hzero
    · cases (Nat.and_mod_two_eq_one.mp hone).2

variable {hashed rest : List (ℕ × List UInt8)}

theorem chainWord_lt (h : hash < 2 ^ 32) :
    chainWord hashed nbuckets p hash < 2 ^ 32 := by
  unfold chainWord
  split
  · exact Nat.or_lt_two_pow h (by decide)
  · exact Nat.and_lt_two_pow _ (by decide)

/-! ### Building -/

/-- The first of the first `k` symbols in a bucket, as the bucket has it. -/
def bucketWord (hashed : List (ℕ × List UInt8)) (nbuckets symoffset k b : ℕ) : ℕ :=
  ((hashed.take k).findIdx? fun e => e.1 % nbuckets = b).elim 0 (· + symoffset)

/-- The bits of a hash are set in its word of the bloom filter. -/
def InBloom (wordBits : ℕ) (bloom : List ℕ) (hash : ℕ) : Prop :=
  ∃ word, bloom[hash / wordBits % bloom.length]? = some word ∧
    word.testBit (hash % wordBits) = true ∧ word.testBit ((hash >>> SHIFT) % wordBits) = true

/-- What the table has after the first `k` symbols. -/
structure GnuInv (hashed : List (ℕ × List UInt8)) (nbuckets wordBits symoffset maskWords k : ℕ)
    (table : GnuTable) : Prop where
  bloom_length : table.bloom.length = maskWords
  buckets_length : table.buckets.length = nbuckets
  chains_length : table.chains.length = hashed.length
  bloom_lt : ∀ word ∈ table.bloom, word < 2 ^ wordBits
  bloom : ∀ p < k, ∀ e, hashed[p]? = some e → InBloom wordBits table.bloom e.1
  buckets : ∀ b < nbuckets, table.buckets[b]? = some (bucketWord hashed nbuckets symoffset k b)
  chains : ∀ p < k, ∀ e, hashed[p]? = some e →
    table.chains[p]? = some (chainWord hashed nbuckets p e.1)

theorem testBit_bloomBits (wordBits hash i : ℕ) :
    (bloomBits wordBits hash).testBit i =
      (decide (i = hash % wordBits) || decide (i = (hash >>> SHIFT) % wordBits)) := by
  rw [bloomBits, Nat.testBit_or, Nat.one_shiftLeft, Nat.one_shiftLeft, Nat.testBit_two_pow,
    Nat.testBit_two_pow]
  simp only [eq_comm]

theorem InBloom.modify {w bits : ℕ} {bloom : List ℕ} (h : InBloom wordBits bloom hash) :
    InBloom wordBits (bloom.modify w fun slot => slot ||| bits) hash := by
  obtain ⟨word, hword, hbit, hbit'⟩ := h
  rw [InBloom, List.length_modify, List.getElem?_modify, hword]
  by_cases hw : w = hash / wordBits % bloom.length
  · exact ⟨word ||| bits, by simp [hw], by simp [Nat.testBit_or, hbit], by
      simp [Nat.testBit_or, hbit']⟩
  · exact ⟨word, by simp [hw], hbit, hbit'⟩

theorem inBloom_new {bloom : List ℕ} (h : bloom ≠ []) :
    InBloom wordBits
      (bloom.modify (hash / wordBits % bloom.length) fun slot => slot ||| bloomBits wordBits hash)
      hash := by
  have hlt : hash / wordBits % bloom.length < bloom.length :=
    Nat.mod_lt _ (List.length_pos_iff.mpr h)
  rw [InBloom, List.length_modify, List.getElem?_modify, List.getElem?_eq_getElem hlt]
  refine ⟨bloom[hash / wordBits % bloom.length] ||| bloomBits wordBits hash, by simp, ?_, ?_⟩ <;>
    simp [Nat.testBit_or, testBit_bloomBits]

theorem bloomBits_lt (h : 0 < wordBits) (hash : ℕ) :
    bloomBits wordBits hash < 2 ^ wordBits := by
  rw [bloomBits, Nat.one_shiftLeft, Nat.one_shiftLeft]
  exact Nat.or_lt_two_pow (Nat.pow_lt_pow_right (by decide) (Nat.mod_lt _ h))
    (Nat.pow_lt_pow_right (by decide) (Nat.mod_lt _ h))

variable {e : ℕ × List UInt8}

theorem bucketWord_succ (he : hashed[k]? = some e) (hpos : 0 < symoffset) (b : ℕ) :
    bucketWord hashed nbuckets symoffset (k + 1) b =
      if e.1 % nbuckets = b ∧ bucketWord hashed nbuckets symoffset k b = 0 then k + symoffset
      else bucketWord hashed nbuckets symoffset k b := by
  obtain ⟨hlt, rfl⟩ := List.getElem?_eq_some_iff.mp he
  unfold bucketWord
  rw [List.take_add_one, List.getElem?_eq_getElem hlt, List.findIdx?_append]
  cases hfind : (hashed.take k).findIdx? fun e => e.1 % nbuckets = b with
  | some p =>
    rw [if_neg]
    · rfl
    · simp
      omega
  | none =>
    simp only [Option.elim_none, and_true, Option.none_or, Option.toList_some,
      List.findIdx?_cons, List.findIdx?_nil, List.length_take, Nat.min_eq_left hlt.le]
    by_cases hb : hashed[k].1 % nbuckets = b <;> simp [hb]

/-- **One hashed symbol.** -/
theorem gnuStep_inv {maskWords : ℕ} {table : GnuTable} (he : hashed[k]? = some e)
    (hpos : 0 < symoffset) (hfits : hashed.length + symoffset ≤ U32_MAX + 1) (hmask : 0 < maskWords)
    (hwordBits : 0 < wordBits) (h : GnuInv hashed nbuckets wordBits symoffset maskWords k table) :
    ∃ table', gnuStep hashed nbuckets wordBits symoffset table (e, k) = .ok table' ∧
      GnuInv hashed nbuckets wordBits symoffset maskWords (k + 1) table' := by
  have hlt := (List.getElem?_eq_some_iff.mp he).1
  unfold gnuStep
  rw [if_neg (by show ¬U32_MAX < k + symoffset; omega)]
  refine ⟨_, rfl, ?_, ?_, ?_, ?_, ?_, ?_, ?_⟩
  · rw [List.length_modify, h.bloom_length]
  · rw [List.length_modify, h.buckets_length]
  · rw [List.length_set, h.chains_length]
  · intro word hword
    obtain ⟨i, hi⟩ := List.mem_iff_getElem?.mp hword
    rw [List.getElem?_modify] at hi
    obtain ⟨old, hold, rfl⟩ := Option.map_eq_some_iff.mp hi
    have hlt := h.bloom_lt old (List.mem_of_getElem? hold)
    dsimp only
    split
    · exact Nat.or_lt_two_pow hlt (bloomBits_lt hwordBits _)
    · exact hlt
  · intro p hp e' he'
    rcases Nat.lt_succ_iff_lt_or_eq.mp hp with hp | rfl
    · exact (h.bloom p hp e' he').modify
    · obtain rfl := Option.some.inj (he.symm.trans he')
      refine inBloom_new fun hnil => ?_
      rw [← h.bloom_length, hnil] at hmask
      cases hmask
  · intro b hb
    rw [List.getElem?_modify, h.buckets b hb, bucketWord_succ he hpos]
    show some (if e.1 % nbuckets = b then _ else _) = _
    by_cases hsame : e.1 % nbuckets = b <;> simp [hsame]
  · intro p hp e' he'
    rw [List.getElem?_set]
    rcases Nat.lt_succ_iff_lt_or_eq.mp hp with hp | rfl
    · rw [if_neg (by omega)]
      exact h.chains p hp e' he'
    · obtain rfl := Option.some.inj (he.symm.trans he')
      rw [if_pos rfl, if_pos (by rw [h.chains_length]; exact hlt)]
      rfl

theorem gnuInv_new {maskWords : ℕ} :
    GnuInv hashed nbuckets wordBits symoffset maskWords 0
      { bloom := List.replicate maskWords 0
        buckets := List.replicate nbuckets 0
        chains := List.replicate hashed.length 0 } where
  bloom_length := List.length_replicate
  buckets_length := List.length_replicate
  chains_length := List.length_replicate
  bloom_lt word hword := by
    rw [List.eq_of_mem_replicate hword]
    exact Nat.two_pow_pos _
  bloom p hp := absurd hp (Nat.not_lt_zero p)
  buckets b hb := by
    rw [List.getElem?_replicate, if_pos hb]
    rfl
  chains p hp := absurd hp (Nat.not_lt_zero p)

/-- **All hashed symbols.** -/
theorem gnuFold_inv {maskWords : ℕ} (hpos : 0 < symoffset)
    (hfits : hashed.length + symoffset ≤ U32_MAX + 1) (hmask : 0 < maskWords)
    (hwordBits : 0 < wordBits) : ∀ {k : ℕ} {table : GnuTable}, hashed.drop k = rest →
    GnuInv hashed nbuckets wordBits symoffset maskWords k table →
    ∃ table', (rest.zipIdx k).foldlM (gnuStep hashed nbuckets wordBits symoffset) table =
        .ok table' ∧
      GnuInv hashed nbuckets wordBits symoffset maskWords (k + rest.length) table' := by
  induction rest with
  | nil => exact fun _ h => ⟨_, rfl, h⟩
  | cons e rest ih =>
    intro k table hdrop h
    obtain ⟨hget, hrest⟩ := drop_eq_cons hdrop
    obtain ⟨table', hstep, h'⟩ := gnuStep_inv hget hpos hfits hmask hwordBits h
    obtain ⟨table'', hfold, h''⟩ := ih hrest h'
    refine ⟨table'', ?_, ?_⟩
    · rw [List.zipIdx_cons, List.foldlM_cons, hstep]
      exact hfold
    · rw [List.length_cons, Nat.add_comm rest.length, ← Nat.add_assoc]
      exact h''

/-! ### The walk -/

/-- The symbols that a lookup visits: those of its bucket that agree in the upper 31 bits. -/
def visited (nbuckets symoffset hash : ℕ) (symbols : List ((ℕ × List UInt8) × ℕ)) : List ℕ :=
  (symbols.filter fun x => x.1.1 % nbuckets = hash % nbuckets ∧ x.1.1 / 2 = hash / 2).map
    fun x => x.2 + symoffset

/-- The chain words can be read. -/
def ChainsAt (kind : ElfKind) (data : List UInt8) (chains nbuckets : ℕ)
    (hashed : List (ℕ × List UInt8)) : Prop :=
  ∀ p e, hashed[p]? = some e →
    kind.read 4 data (chains + 4 * p) = some (chainWord hashed nbuckets p e.1)

theorem visited_cons (hbucket : e.1 % nbuckets = hash % nbuckets) (rest : List (ℕ × List UInt8)) :
    visited nbuckets symoffset hash ((e :: rest).zipIdx p) =
      if e.1 / 2 = hash / 2 then
        (p + symoffset) :: visited nbuckets symoffset hash (rest.zipIdx (p + 1))
      else visited nbuckets symoffset hash (rest.zipIdx (p + 1)) := by
  unfold visited
  rw [List.zipIdx_cons, List.filter_cons]
  by_cases h : e.1 / 2 = hash / 2 <;> simp [hbucket, h]

theorem visited_eq_nil (h : ∀ e ∈ rest, e.1 % nbuckets ≠ hash % nbuckets) :
    visited nbuckets symoffset hash (rest.zipIdx p) = [] := by
  unfold visited
  rw [List.map_eq_nil_iff, List.filter_eq_nil_iff]
  intro x hx hvisited
  have hmem : x.1 ∈ rest := by
    have := List.mem_map_of_mem (f := Prod.fst) hx
    rwa [List.zipIdx_map_fst] at this
  exact h x.1 hmem (of_decide_eq_true hvisited).1

variable {kind : ElfKind}

theorem walkGnu_step {data : List UInt8} {chains : ℕ}
    (hread : ChainsAt kind data chains nbuckets hashed) {fuel : ℕ} (hget : hashed[p]? = some e)
    (hlt : e.1 < 2 ^ 32) :
    walkGnu kind data chains symoffset hash (fuel + 1) (p + symoffset) =
      (if hashed[p + 1]?.all fun next => next.1 % nbuckets ≠ e.1 % nbuckets then some []
        else walkGnu kind data chains symoffset hash fuel (p + 1 + symoffset)).map fun rest =>
          if e.1 / 2 = hash / 2 then (p + symoffset) :: rest else rest := by
  have hmarked := marked_word e.1
  have hunmarked := unmarked_word hlt
  rw [walkGnu, if_neg (Nat.not_lt.mpr (Nat.le_add_left _ _)), Nat.add_sub_cancel, hread p e hget,
    Option.bind_eq_bind, Option.bind_some,
    Nat.add_right_comm p 1]
  unfold chainWord
  split
  · rw [hmarked.1, hmarked.2]
    rfl
  · rw [hunmarked.1, hunmarked.2]
    show (walkGnu kind data chains symoffset hash fuel (p + symoffset + 1)).bind _ = _
    cases walkGnu kind data chains symoffset hash fuel (p + symoffset + 1) <;> rfl

/-- **The walk.**  From a symbol of a bucket it visits those of the bucket behind it, and
stops at the last of these. -/
theorem walkGnu_spec {data : List UInt8} {chains : ℕ}
    (hread : ChainsAt kind data chains nbuckets hashed)
    (hsorted : hashed.Pairwise fun a b => a.1 % nbuckets ≤ b.1 % nbuckets)
    (hhash : ∀ e ∈ hashed, e.1 < 2 ^ 32) :
    ∀ {p fuel : ℕ} {e : ℕ × List UInt8}, hashed.drop p = e :: rest →
      e.1 % nbuckets = hash % nbuckets → rest.length < fuel →
      walkGnu kind data chains symoffset hash fuel (p + symoffset) =
        some (visited nbuckets symoffset hash ((e :: rest).zipIdx p)) := by
  induction rest with
  | nil =>
    intro p fuel e hdrop hbucket hfuel
    obtain ⟨fuel, rfl⟩ := Nat.exists_eq_succ_of_ne_zero (Nat.ne_of_gt hfuel)
    obtain ⟨hget, hrest⟩ := drop_eq_cons hdrop
    have hnext : hashed[p + 1]? = none := by
      rw [← List.head?_drop, hrest]
      rfl
    rw [walkGnu_step hread hget (hhash e (List.mem_of_getElem? hget)), hnext,
      visited_cons hbucket]
    rfl
  | cons next rest ih =>
    intro p fuel e hdrop hbucket hfuel
    obtain ⟨fuel, rfl⟩ := Nat.exists_eq_succ_of_ne_zero (Nat.ne_of_gt (Nat.zero_lt_of_lt hfuel))
    obtain ⟨hget, hrest⟩ := drop_eq_cons hdrop
    obtain ⟨hnext, -⟩ := drop_eq_cons hrest
    rw [walkGnu_step hread hget (hhash e (List.mem_of_getElem? hget)), hnext,
      visited_cons hbucket, Option.all_some]
    by_cases hsame : next.1 % nbuckets = e.1 % nbuckets
    · rw [if_neg (by simp [hsame]), ih hrest (hsame.trans hbucket)
        (by rw [List.length_cons] at hfuel; omega)]
      rfl
    · rw [if_pos (by simp [hsame]), visited_eq_nil]
      · rfl
      -- The buckets ascend, so that none behind the next one is this one.
      have hpair : (e :: next :: rest).Pairwise fun a b => a.1 % nbuckets ≤ b.1 % nbuckets := by
        rw [← hdrop]
        exact hsorted.sublist (List.drop_sublist _ _)
      have hfirst := (List.pairwise_cons.mp hpair).1 next List.mem_cons_self
      intro e' he' heq
      have hle : next.1 % nbuckets ≤ e'.1 % nbuckets := by
        rcases List.mem_cons.mp he' with rfl | he'
        · exact Nat.le_refl _
        · exact (List.pairwise_cons.mp (List.pairwise_cons.mp hpair).2).1 e' he'
      omega

/-! ### The bytes -/

/-- The parts of a table can be read from its bytes. -/
structure GnuBytes (kind : ElfKind) (data : List UInt8) (hashed : List (ℕ × List UInt8))
    (nbuckets symoffset maskWords : ℕ) (table : GnuTable) : Prop where
  nbuckets_eq : kind.read 4 data 0 = some nbuckets
  symoffset_eq : kind.read 4 data 4 = some symoffset
  maskWords_eq : kind.read 4 data 8 = some maskWords
  shift_eq : kind.read 4 data 12 = some SHIFT
  bloom : ∀ w word, table.bloom[w]? = some word →
    kind.read kind.wordSize data (16 + kind.wordSize * w) = some word
  buckets : ∀ b symix, table.buckets[b]? = some symix →
    kind.read 4 data (16 + kind.wordSize * maskWords + 4 * b) = some symix
  chains : ChainsAt kind data (16 + kind.wordSize * maskWords + 4 * nbuckets) nbuckets hashed
  length_le : hashed.length ≤ data.length

theorem wordSize_bounds (kind : ElfKind) : 4 ≤ kind.wordSize ∧ kind.wordSize ≤ 8 := by
  cases kind <;> decide

theorem bucketWord_lt {b : ℕ} (hfits : hashed.length + symoffset ≤ U32_MAX + 1) :
    bucketWord hashed nbuckets symoffset k b < 2 ^ 32 := by
  unfold bucketWord
  cases hfind : (hashed.take k).findIdx? fun e => e.1 % nbuckets = b with
  | none => exact Nat.two_pow_pos 32
  | some p =>
    have hp := (List.findIdx?_eq_some_iff_getElem.mp hfind).1
    rw [List.length_take] at hp
    show p + symoffset < 2 ^ 32
    have : U32_MAX + 1 = 2 ^ 32 := rfl
    omega

theorem gnuBytes {maskWords : ℕ} {table : GnuTable} (hnbuckets : nbuckets < 2 ^ 32)
    (hfits : hashed.length + symoffset ≤ U32_MAX + 1) (hmask : maskWords ≤ U32_MAX)
    (hsymoffset : symoffset ≤ U32_MAX) (hhash : ∀ e ∈ hashed, e.1 < 2 ^ 32)
    (h : GnuInv hashed nbuckets (kind.wordSize * 8) symoffset maskWords hashed.length table) :
    GnuBytes kind
      (kind.fields 4 [nbuckets, symoffset, maskWords, SHIFT] ++
        (kind.fields kind.wordSize table.bloom ++
          (kind.fields 4 table.buckets ++ kind.fields 4 table.chains)))
      hashed nbuckets symoffset maskWords table := by
  have hmax : U32_MAX < 256 ^ 4 := by decide
  have hhead : (kind.fields 4 [nbuckets, symoffset, maskWords, SHIFT]).length = 16 := by simp
  refine ⟨?_, ?_, ?_, ?_, fun w word hw => ?_, fun b symix hb => ?_, fun p e he => ?_, ?_⟩
  · exact ElfKind.read_fields [] 0 rfl hnbuckets
  · exact ElfKind.read_fields [] 1 rfl (by omega)
  · exact ElfKind.read_fields [] 2 rfl (by omega)
  · exact ElfKind.read_fields [] 3 rfl (by decide)
  · have hword := h.bloom_lt word (List.mem_of_getElem? hw)
    rw [Nat.mul_comm, Nat.pow_mul] at hword
    rw [← hhead]
    exact ElfKind.read_fields _ w hw hword
  · have hlt : symix < 256 ^ 4 := by
      have hb' := (List.getElem?_eq_some_iff.mp hb).1
      rw [h.buckets b (h.buckets_length ▸ hb')] at hb
      rw [← Option.some.inj hb]
      exact bucketWord_lt hfits
    have hbefore : 16 + kind.wordSize * maskWords =
        (kind.fields 4 [nbuckets, symoffset, maskWords, SHIFT] ++
          kind.fields kind.wordSize table.bloom).length := by
      rw [List.length_append, hhead, ElfKind.length_fields, h.bloom_length]
    rw [hbefore, ← List.append_assoc]
    exact ElfKind.read_fields _ b hb hlt
  · have hlt := (List.getElem?_eq_some_iff.mp he).1
    have hbefore : 16 + kind.wordSize * maskWords + 4 * nbuckets =
        (kind.fields 4 [nbuckets, symoffset, maskWords, SHIFT] ++
          (kind.fields kind.wordSize table.bloom ++ kind.fields 4 table.buckets)).length := by
      rw [List.length_append, List.length_append, hhead, ElfKind.length_fields,
        ElfKind.length_fields, h.bloom_length, h.buckets_length, Nat.add_assoc]
    rw [hbefore, ← List.append_nil (kind.fields 4 table.chains), ← List.append_assoc,
      ← List.append_assoc]
    rw [← List.append_assoc (kind.fields 4 _)]
    exact ElfKind.read_fields _ p (h.chains p hlt e he)
      (chainWord_lt (hhash e (List.mem_of_getElem? he)))
  · simp only [List.length_append, ElfKind.length_fields, h.chains_length]
    omega

theorem maskWords_bounds {count : ℕ} (h : count ≤ U32_MAX) :
    0 < maskWords (kind.wordSize * 8) count ∧ maskWords (kind.wordSize * 8) count ≤ U32_MAX := by
  unfold maskWords nextPowerOfTwo
  refine ⟨Nat.two_pow_pos _, ?_⟩
  have hle : count * 12 / (kind.wordSize * 8) ≤ count * 12 / 32 :=
    Nat.div_le_div_left (by have := wordSize_bounds kind; omega) (by decide)
  have hmax : U32_MAX = 4294967295 := rfl
  have hclog : Nat.clog 2 (max (count * 12 / (kind.wordSize * 8)) 1) ≤ 31 := by
    refine Nat.clog_le_of_le_pow ?_
    show _ ≤ 2147483648
    omega
  calc 2 ^ Nat.clog 2 (max (count * 12 / (kind.wordSize * 8)) 1) ≤ 2 ^ 31 :=
        Nat.pow_le_pow_right (by decide) hclog
    _ ≤ U32_MAX := by decide

theorem buildGnuHash_spec {imports : ℕ} (hnbuckets : nbuckets < 2 ^ 32)
    (hfits : hashed.length + (imports + 1) ≤ U32_MAX) (hhash : ∀ e ∈ hashed, e.1 < 2 ^ 32) :
    ∃ data table, buildGnuHash hashed nbuckets imports kind = .ok data ∧
      GnuInv hashed nbuckets (kind.wordSize * 8) (imports + 1)
        (maskWords (kind.wordSize * 8) hashed.length) hashed.length table ∧
      GnuBytes kind data hashed nbuckets (imports + 1)
        (maskWords (kind.wordSize * 8) hashed.length) table := by
  have hmask : 0 < maskWords (kind.wordSize * 8) hashed.length ∧
      maskWords (kind.wordSize * 8) hashed.length ≤ U32_MAX := maskWords_bounds (by omega)
  have hword := wordSize_bounds kind
  have hrun : ∃ table, (hashed.zipIdx 0).foldlM
      (gnuStep hashed nbuckets (kind.wordSize * 8) (imports + 1)) _ = .ok table ∧
      GnuInv hashed nbuckets (kind.wordSize * 8) (imports + 1)
        (maskWords (kind.wordSize * 8) hashed.length) (0 + hashed.length) table :=
    gnuFold_inv (by omega) (by omega) hmask.1 (by omega) List.drop_zero gnuInv_new
  obtain ⟨table, hfold, hinv⟩ := hrun
  rw [Nat.zero_add] at hinv
  refine ⟨_, table, ?_, hinv, gnuBytes hnbuckets (by omega) hmask.2 (by omega) hhash hinv⟩
  unfold buildGnuHash
  dsimp only
  rw [if_neg (Nat.not_lt.mpr hmask.2), if_neg (by omega), hfold]
  show Except.ok _ = Except.ok _
  simp only [ElfKind.fields, List.flatMap_cons, List.flatMap_nil, List.append_assoc,
    List.append_nil]
  rfl

/-! ### Lookups -/

theorem visited_append (nbuckets symoffset hash : ℕ) (xs ys : List ((ℕ × List UInt8) × ℕ)) :
    visited nbuckets symoffset hash (xs ++ ys) =
      visited nbuckets symoffset hash xs ++ visited nbuckets symoffset hash ys := by
  simp [visited]

/-- Two hashes of one bucket that differ in the lowest bit only are the same. -/
theorem eq_of_same_bucket {a b : ℕ} (h : 2 ≤ nbuckets) (hbucket : a % nbuckets = b % nbuckets)
    (hhalf : a / 2 = b / 2) : a = b := by
  have hdvd : ∀ x y : ℕ, x % nbuckets = y % nbuckets → y = x + 1 → False := by
    rintro x y hmod rfl
    have := (Nat.modEq_iff_dvd' (Nat.le_succ x)).mp hmod
    rw [Nat.succ_sub (Nat.le_refl x), Nat.sub_self] at this
    have := Nat.le_of_dvd (by decide) this
    omega
  rcases Nat.lt_trichotomy a b with hlt | heq | hgt
  · exact (hdvd a b hbucket (by omega)).elim
  · exact heq
  · exact (hdvd b a hbucket.symm (by omega)).elim

/-- **Lookups.**  The table is built, and a lookup visits exactly the symbols of its bucket
with all but the lowest bit of its hash; it ends inside the chain array. -/
theorem gnuVisits_spec {kind : ElfKind} {hashed : List (ℕ × List UInt8)} {nbuckets imports : ℕ}
    (htwo : 2 ≤ nbuckets) (hnbuckets : nbuckets < 2 ^ 32)
    (hfits : hashed.length + (imports + 1) ≤ U32_MAX) (hhash : ∀ e ∈ hashed, e.1 < 2 ^ 32)
    (hsorted : hashed.Pairwise fun a b => a.1 % nbuckets ≤ b.1 % nbuckets) :
    ∃ data, buildGnuHash hashed nbuckets imports kind = .ok data ∧ ∀ hash,
      gnuVisits kind data hash = some (visited nbuckets (imports + 1) hash hashed.zipIdx) := by
  obtain ⟨data, table, hbuild, hinv, hbytes⟩ := buildGnuHash_spec hnbuckets hfits hhash
  refine ⟨data, hbuild, fun hash => ?_⟩
  have hmask : 0 < maskWords (kind.wordSize * 8) hashed.length :=
    (maskWords_bounds (by omega)).1
  have hslot : hash / (kind.wordSize * 8) % maskWords (kind.wordSize * 8) hashed.length <
      table.bloom.length := by
    rw [hinv.bloom_length]
    exact Nat.mod_lt _ hmask
  have hword := List.getElem?_eq_getElem hslot
  have hbucket := hinv.buckets (hash % nbuckets) (Nat.mod_lt _ (by omega))
  unfold gnuVisits
  rw [hbytes.nbuckets_eq, hbytes.symoffset_eq, hbytes.maskWords_eq, hbytes.shift_eq]
  simp only [Option.bind_eq_bind, Option.bind_some]
  rw [hbytes.bloom _ _ hword, hbytes.buckets _ _ hbucket]
  simp only [Option.bind_some]
  split
  · have hlen := hbytes.length_le
    cases hfind : hashed.findIdx? fun e => e.1 % nbuckets = hash % nbuckets with
    | none =>
      have hsymix :
          bucketWord hashed nbuckets (imports + 1) hashed.length (hash % nbuckets) = 0 := by
        rw [bucketWord, List.take_length, hfind]
        rfl
      rw [if_pos hsymix, visited_eq_nil]
      intro e he
      have := List.findIdx?_eq_none_iff.mp hfind e he
      simpa using this
    | some p =>
      have hsymix : bucketWord hashed nbuckets (imports + 1) hashed.length (hash % nbuckets) =
          p + (imports + 1) := by
        rw [bucketWord, List.take_length, hfind]
        rfl
      obtain ⟨hp, hat, hbefore⟩ := List.findIdx?_eq_some_iff_getElem.mp hfind
      have hdrop : hashed.drop p = hashed[p] :: hashed.drop (p + 1) :=
        List.drop_eq_getElem_cons hp
      rw [hsymix, if_neg (by omega), walkGnu_spec hbytes.chains hsorted hhash hdrop
        (of_decide_eq_true hat) (by rw [List.length_drop]; omega), ← hdrop]
      -- Before the first symbol of the bucket there is none to visit.
      have hnone : visited nbuckets (imports + 1) hash ((hashed.take p).zipIdx 0) = [] := by
        refine visited_eq_nil fun e he => ?_
        obtain ⟨q, hq, rfl⟩ := List.getElem_of_mem he
        rw [List.length_take] at hq
        have := hbefore q (by omega)
        rw [List.getElem_take]
        simpa using this
      conv_rhs => rw [← List.take_append_drop p hashed]
      rw [List.zipIdx_append, visited_append, hnone, List.nil_append, List.length_take,
        Nat.min_eq_left hp.le, Nat.zero_add]
  · next hbloom =>
    -- A hash that is rejected is not that of a symbol.
    refine congrArg some (Eq.symm ?_)
    unfold visited
    rw [List.map_eq_nil_iff, List.filter_eq_nil_iff]
    intro x hx hsame
    have hsame := of_decide_eq_true hsame
    have heq := eq_of_same_bucket htwo hsame.1 hsame.2
    have hget := List.mem_zipIdx_iff_getElem?.mp hx
    obtain ⟨word, hat, hbit, hbit'⟩ :=
      hinv.bloom x.2 (List.getElem?_eq_some_iff.mp hget).1 x.1 hget
    rw [heq, hinv.bloom_length, hword] at hat
    rw [heq] at hbit hbit'
    rw [← Option.some.inj hat] at hbit hbit'
    exact hbloom (by rw [hbit, hbit']; rfl)

end Qld.Elf.Dynsym
