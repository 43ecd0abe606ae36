import Qld.Symbols.InternAssign
import Qld.Symbols.Sequence

/-!
# Partitioned interning numbers a sequence

`number_sequence` of `symbols/table/partition.rs`: the names of a batch are partitioned by
shard, every shard is probed in sequence order, the first occurrences of new names are marked in
a bitmap, and IDs follow from ranks in the bitmap.

* `partitionChunks`, `probeShards`, `markNew` — the three passes;
* `sequenceId`, `newNamesOf` — the ID of a result, and the new names by rank;
* `SymbolTable.numberSequence` — the whole path; the chunk size and the way the ranks are cut
  into tasks are parameters.

Names are identified by their index in the sequence; indices are kept in 32 bits, next to the
mark of provisional values.

What the passes of `number_sequence` leave, and the outcome of the whole path.

* `probeRegion_spec` — a shard probed in sequence order gives every name its ID, or
  the mark and its first occurrence;
* `partitionChunks_placed`, `chunkResults_eq` — every chunk finds the results of its
  names again by its cursors;
* `markNew_isBitmap`, `newNamesOf_eq` — the bitmap marks the first occurrences of the
  new names, whatever the chunks, and the ranks list them, whatever the tasks;
* `numberSequence_spec` — the path interns the sequence as `internNames` does.
-/

namespace Qld.Symbols

open Qld.Lib

section Passes

variable (hash : SymbolName → UInt64)

/-- The shard of a name of the sequence, as a bucket. -/
def itemShard (item : ℕ × SymbolName) : ℕ := (shardOf (hash item.2)).val

/-- `(g << 32) | low hash bits`. -/
def packEntry (item : ℕ × SymbolName) : ℕ := (item.1 <<< 32) ||| (low32 (hash item.2)).toNat

/-- The sequence in shard regions: the starts of the regions, the cursors at which each chunk
starts, and the entries. -/
structure Partitioned where
  region : List ℕ
  firstCursors : ℕ → ℕ → ℕ
  entries : ℕ → ℕ

/-- Pass 1: counts each chunk's names per shard, turns the counts into cursors, and scatters the
names.  Afterwards row `c` of the cursors is where chunk `c + 1` started. -/
def partitionChunks (chunks : List (List (ℕ × SymbolName))) : Partitioned :=
  let rows := chunks.map (countKeys (itemShard hash))
  let region := regionStarts SHARD_COUNT (sumRows rows)
  let start := fun k => region.getD k 0
  let scattered := scatterChunks (itemShard hash) (packEntry hash) chunks (rowCursors rows start)
    fun _ => 0
  { region := region
    firstCursors := fun c => if c = 0 then start else scattered.1.getD (c - 1) start
    entries := scattered.2 }

/-- The start of region `k`. -/
def Partitioned.start (p : Partitioned) (k : ℕ) : ℕ := p.region.getD k 0

/-- The entries of shard `s`. -/
def Partitioned.regionOf (p : Partitioned) (s : Fin SHARD_COUNT) : List ℕ :=
  (List.range' (p.start s) (p.start (s + 1) - p.start s)).map p.entries

/-- Whether names went to shard `s`. -/
def Partitioned.touches (p : Partitioned) (s : Fin SHARD_COUNT) : Bool :=
  p.start s != p.start (s + 1)

/-- Probes the table of a shard for one entry; a name not found is inserted with the mark and
its index in the sequence. -/
def probe (names : List SymbolName) (seq : Sequence) (table : List Slot) (entry : ℕ) :
    List Slot × ℕ :=
  let g := entry >>> 32
  let h32 := UInt32.ofNat entry
  match findSlot table (tableHash h32) fun slot =>
      slot.h32 == h32 &&
        (if slot.value &&& PENDING == 0 then names[slot.value]?
        else some (seq.name (unpend slot.value))) == some (seq.name g) with
  | some slot => (table, slot.value)
  | none =>
    let value := PENDING ||| g % 2 ^ 32
    (⟨h32, value⟩ :: table, value)

/-- Probes the entries of a region in order; each entry becomes its result. -/
def probeRegion (names : List SymbolName) (seq : Sequence) (table : List Slot) :
    List ℕ → List Slot × List ℕ
  | [] => (table, [])
  | entry :: entries =>
    let first := probe names seq table entry
    let rest := probeRegion names seq first.1 entries
    (rest.1, first.2 :: rest.2)

/-- Pass 2: the shards after probing, and the entries replaced by their results. -/
def probeShards (names : List SymbolName) (shards : Fin SHARD_COUNT → Shard) (seq : Sequence)
    (p : Partitioned) : (Fin SHARD_COUNT → Shard) × (ℕ → ℕ) :=
  let probed := fun s => probeRegion names seq (shards s).table (p.regionOf s)
  (fun s => { shards s with table := (probed s).1 },
    writeRegions (fun s : Fin SHARD_COUNT => p.start s) (fun s => (probed s).2)
      (List.finRange SHARD_COUNT) p.entries)

/-- The names of a chunk with their results, found by the same cursors. -/
def chunkResults (p : Partitioned) (entries : ℕ → ℕ) (c : ℕ) (items : List (ℕ × SymbolName)) :
    List ((ℕ × SymbolName) × ℕ) :=
  (replay (itemShard hash) entries items (p.firstCursors c)).map fun r => (r.1, r.2 % 2 ^ 32)

/-- Pass 3 for a chunk: marks the names that are their own first occurrence, in the words of the
chunk. -/
def markChunk (chunk c : ℕ) (words : List ℕ) (results : List ((ℕ × SymbolName) × ℕ)) : List ℕ :=
  results.foldl (fun words r =>
    let g := r.1.1
    if r.2 = PENDING ||| g % 2 ^ 32 then
      words.modify (c * (chunk / 64) + (g - c * chunk) / 64) (· ||| 1 <<< (g % 64))
    else words) words

/-- Pass 3: the bitmap of the new names. -/
def markNew (chunk total : ℕ) (results : List (List ((ℕ × SymbolName) × ℕ))) : List ℕ :=
  results.zipIdx.foldl (fun words r => markChunk chunk r.2 words r.1)
    (List.replicate ((total + 63) / 64) 0)

/-- The ID of a result. -/
def sequenceId (base : ℕ) (words before : List ℕ) (value : ℕ) : ℕ :=
  if value &&& PENDING == 0 then value else base + rankOf words before (unpend value)

/-- The index of the new name of rank `rank`; the cache holds the rank after the last one and the
index of its name, so that consecutive ranks cost a bit scan. -/
def newNameIndex (words before : List ℕ) (rank : ℕ) : Option (ℕ × ℕ) → ℕ
  | some (next, g) => if next = rank then nextSet words g else select words before rank
  | none => select words before rank

/-- The new names of one task, from rank `rank` on. -/
def newNamesTask (words before : List ℕ) (seq : Sequence) :
    ℕ → ℕ → Option (ℕ × ℕ) → List SymbolName
  | 0, _, _ => []
  | count + 1, rank, cache =>
    let g := newNameIndex words before rank cache
    seq.name g :: newNamesTask words before seq count (rank + 1) (some (rank + 1, g))

/-- The new names by rank, in tasks of the given sizes. -/
def newNamesOf (words before : List ℕ) (seq : Sequence) : List ℕ → ℕ → List SymbolName
  | [], _ => []
  | count :: tasks, rank =>
    newNamesTask words before seq count rank none ++
      newNamesOf words before seq tasks (rank + count)

end Passes

namespace SymbolTable

variable (hash : SymbolName → UInt64)

/-- Interns a sequence, numbering new names in sequence order; returns the ID of every place of
the outputs. -/
def numberSequence {α : Type*} (chunk : ChunkSize) (tasks : ℕ → List ℕ) (t : SymbolTable)
    (seq : Sequence) (outputs : List (List α)) : SymbolTable × Except Error (List (α × ℕ)) :=
  let total := seq.len
  let chunks := max ((total + chunk.size - 1) / chunk.size) 1
  let items := (List.range chunks).map fun c =>
    seq.items (c * chunk.size) (min ((c + 1) * chunk.size) total)
  let p := partitionChunks hash items
  let probed := probeShards t.names t.shards seq p
  let results := items.zipIdx.map fun r => chunkResults hash p probed.2 r.2 r.1
  let words := markNew chunk.size total results
  let (before, newCount) := onesBefore words 0
  let base := t.names.length
  if t.limit - base < newCount then
    ({ t with
        shards := fun s =>
          if p.touches s then (probed.1 s).retain fun slot => slot.value &&& PENDING == 0
          else probed.1 s },
      .error (overflow t.limit))
  else
    let pieces := splitOutputs outputs chunk.size chunks
    let written := List.zipWith (fun (piece : List (List α)) results =>
      List.zipWith (fun place (r : (ℕ × SymbolName) × ℕ) =>
        (place, sequenceId base words before r.2)) piece.flatten results) pieces results
    (growState
      { t with
        shards := fun s =>
          if p.touches s then
            { probed.1 s with
              table := (probed.1 s).table.map fun slot =>
                ⟨slot.h32, sequenceId base words before slot.value⟩ }
          else probed.1 s
        names := t.names ++ newNamesOf words before seq (tasks newCount) 0 }
      newCount,
    .ok written.flatten)

end SymbolTable

open SymbolTable

variable {hash : SymbolName → UInt64}

/-! ### Entries -/

theorem packEntry_eq (item : ℕ × SymbolName) :
    packEntry hash item = 2 ^ 32 * item.1 + (low32 (hash item.2)).toNat := by
  rw [packEntry, Nat.shiftLeft_eq, Nat.mul_comm,
    Nat.two_pow_add_eq_or_of_lt (UInt32.toNat_lt _)]

theorem packEntry_index (item : ℕ × SymbolName) : packEntry hash item >>> 32 = item.1 := by
  have := UInt32.toNat_lt (low32 (hash item.2))
  rw [packEntry_eq, Nat.shiftRight_eq_div_pow]
  omega

theorem packEntry_h32 (item : ℕ × SymbolName) :
    UInt32.ofNat (packEntry hash item) = low32 (hash item.2) := by
  have := UInt32.toNat_lt (low32 (hash item.2))
  rw [← UInt32.toNat_inj, UInt32.toNat_ofNat', packEntry_eq]
  omega

/-! ### Probing -/

section Probe

variable {names : List SymbolName} {segments : List (List SymbolName)} {s : Fin SHARD_COUNT}
  {table : List Slot}

variable {ys zs : List SymbolName}

/-- The name a value stands for while the sequence is probed. -/
theorem decode_eq (hnames : names.length ≤ PENDING) (hxs : segments.flatten = ys ++ zs)
    (hlt : segments.flatten.length < PENDING) {m : SymbolName} {v : ℕ}
    (hv : pendingValue names ys m = some v) :
    (if v &&& PENDING == 0 then names[v]?
      else some ((Sequence.new segments).name (unpend v))) = some m := by
  have hlen : ys.length < PENDING := by
    rw [hxs, List.length_append] at hlt
    omega
  have hname := slotName_pendingValue hnames hlen.le hv
  rw [slotName] at hname
  split
  · next h => rwa [if_pos h] at hname
  · next h =>
    rw [if_neg h] at hname
    have hget : segments.flatten[unpend v]? = some m := by
      rw [hxs, List.getElem?_append_left (List.getElem?_eq_some_iff.mp hname).1, hname]
    rw [Sequence.name_eq segments hget]

theorem probe_find (hnames : names.length ≤ PENDING) {n : SymbolName}
    (hxs : segments.flatten = ys ++ n :: zs) (hlt : segments.flatten.length < PENDING)
    (hs : shardOf (hash n) = s) (h : Holds hash s (pendingValue names ys) table) :
    (findSlot table (tableHash (low32 (hash n))) fun slot =>
      slot.h32 == low32 (hash n) &&
        (if slot.value &&& PENDING == 0 then names[slot.value]?
        else some ((Sequence.new segments).name (unpend slot.value))) == some n) =
      (pendingValue names ys n).map fun value => ⟨low32 (hash n), value⟩ := by
  refine h.find hs (fun slot => (if slot.value &&& PENDING == 0 then names[slot.value]?
    else some ((Sequence.new segments).name (unpend slot.value))) == some n) fun slot hslot _ => ?_
  rw [beq_iff_eq]
  obtain ⟨m, hm, -⟩ := (h.mem slot).mp hslot
  constructor
  · intro heq
    rw [decode_eq hnames hxs hlt hm, Option.some.injEq] at heq
    exact heq ▸ hm
  · exact decode_eq hnames hxs hlt

/-- **Probing for the next name of the sequence.** -/
theorem probe_spec (hnames : names.length ≤ PENDING) {n : SymbolName}
    (hxs : segments.flatten = ys ++ n :: zs) (hlt : segments.flatten.length < PENDING)
    (hs : shardOf (hash n) = s) (h : Holds hash s (pendingValue names ys) table) :
    Holds hash s (pendingValue names (ys ++ [n]))
        (probe names (Sequence.new segments) table (packEntry hash (ys.length, n))).1 ∧
      pendingValue names (ys ++ [n]) n =
        some (probe names (Sequence.new segments) table (packEntry hash (ys.length, n))).2 ∧
      ((probe names (Sequence.new segments) table (packEntry hash (ys.length, n))).1.filter
          fun slot => slot.value &&& PENDING == 0) =
        table.filter fun slot => slot.value &&& PENDING == 0 := by
  have hlen : ys.length < PENDING := by
    rw [hxs, List.length_append] at hlt
    omega
  have hmod : ys.length % 2 ^ 32 = ys.length :=
    Nat.mod_eq_of_lt (hlen.trans (by decide))
  have hname : (Sequence.new segments).name ys.length = n :=
    Sequence.name_eq segments (by rw [hxs]; simp)
  have hfind := probe_find hnames hxs hlt hs h
  simp only [probe, packEntry_index, packEntry_h32, hname, hfind, hmod]
  cases hv : pendingValue names ys n with
  | some v =>
    simp only [Option.map_some]
    rw [pendingValue_snoc_of_some hv]
    exact ⟨h, hv, trivial⟩
  | none =>
    simp only [Option.map_none]
    have hn : n ∉ names ∧ n ∉ ys := by
      constructor
      · intro hn
        rw [pendingValue_of_mem hn] at hv
        exact absurd hv (by simp)
      · intro hp
        by_cases hn : n ∈ names
        · rw [pendingValue_of_mem hn] at hv
          exact absurd hv (by simp)
        · rw [pendingValue_of_pending hn hp] at hv
          exact absurd hv (by simp)
    rw [pendingValue_snoc_of_new hn.1 hn.2, Function.update_self]
    refine ⟨h.insert hs hv fun m hm => ?_, rfl, ?_⟩
    · -- The index of the next name is not taken.
      have := slotName_pendingValue hnames hlen.le hm
      rw [slotName, pending_or_and_ne, if_neg Bool.false_ne_true, unpend_pending_or hlen,
        List.getElem?_eq_none le_rfl] at this
      exact absurd this (by simp)
    · rw [List.filter_cons, pending_or_and_ne, if_neg Bool.false_ne_true]

theorem probeRegion_append (names : List SymbolName) (seq : Sequence) (as : List ℕ) :
    ∀ (table : List Slot) (bs : List ℕ), probeRegion names seq table (as ++ bs) =
      ((probeRegion names seq (probeRegion names seq table as).1 bs).1,
        (probeRegion names seq table as).2 ++
          (probeRegion names seq (probeRegion names seq table as).1 bs).2) := by
  induction as with
  | nil => intro table bs; rfl
  | cons a as ih =>
    intro table bs
    simp only [List.cons_append, probeRegion, ih]

/-- The names of shard `s` among the first of the sequence. -/
def itemsOf (hash : SymbolName → UInt64) (s : Fin SHARD_COUNT) (ys : List SymbolName) :
    List (ℕ × SymbolName) :=
  (enumNames ys).filter fun item => itemShard hash item == s.val

theorem itemsOf_snoc (ys : List SymbolName) (n : SymbolName) :
    itemsOf hash s (ys ++ [n]) =
      itemsOf hash s ys ++ if shardOf (hash n) = s then [(ys.length, n)] else [] := by
  rw [itemsOf, itemsOf, enumNames_append, List.filter_append]
  congr 1
  by_cases hs : shardOf (hash n) = s
  · simp [itemShard, hs]
  · simp [itemShard, hs, Fin.val_inj]

/-- **Probing a region.** -/
theorem probeRegion_spec (hnames : names.length ≤ PENDING)
    (hlt : segments.flatten.length < PENDING) (h : Holds hash s (idOf names) table) :
    ∀ ys zs : List SymbolName, segments.flatten = ys ++ zs →
      Holds hash s (pendingValue names ys)
          (probeRegion names (Sequence.new segments) table
            ((itemsOf hash s ys).map (packEntry hash))).1 ∧
        ((probeRegion names (Sequence.new segments) table
            ((itemsOf hash s ys).map (packEntry hash))).1.filter
            fun slot => slot.value &&& PENDING == 0) =
          table.filter (fun slot => slot.value &&& PENDING == 0) ∧
        (probeRegion names (Sequence.new segments) table
            ((itemsOf hash s ys).map (packEntry hash))).2 =
          (itemsOf hash s ys).map fun item =>
            (pendingValue names segments.flatten item.2).getD 0 := by
  intro ys
  induction ys using List.reverseRecOn with
  | nil =>
    intro zs _
    refine ⟨?_, rfl, rfl⟩
    rw [pendingValue_nil]
    exact h
  | append_singleton ys n ih =>
    intro zs hxs
    rw [List.append_assoc, List.singleton_append] at hxs
    obtain ⟨hholds, hfilter, hresults⟩ := ih (n :: zs) hxs
    rw [itemsOf_snoc]
    by_cases hs : shardOf (hash n) = s
    · obtain ⟨hholds', hvalue, hfilter'⟩ := probe_spec hnames hxs hlt hs hholds
      rw [if_pos hs, List.map_append, probeRegion_append, List.map_singleton]
      simp only [probeRegion]
      refine ⟨hholds', hfilter'.trans hfilter, ?_⟩
      rw [hresults, List.map_append, List.map_singleton]
      have hfinal := pendingValue_append zs hvalue
      rw [List.append_assoc, List.singleton_append, ← hxs] at hfinal
      rw [hfinal, Option.getD_some]
    · rw [if_neg hs, List.append_nil]
      refine ⟨hholds.congr fun m hm => ?_, hfilter, hresults⟩
      -- A name of another shard gives the names of this one no value.
      have hmn : m ≠ n := fun hmn => hs (hmn ▸ hm)
      rw [pendingValue, pendingValue, idOf_snoc_of_ne ys hmn]

end Probe

/-! ### The passes over the chunks -/

section Chunks

variable {xs : List SymbolName} {chunks : List (List (ℕ × SymbolName))}

theorem itemShard_lt (item : ℕ × SymbolName) : itemShard hash item < SHARD_COUNT :=
  (shardOf (hash item.2)).isLt

theorem start_succ (hchunks : chunks.flatten = enumNames xs) (s : Fin SHARD_COUNT) :
    (partitionChunks hash chunks).start (s + 1) = (partitionChunks hash chunks).start s + (itemsOf hash s xs).length := by
  simp only [Partitioned.start, partitionChunks]
  rw [regionStarts_succ _ _ s.isLt, sumRows_eq, hchunks, itemsOf, length_filter_key]

theorem start_apart (hchunks : chunks.flatten = enumNames xs) :
    ApartRegions (itemShard hash) ((partitionChunks hash chunks).start) (enumNames xs) := by
  refine regionStarts_apart SHARD_COUNT (fun item _ => itemShard_lt item) fun k => ?_
  rw [sumRows_eq, hchunks]

/-- **Pass 1 places every name.** -/
theorem partitionChunks_placed (hchunks : chunks.flatten = enumNames xs) :
    Placed (itemShard hash) (packEntry hash) ((partitionChunks hash chunks).start) (enumNames xs)
      (partitionChunks hash chunks).entries := by
  have happ := @start_apart hash xs chunks hchunks
  rw [← hchunks, ← List.nil_append chunks.flatten] at happ
  have h := (scatterChunks_placed (packEntry hash) chunks [] (fun _ => 0) happ
    (fun before x after hsplit => absurd hsplit (by simp))).2
  rw [cursorAfter_nil, List.nil_append, hchunks] at h
  exact h

/-- **A chunk starts its walk where the chunks before end.** -/
theorem firstCursors_eq (hchunks : chunks.flatten = enumNames xs) {c : ℕ}
    (hc : c ≤ chunks.length) :
    (partitionChunks hash chunks).firstCursors c =
      cursorAfter (itemShard hash) ((partitionChunks hash chunks).start) (chunks.take c).flatten := by
  have happ := @start_apart hash xs chunks hchunks
  rw [← hchunks, ← List.nil_append chunks.flatten] at happ
  have h := (scatterChunks_placed (packEntry hash) chunks [] (fun _ => 0) happ
    (fun before x after hsplit => absurd hsplit (by simp))).1
  rw [cursorAfter_nil] at h
  cases c with
  | zero =>
    rw [List.take_zero, List.flatten_nil, cursorAfter_nil]
    simp only [partitionChunks, if_true]
    funext k
    rw [Partitioned.start]
  | succ c =>
    have hrow : (partitionChunks hash chunks).firstCursors (c + 1) =
        (scatterChunks (itemShard hash) (packEntry hash) chunks
          (rowCursors (chunks.map (countKeys (itemShard hash))) ((partitionChunks hash chunks).start))
          fun _ => 0).1.getD c ((partitionChunks hash chunks).start) := rfl
    rw [hrow, h, List.getD_eq_getElem?_getD, List.getElem?_map, List.getElem?_range (by omega),
      Option.map_some, Option.getD_some, List.nil_append]

/-- **A region holds the entries of its names, in sequence order.** -/
theorem regionOf_eq (hchunks : chunks.flatten = enumNames xs) (s : Fin SHARD_COUNT) :
    (partitionChunks hash chunks).regionOf s = (itemsOf hash s xs).map (packEntry hash) := by
  have h := (@partitionChunks_placed hash xs chunks hchunks).region s.val
  have hlen : (partitionChunks hash chunks).start (s + 1) -
      (partitionChunks hash chunks).start s =
        ((enumNames xs).map (itemShard hash)).count s.val := by
    have := @start_succ hash xs chunks hchunks s
    rw [itemsOf, length_filter_key] at this
    omega
  rw [Partitioned.regionOf, hlen]
  exact h

/-- A shard is touched when it has a name of the sequence. -/
theorem touches_iff (hchunks : chunks.flatten = enumNames xs) (s : Fin SHARD_COUNT) :
    (partitionChunks hash chunks).touches s = true ↔ ∃ n ∈ xs, shardOf (hash n) = s := by
  have hnext := @start_succ hash xs chunks hchunks s
  rw [Partitioned.touches, bne_iff_ne, hnext, ne_comm]
  have hmem : (∃ n ∈ xs, shardOf (hash n) = s) ↔ itemsOf hash s xs ≠ [] := by
    constructor
    · rintro ⟨n, hn, hs⟩
      obtain ⟨g, hg⟩ := List.mem_iff_getElem?.mp hn
      refine List.ne_nil_of_mem (List.mem_filter.mpr ⟨?_, ?_⟩ : (g, n) ∈ itemsOf hash s xs)
      · exact List.mem_iff_getElem?.mpr ⟨g, by rw [enumNames_getElem?, hg, Option.map_some]⟩
      · rw [beq_iff_eq, itemShard, hs]
    · intro hne
      obtain ⟨item, hitem⟩ := List.exists_mem_of_ne_nil _ hne
      obtain ⟨hmem, hs⟩ := List.mem_filter.mp hitem
      obtain ⟨g, hg⟩ := List.mem_iff_getElem?.mp hmem
      rw [enumNames_getElem?, Option.map_eq_some_iff] at hg
      obtain ⟨n, hn, rfl⟩ := hg
      exact ⟨n, List.mem_of_getElem? hn, Fin.val_inj.mp (beq_iff_eq.mp hs)⟩
  rw [hmem, ← List.length_pos_iff]
  omega

end Chunks

/-! ### Results -/

section Results

variable {t : SymbolTable} {segments : List (List SymbolName)}
  {chunks : List (List (ℕ × SymbolName))}

/-- The result of a name: its ID, or the mark and its first occurrence. -/
def resultOf (names xs : List SymbolName) (n : SymbolName) : ℕ := (pendingValue names xs n).getD 0

theorem probeShards_spec (hindex : Index hash t.names t.shards)
    (hnames : t.names.length ≤ PENDING) (hlt : segments.flatten.length < PENDING)
    (hchunks : chunks.flatten = enumNames segments.flatten) (s : Fin SHARD_COUNT) :
    Holds hash s (pendingValue t.names segments.flatten)
        ((probeShards t.names t.shards (Sequence.new segments)
          (partitionChunks hash chunks)).1 s).table ∧
      ((probeShards t.names t.shards (Sequence.new segments)
          (partitionChunks hash chunks)).1 s).retain (fun slot => slot.value &&& PENDING == 0) =
        t.shards s := by
  have hregion := @regionOf_eq hash segments.flatten chunks hchunks s
  obtain ⟨hholds, hfilter, -⟩ := probeRegion_spec hnames hlt (hindex.holds s) segments.flatten []
    (List.append_nil _).symm
  simp only [probeShards, hregion, Shard.retain]
  refine ⟨hholds, ?_⟩
  rw [hfilter, List.filter_eq_self.mpr]
  intro slot hslot
  rw [and_pending_of_lt (lt_of_lt_of_le (hindex.value_lt hslot) hnames), beq_self_eq_true]

/-- **Pass 2 leaves every result at the place of its name.** -/
theorem probeShards_placed (hindex : Index hash t.names t.shards)
    (hnames : t.names.length ≤ PENDING) (hlt : segments.flatten.length < PENDING)
    (hchunks : chunks.flatten = enumNames segments.flatten) :
    Placed (itemShard hash) (fun item => resultOf t.names segments.flatten item.2)
      ((partitionChunks hash chunks).start) (enumNames segments.flatten)
      (probeShards t.names t.shards (Sequence.new segments) (partitionChunks hash chunks)).2 := by
  have hresults : ∀ s : Fin SHARD_COUNT,
      (probeRegion t.names (Sequence.new segments) (t.shards s).table
        ((partitionChunks hash chunks).regionOf s)).2 =
      ((enumNames segments.flatten).filter fun item => itemShard hash item == s.val).map
        fun item => resultOf t.names segments.flatten item.2 := by
    intro s
    rw [regionOf_eq hchunks s]
    exact (probeRegion_spec hnames hlt (hindex.holds s) segments.flatten []
      (List.append_nil _).symm).2.2
  have hwrite := placed_writeRegions (start_apart hchunks) Fin.val_injective
    (fun item _ => ⟨shardOf (hash item.2), List.mem_finRange _, rfl⟩) hresults
    (partitionChunks hash chunks).entries
  simp only [probeShards]
  exact hwrite

/-- **Every chunk finds the results of its names.** -/
theorem chunkResults_eq (hindex : Index hash t.names t.shards)
    (hnames : t.names.length ≤ PENDING) (hlt : segments.flatten.length < PENDING)
    (hchunks : chunks.flatten = enumNames segments.flatten) {c : ℕ}
    {items : List (ℕ × SymbolName)} (hc : chunks[c]? = some items) :
    chunkResults hash (partitionChunks hash chunks)
        (probeShards t.names t.shards (Sequence.new segments) (partitionChunks hash chunks)).2 c
        items =
      items.map fun item => (item, resultOf t.names segments.flatten item.2 % 2 ^ 32) := by
  obtain ⟨hlen, hget⟩ := List.getElem?_eq_some_iff.mp hc
  have hsplit : enumNames segments.flatten =
      (chunks.take c).flatten ++ items ++ (chunks.drop (c + 1)).flatten := by
    rw [← hchunks, ← hget, List.append_assoc, ← List.flatten_cons, ← List.drop_eq_getElem_cons hlen,
      ← List.flatten_append, List.take_append_drop]
  rw [chunkResults, firstCursors_eq hchunks hlen.le,
    replay_eq (probeShards_placed hindex hnames hlt hchunks) items _ _ hsplit, List.map_map]
  rfl

end Results

/-! ### The bitmap -/

section Bitmap

variable {names xs : List SymbolName}

theorem pendingValue_eq_resultOf {n : SymbolName} (hn : n ∈ xs) :
    pendingValue names xs n = some (resultOf names xs n) := by
  rw [resultOf]
  by_cases hmem : n ∈ names
  · rw [pendingValue_of_mem hmem, Option.getD_some]
  · rw [pendingValue_of_pending hmem hn, Option.getD_some]

theorem resultOf_lt (hnames : names.length ≤ PENDING) (hlt : xs.length < PENDING)
    {n : SymbolName} (hn : n ∈ xs) : resultOf names xs n < 2 ^ 32 := by
  have hpending : PENDING + PENDING = 2 ^ 32 := by decide
  rw [resultOf]
  by_cases hmem : n ∈ names
  · have := List.idxOf_lt_length_of_mem hmem
    rw [pendingValue_of_mem hmem, Option.getD_some]
    omega
  · have := List.idxOf_lt_length_of_mem hn
    rw [pendingValue_of_pending hmem hn, Option.getD_some, pending_or_eq (by omega)]
    omega

/-- A name is its own first occurrence when its result says so. -/
theorem resultOf_eq_iff (hnames : names.length ≤ PENDING) (hlt : xs.length < PENDING) {g : ℕ}
    {n : SymbolName} (hn : xs[g]? = some n) :
    resultOf names xs n % 2 ^ 32 = PENDING ||| g % 2 ^ 32 ↔ newAt names xs g = true := by
  have hmem := List.mem_of_getElem? hn
  have hg := (List.getElem?_eq_some_iff.mp hn).1
  have hpending : PENDING + PENDING = 2 ^ 32 := by decide
  rw [Nat.mod_eq_of_lt (resultOf_lt hnames hlt hmem), Nat.mod_eq_of_lt (by omega), newAt_iff,
    resultOf]
  by_cases hknown : n ∈ names
  · have hidx := List.idxOf_lt_length_of_mem hknown
    rw [pendingValue_of_mem hknown, Option.getD_some, pending_or_eq (by omega)]
    constructor
    · intro heq
      omega
    · rintro ⟨m, hm, hnew, -⟩
      rw [hn, Option.some.injEq] at hm
      exact absurd (hm ▸ hknown) hnew
  · have hidx := List.idxOf_lt_length_of_mem hmem
    rw [pendingValue_of_pending hknown hmem, Option.getD_some]
    constructor
    · intro heq
      exact ⟨n, hn, hknown, pending_or_inj (by omega) (by omega) heq⟩
    · rintro ⟨m, hm, -, hfirst⟩
      rw [hn, Option.some.injEq] at hm
      rw [hm, hfirst]

/-- Marks index `g` if it is new. -/
def markAt (names xs : List SymbolName) (words : List ℕ) (g : ℕ) : List ℕ :=
  if newAt names xs g then words.modify (g / 64) (· ||| 1 <<< (g % 64)) else words

theorem markChunk_eq (hnames : names.length ≤ PENDING) (hlt : xs.length < PENDING)
    (chunk : ChunkSize) (c : ℕ) (items : List (ℕ × SymbolName)) : ∀ words : List ℕ,
    (∀ item ∈ items, xs[item.1]? = some item.2 ∧ c * chunk.size ≤ item.1) →
    markChunk chunk.size c words
        (items.map fun item => (item, resultOf names xs item.2 % 2 ^ 32)) =
      (items.map Prod.fst).foldl (markAt names xs) words := by
  obtain ⟨m, hm⟩ := chunk.dvd
  induction items with
  | nil => intro words _; rfl
  | cons item items ih =>
    intro words hitems
    obtain ⟨hname, hge⟩ := hitems item List.mem_cons_self
    have hrest := fun item hitem => hitems item (List.mem_cons_of_mem _ hitem)
    have hword : c * (chunk.size / 64) + (item.1 - c * chunk.size) / 64 = item.1 / 64 := by
      rw [hm, Nat.mul_left_comm] at hge
      rw [hm, Nat.mul_div_cancel_left m (by decide), Nat.mul_left_comm]
      omega
    have hmark : (if resultOf names xs item.2 % 2 ^ 32 = PENDING ||| item.1 % 2 ^ 32 then
        words.modify (item.1 / 64) (· ||| 1 <<< (item.1 % 64)) else words) =
        markAt names xs words item.1 := by
      rw [markAt]
      by_cases hnew : newAt names xs item.1 = true
      · rw [if_pos ((resultOf_eq_iff hnames hlt hname).mpr hnew), if_pos hnew]
      · rw [if_neg fun heq => hnew ((resultOf_eq_iff hnames hlt hname).mp heq), if_neg hnew]
    rw [List.map_cons, List.map_cons, List.foldl_cons, markChunk, List.foldl_cons]
    simp only [hword, hmark]
    exact ih _ hrest

theorem foldl_markAt (names xs : List SymbolName) {words : List ℕ} (hzero : ∀ w, words.getD w 0 = 0)
    (k : ℕ) : ((List.range k).foldl (markAt names xs) words).length = words.length ∧
      ∀ w < words.length, ∀ b,
        (((List.range k).foldl (markAt names xs) words).getD w 0).testBit b =
          (decide (b < 64) && (decide (64 * w + b < k) && newAt names xs (64 * w + b))) := by
  induction k with
  | zero =>
    refine ⟨rfl, fun w _ b => ?_⟩
    rw [List.range_zero, List.foldl_nil, hzero, Nat.zero_testBit]
    simp
  | succ k ih =>
    obtain ⟨hlen, hbits⟩ := ih
    rw [List.range_succ, List.foldl_append, List.foldl_cons, List.foldl_nil, markAt]
    by_cases hnew : newAt names xs k = true
    · rw [if_pos hnew]
      refine ⟨by rw [List.length_modify, hlen], fun w hw b => ?_⟩
      have hget : w < ((List.range k).foldl (markAt names xs) words).length := by rwa [hlen]
      have hword : (((List.range k).foldl (markAt names xs) words).modify (k / 64)
          (· ||| 1 <<< (k % 64))).getD w 0 = if k / 64 = w then
            ((List.range k).foldl (markAt names xs) words).getD w 0 ||| 1 <<< (k % 64)
          else ((List.range k).foldl (markAt names xs) words).getD w 0 := by
        rw [List.getD_eq_getElem?_getD, List.getElem?_modify, List.getElem?_eq_getElem hget,
          List.getD_eq_getElem _ 0 hget]
        split <;> rfl
      rw [hword]
      by_cases hkw : k / 64 = w
      · rw [if_pos hkw, Nat.testBit_or, hbits w hw b, Nat.one_shiftLeft, Nat.testBit_two_pow]
        by_cases hb : k % 64 = b
        · rw [decide_eq_true hb, Bool.or_true, show 64 * w + b = k by omega, hnew,
            decide_eq_true (show b < 64 by omega), decide_eq_true (Nat.lt_succ_self k)]
          rfl
        · rw [decide_eq_false hb, Bool.or_false]
          by_cases hb64 : b < 64
          · rw [show decide (64 * w + b < k + 1) = decide (64 * w + b < k) by
              rw [decide_eq_decide]; omega]
          · rw [decide_eq_false hb64, Bool.false_and, Bool.false_and]
      · rw [if_neg hkw, hbits w hw b]
        by_cases hb64 : b < 64
        · rw [show decide (64 * w + b < k + 1) = decide (64 * w + b < k) by
            rw [decide_eq_decide]; omega]
        · rw [decide_eq_false hb64, Bool.false_and, Bool.false_and]
    · rw [if_neg hnew]
      refine ⟨hlen, fun w hw b => ?_⟩
      rw [hbits w hw b]
      by_cases heq : 64 * w + b = k
      · rw [heq, Bool.eq_false_iff.mpr hnew]
        simp only [Bool.and_false]
      · rw [show decide (64 * w + b < k + 1) = decide (64 * w + b < k) by
          rw [decide_eq_decide]; omega]

theorem zipIdx_map_range {α : Type*} (f : ℕ → α) (n : ℕ) :
    ((List.range n).map f).zipIdx = (List.range n).map fun c => (f c, c) := by
  apply List.ext_getElem?
  intro c
  rw [List.getElem?_zipIdx, List.getElem?_map, List.getElem?_map, Nat.zero_add]
  by_cases hc : c < n
  · rw [List.getElem?_range hc]
    rfl
  · rw [List.getElem?_eq_none (by simpa using hc)]
    rfl

/-- The indices of the names are the numbers below the length. -/
theorem map_fst_enumNames (xs : List SymbolName) :
    (enumNames xs).map Prod.fst = List.range xs.length := by
  apply List.ext_getElem?
  intro g
  rw [List.getElem?_map, enumNames_getElem?]
  by_cases hg : g < xs.length
  · rw [List.getElem?_eq_getElem hg, List.getElem?_range hg]
    rfl
  · rw [List.getElem?_eq_none (by omega), List.getElem?_eq_none (by simpa using hg)]
    rfl

theorem mem_chunkOf {chunk c : ℕ} {item : ℕ × SymbolName}
    (h : item ∈ chunkOf (enumNames xs) chunk c) :
    xs[item.1]? = some item.2 ∧ c * chunk ≤ item.1 := by
  obtain ⟨i, hi⟩ := List.mem_iff_getElem?.mp h
  rw [chunkOf, List.getElem?_take] at hi
  split at hi
  · rw [List.getElem?_drop, enumNames_getElem?, Option.map_eq_some_iff] at hi
    obtain ⟨n, hn, rfl⟩ := hi
    exact ⟨hn, Nat.le_add_right _ _⟩
  · exact absurd hi (by simp)

/-- **The bitmap marks the new names, for every size of the chunks.** -/
theorem markNew_isBitmap (hnames : names.length ≤ PENDING) (hlt : xs.length < PENDING)
    (chunk : ChunkSize) {chunks : ℕ} (hroom : xs.length ≤ chunks * chunk.size) :
    (markNew chunk.size xs.length ((List.range chunks).map fun c =>
        (chunkOf (enumNames xs) chunk.size c).map fun item =>
          (item, resultOf names xs item.2 % 2 ^ 32))).length = (xs.length + 63) / 64 ∧
      IsBitmap (newAt names xs) (markNew chunk.size xs.length ((List.range chunks).map fun c =>
        (chunkOf (enumNames xs) chunk.size c).map fun item =>
          (item, resultOf names xs item.2 % 2 ^ 32))) := by
  have hfold : markNew chunk.size xs.length ((List.range chunks).map fun c =>
      (chunkOf (enumNames xs) chunk.size c).map fun item =>
        (item, resultOf names xs item.2 % 2 ^ 32)) =
      (List.range xs.length).foldl (markAt names xs)
        (List.replicate ((xs.length + 63) / 64) 0) := by
    have hstep : (fun (words : List ℕ) (c : ℕ) => markChunk chunk.size c words
        ((chunkOf (enumNames xs) chunk.size c).map fun item =>
          (item, resultOf names xs item.2 % 2 ^ 32))) =
        fun words c => ((chunkOf (enumNames xs) chunk.size c).map Prod.fst).foldl
          (markAt names xs) words := by
      funext words c
      exact markChunk_eq hnames hlt chunk c _ words fun item hitem => mem_chunkOf hitem
    rw [markNew, zipIdx_map_range, List.foldl_map, hstep, ← List.foldl_map
      (f := fun c => (chunkOf (enumNames xs) chunk.size c).map Prod.fst)
      (g := List.foldl (markAt names xs)), ← List.foldl_flatten]
    congr 1
    have hflat := congrArg (List.map Prod.fst) (flatten_chunks (enumNames xs) chunk.size chunks)
    rw [List.take_of_length_le (by rw [enumNames_length]; exact hroom), map_fst_enumNames,
      List.map_flatten, List.map_map] at hflat
    exact hflat
  have hzero : ∀ w, (List.replicate ((xs.length + 63) / 64) 0).getD w 0 = 0 := by
    intro w
    rw [List.getD_eq_getElem?_getD, List.getElem?_replicate]
    split <;> rfl
  obtain ⟨hlen, hbits⟩ := foldl_markAt names xs hzero xs.length
  rw [hfold]
  refine ⟨by rw [hlen, List.length_replicate], ⟨fun w hw b => ?_⟩⟩
  rw [hbits w (by rwa [hlen] at hw) b]
  by_cases hin : 64 * w + b < xs.length
  · rw [decide_eq_true hin, Bool.true_and]
  · have hnot : newAt names xs (64 * w + b) = false := by
      rw [Bool.eq_false_iff]
      exact fun hnew => hin (newAt_lt hnew)
    rw [hnot, Bool.and_false]

end Bitmap

/-! ### The new names by rank -/

section NewNames

variable {names : List SymbolName} {segments : List (List SymbolName)} {words : List ℕ}

/-- What the cache of a task may hold: the rank after a name's, and its index. -/
def Cached (names xs : List SymbolName) (cache : Option (ℕ × ℕ)) : Prop :=
  ∀ next g, cache = some (next, g) → ∃ k, next = k + 1 ∧ IsNth (newAt names xs) k g

/-- Whether found by a search or a scan, it is the index of this rank. -/
theorem newNameIndex_isNth (hbits : IsBitmap (newAt names segments.flatten) words) {rank : ℕ}
    (hrank : rank < (onesBefore words 0).2) {cache : Option (ℕ × ℕ)}
    (hcache : Cached names segments.flatten cache) :
    IsNth (newAt names segments.flatten) rank
      (newNameIndex words (onesBefore words 0).1 rank cache) := by
  have hselect := hbits.select_isNth hrank
  cases cache with
  | none => exact hselect
  | some cached =>
    obtain ⟨next, g⟩ := cached
    rw [newNameIndex]
    split
    · next hnext =>
      obtain ⟨k, hk, hg⟩ := hcache next g rfl
      rw [← hnext, hk] at hrank ⊢
      exact hbits.nextSet_isNth hg hrank
    · exact hselect

theorem newNamesTask_eq (hbits : IsBitmap (newAt names segments.flatten) words)
    (hcount : (onesBefore words 0).2 = (fresh names segments.flatten).length) (count : ℕ) :
    ∀ (rank : ℕ) (cache : Option (ℕ × ℕ)),
      rank + count ≤ (fresh names segments.flatten).length →
      Cached names segments.flatten cache →
      newNamesTask words (onesBefore words 0).1 (Sequence.new segments) count rank cache =
        ((fresh names segments.flatten).drop rank).take count := by
  induction count with
  | zero => intro rank cache _ _; rfl
  | succ count ih =>
    intro rank cache hle hcache
    have hnth := @newNameIndex_isNth names segments words hbits rank (by omega) cache hcache
    have hget := getElem?_fresh_newBefore hnth.1
    rw [newBefore, hnth.2] at hget
    have hlt : rank < (fresh names segments.flatten).length := by omega
    rw [List.getElem?_eq_getElem hlt] at hget
    rw [newNamesTask, Sequence.name_eq segments hget.symm, List.drop_eq_getElem_cons hlt,
      List.take_succ_cons, ih (rank + 1) _ (by omega) ?_]
    intro next g heq
    rw [Option.some.injEq, Prod.mk.injEq] at heq
    exact ⟨rank, heq.1.symm, heq.2 ▸ hnth⟩

/-- **The new names, for every cut of the ranks into tasks.** -/
theorem newNamesOf_eq (hbits : IsBitmap (newAt names segments.flatten) words)
    (hcount : (onesBefore words 0).2 = (fresh names segments.flatten).length) (tasks : List ℕ) :
    ∀ rank : ℕ, rank + tasks.sum = (fresh names segments.flatten).length →
      newNamesOf words (onesBefore words 0).1 (Sequence.new segments) tasks rank =
        (fresh names segments.flatten).drop rank := by
  induction tasks with
  | nil =>
    intro rank hsum
    rw [newNamesOf, List.drop_of_length_le (by simp at hsum; omega)]
  | cons count tasks ih =>
    intro rank hsum
    rw [List.sum_cons] at hsum
    rw [newNamesOf, newNamesTask_eq hbits hcount count rank none (by omega)
      (fun _ _ h => absurd h (by simp)), ih (rank + count) (by omega), ← List.drop_drop,
      List.take_append_drop]

end NewNames

/-! ### The outcome -/

section Outcome

variable {t : SymbolTable} {segments : List (List SymbolName)} {words : List ℕ}

/-- The bitmap of the sequence. -/
structure Marks (names xs : List SymbolName) (words : List ℕ) : Prop where
  length : words.length = (xs.length + 63) / 64
  bits : IsBitmap (newAt names xs) words

variable {names xs : List SymbolName}

theorem Marks.count (h : Marks names xs words) :
    (onesBefore words 0).2 = (fresh names xs).length := by
  rw [h.bits.count_eq]
  exact newBefore_of_le names xs (by rw [h.length]; omega)

/-- **A result becomes the index of its name.** -/
theorem Marks.sequenceId_eq (h : Marks names xs words) (hnames : names.length ≤ PENDING)
    (hlt : xs.length < PENDING) {n : SymbolName} {v : ℕ} (hv : pendingValue names xs n = some v) :
    sequenceId names.length words (onesBefore words 0).1 v = (names ++ fresh names xs).idxOf n ∧
      n ∈ names ++ fresh names xs := by
  by_cases hn : n ∈ names
  · have hidx := List.idxOf_lt_length_of_mem hn
    rw [pendingValue_of_mem hn, Option.some.injEq] at hv
    rw [sequenceId, ← hv, and_pending_of_lt (by omega), beq_self_eq_true, if_pos rfl,
      List.idxOf_append_of_mem hn]
    exact ⟨rfl, List.mem_append_left _ hn⟩
  · by_cases hx : n ∈ xs
    · have hidx := List.idxOf_lt_length_of_mem hx
      rw [pendingValue_of_pending hn hx, Option.some.injEq] at hv
      rw [sequenceId, ← hv, pending_or_and_ne, if_neg Bool.false_ne_true,
        unpend_pending_or (by omega), h.bits.rankOf_eq (by rw [h.length]; omega),
        idxOf_append_fresh hx hn]
      exact ⟨rfl, mem_append_fresh hx⟩
    · rw [pendingValue_of_notMem hn hx] at hv
      exact absurd hv (by simp)

theorem Marks.holds (h : Marks names xs words) (hnames : names.length ≤ PENDING)
    (hlt : xs.length < PENDING) {s : Fin SHARD_COUNT} {table : List Slot}
    (hholds : Holds hash s (pendingValue names xs) table) :
    Holds hash s (idOf (names ++ fresh names xs)) (table.map fun slot =>
      ⟨slot.h32, sequenceId names.length words (onesBefore words 0).1 slot.value⟩) := by
  refine (hholds.map _ ?_).congr ?_
  · intro m n v w hm hn hvw
    obtain ⟨hidm, hmem⟩ := h.sequenceId_eq hnames hlt hm
    rw [hidm, (h.sequenceId_eq hnames hlt hn).1] at hvw
    rw [(List.idxOf_inj hmem).mp hvw, hn, Option.some.injEq] at hm
    exact hm.symm
  · intro n _
    cases hv : pendingValue names xs n with
    | some v =>
      obtain ⟨hid, hmem⟩ := h.sequenceId_eq hnames hlt hv
      rw [Option.map_some, hid, idOf_of_mem hmem]
    | none =>
      rw [Option.map_none, idOf_of_notMem]
      intro hmem
      rw [List.mem_append, mem_fresh] at hmem
      rcases hmem with hn | ⟨hx, -⟩
      · rw [pendingValue_of_mem hn] at hv
        exact absurd hv (by simp)
      · rw [pendingValue_eq_resultOf hx] at hv
        exact absurd hv (by simp)

variable {α : Type*}

theorem chunkOf_map {β : Type*} (f : α → β) (xs : List α) (chunk c : ℕ) :
    chunkOf (xs.map f) chunk c = (chunkOf xs chunk c).map f := by
  rw [chunkOf, chunkOf, List.length_map, ← List.map_drop, ← List.map_take]

theorem chunkOf_zipWith {β γ : Type*} (f : α → β → γ) {xs : List α} {ys : List β}
    (hlen : xs.length = ys.length) (chunk c : ℕ) :
    chunkOf (List.zipWith f xs ys) chunk c =
      List.zipWith f (chunkOf xs chunk c) (chunkOf ys chunk c) := by
  rw [chunkOf, chunkOf, chunkOf, List.length_zipWith, hlen, min_self, List.drop_zipWith,
    List.take_zipWith]

/-- The IDs written by the chunks, laid end to end. -/
theorem written_eq {outputs : List (List α)} (hlen : outputs.flatten.length = xs.length)
    {chunk : ChunkSize} {chunks : ℕ} (hroom : xs.length ≤ chunks * chunk.size)
    (value : SymbolName → ℕ) (id : ℕ → ℕ) :
    (List.zipWith (fun (piece : List (List α)) (results : List ((ℕ × SymbolName) × ℕ)) =>
        List.zipWith (fun place r => (place, id r.2)) piece.flatten results)
      (splitOutputs outputs chunk.size chunks)
      ((List.range chunks).map fun c =>
        (chunkOf (enumNames xs) chunk.size c).map fun item => (item, value item.2))).flatten =
      outputs.flatten.zip (xs.map fun n => id (value n)) := by
  obtain ⟨hpieces, hcut⟩ := splitOutputs_flatten outputs chunk.pos (by rw [hlen]; exact hroom)
  have hchunk : List.zipWith (fun (piece : List (List α)) (results : List ((ℕ × SymbolName) × ℕ)) =>
        List.zipWith (fun place r => (place, id r.2)) piece.flatten results)
      (splitOutputs outputs chunk.size chunks)
      ((List.range chunks).map fun c =>
        (chunkOf (enumNames xs) chunk.size c).map fun item => (item, value item.2)) =
      (List.range chunks).map fun c =>
        chunkOf (outputs.flatten.zip (xs.map fun n => id (value n))) chunk.size c := by
    apply List.ext_getElem?
    intro c
    rw [List.getElem?_zipWith, List.getElem?_map, List.getElem?_map]
    by_cases hc : c < chunks
    · have hpiece := hcut c hc
      rw [List.getD_eq_getElem _ [] (by rw [hpieces]; exact hc)] at hpiece
      rw [List.getElem?_range hc, List.getElem?_eq_getElem (by rw [hpieces]; exact hc)]
      simp only [Option.map_some, Option.some.injEq]
      rw [hpiece, List.zip, chunkOf_zipWith _ (by rw [hlen, List.length_map]), chunkOf_map]
      have hids : chunkOf xs chunk.size c = (chunkOf (enumNames xs) chunk.size c).map Prod.snd := by
        rw [← chunkOf_map]
        congr 1
        apply List.ext_getElem?
        intro g
        rw [List.getElem?_map, enumNames_getElem?, Option.map_map]
        cases xs[g]? <;> rfl
      rw [hids, List.map_map, List.zipWith_map_right, List.zipWith_map_right]
      rfl
    · rw [List.getElem?_eq_none (by rw [hpieces]; omega)]
      simp [Nat.le_of_not_lt hc]
  rw [hchunk, flatten_chunks, List.take_of_length_le]
  rw [List.length_zip, hlen, List.length_map, min_self]
  exact hroom

theorem total_le_chunks (total : ℕ) (chunk : ChunkSize) :
    total ≤ max ((total + chunk.size - 1) / chunk.size) 1 * chunk.size := by
  have hpos := chunk.pos
  have hlt : total + chunk.size - 1 <
      (total + chunk.size - 1) / chunk.size * chunk.size + chunk.size :=
    Nat.lt_div_mul_add hpos
  have hle := Nat.mul_le_mul_right chunk.size
    (le_max_left ((total + chunk.size - 1) / chunk.size) 1)
  omega

/-- A shard without names of the sequence is as it was. -/
theorem probed_of_untouched (hnames : t.names.length ≤ PENDING) {s : Fin SHARD_COUNT} {shard : Shard}
    (hholds : Holds hash s (pendingValue t.names segments.flatten) shard.table)
    (hretain : shard.retain (fun slot => slot.value &&& PENDING == 0) = t.shards s)
    (hs : ¬ ∃ n ∈ segments.flatten, shardOf (hash n) = s) : shard = t.shards s := by
  rw [← hretain]
  refine (Shard.retain_eq_self fun slot hslot => ?_).symm
  obtain ⟨n, hn, hns, -⟩ := (hholds.mem slot).mp hslot
  by_cases hmem : n ∈ t.names
  · have hlt := List.idxOf_lt_length_of_mem hmem
    rw [pendingValue_of_mem hmem, Option.some.injEq] at hn
    rw [← hn, and_pending_of_lt (by omega), beq_self_eq_true]
  · rw [pendingValue_of_notMem hmem fun hx => hs ⟨n, hx, hns⟩] at hn
    exact absurd hn (by simp)

/-- The final slots index the names and the new names. -/
theorem Marks.index (h : Marks t.names segments.flatten words) (hrep : Rep hash t)
    (hlt : segments.flatten.length < PENDING) {probed : Fin SHARD_COUNT → Shard}
    (hshards : ∀ s, Holds hash s (pendingValue t.names segments.flatten) (probed s).table ∧
      (probed s).retain (fun slot => slot.value &&& PENDING == 0) = t.shards s)
    (hlists : ∀ s, (probed s).pending = [] ∧ (probed s).assigned = [])
    {touches : Fin SHARD_COUNT → Bool}
    (htouches : ∀ s, touches s = true ↔ ∃ n ∈ segments.flatten, shardOf (hash n) = s) :
    Index hash (t.names ++ fresh t.names segments.flatten) fun s =>
      if touches s then
        { probed s with
          table := (probed s).table.map fun slot =>
            ⟨slot.h32, sequenceId t.names.length words (onesBefore words 0).1 slot.value⟩ }
      else probed s := by
  refine ⟨nodup_append_fresh hrep.nodup _, fun s => ?_, fun s => ?_, fun s => ?_⟩
  · split
    · exact h.holds hrep.len_le hlt (hshards s).1
    · next hs =>
      rw [htouches] at hs
      rw [probed_of_untouched hrep.len_le (hshards s).1 (hshards s).2 hs]
      refine (hrep.holds s).congr fun n hn => ?_
      -- No new name is of an untouched shard.
      by_cases hmem : n ∈ t.names
      · rw [idOf_of_mem hmem, idOf_of_mem (List.mem_append_left _ hmem),
          List.idxOf_append_of_mem hmem]
      · rw [idOf_of_notMem hmem, idOf_of_notMem]
        intro happ
        rw [List.mem_append, mem_fresh] at happ
        rcases happ with happ | ⟨hx, -⟩
        · exact hmem happ
        · exact hs ⟨n, hx, hn⟩
  · split
    · exact (hlists s).1
    · exact (hlists s).1
  · split
    · exact (hlists s).2
    · exact (hlists s).2

/-- **Partitioned interning.**  A sequence that fits is interned in order, for every
size of the chunks and every cut into tasks; one that does not fit changes nothing. -/
theorem numberSequence_spec {α : Type*} (h : Rep hash t) (chunk : ChunkSize) (tasks : ℕ → List ℕ)
    (htasks : ∀ n, (tasks n).sum = n) (hlt : segments.flatten.length < PENDING)
    {outputs : List (List α)} (houtputs : outputs.flatten.length = segments.flatten.length) :
    (Fits t segments.flatten →
      ∃ t', t.numberSequence hash chunk tasks (Sequence.new segments) outputs =
          (t', .ok (outputs.flatten.zip (segments.flatten.map t'.names.idxOf))) ∧
        Interned hash t (fresh t.names segments.flatten) t') ∧
    (¬ Fits t segments.flatten →
      t.numberSequence hash chunk tasks (Sequence.new segments) outputs =
        (t, .error (overflow t.limit))) := by
  have hnames : t.names.length ≤ PENDING := h.len_le
  have hroom := total_le_chunks segments.flatten.length chunk
  unfold numberSequence
  rw [Sequence.len_new]
  simp only
  generalize max ((segments.flatten.length + chunk.size - 1) / chunk.size) 1 = chunks at hroom ⊢
  -- The chunks, and the results each of them finds.
  have hitems : ((List.range chunks).map fun c => (Sequence.new segments).items (c * chunk.size)
      (min ((c + 1) * chunk.size) segments.flatten.length)) =
      (List.range chunks).map (chunkOf (enumNames segments.flatten) chunk.size) := by
    refine List.map_congr_left fun c _ => ?_
    rw [Sequence.items_eq segments (min_le_right _ _), chunkOf, enumNames_length]
  have hflat : ((List.range chunks).map
      (chunkOf (enumNames segments.flatten) chunk.size)).flatten =
      enumNames segments.flatten := by
    rw [flatten_chunks, List.take_of_length_le (by rw [enumNames_length]; exact hroom)]
  rw [hitems]
  have hresults : (((List.range chunks).map
      (chunkOf (enumNames segments.flatten) chunk.size)).zipIdx.map fun r =>
        chunkResults hash (partitionChunks hash ((List.range chunks).map
            (chunkOf (enumNames segments.flatten) chunk.size)))
          (probeShards t.names t.shards (Sequence.new segments)
            (partitionChunks hash ((List.range chunks).map
              (chunkOf (enumNames segments.flatten) chunk.size)))).2 r.2 r.1) =
      (List.range chunks).map fun c => (chunkOf (enumNames segments.flatten) chunk.size c).map
        fun item => (item, resultOf t.names segments.flatten item.2 % 2 ^ 32) := by
    rw [zipIdx_map_range, List.map_map]
    refine List.map_congr_left fun c hc => ?_
    exact chunkResults_eq h.toIndex hnames hlt hflat (by
      rw [List.getElem?_map, List.getElem?_range (List.mem_range.mp hc), Option.map_some])
  rw [hresults]
  obtain ⟨hlen, hbits⟩ := markNew_isBitmap hnames hlt chunk hroom
  generalize markNew chunk.size segments.flatten.length ((List.range chunks).map fun c =>
    (chunkOf (enumNames segments.flatten) chunk.size c).map fun item =>
      (item, resultOf t.names segments.flatten item.2 % 2 ^ 32)) = words at hlen hbits ⊢
  have hmarks : Marks t.names segments.flatten words := ⟨hlen, hbits⟩
  have hshards := fun s => probeShards_spec h.toIndex hnames hlt hflat s
  have htouches := fun s => @touches_iff hash segments.flatten _ hflat s
  have hlists : ∀ s, ((probeShards t.names t.shards (Sequence.new segments)
      (partitionChunks hash ((List.range chunks).map
        (chunkOf (enumNames segments.flatten) chunk.size)))).1 s).pending = [] ∧
      ((probeShards t.names t.shards (Sequence.new segments)
        (partitionChunks hash ((List.range chunks).map
          (chunkOf (enumNames segments.flatten) chunk.size)))).1 s).assigned = [] := fun s => by
    simp only [probeShards]
    exact ⟨h.pending s, h.assigned s⟩
  generalize (probeShards t.names t.shards (Sequence.new segments)
    (partitionChunks hash ((List.range chunks).map
      (chunkOf (enumNames segments.flatten) chunk.size)))).1 = probed at hshards hlists ⊢
  generalize partitionChunks hash ((List.range chunks).map
    (chunkOf (enumNames segments.flatten) chunk.size)) = p at htouches ⊢
  rw [hmarks.count]
  constructor
  · intro hfits
    rw [if_neg (Nat.not_lt_of_le hfits), newNamesOf_eq hbits hmarks.count _ 0
      (by rw [htasks, Nat.zero_add]), List.drop_zero, written_eq houtputs hroom
        (fun n => resultOf t.names segments.flatten n % 2 ^ 32)]
    -- The IDs of the outputs.
    have hids : (segments.flatten.map fun n => sequenceId t.names.length words
        (onesBefore words 0).1 (resultOf t.names segments.flatten n % 2 ^ 32)) =
        segments.flatten.map (t.names ++ fresh t.names segments.flatten).idxOf := by
      refine List.map_congr_left fun n hn => ?_
      rw [Nat.mod_eq_of_lt (resultOf_lt hnames hlt hn)]
      exact (hmarks.sequenceId_eq hnames hlt (pendingValue_eq_resultOf hn)).1
    rw [hids]
    have hindex := hmarks.index h hlt hshards hlists htouches
    exact ⟨_, rfl, @Index.growState hash t { t with shards := _, names := _ } _ h hindex
      rfl rfl rfl rfl hfits⟩
  · intro hnot
    rw [if_pos (Nat.lt_of_not_le hnot)]
    have hrestored : (fun s => if p.touches s then
        (probed s).retain fun slot => slot.value &&& PENDING == 0 else probed s) = t.shards := by
      funext s
      split
      · exact (hshards s).2
      · next hs =>
        rw [htouches] at hs
        exact probed_of_untouched hnames (hshards s).1 (hshards s).2 hs
    rw [hrestored]

end Outcome

end Qld.Symbols
