import Qld.Passes.Merge.Layout

/-!
# Deduplication finds first occurrences

* `WellBased` — the table of piece numbers fits the sections, so that a piece number names one
  piece (`pieceIndex_inj`);
* `insertPieces_spec` — a shard's table gives every piece the first one with its key;
* `deduplicateRuns_spec` — **proved**, for every cut of the sections into runs: the leader of a
  live piece is the first live piece with its hash, group and bytes, and a leader is its own
  leader; pieces that are not live have no leader.
-/

namespace Qld.Passes.Merge

open Qld.Lib

variable {hashPiece : List UInt8 → UInt64} {inputs : List (MergeInput hashPiece)}
  {pieceBase : List ℕ} {live : Option BitSet}

/-! ### Piece numbers -/

/-- The pieces of section `s` are numbered from `baseOf pieceBase s` on, without gaps. -/
structure WellBased (inputs : List (MergeInput hashPiece)) (pieceBase : List ℕ) : Prop where
  length : pieceBase.length = inputs.length + 1
  first : baseOf pieceBase 0 = 0
  step : ∀ s < inputs.length, baseOf pieceBase (s + 1) = baseOf pieceBase s + numPiecesOf inputs s

/-- A piece of one of the sections. -/
def IsPiece (inputs : List (MergeInput hashPiece)) (x : ℕ × ℕ) : Prop :=
  x.1 < inputs.length ∧ x.2 < numPiecesOf inputs x.1

theorem WellBased.mono (h : WellBased inputs pieceBase) {s t : ℕ} (hst : s ≤ t)
    (ht : t ≤ inputs.length) : baseOf pieceBase s ≤ baseOf pieceBase t := by
  induction t with
  | zero => rw [Nat.le_zero.mp hst]
  | succ t ih =>
    rcases Nat.lt_or_ge s (t + 1) with hlt | hge
    · have := ih (by omega) (by omega)
      have := h.step t (by omega)
      omega
    · rw [show s = t + 1 by omega]

variable {x : ℕ × ℕ}

section

variable (h : WellBased inputs pieceBase) (hx : IsPiece inputs x)

include h hx

/-- A piece number lies between the bases of its section and the next. -/
theorem WellBased.index_lt :
    pieceIndex pieceBase x < baseOf pieceBase (x.1 + 1) := by
  have := h.step x.1 hx.1
  have := hx.2
  unfold pieceIndex
  omega

theorem WellBased.index_inj {y : ℕ × ℕ} (hy : IsPiece inputs y)
    (hxy : pieceIndex pieceBase x = pieceIndex pieceBase y) : x = y := by
  have hne : ∀ x y, IsPiece inputs x → IsPiece inputs y → x.1 < y.1 →
      pieceIndex pieceBase x < pieceIndex pieceBase y := by
    intro x y hx hy hlt
    have hbound := h.index_lt hx
    have hmono := h.mono (show x.1 + 1 ≤ y.1 by omega) hy.1.le
    unfold pieceIndex at hbound ⊢
    omega
  rcases Nat.lt_trichotomy x.1 y.1 with hlt | heq | hgt
  · have := hne x y hx hy hlt
    omega
  · unfold pieceIndex at hxy
    rw [heq] at hxy
    exact Prod.ext heq (by omega)
  · have := hne y x hy hx hgt
    omega

theorem WellBased.index_lt_total :
    pieceIndex pieceBase x < baseOf pieceBase inputs.length :=
  Nat.lt_of_lt_of_le (h.index_lt hx) (h.mono hx.1 le_rfl)

end

/-! ### Live pieces -/

/-- All live pieces, in order. -/
def allLive (inputs : List (MergeInput hashPiece)) (pieceBase : List ℕ) (live : Option BitSet) :
    List (ℕ × ℕ) :=
  (List.range inputs.length).flatMap (livePieces inputs pieceBase live)

/-- Whether a piece is live: its bit is set, or there is no bitmap. -/
def IsLive (pieceBase : List ℕ) (live : Option BitSet) (x : ℕ × ℕ) : Prop :=
  (live.all fun live => live.get (pieceIndex pieceBase x)) = true

theorem mem_allLive :
    x ∈ allLive inputs pieceBase live ↔ IsPiece inputs x ∧ IsLive pieceBase live x := by
  obtain ⟨s, i⟩ := x
  simp only [allLive, livePieces, List.mem_flatMap, List.mem_range, List.mem_map,
    List.mem_filter, Prod.mk.injEq, IsPiece, IsLive, pieceIndex]
  constructor
  · rintro ⟨t, ht, j, ⟨hj, hlive⟩, rfl, rfl⟩
    exact ⟨⟨ht, hj⟩, hlive⟩
  · rintro ⟨⟨hs, hi⟩, hlive⟩
    exact ⟨s, hs, i, ⟨hi, hlive⟩, rfl, rfl⟩

theorem nodup_allLive : (allLive inputs pieceBase live).Nodup := by
  rw [allLive, List.nodup_flatMap]
  constructor
  · intro s _
    refine List.Nodup.map (fun i j hij => ?_) (List.nodup_range.filter _)
    exact congrArg Prod.snd hij
  · refine List.nodup_range.imp ?_
    intro s t hst x hs ht
    obtain ⟨_, _, rfl⟩ := List.mem_map.mp hs
    obtain ⟨_, _, heq⟩ := List.mem_map.mp ht
    exact hst (congrArg Prod.fst heq).symm

/-! ### One shard -/

/-- What the dedup table compares. -/
def pieceKey (inputs : List (MergeInput hashPiece)) (x : ℕ × ℕ) : UInt64 × ℕ × List UInt8 :=
  (pieceHash inputs x, pieceGroup inputs x, pieceBytes inputs x)

/-- The table entry of a piece that is the first one of its contents. -/
def toUnique (inputs : List (MergeInput hashPiece)) (pieceBase : List ℕ) (x : ℕ × ℕ) : Unique :=
  ⟨pieceHash inputs x, pieceGroup inputs x, pieceIndex pieceBase x, pieceBytes inputs x⟩

/-- The table search for a key. -/
def matchesKey (key : UInt64 × ℕ × List UInt8) (u : Unique) : Bool :=
  u.hash == key.1 && u.group == key.2.1 && u.bytes == key.2.2

/-- The first of several pieces with a key. -/
def firstWith (inputs : List (MergeInput hashPiece)) (l : List (ℕ × ℕ))
    (key : UInt64 × ℕ × List UInt8) : Option (ℕ × ℕ) :=
  l.find? fun y => pieceKey inputs y == key

theorem matchesKey_toUnique (x : ℕ × ℕ) (key : UInt64 × ℕ × List UInt8) :
    matchesKey key (toUnique inputs pieceBase x) = (pieceKey inputs x == key) := by
  obtain ⟨h, g, b⟩ := key
  simp only [matchesKey, toUnique, pieceKey, Bool.and_assoc]
  rfl

/-- The table holds the first piece of every key that was inserted. -/
def TableOf (inputs : List (MergeInput hashPiece)) (pieceBase : List ℕ) (done : List (ℕ × ℕ))
    (table : List Unique) : Prop :=
  ∀ key, table.find? (matchesKey key) = (firstWith inputs done key).map (toUnique inputs pieceBase)

theorem firstWith_append (l m : List (ℕ × ℕ)) (key : UInt64 × ℕ × List UInt8) :
    firstWith inputs (l ++ m) key = (firstWith inputs l key).or (firstWith inputs m key) :=
  List.find?_append

theorem firstWith_singleton (x : ℕ × ℕ) (key : UInt64 × ℕ × List UInt8) :
    firstWith inputs [x] key = if pieceKey inputs x == key then some x else none := by
  unfold firstWith
  rw [List.find?_cons]
  cases pieceKey inputs x == key <;> rfl

/-- Inserting one piece: the table stays right, and the leader written is the first piece with
its key. -/
theorem insertPiece_spec {done : List (ℕ × ℕ)} {table : List Unique} (leader : Cells ℕ)
    (h : TableOf inputs pieceBase done table) (x : ℕ × ℕ) :
    ∃ table' y, insertPiece inputs pieceBase (table, leader) x =
        (table', leader.set (pieceIndex pieceBase x) (pieceIndex pieceBase y)) ∧
      firstWith inputs (done ++ [x]) (pieceKey inputs x) = some y ∧
      TableOf inputs pieceBase (done ++ [x]) table' := by
  have hfind := h (pieceKey inputs x)
  have hself : firstWith inputs [x] (pieceKey inputs x) = some x := by
    rw [firstWith_singleton, beq_self_eq_true, if_pos rfl]
  cases hdone : firstWith inputs done (pieceKey inputs x) with
  | some y =>
    rw [hdone, Option.map_some] at hfind
    refine ⟨table, y, ?_, ?_, fun key => ?_⟩
    · have hmatch : table.find? (fun u => u.hash == pieceHash inputs x &&
          u.group == pieceGroup inputs x && u.bytes == pieceBytes inputs x) =
          some (toUnique inputs pieceBase y) := hfind
      simp only [insertPiece, hmatch]
      rfl
    · rw [firstWith_append, hdone, Option.some_or]
    · rw [h key, firstWith_append, firstWith_singleton]
      by_cases hkey : pieceKey inputs x = key
      · rw [← hkey, hdone, Option.some_or]
      · rw [beq_false_of_ne hkey, if_neg (by decide), Option.or_none]
  | none =>
    rw [hdone, Option.map_none] at hfind
    refine ⟨toUnique inputs pieceBase x :: table, x, ?_, ?_, fun key => ?_⟩
    · have hmatch : table.find? (fun u => u.hash == pieceHash inputs x &&
          u.group == pieceGroup inputs x && u.bytes == pieceBytes inputs x) = none := hfind
      simp only [insertPiece, hmatch]
      rfl
    · rw [firstWith_append, hdone, Option.none_or, hself]
    · rw [List.find?_cons, matchesKey_toUnique, firstWith_append, firstWith_singleton]
      by_cases hkey : pieceKey inputs x = key
      · rw [← hkey, hdone, beq_self_eq_true, Option.none_or, if_pos rfl]
        rfl
      · rw [beq_false_of_ne hkey, if_neg (by decide), Option.or_none]
        exact h key

/-- **A shard gives every piece the first one with its key.** -/
theorem insertPieces_spec (l : List (ℕ × ℕ)) :
    ∀ (done : List (ℕ × ℕ)) (table : List Unique) (leader : Cells ℕ),
      TableOf inputs pieceBase done table → (l.map (pieceIndex pieceBase)).Nodup →
      (∀ x ∈ l, ∃ y, firstWith inputs (done ++ l) (pieceKey inputs x) = some y ∧
        (l.foldl (insertPiece inputs pieceBase) (table, leader)).2.get (pieceIndex pieceBase x) =
          pieceIndex pieceBase y) ∧
      ∀ p, p ∉ l.map (pieceIndex pieceBase) →
        (l.foldl (insertPiece inputs pieceBase) (table, leader)).2.get p = leader.get p := by
  induction l with
  | nil => intro _ _ _ _ _; exact ⟨fun x hx => absurd hx List.not_mem_nil, fun p _ => rfl⟩
  | cons x l ih =>
    intro done table leader htable hnodup
    rw [List.map_cons, List.nodup_cons] at hnodup
    obtain ⟨table', y, hstep, hfirst, htable'⟩ := insertPiece_spec leader htable x
    obtain ⟨hin, hout⟩ := ih (done ++ [x]) table'
      (leader.set (pieceIndex pieceBase x) (pieceIndex pieceBase y)) htable' hnodup.2
    rw [List.append_assoc, List.singleton_append] at hin
    rw [List.foldl_cons, hstep]
    refine ⟨fun z hz => ?_, fun p hp => ?_⟩
    · rcases List.mem_cons.mp hz with rfl | hz
      · refine ⟨y, ?_, ?_⟩
        · rw [show done ++ z :: l = (done ++ [z]) ++ l by simp, firstWith_append, hfirst,
            Option.some_or]
        · rw [hout _ hnodup.1, Cells.get_set_self]
      · exact hin z hz
    · rw [List.map_cons, List.mem_cons, not_or] at hp
      rw [hout p hp.2, Cells.get_set_of_ne _ hp.1]

/-! ### All shards -/

theorem cutRuns_flatten (weight : ℕ → ℕ) (l : List ℕ) :
    ∀ (current : List ℕ) (pieces : ℕ), (cutRuns weight l current pieces).flatten = current ++ l := by
  induction l with
  | nil =>
    intro current pieces
    cases current with
    | nil => rfl
    | cons a current => simp [cutRuns]
  | cons s l ih =>
    intro current pieces
    rw [cutRuns]
    split
    · rw [List.flatten_cons, ih]
      simp
    · rw [ih]
      simp

theorem shardOf_lt (hash : UInt64) : shardOf hash < SHARDS :=
  Nat.lt_of_le_of_lt Nat.and_le_right (by decide)

/-- The shard of a piece. -/
abbrev shardKey (inputs : List (MergeInput hashPiece)) (x : ℕ × ℕ) : ℕ :=
  shardOf (pieceHash inputs x)

theorem bucketRun_bucket (run : List ℕ) {shard : ℕ} (hshard : shard < SHARDS) :
    (bucketRun inputs pieceBase live run).bucket shard =
      (run.flatMap (livePieces inputs pieceBase live)).filter
        fun x => shardKey inputs x == shard := by
  have hbucket := bucketOf_eq_filter SHARDS (shardKey inputs)
    (run.flatMap (livePieces inputs pieceBase live)) (Cells.const (0, 0))
    (fun x _ => shardOf_lt (pieceHash inputs x)) hshard
  rw [← hbucket, bucketOf, Bucketed.bucket, bucketRun]

variable {runs : List (List ℕ)}

/-- What a shard walks: the live pieces of the shard, in order. -/
theorem buckets_flatMap (hruns : runs.flatten = List.range inputs.length) {shard : ℕ}
    (hshard : shard < SHARDS) :
    ((runs.map (bucketRun inputs pieceBase live)).flatMap fun b => b.bucket shard) =
      (allLive inputs pieceBase live).filter fun x => shardKey inputs x == shard := by
  rw [allLive, ← hruns]
  clear hruns
  induction runs with
  | nil => rfl
  | cons run runs ih =>
    rw [List.map_cons, List.flatMap_cons, ih, bucketRun_bucket run hshard, List.flatten_cons,
      List.flatMap_append, List.filter_append]

/-- The shards, without the buckets: each walks its live pieces. -/
theorem deduplicate_eq (inputs : List (MergeInput hashPiece)) (pieceBase : List ℕ)
    (live : Option BitSet) :
    deduplicate inputs pieceBase live = (List.range SHARDS).foldl (fun leader shard =>
      (((allLive inputs pieceBase live).filter fun x => shardKey inputs x == shard).foldl
        (insertPiece inputs pieceBase) ([], leader)).2) (Cells.const DEAD_LEADER) := by
  have hruns := cutRuns_flatten (numPiecesOf inputs) (List.range inputs.length)
  rw [deduplicate, deduplicateRuns]
  refine List.foldl_ext _ _ _ fun leader shard hshard => ?_
  rw [fillShard, buckets_flatMap (hruns [] 0) (List.mem_range.mp hshard)]

/-- The first piece with a key is in the shard of the key. -/
theorem firstWith_filter (l : List (ℕ × ℕ)) (x : ℕ × ℕ) :
    firstWith inputs (l.filter fun y => shardKey inputs y == shardKey inputs x)
      (pieceKey inputs x) = firstWith inputs l (pieceKey inputs x) := by
  unfold firstWith
  rw [List.find?_filter]
  congr 1
  funext y
  by_cases hkey : pieceKey inputs y = pieceKey inputs x
  · have hhash : pieceHash inputs y = pieceHash inputs x := congrArg Prod.fst hkey
    simp [hkey, shardKey, hhash]
  · simp [hkey]

/-- **The leader of a live piece is the first live piece with its key**, for every cut
of the sections into runs. -/
theorem deduplicateRuns_spec (hbase : WellBased inputs pieceBase)
    (hruns : runs.flatten = List.range inputs.length) :
    (∀ x ∈ allLive inputs pieceBase live, ∃ y,
      firstWith inputs (allLive inputs pieceBase live) (pieceKey inputs x) = some y ∧
      (deduplicateRuns inputs pieceBase live runs).get (pieceIndex pieceBase x) =
        pieceIndex pieceBase y) ∧
    ∀ p, (∀ x ∈ allLive inputs pieceBase live, pieceIndex pieceBase x ≠ p) →
      (deduplicateRuns inputs pieceBase live runs).get p = DEAD_LEADER := by
  let all := allLive inputs pieceBase live
  let leaderAt := fun n => (List.range n).foldl
    (fillShard inputs pieceBase (runs.map (bucketRun inputs pieceBase live)))
    (Cells.const DEAD_LEADER)
  have hinj : ∀ x ∈ all, ∀ y ∈ all, pieceIndex pieceBase x = pieceIndex pieceBase y → x = y :=
    fun x hx y hy => hbase.index_inj (mem_allLive.mp hx).1 (mem_allLive.mp hy).1
  have hnodup : ∀ shard, ((all.filter fun x => shardKey inputs x == shard).map
      (pieceIndex pieceBase)).Nodup := by
    intro shard
    refine (List.nodup_map_iff_inj_on (nodup_allLive.filter _)).mpr ?_
    intro x hx y hy
    exact hinj x (List.mem_filter.mp hx).1 y (List.mem_filter.mp hy).1
  -- After `n` shards, the pieces of these shards have their leaders and no other piece has one.
  have hrun : ∀ n, n ≤ SHARDS →
      (∀ x ∈ all, shardKey inputs x < n → ∃ y, firstWith inputs all (pieceKey inputs x) = some y ∧
        (leaderAt n).get (pieceIndex pieceBase x) = pieceIndex pieceBase y) ∧
      ∀ p, (∀ x ∈ all, shardKey inputs x < n → pieceIndex pieceBase x ≠ p) →
        (leaderAt n).get p = DEAD_LEADER := by
    intro n
    induction n with
    | zero => intro _; exact ⟨fun x _ h => absurd h (Nat.not_lt_zero _), fun p _ => rfl⟩
    | succ n ih =>
      intro hn
      obtain ⟨hin, hout⟩ := ih (by omega)
      have hstep : leaderAt (n + 1) = ((all.filter fun x => shardKey inputs x == n).foldl
          (insertPiece inputs pieceBase) ([], leaderAt n)).2 := by
        show (List.range (n + 1)).foldl _ _ = _
        rw [List.range_succ, List.foldl_append]
        show fillShard inputs pieceBase _ (leaderAt n) n = _
        rw [fillShard, buckets_flatMap hruns (by omega)]
      obtain ⟨hnew, hkeep⟩ := insertPieces_spec (all.filter fun x => shardKey inputs x == n) []
        [] (leaderAt n) (fun key => rfl) (hnodup n)
      rw [← hstep, List.nil_append] at hnew
      rw [← hstep] at hkeep
      refine ⟨fun x hx hlt => ?_, fun p hp => ?_⟩
      · by_cases hxn : shardKey inputs x = n
        · subst hxn
          obtain ⟨y, hy, hget⟩ := hnew x (List.mem_filter.mpr ⟨hx, by simp⟩)
          rw [firstWith_filter] at hy
          exact ⟨y, hy, hget⟩
        · obtain ⟨y, hy, hget⟩ := hin x hx (by omega)
          refine ⟨y, hy, ?_⟩
          rw [hkeep, hget]
          intro hmem
          obtain ⟨z, hz, hzx⟩ := List.mem_map.mp hmem
          obtain ⟨hz, hshard⟩ := List.mem_filter.mp hz
          rw [hinj z hz x hx hzx] at hshard
          exact hxn (by simpa using hshard)
      · rw [hkeep, hout p fun x hx hlt => hp x hx (by omega)]
        intro hmem
        obtain ⟨z, hz, hzp⟩ := List.mem_map.mp hmem
        obtain ⟨hz, hshard⟩ := List.mem_filter.mp hz
        have hshard : shardKey inputs z = n := by simpa using hshard
        exact hp z hz (by omega) hzp
  obtain ⟨hin, hout⟩ := hrun SHARDS le_rfl
  exact ⟨fun x hx => hin x hx (shardOf_lt _), fun p hp => hout p fun x hx _ => hp x hx⟩

/-- What the layout uses of the leaders. -/
structure Leads (inputs : List (MergeInput hashPiece)) (pieceBase : List ℕ)
    (live : Option BitSet) (leader : Cells ℕ) : Prop where
  /-- The leader of a live piece is a live piece of the same group with the same bytes, and is
  its own leader. -/
  follows : ∀ x ∈ allLive inputs pieceBase live, ∃ y ∈ allLive inputs pieceBase live,
    leader.get (pieceIndex pieceBase x) = pieceIndex pieceBase y ∧
    leader.get (pieceIndex pieceBase y) = pieceIndex pieceBase y ∧
    pieceGroup inputs y = pieceGroup inputs x ∧ pieceBytes inputs y = pieceBytes inputs x
  dead : ∀ p, (∀ x ∈ allLive inputs pieceBase live, pieceIndex pieceBase x ≠ p) →
    leader.get p = DEAD_LEADER

theorem deduplicateRuns_leads (hbase : WellBased inputs pieceBase)
    (hruns : runs.flatten = List.range inputs.length) :
    Leads inputs pieceBase live (deduplicateRuns inputs pieceBase live runs) where
  follows x hx := by
    obtain ⟨y, hy, hget⟩ := (deduplicateRuns_spec hbase hruns).1 x hx
    have hymem : y ∈ allLive inputs pieceBase live := List.mem_of_find?_eq_some hy
    have hkey : pieceKey inputs y = pieceKey inputs x := by simpa using List.find?_some hy
    obtain ⟨z, hz, hgetz⟩ := (deduplicateRuns_spec hbase hruns).1 y hymem
    rw [hkey, hy, Option.some.injEq] at hz
    subst hz
    exact ⟨y, hymem, hget, hgetz, congrArg (fun k => k.2.1) hkey, congrArg (fun k => k.2.2) hkey⟩
  dead := (deduplicateRuns_spec hbase hruns).2

theorem deduplicate_leads (hbase : WellBased inputs pieceBase) :
    Leads inputs pieceBase live (deduplicate inputs pieceBase live) :=
  deduplicateRuns_leads hbase (by rw [cutRuns_flatten, List.nil_append])

end Qld.Passes.Merge
