import Qld.Lib.Comparator
import Qld.Passes.Merge.Sequential

/-!
# Tail merging keeps the maximal strings

The strings of a group are walked by their reversed contents, descending, and only the last string
that owns storage is looked at.  No suffix is missed.

* `Walk` — what the walk keeps: each string that was seen is a suffix of the owner, or comes before
  it;
* `links_maximal` — without an alignment, an owner is a suffix of no other string;
* `mergeSplitSections_tails` — the owners of a group are its maximal strings, every live
  string lies in an owner, and every link goes to an owner at an aligned distance.
-/

namespace Qld.Passes.Merge

open Qld.Lib

/-! ### The order of the walk -/

section Walk

variable {leaders : List Leader}

/-- A position comes before another in the walk, or their strings are equal. -/
def reversedLE (leaders : List Leader) (p q : ℕ) : Prop :=
  (compare (bytesAt leaders q).reverse (bytesAt leaders p).reverse).isLE = true

theorem reversedLE_of_tailOrder {p q : ℕ} (h : tailOrder leaders p q) : reversedLE leaders p q := by
  rw [tailOrder, Ordering.isLE_then_iff_and] at h
  exact h.1

instance : Std.Total (tailOrder leaders) where
  total p q := by
    rw [tailOrder, tailOrder, Std.OrientedOrd.eq_swap (a := (bytesAt leaders p).reverse),
      Std.OrientedOrd.eq_swap (a := q), ← Ordering.swap_then]
    cases (compare (bytesAt leaders q).reverse (bytesAt leaders p).reverse).then (compare p q)
    · exact .inl rfl
    · exact .inl rfl
    · exact .inr rfl

instance : IsTrans ℕ (tailOrder leaders) where
  trans p q r hpq hqr := by
    rw [tailOrder, Ordering.isLE_then_iff_and] at hpq hqr ⊢
    refine ⟨Std.TransCmp.isLE_trans hqr.1 hpq.1, ?_⟩
    rcases hpq.2 with hlt | hle
    · exact .inl (Std.TransCmp.lt_of_isLE_of_lt hqr.1 hlt)
    · rcases hqr.2 with hlt | hle'
      · exact .inl (Std.TransCmp.lt_of_lt_of_isLE hlt hpq.1)
      · exact .inr (Std.TransCmp.isLE_trans hle hle')

/-- **No suffix is missed**: a suffix of an earlier string is one of everything between. -/
theorem suffix_of_between {p o q : ℕ} (hqo : reversedLE leaders q o) (hop : reversedLE leaders o p)
    (h : bytesAt leaders p <:+ bytesAt leaders q) : bytesAt leaders p <:+ bytesAt leaders o := by
  rw [← List.reverse_prefix] at h ⊢
  exact isPrefix_of_between hop hqo h

theorem eq_of_suffix {p q : ℕ} (hpq : reversedLE leaders p q)
    (h : bytesAt leaders p <:+ bytesAt leaders q) : bytesAt leaders p = bytesAt leaders q := by
  have hle := isLE_of_isPrefix (List.reverse_prefix.mpr h)
  have heq := Std.LawfulEqCmp.eq_of_compare (Std.OrientedCmp.isLE_antisymm hle hpq)
  exact List.reverse_injective heq

/-! ### The walk -/

/-- What the walk keeps after the positions `done`: each string that was seen is a suffix of the
owner or comes before it, and no string without a link is a suffix of another. -/
structure Walk (leaders : List Leader) (done : List ℕ) (s : Option ℕ × Cells (Option (ℕ × ℕ))) :
    Prop where
  owner : ∀ o, s.1 = some o → o ∈ done
  seen : ∀ q ∈ done, ∃ o, s.1 = some o ∧
    (reversedLE leaders q o ∨ bytesAt leaders q <:+ bytesAt leaders o)
  maximal : ∀ p ∈ done, s.2.get p = none → ∀ q ∈ done,
    bytesAt leaders p <:+ bytesAt leaders q → bytesAt leaders p = bytesAt leaders q

/-- What becomes of a position without an alignment. -/
theorem linkPosition_one (s : Option ℕ × Cells (Option (ℕ × ℕ))) (p : ℕ) :
    (∃ o, s.1 = some o ∧ bytesAt leaders p <:+ bytesAt leaders o ∧
      linkPosition leaders 1 s p = (some o, s.2.set p (some (o,
        (bytesAt leaders o).length - (bytesAt leaders p).length)))) ∨
    (∀ o, s.1 = some o → ¬bytesAt leaders p <:+ bytesAt leaders o) ∧
      linkPosition leaders 1 s p = (some p, s.2) := by
  unfold linkPosition
  cases hs : s.1 with
  | none => exact .inr ⟨fun o ho => (nomatch ho), rfl⟩
  | some o =>
    have hmask : ((bytesAt leaders o).length - (bytesAt leaders p).length) &&& (1 - 1) = 0 :=
      Nat.and_zero _
    simp only [hmask, beq_self_eq_true, Bool.and_true]
    split
    · next hsuffix => exact .inl ⟨o, rfl, List.isSuffixOf_iff_suffix.mp hsuffix, rfl⟩
    · next hsuffix =>
      refine .inr ⟨fun o' ho' h => ?_, rfl⟩
      obtain rfl := Option.some.inj ho'
      exact hsuffix (List.isSuffixOf_iff_suffix.mpr h)

/-- **One step of the walk.** -/
theorem linkPosition_walk {done : List ℕ} {s : Option ℕ × Cells (Option (ℕ × ℕ))} {p : ℕ}
    (hp : p ∉ done) (hlast : ∀ q ∈ done, reversedLE leaders q p) (h : Walk leaders done s) :
    Walk leaders (done ++ [p]) (linkPosition leaders 1 s p) := by
  rcases linkPosition_one s p with ⟨o, ho, hsuffix, heq⟩ | ⟨hnone, heq⟩
  · rw [heq]
    refine ⟨fun o' ho' => ?_, fun q hq => ⟨o, rfl, ?_⟩, fun q hq hfree r hr hqr => ?_⟩
    · exact List.mem_append_left _ (h.owner o' (ho.trans ho'))
    · rcases List.mem_append.mp hq with hq | hq
      · obtain ⟨o', ho', hseen⟩ := h.seen q hq
        obtain rfl := Option.some.inj (ho.symm.trans ho')
        exact hseen
      · rw [List.mem_singleton.mp hq]
        exact .inr hsuffix
    · -- The position has a link, so it is not `q`; as the other string it comes after `q`.
      have hqp : q ≠ p := fun hqp => by
        rw [hqp] at hfree
        exact nomatch (Cells.get_set_self s.2 p _).symm.trans hfree
      rw [Cells.get_set_of_ne _ hqp] at hfree
      have hqd := (List.mem_append.mp hq).resolve_right fun hq => hqp (List.mem_singleton.mp hq)
      rcases List.mem_append.mp hr with hr | hr
      · exact h.maximal q hqd hfree r hr hqr
      · obtain rfl := List.mem_singleton.mp hr
        exact eq_of_suffix (hlast q hqd) hqr
  · rw [heq]
    refine ⟨fun o ho => ?_, fun q hq => ⟨p, rfl, ?_⟩, fun q hq hfree r hr hqr => ?_⟩
    · rw [← Option.some.inj ho]
      exact List.mem_append_right _ List.mem_cons_self
    · rcases List.mem_append.mp hq with hq | hq
      · exact .inl (hlast q hq)
      · rw [List.mem_singleton.mp hq]
        exact .inr List.suffix_rfl
    · rcases List.mem_append.mp hq with hqd | hq
      · rcases List.mem_append.mp hr with hr | hr
        · exact h.maximal q hqd hfree r hr hqr
        · obtain rfl := List.mem_singleton.mp hr
          exact eq_of_suffix (hlast q hqd) hqr
      · obtain rfl := List.mem_singleton.mp hq
        rcases List.mem_append.mp hr with hr | hr
        · -- A suffix of an earlier string would be one of the owner.
          obtain ⟨o, ho, hseen⟩ := h.seen r hr
          refine absurd ?_ (hnone o ho)
          rcases hseen with hseen | hseen
          · exact suffix_of_between hseen (hlast o (h.owner o ho)) hqr
          · exact hqr.trans hseen
        · rw [List.mem_singleton.mp hr]

/-- **The whole walk.** -/
theorem foldl_linkPosition_walk (order : List ℕ) :
    ∀ (done : List ℕ) (s : Option ℕ × Cells (Option (ℕ × ℕ))), (done ++ order).Nodup →
      (done ++ order).Pairwise (reversedLE leaders) → Walk leaders done s →
      Walk leaders (done ++ order) (order.foldl (linkPosition leaders 1) s) := by
  induction order with
  | nil =>
    intro done s _ _ h
    rwa [List.append_nil]
  | cons p order ih =>
    intro done s hnodup hpairwise h
    have hsplit : done ++ p :: order = (done ++ [p]) ++ order := by simp
    have hp : p ∉ done := fun hp =>
      (List.nodup_append.mp hnodup).2.2 p hp p List.mem_cons_self rfl
    have hlast : ∀ q ∈ done, reversedLE leaders q p := fun q hq =>
      (List.pairwise_append.mp hpairwise).2.2 q hq p List.mem_cons_self
    rw [hsplit] at hnodup hpairwise ⊢
    exact ih _ _ hnodup hpairwise (linkPosition_walk hp hlast h)

/-- **An owner is a suffix of no other string.** -/
theorem links_maximal {p q : ℕ} (hp : p < leaders.length) (hq : q < leaders.length)
    (hfree : (links leaders 1).get p = none) (h : bytesAt leaders p <:+ bytesAt leaders q) :
    bytesAt leaders p = bytesAt leaders q := by
  have hperm := List.perm_insertionSort (tailOrder leaders) (List.range leaders.length)
  have hsorted := List.pairwise_insertionSort (tailOrder leaders) (List.range leaders.length)
  have hstart : Walk leaders [] (none, Cells.const none) :=
    ⟨fun o ho => (nomatch ho), fun q hq => absurd hq List.not_mem_nil,
      fun q hq => absurd hq List.not_mem_nil⟩
  have hwalk := foldl_linkPosition_walk _ [] _ (hperm.nodup_iff.mpr List.nodup_range)
    (hsorted.imp reversedLE_of_tailOrder) hstart
  exact hwalk.maximal p (hperm.mem_iff.mpr (List.mem_range.mpr hp)) hfree q
    (hperm.mem_iff.mpr (List.mem_range.mpr hq)) h

end Walk

/-! ### The whole -/

section Whole

variable {hashPiece : List UInt8 → UInt64} {inputs : List (MergeInput hashPiece)}
  {pieceBase : List ℕ} {live : Option BitSet} {groups : List MergeGroup}
  {m : MergedSections hashPiece}

/-- The live strings of a group. -/
def groupStrings (inputs : List (MergeInput hashPiece)) (pieceBase : List ℕ) (live : Option BitSet)
    (g : ℕ) : List (List UInt8) :=
  ((allLive inputs pieceBase live).filter fun x => pieceGroup inputs x == g).map (pieceBytes inputs)

/-- The different strings that are suffixes of no other. -/
def maximalStrings (strings : List (List UInt8)) : List (List UInt8) :=
  strings.dedup.filter fun b => ∀ c ∈ strings, b <:+ c → b = c

theorem mem_maximalStrings {strings : List (List UInt8)} {b : List UInt8} :
    b ∈ maximalStrings strings ↔ b ∈ strings ∧ ∀ c ∈ strings, b <:+ c → b = c := by
  unfold maximalStrings
  rw [List.mem_filter, List.mem_dedup, decide_eq_true_eq]

/-- The leaders of a group, as tail merging sees them. -/
abbrev tailLeaders (inputs : List (MergeInput hashPiece)) (pieceBase : List ℕ)
    (live : Option BitSet) (g : ℕ) : List Leader :=
  (leaderPieces inputs pieceBase live g).map (toLeader inputs pieceBase)

theorem mem_groupStrings {g : ℕ} {b : List UInt8} : b ∈ groupStrings inputs pieceBase live g ↔
    ∃ x ∈ allLive inputs pieceBase live, pieceGroup inputs x = g ∧ pieceBytes inputs x = b := by
  simp only [groupStrings, List.mem_map, List.mem_filter, beq_iff_eq, and_assoc]

/-- **The leaders have every live string.** -/
theorem mem_tailLeaders_bytes (hbase : WellBased inputs pieceBase) {g : ℕ} {b : List UInt8} :
    b ∈ groupStrings inputs pieceBase live g ↔
      ∃ p < (tailLeaders inputs pieceBase live g).length,
        bytesAt (tailLeaders inputs pieceBase live g) p = b := by
  rw [mem_groupStrings]
  refine ⟨fun ⟨x, hx, hgroup, hbytes⟩ => ?_, fun ⟨p, hp, hbytes⟩ => ?_⟩
  · have hflat : [List.range inputs.length].flatten = List.range inputs.length :=
      List.append_nil _
    obtain ⟨y, hy, hfirst, hsame, -⟩ := deduplicateRuns_leader hbase hflat hx
    obtain ⟨hgroup', hbytes'⟩ := sameContents_iff.mp hsame
    have hself : firstLike inputs pieceBase live y = some y := by
      rw [← hfirst]
      refine List.find?_congr fun z _ => ?_
      rw [sameContents, sameContents, hgroup', hbytes']
    have hmem := mem_leaderPieces.mpr ⟨hy, hgroup'.symm.trans hgroup, hself⟩
    obtain ⟨p, hp, hget⟩ := List.mem_iff_getElem.mp hmem
    refine ⟨p, by rwa [List.length_map], ?_⟩
    rw [bytesAt, List.getElem?_map, List.getElem?_eq_getElem hp, hget]
    exact hbytes'.symm.trans hbytes
  · rw [List.length_map] at hp
    have hmem := List.getElem_mem hp
    obtain ⟨hlive, hgroup, -⟩ := mem_leaderPieces.mp hmem
    refine ⟨_, hlive, hgroup, ?_⟩
    rw [bytesAt, List.getElem?_map, List.getElem?_eq_getElem hp] at hbytes
    exact hbytes

/-- **The leaders of a group have different strings.** -/
theorem tailLeaders_inj {g p q : ℕ} (hp : p < (tailLeaders inputs pieceBase live g).length)
    (hq : q < (tailLeaders inputs pieceBase live g).length)
    (h : bytesAt (tailLeaders inputs pieceBase live g) p =
      bytesAt (tailLeaders inputs pieceBase live g) q) : p = q := by
  rw [List.length_map] at hp hq
  rw [bytesAt, bytesAt, List.getElem?_map, List.getElem?_map, List.getElem?_eq_getElem hp,
    List.getElem?_eq_getElem hq] at h
  obtain ⟨-, hgroup, hself⟩ := mem_leaderPieces.mp (List.getElem_mem hp)
  obtain ⟨-, hgroup', hself'⟩ := mem_leaderPieces.mp (List.getElem_mem hq)
  have hlike : firstLike inputs pieceBase live (leaderPieces inputs pieceBase live g)[p] =
      firstLike inputs pieceBase live (leaderPieces inputs pieceBase live g)[q] := by
    refine List.find?_congr fun z _ => ?_
    rw [sameContents, sameContents, hgroup, hgroup']
    exact congrArg (fun b => _ && b == pieceBytes inputs z) h
  have heq := Option.some.inj (hself.symm.trans (hlike.trans hself'))
  exact (List.Nodup.getElem_inj_iff (nodup_allLive.filter _)).mp heq

/-- The positions that own storage. -/
abbrev tailOwners (leaders : List Leader) (alignment : ℕ) : List ℕ :=
  (List.range leaders.length).filter fun p => ((links leaders alignment).get p).isNone

theorem mem_tailOwners {leaders : List Leader} {alignment p : ℕ} :
    p ∈ tailOwners leaders alignment ↔
      p < leaders.length ∧ (links leaders alignment).get p = none := by
  rw [List.mem_filter, List.mem_range, Option.isNone_iff_eq_none]

/-- **The owners of a group are its maximal strings.** -/
theorem tailOwners_perm (hbase : WellBased inputs pieceBase) (g : ℕ) :
    ((tailOwners (tailLeaders inputs pieceBase live g) 1).map
      (bytesAt (tailLeaders inputs pieceBase live g))).Perm
      (maximalStrings (groupStrings inputs pieceBase live g)) := by
  have hone : Nat.isPowerOfTwo 1 := ⟨0, rfl⟩
  have hnodup : ((tailOwners (tailLeaders inputs pieceBase live g) 1).map
      (bytesAt (tailLeaders inputs pieceBase live g))).Nodup := by
    refine (List.nodup_map_iff_inj_on (List.nodup_range.filter _)).mpr fun p hp q hq h => ?_
    exact tailLeaders_inj (mem_tailOwners.mp hp).1 (mem_tailOwners.mp hq).1 h
  have hmaximal : (maximalStrings (groupStrings inputs pieceBase live g)).Nodup :=
    (List.nodup_dedup _).filter _
  refine (List.perm_ext_iff_of_nodup hnodup hmaximal).mpr fun b => ?_
  rw [mem_maximalStrings, List.mem_map]
  refine ⟨fun ⟨p, hp, hb⟩ => ?_, fun ⟨hb, hmax⟩ => ?_⟩
  · obtain ⟨hlt, hfree⟩ := mem_tailOwners.mp hp
    refine ⟨(mem_tailLeaders_bytes hbase).mpr ⟨p, hlt, hb⟩, fun c hc hsuffix => ?_⟩
    obtain ⟨q, hq, rfl⟩ := (mem_tailLeaders_bytes hbase).mp hc
    rw [← hb] at hsuffix ⊢
    exact links_maximal hlt hq hfree hsuffix
  · obtain ⟨p, hp, rfl⟩ := (mem_tailLeaders_bytes hbase).mp hb
    refine ⟨p, mem_tailOwners.mpr ⟨hp, ?_⟩, rfl⟩
    cases hlink : (links (tailLeaders inputs pieceBase live g) 1).get p with
    | none => rfl
    | some link =>
      -- A string with a link is a suffix of its owner, which is another string.
      obtain ⟨hfree, hshare⟩ := links_linked hone p link.1 link.2 hlink
      have hsuffix : bytesAt (tailLeaders inputs pieceBase live g) p <:+
          bytesAt (tailLeaders inputs pieceBase live g) link.1 := by
        rw [hshare.bytes]
        exact List.drop_suffix _ _
      have heq := hmax _ ((mem_tailLeaders_bytes hbase).mpr ⟨link.1, hshare.lt, rfl⟩) hsuffix
      rw [tailLeaders_inj hp hshare.lt heq, hfree] at hlink
      exact nomatch hlink

namespace MergeRun

variable (run : MergeRun groups inputs live m)

theorem groupLeaders_eq (g : ℕ) :
    run.groupLeaders g = tailLeaders inputs (0 :: run.bases) live g := by
  rw [groupLeaders, run.row_eq, leaders, deduplicate,
    leadersOf_eq run.wellBased run.total_lt (by rw [cutRuns_flatten, List.nil_append])]

/-- **The pieces of a group with tail merging.** -/
theorem tails {g : ℕ} {group : MergeGroup} (hg : groups[g]? = some group)
    (htail : group.mergesTails = true) :
    ∃ merged, m.group g = some merged ∧
      merged.pieces.map (OutputPiece.bytes m.splits) =
        (tailOwners (run.groupLeaders g) group.alignment).map (bytesAt (run.groupLeaders g)) ∧
      merged.size = (inSequence group.alignment (fun p => (bytesAt (run.groupLeaders g) p).length)
        (tailOwners (run.groupLeaders g) group.alignment) 0).2 := by
  obtain ⟨mg, hmg, before, after, hlayout, -⟩ := run.turns.1 g group hg
  have ha := checkGroups_ok run.groupsOk group (List.mem_of_getElem? hg)
  have hlinked : layoutLinked (run.groupLeaders g) group
      (links (run.groupLeaders g) group.alignment) before = .ok (mg, after) := by
    rw [← hlayout, layoutGroup]
    split
    · rfl
    · next hother =>
      rw [MergeGroup.mergesTails] at htail
      split at htail
      · next htrue hkind => exact absurd hkind (hother _ htrue)
      · cases htail
  unfold layoutLinked at hlinked
  simp only at hlinked
  split at hlinked
  · cases hlinked
  · next placed size hplaced =>
    obtain ⟨rfl, rfl⟩ := Prod.mk.inj (Except.ok.inj hlinked)
    have hseq := placeAll_eq ha _ _ _ _ hplaced
    refine ⟨_, hmg, ?_, by rw [← hseq]⟩
    have hfst : placed.map Prod.fst = tailOwners (run.groupLeaders g) group.alignment := by
      rw [← map_fst_inSequence (tailOwners (run.groupLeaders g) group.alignment) 0, ← hseq]
    rw [← hfst, List.map_map]
    have hlt : ∀ x ∈ placed, x.1 < (run.groupLeaders g).length := fun x hx => by
      have hmem : x.1 ∈ placed.map Prod.fst := List.mem_map_of_mem hx
      rw [hfst] at hmem
      exact (mem_tailOwners.mp hmem).1
    clear hfst hplaced hseq hmg hlayout hlinked
    induction placed with
    | nil => rfl
    | cons x placed ih =>
      have hx := hlt x List.mem_cons_self
      have hget : (run.groupLeaders g)[x.1]? = some ((run.groupLeaders g).get ⟨x.1, hx⟩) :=
        List.getElem?_eq_getElem hx
      obtain ⟨s, hs, hlead⟩ := run.mem_groupLeaders (List.get_mem (run.groupLeaders g) ⟨x.1, hx⟩)
      rw [List.filterMap_cons_some (by rw [hget]; rfl), List.map_cons, List.map_cons,
        ih fun y hy => hlt y (List.mem_cons_of_mem _ hy), run.splits_eq, outputPiece_bytes hs hlead,
        Function.comp_apply, bytesAt_of_getElem? hget]

/-- **A live string lies in an owner.** -/
theorem tail_of_owner {g : ℕ} {group : MergeGroup} {merged : MergedGroup}
    (hg : groups[g]? = some group) (hmerged : m.group g = some merged) {x : ℕ × ℕ}
    (hx : x ∈ allLive inputs (0 :: run.bases) live) (hgroup : pieceGroup inputs x = g) :
    ∃ piece ∈ merged.pieces, ∃ delta,
      m.pieceOutputOffset x.1 x.2 = some (piece.outputOffset + delta) ∧
      pieceBytes inputs x = (piece.bytes m.splits).drop delta ∧
      group.alignment ∣ piece.outputOffset + delta := by
  obtain ⟨mg, hmg, hlaid⟩ := run.laid hg
  obtain rfl := Option.some.inj (hmerged.symm.trans hmg)
  obtain ⟨hpiece, hlive⟩ := mem_allLive.mp hx
  obtain ⟨lead, hlead, hbytes, hoffset⟩ := run.exists_leader hpiece hlive
  rw [hgroup] at hlead
  obtain ⟨owner, howner, start, delta, hmem, hout, hdvd, hlen, hdrop⟩ := hlaid.located lead hlead
  obtain ⟨t, ht, hownerSection⟩ := run.mem_groupLeaders howner
  refine ⟨_, hmem, delta, ?_, ?_, hdvd⟩
  · have hinside : start + owner.bytes.length ≤ merged.size := hlaid.inside _ hmem
    have hsize := hlaid.size_lt
    have hpos : 0 < lead.bytes.length := by
      rw [hbytes]
      exact pieceLen_pos hpiece
    have hne : (start + delta != DEAD_OFFSET) = true := by
      rw [bne_iff_ne, DEAD_OFFSET]
      omega
    rw [run.pieceOutputOffset_eq hpiece, hoffset, hout, Option.filter_some, if_pos hne]
    rfl
  · rw [run.splits_eq, outputPiece_bytes ht hownerSection, ← hdrop, hbytes]

end MergeRun

/-- **Tail merging keeps the maximal strings (proved).**  Without an alignment the strings that own
storage are the maximal ones, and the size of the group is their total length; every live string
lies in an owner, and a link goes to an owner, at an aligned distance. -/
theorem mergeSplitSections_tails (h : mergeSplitSections groups inputs live = .ok m) {g : ℕ}
    {group : MergeGroup} (hg : groups[g]? = some group) (htail : group.mergesTails = true) :
    ∃ merged, m.group g = some merged ∧
      (group.alignment = 1 →
        (∀ p ∈ merged.pieces, ∀ q ∈ merged.pieces, p.bytes m.splits <:+ q.bytes m.splits →
          p.bytes m.splits = q.bytes m.splits) ∧
        (merged.pieces.map (OutputPiece.bytes m.splits)).Perm
          (maximalStrings (groupStrings inputs m.pieceBase live g)) ∧
        merged.size =
          ((maximalStrings (groupStrings inputs m.pieceBase live g)).map List.length).sum) ∧
      (∀ x ∈ allLive inputs m.pieceBase live, pieceGroup inputs x = g → ∃ piece ∈ merged.pieces,
        ∃ delta, m.pieceOutputOffset x.1 x.2 = some (piece.outputOffset + delta) ∧
          pieceBytes inputs x = (piece.bytes m.splits).drop delta ∧
          group.alignment ∣ piece.outputOffset + delta) ∧
      ∀ p o d, (links (tailLeaders inputs m.pieceBase live g) group.alignment).get p = some (o, d) →
        (links (tailLeaders inputs m.pieceBase live g) group.alignment).get o = none ∧
        group.alignment ∣ d ∧ bytesAt (tailLeaders inputs m.pieceBase live g) p =
          (bytesAt (tailLeaders inputs m.pieceBase live g) o).drop d := by
  obtain ⟨run⟩ := mergeSplitSections_run h
  have ha := checkGroups_ok run.groupsOk group (List.mem_of_getElem? hg)
  rw [run.pieceBase_eq]
  obtain ⟨merged, hmerged, hpieces, hsize⟩ := run.tails hg htail
  refine ⟨merged, hmerged, fun hone => ?_, fun x hx hgroup => run.tail_of_owner hg hmerged hx hgroup,
    fun p o d hlink => ?_⟩
  · rw [run.groupLeaders_eq, hone] at hpieces hsize
    have hperm : (merged.pieces.map (OutputPiece.bytes m.splits)).Perm
        (maximalStrings (groupStrings inputs (0 :: run.bases) live g)) := by
      rw [hpieces]
      exact tailOwners_perm run.wellBased g
    refine ⟨fun p hp q hq hsuffix => ?_, hperm, ?_⟩
    · have hmax := mem_maximalStrings.mp (hperm.mem_iff.mp (List.mem_map_of_mem hp))
      have hother := mem_maximalStrings.mp (hperm.mem_iff.mp (List.mem_map_of_mem hq))
      exact hmax.2 _ hother.1 hsuffix
    · rw [hsize, end_inSequence_one, Nat.zero_add, ← (hperm.map _).sum_eq, hpieces, List.map_map]
      rfl
  · obtain ⟨hfree, hshare⟩ := links_linked ha p o d hlink
    exact ⟨hfree, hshare.aligned, hshare.bytes⟩

/-- Two strings, one the end of the other. -/
theorem mergeSplitSections_tails_pair :
    ∃ (s : SplitSection fun _ => 0) (m : MergedSections fun _ => 0),
      splitSection _ [97, 98, 0, 98, 0] (.strings 1) 1 = .ok s ∧
      mergeSplitSections [⟨.strings 1, 1, true⟩] [⟨0, s⟩] none = .ok m ∧
      ∃ merged, m.group 0 = some merged ∧ merged.size =
        ((maximalStrings (groupStrings [⟨0, s⟩] m.pieceBase none 0)).map List.length).sum := by
  obtain ⟨s, hs⟩ : ∃ s : SplitSection fun _ => 0,
      splitSection _ [97, 98, 0, 98, 0] (.strings 1) 1 = .ok s ∧
      (mergeSplitSections [⟨.strings 1, 1, true⟩] [⟨0, s⟩] none).isOk = true := by
    refine ⟨_, rfl, ?_⟩
    simp only [mergeSplitSections, layOut, deduplicate_eq]
    decide +kernel
  obtain ⟨m, hm⟩ := exists_ok_of_isOk hs.2
  have hgroup : [(⟨.strings 1, 1, true⟩ : MergeGroup)][0]? = some ⟨.strings 1, 1, true⟩ := rfl
  obtain ⟨merged, hmerged, hone, -⟩ := mergeSplitSections_tails hm hgroup rfl
  exact ⟨s, m, hs.1, hm, merged, hmerged, (hone rfl).2.2⟩

end Whole

end Qld.Passes.Merge
