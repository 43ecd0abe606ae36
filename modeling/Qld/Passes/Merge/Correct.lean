import Mathlib.Data.UInt
import Qld.Lib.Except
import Qld.Passes.Merge.Dedup
import Qld.Passes.Merge.Place

/-!
# Merged sections hold every live piece

* `segments` — the pieces of a group with their bytes, as segments of a buffer;
* `writeLeaf_spec` — writing pieces one after the other gives the image of their segments;
* `writePieces_spec` — so does every way of cutting the list of pieces;
* `checkInputs_wellBased`, `mem_row` — what the checks and the table of members give;
* `layoutGroups_laid` — every group is laid out, and no group disturbs another;
* `followLeaders_spec` — every live piece has its leader's offset;
* `GroupOutput` — the promise about a group's output bytes;
  `mergeSplitSections_writeGroup` — **proved** for every liveness bitmap, with and without tail
  merging, and for every way of cutting the list of pieces to be written.
-/

namespace Qld.Passes.Merge

open Qld.Lib

variable {hashPiece : List UInt8 → UInt64} {splits : List (SplitSection hashPiece)}

/-- The pieces with their bytes, as segments of the output. -/
def segments (splits : List (SplitSection hashPiece)) (pieces : List OutputPiece) :
    List (ℕ × List UInt8) :=
  pieces.map fun piece => (piece.outputOffset, piece.bytes splits)

/-- The buffer after one piece of the loop: what was there before the cursor, zeros, the
piece, and what is behind it. -/
theorem leaf_step {out bytes : List UInt8} {cursor start : ℕ} (hcursor : cursor ≤ start)
    (hin : start + bytes.length ≤ out.length) :
    fillZero (overwrite out start bytes) (min cursor start) start =
      out.take cursor ++ List.replicate (start - cursor) 0 ++ bytes ++
        out.drop (start + bytes.length) := by
  have htake : (out.take start).length = start := by
    rw [List.length_take]
    omega
  have hfront : (overwrite out start bytes).take cursor = out.take cursor := by
    rw [overwrite, List.append_assoc, List.take_append_of_le_length (by omega), List.take_take,
      Nat.min_eq_left hcursor]
  have hback : (overwrite out start bytes).drop start =
      bytes ++ out.drop (start + bytes.length) := by
    rw [overwrite, List.append_assoc]
    nth_rewrite 1 [← htake]
    rw [List.drop_left]
  rw [fillZero, overwrite, Nat.min_eq_left hcursor, hfront, List.length_replicate,
    Nat.add_sub_cancel' hcursor, hback]
  simp only [List.append_assoc]

/-- **One task writes the image of its pieces.** -/
theorem writeLeaf_spec (base : ℕ) (pieces : List OutputPiece) :
    ∀ (cursor : ℕ) (out : List UInt8), cursor ≤ out.length →
      Ordered (segments splits pieces) →
      (∀ a ∈ segments splits pieces, base + cursor ≤ a.1 ∧
        a.1 + a.2.length ≤ base + out.length) →
      writeLeaf splits base pieces cursor out = out.take cursor ++
        image (segments splits pieces) (base + cursor) (out.length - cursor) := by
  induction pieces with
  | nil =>
    intro cursor out hcursor _ _
    rw [segments, List.map_nil, image_eq_replicate fun a ha => absurd ha List.not_mem_nil,
      writeLeaf, fillZero, overwrite, List.length_replicate, Nat.add_sub_cancel' hcursor,
      List.drop_length, List.append_nil]
  | cons piece rest ih =>
    intro cursor out hcursor hord hin
    obtain ⟨hafter, hord'⟩ := List.pairwise_cons.mp hord
    obtain ⟨hlow, hhigh⟩ := hin _ List.mem_cons_self
    simp only at hlow hhigh hafter
    have hstart : cursor ≤ piece.outputOffset - base := by omega
    have hfit : piece.outputOffset - base + (piece.bytes splits).length ≤ out.length := by omega
    rw [writeLeaf]
    simp only
    rw [if_pos hfit, leaf_step hstart hfit]
    have hlen : (out.take cursor ++ List.replicate (piece.outputOffset - base - cursor) 0 ++
        piece.bytes splits ++
        out.drop (piece.outputOffset - base + (piece.bytes splits).length)).length =
        out.length := by
      simp only [List.length_append, List.length_take, List.length_replicate, List.length_drop]
      omega
    have hfront : (out.take cursor ++ List.replicate (piece.outputOffset - base - cursor) 0 ++
        piece.bytes splits).length =
        piece.outputOffset - base + (piece.bytes splits).length := by
      simp only [List.length_append, List.length_take, List.length_replicate]
      omega
    rw [ih _ _ (by rw [hlen]; exact hfit) hord' ?_, hlen]
    · nth_rewrite 1 [← hfront]
      rw [List.take_left, List.append_assoc, List.append_assoc]
      congr 1
      -- The rest of the image: zeros, the piece, and what the other pieces leave.
      have hsum : out.length - cursor = (piece.outputOffset - base - cursor) +
          ((piece.bytes splits).length +
            (out.length - (piece.outputOffset - base + (piece.bytes splits).length))) := by
        omega
      have hpos : base + cursor + (piece.outputOffset - base - cursor) = piece.outputOffset := by
        omega
      rw [hsum, image_add, image_add, hpos]
      congr 1
      · rw [image_eq_replicate]
        intro a ha
        rcases List.mem_cons.mp ha with rfl | ha
        · simp only
          omega
        · have := hafter a ha
          omega
      · congr 1
        · exact (image_cons_self _ _ _).symm
        · rw [show base + (piece.outputOffset - base + (piece.bytes splits).length) =
            piece.outputOffset + (piece.bytes splits).length by omega]
          refine (image_append_right (l := [(piece.outputOffset, piece.bytes splits)]) _ ?_).symm
          intro a ha
          rw [List.mem_singleton.mp ha]
    · intro a ha
      rw [hlen]
      have hle := hafter a ha
      have hbound := (hin a (List.mem_cons_of_mem _ ha)).2
      omega

/-- The pieces before a cut end where the piece at the cut starts, and no later piece starts
before it. -/
theorem segments_cut {pieces : List OutputPiece} {mid : ℕ} (hmid : mid < pieces.length)
    (hord : Ordered (segments splits pieces)) :
    (∀ a ∈ segments splits (pieces.take mid),
      a.1 + a.2.length ≤ (pieces.get ⟨mid, hmid⟩).outputOffset) ∧
    ∀ a ∈ segments splits (pieces.drop mid), (pieces.get ⟨mid, hmid⟩).outputOffset ≤ a.1 := by
  have hdrop : pieces.drop mid = pieces.get ⟨mid, hmid⟩ :: pieces.drop (mid + 1) :=
    List.drop_eq_getElem_cons hmid
  have hcat : segments splits pieces =
      segments splits (pieces.take mid) ++ segments splits (pieces.drop mid) := by
    rw [segments, segments, segments, ← List.map_append, List.take_append_drop]
  rw [hcat] at hord
  obtain ⟨_, hright, hacross⟩ := List.pairwise_append.mp hord
  rw [hdrop] at hright hacross ⊢
  obtain ⟨hfirst, _⟩ := List.pairwise_cons.mp hright
  refine ⟨fun a ha => hacross a ha _ List.mem_cons_self, fun a ha => ?_⟩
  rcases List.mem_cons.mp ha with rfl | ha
  · exact le_rfl
  · have := hfirst a ha
    simp only at this
    omega

/-- **However the list of pieces is cut, the image of its segments is written.** -/
theorem writePieces_spec (cut : ℕ → Option ℕ) (n : ℕ) :
    ∀ (pieces : List OutputPiece) (base : ℕ) (out : List UInt8), pieces.length ≤ n →
      Ordered (segments splits pieces) →
      (∀ a ∈ segments splits pieces, base ≤ a.1 ∧ a.1 + a.2.length ≤ base + out.length) →
      writePieces splits cut pieces base out =
        image (segments splits pieces) base out.length := by
  induction n with
  | zero =>
    intro pieces base out hn hord hin
    rw [List.length_eq_zero_iff.mp (Nat.le_zero.mp hn)] at hord hin ⊢
    rw [writePieces]
    have hleaf := @writeLeaf_spec _ splits base [] 0 out (Nat.zero_le _) hord
      (by simpa using hin)
    split
    · rw [dif_neg (by simp), hleaf]
      simp
    · rw [hleaf]
      simp
  | succ n ih =>
    intro pieces base out hn hord hin
    have hleaf : writeLeaf splits base pieces 0 out =
        image (segments splits pieces) base out.length := by
      rw [writeLeaf_spec base pieces 0 out (Nat.zero_le _) hord (by simpa using hin)]
      simp
    rw [writePieces]
    split
    · next mid _ =>
      split
      · next hmid =>
        obtain ⟨hleft, hright⟩ := segments_cut hmid.2 hord
        have hcat : segments splits pieces =
            segments splits (pieces.take mid) ++ segments splits (pieces.drop mid) := by
          rw [segments, segments, segments, ← List.map_append, List.take_append_drop]
        have hmem : ((pieces.get ⟨mid, hmid.2⟩).outputOffset,
            (pieces.get ⟨mid, hmid.2⟩).bytes splits) ∈ segments splits pieces :=
          List.mem_map_of_mem (List.get_mem _ _)
        obtain ⟨hlow, hhigh⟩ := hin _ hmem
        simp only at hlow hhigh ⊢
        generalize hsplit : (pieces.get ⟨mid, hmid.2⟩).outputOffset = split at *
        have hat : min (split - base) out.length = split - base := by omega
        rw [hcat] at hord hin ⊢
        obtain ⟨hordLeft, hordRight, _⟩ := List.pairwise_append.mp hord
        have htake : (out.take (split - base)).length = split - base := by
          rw [List.length_take]
          omega
        rw [hat, ih _ base _ (by rw [List.length_take]; omega) hordLeft ?_,
          ih _ split _ (by rw [List.length_drop]; omega) hordRight ?_, htake, List.length_drop]
        · rw [show out.length = (split - base) + (out.length - (split - base)) by omega, image_add,
            image_append_left fun a ha => by have := hright a ha; omega,
            show base + (split - base) = split by omega, image_append_right _ hleft]
          congr 2
          omega
        · intro a ha
          have := hright a ha
          have hbound := (hin a (List.mem_append_right _ ha)).2
          rw [List.length_drop]
          omega
        · intro a ha
          have := hleft a ha
          have hbound := (hin a (List.mem_append_left _ ha)).1
          rw [htake]
          omega
      · exact hleaf
    · exact hleaf

variable {inputs : List (MergeInput hashPiece)} {pieceBase : List ℕ} {live : Option BitSet}
  {leader : Cells ℕ}

/-! ### The checks -/

theorem checkInputs_spec (groups : List MergeGroup) (inputs : List (MergeInput hashPiece)) :
    ∀ (index total : ℕ) (bases : List ℕ), checkInputs groups index total inputs = .ok bases →
      bases.length = inputs.length ∧
      (∀ s < inputs.length, baseOf (total :: bases) (s + 1) =
        baseOf (total :: bases) s + numPiecesOf inputs s) ∧
      ∀ input ∈ inputs, input.group < groups.length := by
  induction inputs with
  | nil =>
    intro index total bases h
    simp only [checkInputs, Except.ok.injEq] at h
    subst h
    exact ⟨rfl, fun s hs => absurd hs (Nat.not_lt_zero s),
      fun input hin => absurd hin List.not_mem_nil⟩
  | cons input inputs ih =>
    intro index total bases h
    rw [checkInputs] at h
    split at h
    · exact absurd h (by simp)
    next group hgroup =>
    split at h
    · exact absurd h (by simp)
    split at h
    · exact absurd h (by simp)
    cases hrest : checkInputs groups (index + 1) (total + input.split.numPieces) inputs with
    | error e =>
      rw [hrest] at h
      exact absurd h (by simp [bind, Except.bind])
    | ok rest =>
      rw [hrest] at h
      simp only [bind, Except.bind, Except.ok.injEq] at h
      subst h
      obtain ⟨hlen, hstep, hgroups⟩ := ih _ _ _ hrest
      refine ⟨by rw [List.length_cons, List.length_cons, hlen], ?_, ?_⟩
      · intro s hs
        cases s with
        | zero => simp [baseOf, numPiecesOf]
        | succ s =>
          have := hstep s (by simpa using hs)
          simpa [baseOf, numPiecesOf] using this
      · intro i hi
        rcases List.mem_cons.mp hi with rfl | hi
        · exact (List.getElem?_eq_some_iff.mp hgroup).1
        · exact hgroups i hi

variable {groups : List MergeGroup}

theorem checkInputs_wellBased {bases : List ℕ} (h : checkInputs groups 0 0 inputs = .ok bases) :
    WellBased inputs (0 :: bases) := by
  obtain ⟨hlen, hstep, _⟩ := checkInputs_spec groups inputs 0 0 bases h
  exact ⟨by rw [List.length_cons, hlen], rfl, hstep⟩

/-- The number of the first piece of a section: the pieces of the sections before it. -/
theorem WellBased.base_eq (h : WellBased inputs pieceBase) (s : ℕ) (hs : s ≤ inputs.length) :
    baseOf pieceBase s = ((inputs.take s).map fun input => input.split.numPieces).sum := by
  induction s with
  | zero => simpa using h.first
  | succ s ih =>
    have hget : inputs[s]? = some (inputs.get ⟨s, hs⟩) := List.getElem?_eq_getElem hs
    rw [h.step s hs, ih (by omega), List.take_add_one, hget, List.map_append, List.sum_append]
    simp [numPiecesOf, hget]

theorem checkGroups_ok (h : checkGroups groups = .ok ()) :
    ∀ group ∈ groups, group.alignment.isPowerOfTwo := by
  intro group hgroup
  unfold checkGroups at h
  split at h
  · exact absurd h (by simp)
  · next hfind =>
    obtain ⟨index, hindex⟩ := List.mem_iff_getElem?.mp hgroup
    have hmem : (group, index) ∈ groups.zipIdx := List.mem_zipIdx_iff_getElem?.mpr hindex
    have := List.find?_eq_none.mp hfind _ hmem
    simp only [Bool.or_eq_true, not_or, Bool.not_eq_true', Bool.not_eq_false] at this
    simpa using this.2

/-! ### Leaders -/

variable {s : ℕ}

variable {lead : Leader}

theorem mem_sectionLeaders :
    lead ∈ sectionLeaders inputs pieceBase leader s ↔
      ∃ i < numPiecesOf inputs s, leader.get (pieceIndex pieceBase (s, i)) =
          pieceIndex pieceBase (s, i) ∧
        lead = { piece := pieceIndex pieceBase (s, i)
                 section_ := s
                 inputOffset :=
                  ((inputs[s]?.map fun input => input.split.bounds i).getD (0, 0)).1
                 bytes := pieceBytes inputs (s, i) } := by
  simp only [sectionLeaders, List.mem_map, List.mem_filter, List.mem_range, decide_eq_true_eq,
    pieceIndex]
  constructor
  · rintro ⟨i, ⟨hi, hlead⟩, rfl⟩
    exact ⟨i, hi, hlead, rfl⟩
  · rintro ⟨i, hi, hlead, rfl⟩
    exact ⟨i, ⟨hi, hlead⟩, rfl⟩

/-- The bytes of an output piece are those of its leader. -/
theorem outputPiece_bytes (hs : s < inputs.length)
    (h : lead ∈ sectionLeaders inputs pieceBase leader s) (offset : ℕ) :
    (outputPiece lead offset).bytes (inputs.map MergeInput.split) = lead.bytes := by
  obtain ⟨i, hi, _, rfl⟩ := mem_sectionLeaders.mp h
  have hget : inputs[s]? = some (inputs.get ⟨s, hs⟩) := List.getElem?_eq_getElem hs
  simp only [numPiecesOf, hget, Option.map_some, Option.getD_some] at hi
  obtain ⟨hlt, hle⟩ := (inputs.get ⟨s, hs⟩).split.bounds_lt hi
  have hlen := (inputs.get ⟨s, hs⟩).split.length_bytesOf hi
  simp only [OutputPiece.bytes, outputPiece, Leader.len, List.getElem?_map, hget, Option.map_some,
    Option.bind_some, Option.getD_some, pieceBytes]
  rw [hlen, Nat.add_sub_cancel' hlt.le]
  rfl

/-- The leaders of the sections of a group. -/
abbrev leadersOf (inputs : List (MergeInput hashPiece)) (pieceBase : List ℕ) (leader : Cells ℕ)
    (members : List ℕ) : List Leader :=
  members.flatMap (sectionLeaders inputs pieceBase leader)

variable {members : List ℕ}

theorem nodup_leadersOf (leader : Cells ℕ) (hbase : WellBased inputs pieceBase)
    (hmem : ∀ s ∈ members, s < inputs.length) (hnodup : members.Nodup) :
    ((leadersOf inputs pieceBase leader members).map Leader.piece).Nodup := by
  rw [leadersOf, List.map_flatMap, List.nodup_flatMap]
  constructor
  · intro s hs
    rw [sectionLeaders, List.map_map]
    refine List.Nodup.map (fun i j hij => ?_) (List.nodup_range.filter _)
    simpa using hij
  · refine hnodup.imp_of_mem ?_
    intro s t hs ht hst p hps hpt
    obtain ⟨lead, hlead, rfl⟩ := List.mem_map.mp hps
    obtain ⟨lead', hlead', heq⟩ := List.mem_map.mp hpt
    obtain ⟨i, hi, _, rfl⟩ := mem_sectionLeaders.mp hlead
    obtain ⟨j, hj, _, rfl⟩ := mem_sectionLeaders.mp hlead'
    have := hbase.index_inj (x := (t, j)) (y := (s, i)) ⟨hmem t ht, hj⟩ ⟨hmem s hs, hi⟩ heq
    exact hst (congrArg Prod.fst this).symm

variable {α β : Type*}

theorem flatMap_flatMap (f : α → List β) (runs : List (List α)) :
    (runs.flatMap fun run => run.flatMap f) = runs.flatten.flatMap f := by
  induction runs with
  | nil => rfl
  | cons run runs ih => rw [List.flatMap_cons, ih, List.flatten_cons, List.flatMap_append]

variable {out out' : Cells ℕ} {merged : MergedGroup}

/-- **Every group is laid out as promised**, with and without tail merging. -/
theorem layoutGroup_laid (hbase : WellBased inputs pieceBase) {group : MergeGroup}
    (ha : group.alignment.isPowerOfTwo) (hmem : ∀ s ∈ members, s < inputs.length)
    (hnodup : members.Nodup)
    (h : layoutGroup inputs pieceBase leader group members out = .ok (merged, out')) :
    Laid group.alignment (leadersOf inputs pieceBase leader members) merged out' ∧
      ∀ i, i ∉ (leadersOf inputs pieceBase leader members).map Leader.piece →
        out'.get i = out.get i := by
  have hpieces := nodup_leadersOf leader hbase hmem hnodup
  unfold layoutGroup at h
  split at h
  · exact layoutLinked_laid ha (links_linked ha) hpieces h
  · rw [layoutGroupInRuns] at h
    have hflat : ((cutRuns (fun s => baseOf pieceBase (s + 1) - baseOf pieceBase s) members [] 0).map
        fun run => run.flatMap (sectionLeaders inputs pieceBase leader)).flatten =
        leadersOf inputs pieceBase leader members := by
      rw [← List.flatMap_def, flatMap_flatMap, cutRuns_flatten, List.nil_append]
    have hlaid := layoutRuns_laid ha (by rw [hflat]; exact hpieces) h
    rw [hflat] at hlaid
    exact hlaid

/-! ### All groups -/

/-- A layout only speaks of the offsets of its own leaders. -/
theorem Laid.congr {alignment : ℕ} {leaders : List Leader} (h : Laid alignment leaders merged out)
    (heq : ∀ i ∈ leaders.map Leader.piece, out'.get i = out.get i) :
    Laid alignment leaders merged out' where
  size_lt := h.size_lt
  pieces := h.pieces
  inside := h.inside
  ordered := h.ordered
  located lead hlead := by
    rw [heq _ (List.mem_map_of_mem hlead)]
    exact h.located lead hlead

variable {members : Csr ℕ}

theorem leadersOf_apart (hbase : WellBased inputs pieceBase)
    (hrow : ∀ g, (∀ s ∈ members.row g, s < inputs.length) ∧ (members.row g).Nodup)
    (hapart : ∀ g g' s, s ∈ members.row g → s ∈ members.row g' → g = g') {g g' i : ℕ}
    (h : i ∈ (leadersOf inputs pieceBase leader (members.row g)).map Leader.piece)
    (h' : i ∈ (leadersOf inputs pieceBase leader (members.row g')).map Leader.piece) : g = g' := by
  obtain ⟨lead, hlead, rfl⟩ := List.mem_map.mp h
  obtain ⟨lead', hlead', heq⟩ := List.mem_map.mp h'
  obtain ⟨s, hs, hlead⟩ := List.mem_flatMap.mp hlead
  obtain ⟨t, ht, hlead'⟩ := List.mem_flatMap.mp hlead'
  obtain ⟨k, hk, _, rfl⟩ := mem_sectionLeaders.mp hlead
  obtain ⟨j, hj, _, rfl⟩ := mem_sectionLeaders.mp hlead'
  have hst := hbase.index_inj (x := (t, j)) (y := (s, k))
    ⟨(hrow g').1 t ht, hj⟩ ⟨(hrow g).1 s hs, hk⟩ heq
  have hst : t = s := congrArg Prod.fst hst
  exact hapart g g' s hs (hst ▸ ht)

/-- **Laying out the groups one after the other**: each group has its turn, and none
disturbs another. -/
theorem layoutGroups_turns (hbase : WellBased inputs pieceBase)
    (hrow : ∀ g, (∀ s ∈ members.row g, s < inputs.length) ∧ (members.row g).Nodup)
    (hapart : ∀ g g' s, s ∈ members.row g → s ∈ members.row g' → g = g') (l : List (MergeGroup × ℕ))
    :
    ∀ (out out' : Cells ℕ) (merged : List MergedGroup),
      (∀ x ∈ l, x.1.alignment.isPowerOfTwo) → (l.map Prod.snd).Nodup →
      layoutGroups inputs pieceBase leader members l out = .ok (merged, out') →
      List.Forall₂ (fun x m => ∃ before after, layoutGroup inputs pieceBase leader x.1
          (members.row x.2) before = .ok (m, after) ∧
        ∀ i ∈ (leadersOf inputs pieceBase leader (members.row x.2)).map Leader.piece,
          out'.get i = after.get i) l merged ∧
      ∀ i, (∀ x ∈ l, i ∉ (leadersOf inputs pieceBase leader (members.row x.2)).map Leader.piece) →
        out'.get i = out.get i := by
  induction l with
  | nil =>
    intro out out' merged _ _ h
    simp only [layoutGroups, Except.ok.injEq, Prod.mk.injEq] at h
    obtain ⟨rfl, rfl⟩ := h
    exact ⟨List.Forall₂.nil, fun _ _ => rfl⟩
  | cons x l ih =>
    intro out out' merged ha hnodup h
    obtain ⟨group, g⟩ := x
    rw [List.map_cons, List.nodup_cons] at hnodup
    rw [layoutGroups] at h
    cases hfirst : layoutGroup inputs pieceBase leader group (members.row g) out with
    | error e =>
      rw [hfirst] at h
      exact absurd h (by simp [bind, Except.bind])
    | ok first =>
      obtain ⟨m, mid⟩ := first
      rw [hfirst] at h
      simp only [bind, Except.bind] at h
      cases hrest : layoutGroups inputs pieceBase leader members l mid with
      | error e =>
        rw [hrest] at h
        exact absurd h (by simp)
      | ok rest =>
        obtain ⟨ms, last⟩ := rest
        rw [hrest] at h
        simp only [Except.ok.injEq, Prod.mk.injEq] at h
        obtain ⟨rfl, rfl⟩ := h
        obtain ⟨-, hframe⟩ := layoutGroup_laid hbase (ha _ List.mem_cons_self) (hrow g).1
          (hrow g).2 hfirst
        obtain ⟨hrests, hframes⟩ := ih mid last ms
          (fun y hy => ha y (List.mem_cons_of_mem _ hy)) hnodup.2 hrest
        refine ⟨List.Forall₂.cons ⟨out, mid, hfirst, fun i hi => hframes i fun y hy hmem => ?_⟩
          hrests, fun i hi => ?_⟩
        · have hgroup : y.2 = g := leadersOf_apart hbase hrow hapart hmem hi
          have hmem : y.2 ∈ l.map Prod.snd := List.mem_map_of_mem hy
          rw [hgroup] at hmem
          exact hnodup.1 hmem
        · rw [hframes i fun y hy => hi y (List.mem_cons_of_mem _ hy),
            hframe i (hi _ List.mem_cons_self)]

/-- Every piece that is not a leader takes its leader's offset. -/
theorem followLeaders_spec (leader out : Cells ℕ)
    (hlead : ∀ i, leader.get i ≠ DEAD_LEADER → leader.get (leader.get i) = leader.get i) (n : ℕ) :
    ∀ i, (followLeaders leader n out).get i =
      if i < n ∧ leader.get i ≠ DEAD_LEADER then out.get (leader.get i) else out.get i := by
  induction n with
  | zero => intro i; rfl
  | succ n ih =>
    have hstep : followLeaders leader (n + 1) out =
        if leader.get n ≠ DEAD_LEADER ∧ leader.get n ≠ n then
          (followLeaders leader n out).set n ((followLeaders leader n out).get (leader.get n))
        else followLeaders leader n out := by
      rw [followLeaders, List.range_succ, List.foldl_append]
      rfl
    have hother : ∀ i, i ≠ n →
        (if i < n ∧ leader.get i ≠ DEAD_LEADER then out.get (leader.get i) else out.get i) =
        if i < n + 1 ∧ leader.get i ≠ DEAD_LEADER then out.get (leader.get i) else out.get i := by
      intro i hi
      have hlt : i < n ↔ i < n + 1 := by omega
      simp only [hlt]
    intro i
    rw [hstep]
    split
    · next hcond =>
      rw [Cells.get_set]
      split
      · next hi =>
        subst hi
        rw [if_pos ⟨Nat.lt_succ_self i, hcond.1⟩, ih, hlead i hcond.1]
        split <;> rfl
      · next hi => rw [ih i, hother i hi]
    · next hcond =>
      rw [ih i]
      by_cases hi : i = n
      · subst hi
        by_cases hdead : leader.get i = DEAD_LEADER
        · rw [if_neg (by simp [hdead]), if_neg (by simp [hdead])]
        · have hself : leader.get i = i := by
            by_contra hne
            exact hcond ⟨hdead, hne⟩
          rw [if_neg (by omega), if_pos ⟨Nat.lt_succ_self i, hdead⟩, hself]
      · exact hother i hi

/-! ### The whole pass -/

/-- The sections of each group. -/
def membersOf (groups : List MergeGroup) (inputs : List (MergeInput hashPiece)) : CsrBuilder ℕ :=
  ⟨groups.length, inputs.zipIdx.map fun (input, index) => (input.group, index)⟩

/-- What a successful merge computed. -/
structure MergeRun (groups : List MergeGroup) (inputs : List (MergeInput hashPiece))
    (live : Option BitSet) (m : MergedSections hashPiece) where
  bases : List ℕ
  members : Csr ℕ
  out : Cells ℕ
  groupsOk : checkGroups groups = .ok ()
  basesOk : checkInputs groups 0 0 inputs = .ok bases
  total_lt : baseOf (0 :: bases) inputs.length < DEAD_LEADER
  membersOk : (membersOf groups inputs).build = .ok members
  layoutOk : layoutGroups inputs (0 :: bases) (deduplicate inputs (0 :: bases) live) members
    groups.zipIdx (Cells.const DEAD_OFFSET) = .ok (m.groups, out)
  splits_eq : m.splits = inputs.map MergeInput.split
  pieceBase_eq : m.pieceBase = 0 :: bases
  outputOffset_eq : m.outputOffset = (followLeaders (deduplicate inputs (0 :: bases) live)
    (baseOf (0 :: bases) inputs.length) out).toList (baseOf (0 :: bases) inputs.length)

/-- A sequence of steps that succeeds: its first step did. -/
theorem bind_ok {ε α β : Type} {x : Except ε α} {f : α → Except ε β} {b : β}
    (h : (x >>= f) = .ok b) : ∃ a, x = .ok a ∧ f a = .ok b := by
  cases x with
  | error e => exact absurd h (by simp [bind, Except.bind])
  | ok a => exact ⟨a, rfl, h⟩

theorem mergeSplitSections_run {m : MergedSections hashPiece}
    (h : mergeSplitSections groups inputs live = .ok m) :
    Nonempty (MergeRun groups inputs live m) := by
  unfold mergeSplitSections layOut at h
  obtain ⟨result, hlay, h⟩ := bind_ok h
  obtain ⟨_, hgroups, hlay⟩ := bind_ok hlay
  split at hlay
  · exact absurd hlay (by simp [throw, throwThe, MonadExceptOf.throw, bind, Except.bind])
  obtain ⟨bases, hbases, hlay⟩ := bind_ok hlay
  simp only at hlay
  split at hlay
  · exact absurd hlay (by simp [throw, throwThe, MonadExceptOf.throw, bind, Except.bind])
  next htotal =>
  obtain ⟨_, _, hlay⟩ := bind_ok hlay
  obtain ⟨members, hmembers, hlay⟩ := bind_ok hlay
  obtain ⟨⟨merged, out⟩, hlayout, hlay⟩ := bind_ok hlay
  simp only [pure, Except.pure, Except.ok.injEq] at hlay h
  subst hlay
  subst h
  exact ⟨{
    bases := bases
    members := members
    out := out
    groupsOk := hgroups
    basesOk := hbases
    total_lt := Nat.not_le.mp htotal
    membersOk := hmembers
    layoutOk := hlayout
    splits_eq := rfl
    pieceBase_eq := rfl
    outputOffset_eq := rfl }⟩

theorem mem_row (h : (membersOf groups inputs).build = .ok members) (g s : ℕ) :
    s ∈ members.row g ↔ ∃ input, inputs[s]? = some input ∧ input.group = g := by
  rw [CsrBuilder.row_build h]
  simp only [membersOf, List.mem_map, List.mem_filter, beq_iff_eq]
  constructor
  · rintro ⟨_, ⟨⟨⟨input, index⟩, hmem, rfl⟩, hgroup⟩, rfl⟩
    exact ⟨input, List.mem_zipIdx_iff_getElem?.mp hmem, hgroup⟩
  · rintro ⟨input, hget, rfl⟩
    exact ⟨_, ⟨⟨(input, s), List.mem_zipIdx_iff_getElem?.mpr hget, rfl⟩, rfl⟩, rfl⟩

theorem nodup_row (h : (membersOf groups inputs).build = .ok members) (g : ℕ) :
    (members.row g).Nodup := by
  rw [CsrBuilder.row_build h]
  have hsnd : ((membersOf groups inputs).pairs.map Prod.snd) = List.range inputs.length := by
    rw [membersOf, List.map_map, List.range_eq_range', ← List.zipIdx_map_snd]
    rfl
  refine List.Nodup.sublist (List.filter_sublist.map _) ?_
  rw [hsnd]
  exact List.nodup_range

theorem forall₂_getElem? {R : α → β → Prop} {l : List α} {m : List β} (h : List.Forall₂ R l m) :
    ∀ (i : ℕ) (x : α), l[i]? = some x → ∃ y, m[i]? = some y ∧ R x y := by
  induction h with
  | nil => intro i x hx; exact absurd hx (by simp)
  | cons hab _ ih =>
    intro i x hx
    cases i with
    | zero =>
      rw [List.getElem?_cons_zero, Option.some.injEq] at hx
      exact ⟨_, List.getElem?_cons_zero, hx ▸ hab⟩
    | succ i => exact ih i x (by simpa using hx)

section Run

variable {groups : List MergeGroup} {m : MergedSections hashPiece}

namespace MergeRun

variable (run : MergeRun groups inputs live m)

/-- The leaders of the run. -/
abbrev leaders : Cells ℕ := deduplicate inputs (0 :: run.bases) live

/-- The leaders of a group. -/
abbrev groupLeaders (g : ℕ) : List Leader :=
  leadersOf inputs (0 :: run.bases) run.leaders (run.members.row g)

theorem wellBased : WellBased inputs (0 :: run.bases) := checkInputs_wellBased run.basesOk

theorem mem_groupLeaders {g : ℕ} {lead : Leader} (h : lead ∈ run.groupLeaders g) :
    ∃ s < inputs.length, lead ∈ sectionLeaders inputs (0 :: run.bases) run.leaders s := by
  obtain ⟨s, hs, hlead⟩ := List.mem_flatMap.mp h
  obtain ⟨input, hget, _⟩ := (mem_row run.membersOk g s).mp hs
  exact ⟨s, (List.getElem?_eq_some_iff.mp hget).1, hlead⟩

theorem row_lt (g : ℕ) : (∀ s ∈ run.members.row g, s < inputs.length) ∧
    (run.members.row g).Nodup := by
  refine ⟨fun s hs => ?_, nodup_row run.membersOk g⟩
  obtain ⟨input, hget, _⟩ := (mem_row run.membersOk g s).mp hs
  exact (List.getElem?_eq_some_iff.mp hget).1

theorem row_apart (g g' s : ℕ) (hg : s ∈ run.members.row g) (hg' : s ∈ run.members.row g') :
    g = g' := by
  obtain ⟨input, hget, rfl⟩ := (mem_row run.membersOk g s).mp hg
  obtain ⟨input', hget', rfl⟩ := (mem_row run.membersOk g' s).mp hg'
  rw [hget, Option.some.injEq] at hget'
  rw [hget']

/-- Every group has its turn, and only leaders have offsets after that. -/
theorem turns : (∀ (g : ℕ) (group : MergeGroup), groups[g]? = some group → ∃ mg,
      m.groups[g]? = some mg ∧ ∃ before after, layoutGroup inputs (0 :: run.bases) run.leaders group
        (run.members.row g) before = .ok (mg, after) ∧
        ∀ i ∈ (run.groupLeaders g).map Leader.piece, run.out.get i = after.get i) ∧
    ∀ i, run.leaders.get i ≠ i → run.out.get i = DEAD_OFFSET := by
  obtain ⟨hturns, hframe⟩ := layoutGroups_turns run.wellBased run.row_lt run.row_apart groups.zipIdx
    _ _ _ (fun x hx => checkGroups_ok run.groupsOk x.1 (List.fst_mem_of_mem_zipIdx hx))
    (by rw [List.zipIdx_map_snd]; exact List.nodup_range') run.layoutOk
  refine ⟨fun g group hg => ?_, fun i hi => ?_⟩
  · refine forall₂_getElem? hturns g (group, g) ?_
    rw [List.getElem?_zipIdx, hg]
    simp
  · rw [hframe i fun x _ hmem => ?_, Cells.get_const]
    obtain ⟨lead, hlead, rfl⟩ := List.mem_map.mp hmem
    obtain ⟨s, _, hlead⟩ := run.mem_groupLeaders hlead
    obtain ⟨j, _, hself, rfl⟩ := mem_sectionLeaders.mp hlead
    exact hi hself

theorem laid {g : ℕ} {group : MergeGroup} (hg : groups[g]? = some group) :
    ∃ mg, m.groups[g]? = some mg ∧ Laid group.alignment (run.groupLeaders g) mg run.out := by
  obtain ⟨mg, hmg, before, after, hlayout, hkept⟩ := run.turns.1 g group hg
  have ha := checkGroups_ok run.groupsOk group (List.mem_of_getElem? hg)
  exact ⟨mg, hmg, (layoutGroup_laid run.wellBased ha (run.row_lt g).1 (run.row_lt g).2
    hlayout).1.congr hkept⟩

theorem leads : Leads inputs (0 :: run.bases) live run.leaders := deduplicate_leads run.wellBased

theorem offset_eq (x : ℕ × ℕ) (hx : IsPiece inputs x) :
    m.outputOffset[pieceIndex (0 :: run.bases) x]? =
      some (if run.leaders.get (pieceIndex (0 :: run.bases) x) ≠ DEAD_LEADER then
        run.out.get (run.leaders.get (pieceIndex (0 :: run.bases) x))
      else run.out.get (pieceIndex (0 :: run.bases) x)) := by
  have hlt := run.wellBased.index_lt_total hx
  have hlead : ∀ i, run.leaders.get i ≠ DEAD_LEADER →
      run.leaders.get (run.leaders.get i) = run.leaders.get i := by
    intro i hi
    by_contra hne
    refine hi (run.leads.dead i fun y hy heq => hne ?_)
    obtain ⟨z, _, hz, hself, _⟩ := run.leads.follows y hy
    rw [← heq, hz, hself]
  rw [run.outputOffset_eq, Cells.toList, List.getElem?_map, List.getElem?_range hlt,
    Option.map_some, followLeaders_spec _ _ hlead]
  simp only [hlt, true_and]

theorem pieceBase_getElem? {s : ℕ} (hs : s ≤ inputs.length) :
    m.pieceBase[s]? = some (baseOf (0 :: run.bases) s) := by
  have hlt : s < (0 :: run.bases).length := by
    rw [run.wellBased.length]
    omega
  rw [run.pieceBase_eq, baseOf, List.getElem?_eq_getElem hlt]
  rfl

theorem pieceOutputOffset_eq {x : ℕ × ℕ} (hx : IsPiece inputs x) :
    m.pieceOutputOffset x.1 x.2 = (m.outputOffset[pieceIndex (0 :: run.bases) x]?).filter
      fun offset => offset != DEAD_OFFSET := by
  have hlt := run.wellBased.index_lt hx
  rw [pieceIndex] at hlt ⊢
  simp only [MergedSections.pieceOutputOffset, run.pieceBase_getElem? hx.1.le,
    run.pieceBase_getElem? (show x.1 + 1 ≤ inputs.length from hx.1), bind, Option.bind_some,
    if_pos hlt]

theorem pieceOutputOffset_dead {x : ℕ × ℕ} (hx : IsPiece inputs x)
    (hdead : ¬ IsLive (0 :: run.bases) live x) : m.pieceOutputOffset x.1 x.2 = none := by
  have hlt := run.wellBased.index_lt_total hx
  have hlead : run.leaders.get (pieceIndex (0 :: run.bases) x) = DEAD_LEADER := by
    refine run.leads.dead _ fun y hy heq => hdead ?_
    obtain ⟨hypiece, hylive⟩ := mem_allLive.mp hy
    rw [← run.wellBased.index_inj hypiece hx heq]
    exact hylive
  have hne : run.leaders.get (pieceIndex (0 :: run.bases) x) ≠ pieceIndex (0 :: run.bases) x := by
    have := run.total_lt
    rw [hlead]
    omega
  rw [run.pieceOutputOffset_eq hx, run.offset_eq x hx, if_neg (by simp [hlead]),
    run.turns.2 _ hne]
  rfl

/-- The leader of a live piece is a leader of its group, with its bytes. -/
theorem exists_leader {x : ℕ × ℕ} (hx : IsPiece inputs x) (hlive : IsLive (0 :: run.bases) live x) :
    ∃ lead ∈ run.groupLeaders (pieceGroup inputs x), lead.bytes = pieceBytes inputs x ∧
      m.outputOffset[pieceIndex (0 :: run.bases) x]? = some (run.out.get lead.piece) := by
  obtain ⟨y, hy, hlead, hself, hgroup, hbytes⟩ := run.leads.follows x (mem_allLive.mpr ⟨hx, hlive⟩)
  have hypiece := (mem_allLive.mp hy).1
  have hlt := run.wellBased.index_lt_total hypiece
  have hne : run.leaders.get (pieceIndex (0 :: run.bases) x) ≠ DEAD_LEADER := by
    have := run.total_lt
    rw [hlead]
    omega
  have hget : inputs[y.1]? = some (inputs.get ⟨y.1, hypiece.1⟩) :=
    List.getElem?_eq_getElem hypiece.1
  have hmember : y.1 ∈ run.members.row (pieceGroup inputs x) := by
    refine (mem_row run.membersOk _ _).mpr ⟨_, hget, ?_⟩
    rw [← hgroup, pieceGroup, hget]
  refine ⟨_, List.mem_flatMap.mpr ⟨y.1, hmember,
    mem_sectionLeaders.mpr ⟨y.2, hypiece.2, hself, rfl⟩⟩, hbytes, ?_⟩
  rw [run.offset_eq x hx, if_pos hne, hlead]

end MergeRun

end Run

/-- Whether a piece is live: bit `p` after the pieces of the sections before `s` is set, or there
is no bitmap. -/
def liveBit (inputs : List (MergeInput hashPiece)) (live : Option BitSet) (s p : ℕ) : Bool :=
  live.all fun live =>
    live.get (((inputs.take s).map fun input => input.split.numPieces).sum + p)

theorem isLive_iff (hbase : WellBased inputs pieceBase) {p : ℕ} (hs : s ≤ inputs.length) :
    IsLive pieceBase live (s, p) ↔ liveBit inputs live s p = true := by
  rw [IsLive, pieceIndex, hbase.base_eq s hs]
  rfl

/-! ### The promise about the output -/

/-- What the bytes of a group promise: every live piece is there at an aligned offset, dead
pieces have no offset, the storage-owning pieces ascend without overlap, all else is zero, and
an input offset of a live piece is mapped to the same byte. -/
structure GroupOutput (inputs : List (MergeInput hashPiece)) (live : Option BitSet)
    (m : MergedSections hashPiece) (g alignment : ℕ) (merged : MergedGroup)
    (bytes : List UInt8) : Prop where
  livePiece : ∀ (s : ℕ) (input : MergeInput hashPiece) (p : ℕ), inputs[s]? = some input →
    input.group = g → p < input.split.numPieces → liveBit inputs live s p = true →
    ∃ o, m.pieceOutputOffset s p = some o ∧ alignment ∣ o ∧
      o + (input.split.bytesOf p).length ≤ merged.size ∧
      (bytes.drop o).take (input.split.bytesOf p).length = input.split.bytesOf p
  deadPiece : ∀ (s : ℕ) (input : MergeInput hashPiece) (p : ℕ), inputs[s]? = some input →
    p < input.split.numPieces → liveBit inputs live s p = false → m.pieceOutputOffset s p = none
  ascending : merged.pieces.Pairwise fun a b =>
    a.outputOffset < b.outputOffset ∧ a.outputOffset + a.len ≤ b.outputOffset
  zero : ∀ q < bytes.length, (∀ piece ∈ merged.pieces,
    ¬ (piece.outputOffset ≤ q ∧ q < piece.outputOffset + piece.len)) → bytes[q]? = some 0
  mapped : ∀ (s : ℕ) (input : MergeInput hashPiece) (offset key : ℕ) (cell : ℕ × ℕ),
    inputs[s]? = some input → input.group = g → offset < input.split.data.length →
    (∀ p, input.split.At offset p → liveBit inputs live s p = true) →
    ∃ o, m.outputOffsetAt key cell s offset = some o ∧ bytes[o]? = input.split.data[offset]?

section Output

variable {groups : List MergeGroup} {m : MergedSections hashPiece}
  (run : MergeRun groups inputs live m)

/-- The segments of a group, and the bytes of its pieces. -/
theorem MergeRun.segments_spec {g alignment : ℕ} {merged : MergedGroup}
    (hlaid : Laid alignment (run.groupLeaders g) merged run.out) :
    (∀ piece ∈ merged.pieces, (piece.bytes m.splits).length = piece.len ∧ 0 < piece.len) ∧
    Ordered (segments m.splits merged.pieces) := by
  have hlen : ∀ piece ∈ merged.pieces,
      (piece.bytes m.splits).length = piece.len ∧ 0 < piece.len := by
    intro piece hpiece
    obtain ⟨lead, hlead, heq⟩ := hlaid.pieces piece hpiece
    obtain ⟨s, hs, hlead⟩ := run.mem_groupLeaders hlead
    rw [heq, run.splits_eq, outputPiece_bytes hs hlead]
    refine ⟨rfl, ?_⟩
    obtain ⟨i, hi, _, rfl⟩ := mem_sectionLeaders.mp hlead
    have hget : inputs[s]? = some (inputs.get ⟨s, hs⟩) := List.getElem?_eq_getElem hs
    simp only [numPiecesOf, hget, Option.map_some, Option.getD_some] at hi
    have hbounds := (inputs.get ⟨s, hs⟩).split.bounds_lt hi
    have hbytes := (inputs.get ⟨s, hs⟩).split.length_bytesOf hi
    show 0 < (pieceBytes inputs (s, i)).length
    simp only [pieceBytes, hget]
    omega
  refine ⟨hlen, List.pairwise_map.mpr (hlaid.ordered.imp_of_mem ?_)⟩
  intro a b ha _ hab
  show a.outputOffset + (a.bytes m.splits).length ≤ b.outputOffset
  rw [(hlen a ha).1]
  exact hab

theorem MergeRun.livePiece {g : ℕ} {group : MergeGroup} {merged : MergedGroup}
    (hlaid : Laid group.alignment (run.groupLeaders g) merged run.out) {n : ℕ}
    (hn : merged.size ≤ n) {s p : ℕ} {input : MergeInput hashPiece}
    (hs : inputs[s]? = some input) (hg : input.group = g) (hp : p < input.split.numPieces)
    (hlive : liveBit inputs live s p = true) :
    ∃ o, m.pieceOutputOffset s p = some o ∧ group.alignment ∣ o ∧
      o + (input.split.bytesOf p).length ≤ merged.size ∧
      ((image (segments m.splits merged.pieces) 0 n).drop o).take
        (input.split.bytesOf p).length = input.split.bytesOf p := by
  have hlt : s < inputs.length := (List.getElem?_eq_some_iff.mp hs).1
  have hx : IsPiece inputs (s, p) := ⟨hlt, by simpa [numPiecesOf, hs] using hp⟩
  have hgroup : pieceGroup inputs (s, p) = g := by simp only [pieceGroup, hs, hg]
  have hbytes : pieceBytes inputs (s, p) = input.split.bytesOf p := by simp only [pieceBytes, hs]
  obtain ⟨lead, hlead, hleadBytes, hoffset⟩ :=
    run.exists_leader hx ((isLive_iff run.wellBased hlt.le).mpr hlive)
  rw [hgroup] at hlead
  rw [hbytes] at hleadBytes
  obtain ⟨owner, howner, start, delta, hmem, hout, hdvd, hlen, hdrop⟩ := hlaid.located lead hlead
  have hinside : start + owner.bytes.length ≤ merged.size := hlaid.inside _ hmem
  obtain ⟨t, ht, hownerSection⟩ := run.mem_groupLeaders howner
  have hseg : (start, owner.bytes) ∈ segments m.splits merged.pieces := by
    refine List.mem_map.mpr ⟨_, hmem, ?_⟩
    rw [run.splits_eq, outputPiece_bytes ht hownerSection]
    rfl
  have hpos : 0 < (input.split.bytesOf p).length := by
    have := input.split.bounds_lt hp
    rw [input.split.length_bytesOf hp]
    omega
  have hsize := hlaid.size_lt
  rw [← hleadBytes] at hpos ⊢
  refine ⟨start + delta, ?_, hdvd, by omega, ?_⟩
  · have hne : (start + delta != DEAD_OFFSET) = true := by
      rw [bne_iff_ne, DEAD_OFFSET]
      omega
    have hpo := run.pieceOutputOffset_eq hx
    simp only at hpo
    rw [hpo, hoffset, hout, Option.filter_some, if_pos hne]
  · rw [image_slice (run.segments_spec hlaid).2 hseg (by simp only; omega) (by simp only; omega)]
    simp only
    rw [← hdrop, List.take_length]

/-- **The bytes that `write_group` produces (proved).**  For every successful merge, every group
and every output buffer that is large enough, however the list of pieces is cut. -/
theorem mergeSplitSections_writeGroup {groups : List MergeGroup}
    {inputs : List (MergeInput hashPiece)} {live : Option BitSet} {m : MergedSections hashPiece}
    (h : mergeSplitSections groups inputs live = .ok m) {g : ℕ} {group : MergeGroup}
    (hg : groups[g]? = some group) :
    ∃ merged, m.group g = some merged ∧
      ∀ (cut : ℕ → Option ℕ) (out : List UInt8), merged.size ≤ out.length →
        ∃ bytes, m.writeGroup cut g out = .ok bytes ∧ bytes.length = out.length ∧
          GroupOutput inputs live m g group.alignment merged bytes := by
  obtain ⟨run⟩ := mergeSplitSections_run h
  obtain ⟨merged, hmerged, hlaid⟩ := run.laid hg
  obtain ⟨hlen, hordered⟩ := run.segments_spec hlaid
  refine ⟨merged, hmerged, fun cut out hout => ?_⟩
  have hwrite : writePieces m.splits cut merged.pieces 0 out =
      image (segments m.splits merged.pieces) 0 out.length := by
    refine writePieces_spec cut _ merged.pieces 0 out le_rfl hordered fun a ha => ?_
    obtain ⟨piece, hpiece, rfl⟩ := List.mem_map.mp ha
    have hinside := hlaid.inside piece hpiece
    have hpl := (hlen piece hpiece).1
    simp only
    omega
  refine ⟨image (segments m.splits merged.pieces) 0 out.length, ?_, length_image _ _ _, ?_⟩
  · simp only [MergedSections.writeGroup, hmerged]
    rw [if_neg (by omega), hwrite]
  · constructor
    · intro s input p hs hgroup hp hlive
      exact run.livePiece hlaid hout hs hgroup hp hlive
    · intro s input p hs hp hdead
      have hlt : s < inputs.length := (List.getElem?_eq_some_iff.mp hs).1
      refine run.pieceOutputOffset_dead (x := (s, p)) ⟨hlt, by simpa [numPiecesOf, hs] using hp⟩ ?_
      rw [isLive_iff run.wellBased hlt.le, hdead]
      decide
    · refine hlaid.ordered.imp_of_mem ?_
      intro a b ha _ hab
      have hpos := (hlen a ha).2
      exact ⟨by omega, hab⟩
    · intro q hq hfree
      rw [length_image] at hq
      rw [getElem?_image _ 0 hq, Nat.zero_add, byteAt_eq_zero]
      intro a ha hcover
      obtain ⟨piece, hpiece, rfl⟩ := List.mem_map.mp ha
      refine hfree piece hpiece ?_
      simp only [(hlen piece hpiece).1] at hcover
      exact hcover
    · intro s input offset key cell hs hgroup hoffset hlive
      obtain ⟨p, ⟨hp, hlow, hhigh⟩, hpieceAt⟩ := input.split.pieceAt_spec key cell hoffset
      obtain ⟨o, ho, _, hsize, hbytes⟩ :=
        run.livePiece hlaid hout hs hgroup hp (hlive p ⟨hp, hlow, hhigh⟩)
      have hlength := input.split.length_bytesOf hp
      have hsizeLt := hlaid.size_lt
      refine ⟨o + (offset - (input.split.bounds p).1), ?_, ?_⟩
      · have hsplit : m.splits[s]? = some input.split := by
          rw [run.splits_eq, List.getElem?_map, hs]
          rfl
        simp only [MergedSections.outputOffsetAt, MergedSections.pieceAt, hsplit, bind,
          Option.bind_some, hpieceAt, ho, checkedAdd]
        rw [if_pos (by omega)]
      · have hget := congrArg (fun l => l[offset - (input.split.bounds p).1]?) hbytes
        rw [List.getElem?_take, if_pos (by omega), List.getElem?_drop] at hget
        rw [hget, input.split.bytesOf_eq hp, List.getElem?_take, if_pos (by omega),
          List.getElem?_drop]
        congr 1
        omega

/-- Two strings, one the end of the other, with a hash that does not tell them apart by more
than their length. -/
theorem mergeSplitSections_writeGroup_suffix :
    ∃ (s : SplitSection fun bytes => UInt64.ofNat bytes.length)
      (m : MergedSections fun bytes => UInt64.ofNat bytes.length),
      splitSection _ [97, 98, 0, 98, 0] (.strings 1) 1 = .ok s ∧
      mergeSplitSections [⟨.strings 1, 1, true⟩] [⟨0, s⟩] none = .ok m ∧
      ∃ merged, m.group 0 = some merged ∧
        ∀ (cut : ℕ → Option ℕ) (out : List UInt8), merged.size ≤ out.length →
          ∃ bytes, m.writeGroup cut 0 out = .ok bytes ∧ bytes.length = out.length ∧
            GroupOutput [⟨0, s⟩] none m 0 1 merged bytes := by
  obtain ⟨s, hs⟩ : ∃ s : SplitSection fun bytes => UInt64.ofNat bytes.length,
      splitSection _ [97, 98, 0, 98, 0] (.strings 1) 1 = .ok s ∧
      (mergeSplitSections [⟨.strings 1, 1, true⟩] [⟨0, s⟩] none).isOk = true := by
    refine ⟨_, rfl, ?_⟩
    simp only [mergeSplitSections, layOut, deduplicate_eq]
    decide +kernel
  obtain ⟨m, hm⟩ := exists_ok_of_isOk hs.2
  have hgroup : [(⟨.strings 1, 1, true⟩ : MergeGroup)][0]? = some ⟨.strings 1, 1, true⟩ := rfl
  exact ⟨s, m, hs.1, hm, mergeSplitSections_writeGroup hm hgroup⟩

end Output

end Qld.Passes.Merge
