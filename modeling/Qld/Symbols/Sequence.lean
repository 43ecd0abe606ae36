import Qld.Lib.BitRank
import Qld.Lib.Partition
import Qld.Symbols.Table

/-!
# The names of a batch, laid end to end

`Sequence` of `symbols/table/partition.rs`: the names of the jobs of a batch in position order,
as segments, and the walk over a range of them.

* `Sequence.name`, `Sequence.items` — one name, and the names of a range with their indices;
* `Sequence.items_eq` — a range of the sequence is a range of the names laid end to
  end, wherever the segments are cut and however many of them are empty;
* `splitOutputs` — the places of the IDs, cut at the chunks; `splitOutputs_flatten` — **proved**.
-/

namespace Qld.Symbols

open Qld.Lib

/-- A batch's names in first-occurrence order: segments laid end to end. -/
structure Sequence where
  segments : List (List SymbolName)
  /-- Where each segment starts, and the length of the sequence. -/
  starts : List ℕ

namespace Sequence

def new (segments : List (List SymbolName)) : Sequence :=
  ⟨segments, (segments.map List.length).scanl (· + ·) 0⟩

def len (seq : Sequence) : ℕ := seq.starts.getD seq.segments.length 0

/-- The segment holding name `g`: the last that starts at or before it. -/
def segmentOf (seq : Sequence) (g : ℕ) : ℕ :=
  partitionPoint (fun start => decide (start ≤ g)) (seq.starts.take seq.segments.length) - 1

/-- Name `g` of the sequence. -/
def name (seq : Sequence) (g : ℕ) : SymbolName :=
  let k := seq.segmentOf g
  (seq.segments.getD k []).getD (g - seq.starts.getD k 0) ⟨[], none⟩

/-- The names of a range, from the segments that are left. -/
def itemsFrom : List (List SymbolName × ℕ) → ℕ → ℕ → List (ℕ × SymbolName)
  | [], _, _ => []
  | (segment, start) :: rest, g, stop =>
    if g < stop then
      let next := min (start + segment.length) stop
      ((((segment.drop (g - start)).take (next - g)).zipIdx g).map Prod.swap) ++
        itemsFrom rest next stop
    else []

/-- The calls of `for_each`: the names of a range with their indices, in order. -/
def items (seq : Sequence) (start stop : ℕ) : List (ℕ × SymbolName) :=
  if stop ≤ start then []
  else itemsFrom ((seq.segments.zip seq.starts).drop (seq.segmentOf start)) start stop

end Sequence

/-! ### Reading the sequence -/

/-- The names with their indices. -/
def enumNames (xs : List SymbolName) : List (ℕ × SymbolName) := xs.zipIdx.map Prod.swap

@[simp] theorem enumNames_length (xs : List SymbolName) : (enumNames xs).length = xs.length := by
  simp [enumNames]

theorem enumNames_getElem? (xs : List SymbolName) (g : ℕ) :
    (enumNames xs)[g]? = xs[g]?.map fun n => (g, n) := by
  rw [enumNames, List.getElem?_map, List.getElem?_zipIdx, Option.map_map, Nat.zero_add]
  rfl

theorem enumNames_append (xs ys : List SymbolName) :
    enumNames (xs ++ ys) = enumNames xs ++ (ys.zipIdx xs.length).map Prod.swap := by
  rw [enumNames, List.zipIdx_append, List.map_append, Nat.zero_add]
  rfl

namespace Sequence

/-- The start of a segment is the number of names before it. -/
theorem starts_getD (segments : List (List SymbolName)) {k : ℕ} (hk : k ≤ segments.length) :
    (new segments).starts.getD k 0 = (segments.take k).flatten.length := by
  rw [new, scanl_add_getD _ _ _ (by simpa using hk), Nat.zero_add, ← List.map_take, List.length_flatten]

theorem len_new (segments : List (List SymbolName)) :
    (new segments).len = segments.flatten.length := by
  rw [len, show (new segments).segments = segments from rfl, starts_getD segments le_rfl,
    List.take_length]

theorem exists_segment (segments : List (List SymbolName)) {g : ℕ}
    (hg : g < segments.flatten.length) :
    ∃ k < segments.length, (segments.take k).flatten.length ≤ g ∧
      g < (segments.take (k + 1)).flatten.length := by
  induction segments generalizing g with
  | nil => exact absurd hg (Nat.not_lt_zero g)
  | cons segment segments ih =>
    rw [List.flatten_cons, List.length_append] at hg
    by_cases hlt : g < segment.length
    · exact ⟨0, by simp, by simp, by simpa using hlt⟩
    · obtain ⟨k, hk, hle, hgt⟩ := ih (show g - segment.length < _ by omega)
      refine ⟨k + 1, by simpa using hk, ?_, ?_⟩
      · rw [List.take_succ_cons, List.flatten_cons, List.length_append]
        omega
      · rw [List.take_succ_cons, List.flatten_cons, List.length_append]
        omega

theorem flatten_take_mono (segments : List (List SymbolName)) {i k : ℕ} (h : i ≤ k) :
    (segments.take i).flatten.length ≤ (segments.take k).flatten.length := by
  have htake : segments.take i = (segments.take k).take i := by
    rw [List.take_take, min_eq_left h]
  rw [htake]
  conv_rhs => rw [← List.take_append_drop i (segments.take k), List.flatten_append,
    List.length_append]
  exact Nat.le_add_right _ _

/-- **The segment of a name.** -/
theorem segmentOf_eq (segments : List (List SymbolName)) {g k : ℕ} (hk : k < segments.length)
    (hle : (segments.take k).flatten.length ≤ g)
    (hgt : g < (segments.take (k + 1)).flatten.length) : (new segments).segmentOf g = k := by
  have hget : ∀ i < segments.length, ((new segments).starts.take segments.length)[i]? =
      some (segments.take i).flatten.length := by
    intro i hi
    have hlen : i < (new segments).starts.length := by
      simp [new]
      omega
    rw [List.getElem?_take_of_lt hi, List.getElem?_eq_getElem hlen, ← starts_getD segments hi.le,
      List.getD_eq_getElem _ 0 hlen]
  have hpoint : partitionPoint (fun start => decide (start ≤ g))
      ((new segments).starts.take segments.length) = k + 1 := by
    apply partitionPoint_eq
    · intro i hi
      refine ⟨_, hget i (by omega), decide_eq_true ?_⟩
      exact (flatten_take_mono segments (by omega)).trans hle
    · intro x hx
      have hlt : k + 1 < segments.length := by
        by_contra hnot
        rw [List.getElem?_eq_none (by rw [List.length_take]; omega)] at hx
        exact absurd hx (by simp)
      rw [hget _ hlt, Option.some.injEq] at hx
      exact decide_eq_false (by omega)
  rw [segmentOf, show (new segments).segments = segments from rfl, hpoint, Nat.add_sub_cancel]

/-- **Name `g`.** -/
theorem name_eq (segments : List (List SymbolName)) {g : ℕ} {n : SymbolName}
    (hn : segments.flatten[g]? = some n) : (new segments).name g = n := by
  have hg := (List.getElem?_eq_some_iff.mp hn).1
  obtain ⟨k, hk, hle, hgt⟩ := exists_segment segments hg
  simp only [name]
  rw [segmentOf_eq segments hk hle hgt, show (new segments).segments = segments from rfl,
    starts_getD segments hk.le]
  have hsplit : segments.flatten =
      (segments.take k).flatten ++ (segments[k] ++ (segments.drop (k + 1)).flatten) := by
    rw [← List.flatten_cons, ← List.drop_eq_getElem_cons hk, ← List.flatten_append,
      List.take_append_drop]
  have hlen : (segments.take (k + 1)).flatten.length =
      (segments.take k).flatten.length + segments[k].length := by
    rw [List.take_add_one, List.getElem?_eq_getElem hk, List.flatten_append, List.length_append]
    simp
  rw [hsplit, List.getElem?_append_right hle, List.getElem?_append_left (by omega)] at hn
  rw [List.getD_eq_getElem _ [] hk, List.getD_eq_getElem?_getD, hn, Option.getD_some]

/-- Walking on from a segment that holds `g`, or ends there. -/
theorem itemsFrom_eq (segments : List (List SymbolName)) : ∀ (offset g stop : ℕ), offset ≤ g →
    (∀ first ∈ segments.head?, g ≤ offset + first.length) →
    stop ≤ offset + segments.flatten.length →
    itemsFrom (segments.zip ((segments.map List.length).scanl (· + ·) offset)) g stop =
      ((((segments.flatten.drop (g - offset)).take (stop - g)).zipIdx g).map Prod.swap) := by
  induction segments with
  | nil =>
    intro offset g stop hle _ hstop
    rw [List.flatten_nil, List.length_nil] at hstop
    simp [itemsFrom]
  | cons segment segments ih =>
    intro offset g stop hle hfirst hstop
    have hgle := hfirst segment rfl
    rw [List.flatten_cons, List.length_append] at hstop
    rw [List.map_cons, List.scanl_cons, List.zip_cons_cons, itemsFrom]
    by_cases hlt : g < stop
    · rw [if_pos hlt]
      dsimp only
      have hdrop : (segment ++ segments.flatten).drop (g - offset) =
          segment.drop (g - offset) ++ segments.flatten := by
        rw [List.drop_append_of_le_length (by omega)]
      rw [List.flatten_cons, hdrop, List.take_append, List.zipIdx_append, List.map_append,
        List.length_drop]
      rcases Nat.le_total stop (offset + segment.length) with hend | hend
      · -- The range ends in this segment.
        have hnone : itemsFrom (segments.zip ((segments.map List.length).scanl (· + ·)
            (offset + segment.length))) stop stop = [] := by
          cases segments with
          | nil => rfl
          | cons other segments =>
            rw [List.map_cons, List.scanl_cons, List.zip_cons_cons, itemsFrom,
              if_neg (Nat.lt_irrefl _)]
        rw [min_eq_right hend, hnone, show stop - g - (segment.length - (g - offset)) = 0 by omega,
          List.take_zero]
        rfl
      · rw [min_eq_left hend, ih (offset + segment.length) (offset + segment.length) stop le_rfl
          (fun other _ => by omega) (by omega), Nat.sub_self, List.drop_zero]
        have hall : (segment.drop (g - offset)).take (stop - g) = segment.drop (g - offset) :=
          List.take_of_length_le (by rw [List.length_drop]; omega)
        have hall' : (segment.drop (g - offset)).take (offset + segment.length - g) =
            segment.drop (g - offset) :=
          List.take_of_length_le (by rw [List.length_drop]; omega)
        rw [hall, hall', List.length_drop,
          show stop - g - (segment.length - (g - offset)) = stop - (offset + segment.length) by
            omega,
          show g + (segment.length - (g - offset)) = offset + segment.length by omega]
    · rw [if_neg hlt, show stop - g = 0 by omega, List.take_zero]
      rfl

/-- **A range of the sequence.** -/
theorem items_eq (segments : List (List SymbolName)) {start stop : ℕ}
    (hstop : stop ≤ segments.flatten.length) :
    (new segments).items start stop =
      ((enumNames segments.flatten).drop start).take (stop - start) := by
  have hslice : ∀ xs : List SymbolName, (((xs.drop start).take (stop - start)).zipIdx start).map
      Prod.swap = ((enumNames xs).drop start).take (stop - start) := by
    intro xs
    apply List.ext_getElem?
    intro i
    rw [List.getElem?_map, List.getElem?_zipIdx, Option.map_map, List.getElem?_take,
      List.getElem?_take, List.getElem?_drop, List.getElem?_drop, enumNames_getElem?]
    split
    · rfl
    · rfl
  rw [items]
  split
  · next h => rw [show stop - start = 0 by omega, List.take_zero]
  · next h =>
    obtain ⟨k, hk, hle, hgt⟩ := exists_segment segments (show start < _ by omega)
    have hlen : (segments.take (k + 1)).flatten.length =
        (segments.take k).flatten.length + segments[k].length := by
      rw [List.take_add_one, List.getElem?_eq_getElem hk, List.flatten_append, List.length_append]
      simp
    have htotal : segments.flatten.length =
        (segments.take k).flatten.length + (segments.drop k).flatten.length := by
      rw [← List.length_append, ← List.flatten_append, List.take_append_drop]
    have hzip : ((new segments).segments.zip (new segments).starts).drop k =
        (segments.drop k).zip (((segments.drop k).map List.length).scanl (· + ·)
          (segments.take k).flatten.length) := by
      rw [new, List.zip, List.drop_zipWith, drop_scanl_add _ _ _ (by simpa using hk.le), Nat.zero_add,
        List.length_flatten, List.map_drop, List.map_take]
    rw [segmentOf_eq segments hk hle hgt, hzip, itemsFrom_eq _ _ _ _ hle]
    · rw [← hslice]
      congr 3
      have hsplit : segments.flatten = (segments.take k).flatten ++ (segments.drop k).flatten := by
        rw [← List.flatten_append, List.take_append_drop]
      rw [hsplit, List.drop_append, List.drop_of_length_le hle, List.nil_append]
    · intro first hfirst
      rw [List.head?_drop, List.getElem?_eq_getElem hk] at hfirst
      rw [Option.mem_some_iff.mp hfirst] at hlen
      omega
    · omega

end Sequence

/-! ### Chunks -/

/-- The size of a chunk: chunks own whole bitmap words. -/
structure ChunkSize where
  size : ℕ
  pos : 0 < size
  dvd : 64 ∣ size

/-- Chunk `c` of a list. -/
def chunkOf {α : Type*} (xs : List α) (chunk c : ℕ) : List α :=
  (xs.drop (c * chunk)).take (min ((c + 1) * chunk) xs.length - c * chunk)

theorem flatten_chunks {α : Type*} (xs : List α) (chunk : ℕ) : ∀ c : ℕ,
    ((List.range c).map (chunkOf xs chunk)).flatten = xs.take (c * chunk) := by
  intro c
  induction c with
  | zero => simp
  | succ c ih =>
    rw [List.range_succ, List.map_append, List.flatten_append, ih, List.map_singleton,
      List.flatten_singleton, Nat.succ_mul, List.take_add]
    congr 1
    rw [chunkOf, Nat.succ_mul]
    rcases Nat.le_total (c * chunk + chunk) xs.length with h | h
    · rw [min_eq_left h, Nat.add_sub_cancel_left]
    · rw [min_eq_right h, List.take_of_length_le (by rw [List.length_drop]),
        List.take_of_length_le (by rw [List.length_drop]; omega)]

/-- Cuts one output at multiples of `chunk`, from index `g` of the sequence on. -/
def splitOutput {α : Type*} (chunk : ℕ) :
    ℕ → List (List (List α)) → ℕ → List α → List (List (List α)) × ℕ
  | 0, pieces, g, _ => (pieces, g)
  | fuel + 1, pieces, g, rest =>
    if rest.isEmpty then (pieces, g)
    else
      let c := g / chunk
      let take := min ((c + 1) * chunk - g) rest.length
      splitOutput chunk fuel (pieces.modify c (· ++ [rest.take take])) (g + take) (rest.drop take)

/-- Cuts the outputs, laid end to end, at multiples of `chunk`; an output of `n` places takes
at most `n` cuts. -/
def splitOutputs {α : Type*} (outputs : List (List α)) (chunk chunks : ℕ) :
    List (List (List α)) :=
  (outputs.foldl (fun state output => splitOutput chunk output.length state.1 state.2 output)
    (List.replicate chunks [], 0)).1

section SplitOutputs

variable {α : Type*}

/-- The pieces hold the first `g` places, each chunk its own. -/
def Cut (places : List α) (chunk : ℕ) (pieces : List (List (List α))) (g : ℕ) : Prop :=
  ∀ c < pieces.length, (pieces.getD c []).flatten = chunkOf (places.take g) chunk c

/-- More places for the chunk that holds the next one. -/
theorem chunkOf_append (xs ys : List α) {chunk : ℕ} (hpos : 0 < chunk)
    (hys : xs.length + ys.length ≤ (xs.length / chunk + 1) * chunk) (c : ℕ) :
    chunkOf (xs ++ ys) chunk c =
      if c = xs.length / chunk then chunkOf xs chunk c ++ ys else chunkOf xs chunk c := by
  have hdiv : xs.length / chunk * chunk ≤ xs.length := Nat.div_mul_le_self _ _
  have hmod : xs.length < (xs.length / chunk + 1) * chunk := by
    rw [Nat.succ_mul]
    exact Nat.lt_div_mul_add hpos
  unfold chunkOf
  rw [List.length_append]
  rcases Nat.lt_trichotomy c (xs.length / chunk) with h | h | h
  · -- An earlier chunk is complete.
    have hc : (c + 1) * chunk ≤ xs.length / chunk * chunk := Nat.mul_le_mul_right _ h
    have hc' : c * chunk ≤ (c + 1) * chunk := Nat.mul_le_mul_right _ (Nat.le_succ c)
    rw [if_neg (by omega), min_eq_left (by omega), min_eq_left (by omega),
      List.drop_append_of_le_length (by omega), List.take_append_of_le_length
        (by rw [List.length_drop]; omega)]
  · subst h
    rw [if_pos rfl, min_eq_right hys, min_eq_right (by omega),
      List.drop_append_of_le_length hdiv, List.take_of_length_le
        (by rw [List.length_append, List.length_drop]; omega),
      List.take_of_length_le (by rw [List.length_drop])]
  · -- A later chunk is still empty.
    have hc : (xs.length / chunk + 1) * chunk ≤ c * chunk := Nat.mul_le_mul_right _ h
    rw [if_neg (by omega), show min ((c + 1) * chunk) (xs.length + ys.length) - c * chunk = 0 by
      omega, show min ((c + 1) * chunk) xs.length - c * chunk = 0 by omega, List.take_zero,
      List.take_zero]

theorem splitOutput_cut {places : List α} {chunk : ℕ} (hpos : 0 < chunk) (fuel : ℕ) :
    ∀ (pieces : List (List (List α))) (rest after done : List α),
      places = done ++ rest ++ after → rest.length ≤ fuel →
      places.length ≤ pieces.length * chunk →
      Cut places chunk pieces done.length →
      (splitOutput chunk fuel pieces done.length rest).1.length = pieces.length ∧
        (splitOutput chunk fuel pieces done.length rest).2 = done.length + rest.length ∧
        Cut places chunk (splitOutput chunk fuel pieces done.length rest).1
          (done.length + rest.length) := by
  induction fuel with
  | zero =>
    intro pieces rest after done _ hfuel _ hcut
    have hnil : rest = [] := List.length_eq_zero_iff.mp (by omega)
    rw [splitOutput, hnil, List.length_nil, Nat.add_zero]
    exact ⟨rfl, rfl, hcut⟩
  | succ fuel ih =>
    intro pieces rest after done hplaces hfuel hroom hcut
    rw [splitOutput]
    by_cases hnil : rest = []
    · rw [hnil, List.isEmpty_nil, if_pos rfl, List.length_nil, Nat.add_zero]
      exact ⟨rfl, rfl, hcut⟩
    · have hmod : done.length < (done.length / chunk + 1) * chunk := by
        rw [Nat.succ_mul]
        exact Nat.lt_div_mul_add hpos
      have hlen : 0 < rest.length := List.length_pos_iff.mpr hnil
      rw [if_neg (by simpa using hnil)]
      dsimp only
      obtain ⟨take, htake⟩ : ∃ take,
          take = min ((done.length / chunk + 1) * chunk - done.length) rest.length := ⟨_, rfl⟩
      rw [← htake]
      have hsplit : places = (done ++ rest.take take) ++ rest.drop take ++ after := by
        rw [hplaces, List.append_assoc done (rest.take take), List.take_append_drop]
      have hdone : (done ++ rest.take take).length = done.length + take := by
        rw [List.length_append, List.length_take]
        omega
      have hnext := ih (pieces.modify (done.length / chunk) (· ++ [rest.take take]))
        (rest.drop take) after (done ++ rest.take take) hsplit
        (by rw [List.length_drop]; omega) (by rw [List.length_modify]; exact hroom) (by
          intro c hc
          rw [List.length_modify] at hc
          have htake' : places.take (done ++ rest.take take).length = done ++ rest.take take := by
            rw [hsplit, List.append_assoc, List.take_left]
          have hold : places.take done.length = done := by
            rw [hplaces, List.append_assoc, List.take_left]
          rw [htake', chunkOf_append done (rest.take take) hpos
            (by rw [List.length_take]; omega), ← hold, ← hcut c hc, hold,
            List.getD_eq_getElem?_getD, List.getElem?_modify, List.getElem?_eq_getElem hc,
            List.getD_eq_getElem _ [] hc]
          by_cases hcd : done.length / chunk = c
          · simp [hcd]
          · simp [hcd, Ne.symm hcd])
      rw [hdone, List.length_modify, List.length_drop,
        show done.length + take + (rest.length - take) = done.length + rest.length by omega]
        at hnext
      exact hnext

/-- **The pieces of a chunk are its places.** -/
theorem splitOutputs_flatten (outputs : List (List α)) {chunk chunks : ℕ} (hpos : 0 < chunk)
    (hroom : outputs.flatten.length ≤ chunks * chunk) :
    (splitOutputs outputs chunk chunks).length = chunks ∧ ∀ c < chunks,
      ((splitOutputs outputs chunk chunks).getD c []).flatten =
        chunkOf outputs.flatten chunk c := by
  have hfold : ∀ (rest done : List (List α)) (state : List (List (List α)) × ℕ),
      outputs = done ++ rest → state.1.length = chunks → state.2 = done.flatten.length →
      Cut outputs.flatten chunk state.1 state.2 →
      (rest.foldl (fun state output => splitOutput chunk output.length state.1 state.2 output)
          state).1.length = chunks ∧
        Cut outputs.flatten chunk
          (rest.foldl (fun state output => splitOutput chunk output.length state.1 state.2 output)
            state).1 outputs.flatten.length := by
    intro rest
    induction rest with
    | nil =>
      intro done state hdone hlen hg hcut
      rw [List.append_nil] at hdone
      rw [hg, ← hdone] at hcut
      exact ⟨hlen, hcut⟩
    | cons output rest ih =>
      intro done state hdone hlen hg hcut
      rw [List.foldl_cons]
      rw [hg] at hcut
      have hplaces : outputs.flatten = done.flatten ++ output ++ rest.flatten := by
        rw [hdone, List.flatten_append, List.flatten_cons, List.append_assoc]
      obtain ⟨h1, h2, h3⟩ := splitOutput_cut hpos output.length state.1 output rest.flatten
        done.flatten hplaces le_rfl (by rw [hlen]; exact hroom) hcut
      refine ih (done ++ [output]) _ (by rw [hdone]; simp) ?_ ?_ ?_
      · rw [hg, h1, hlen]
      · rw [hg, h2]
        simp
      · rw [hg, h2]
        exact h3
  have hstart : Cut outputs.flatten chunk (List.replicate chunks []) 0 := by
    intro c hc
    rw [List.length_replicate] at hc
    rw [List.getD_eq_getElem?_getD, List.getElem?_replicate, if_pos hc, List.take_zero]
    simp [chunkOf]
  obtain ⟨hlen, hcut⟩ := hfold outputs [] (List.replicate chunks [], 0) rfl
    (List.length_replicate ..) rfl hstart
  refine ⟨hlen, fun c hc => ?_⟩
  rw [splitOutputs, hcut c (by rw [hlen]; exact hc), List.take_length]

end SplitOutputs

end Qld.Symbols
