import Mathlib.Data.List.Basic
import Mathlib.Data.Nat.ModEq

/-!
# Segments of a buffer

A buffer described by segments of bytes at given offsets, zero elsewhere.

* `byteAt segs p` — the byte at `p`; `image segs base n` — the `n` bytes from `base` on;
* `Ordered` — the segments ascend and do not overlap; `byteAt_of_mem` and `byteAt_eq_zero`
  read a buffer of ordered segments;
* `overwrite` — replacing part of a buffer, the one step a writer takes;
* `stores` — bytes at consecutive addresses of a memory that wraps around;
* `Tiles` — runs that follow one another; `tiles_countP` — each position lies in one of them;
* `Ascend` — runs in order, with room between them; `gap_countP` — of runs of two kinds that follow
  one another, a position outside the first kind lies in one of the second.
-/

namespace Qld.Lib

variable {β : Type*}

theorem drop_eq_cons {l rest : List β} {a : β} {i : ℕ} (h : l.drop i = a :: rest) :
    l[i]? = some a ∧ l.drop (i + 1) = rest := by
  rw [← List.head?_drop, ← List.tail_drop, h]
  exact ⟨rfl, rfl⟩

/-! ### Writing -/

/-- `buf` with the bytes from `start` on replaced. -/
def overwrite (buf : List β) (start : ℕ) (bytes : List β) : List β :=
  buf.take start ++ bytes ++ buf.drop (start + bytes.length)

variable {start top base stop p n : ℕ} {bytes : List β}

@[simp] theorem length_overwrite {buf : List β} (h : start + bytes.length ≤ buf.length) :
    (overwrite buf start bytes).length = buf.length := by
  simp only [overwrite, List.length_append, List.length_take, List.length_drop]
  omega

theorem getElem?_overwrite {buf : List β} (h : start + bytes.length ≤ buf.length) (p : ℕ) :
    (overwrite buf start bytes)[p]? =
      if start ≤ p ∧ p < start + bytes.length then bytes[p - start]? else buf[p]? := by
  have htake : (buf.take start).length = start := by
    rw [List.length_take]
    omega
  rw [overwrite, List.append_assoc, List.getElem?_append, htake]
  by_cases hp : p < start
  · rw [if_pos hp, if_neg (by omega), List.getElem?_take, if_pos hp]
  · rw [if_neg hp, List.getElem?_append]
    by_cases hq : p - start < bytes.length
    · rw [if_pos hq, if_pos (by omega)]
    · rw [if_neg hq, if_neg (by omega), List.getElem?_drop]
      congr 1
      omega

/-! ### Stores -/

/-- Bytes stored one after the other from `base` on, in a memory of `top` addresses. -/
def stores (top : ℕ) : ℕ → List β → List (ℕ × β)
  | _, [] => []
  | base, b :: bytes => (base % top, b) :: stores top (base + 1) bytes

@[simp] theorem stores_nil (top base : ℕ) : stores top base ([] : List β) = [] := rfl

theorem stores_append (top base : ℕ) (xs ys : List β) :
    stores top base (xs ++ ys) = stores top base xs ++ stores top (base + xs.length) ys := by
  induction xs generalizing base with
  | nil => rfl
  | cons x xs ih =>
    rw [List.cons_append, stores, stores, ih, List.length_cons, List.cons_append, Nat.add_assoc,
      Nat.add_comm 1]

/-- The base counts only up to the size of the memory. -/
theorem stores_congr {base' : ℕ} (h : base % top = base' % top) (bytes : List β) :
    stores top base bytes = stores top base' bytes := by
  induction bytes generalizing base base' with
  | nil => rfl
  | cons b bytes ih => rw [stores, stores, h, ih (Nat.ModEq.add_right 1 h)]

theorem mem_stores {a : ℕ × β} :
    a ∈ stores top base bytes ↔ ∃ i, bytes[i]? = some a.2 ∧ a.1 = (base + i) % top := by
  induction bytes generalizing base with
  | nil => simp
  | cons b bytes ih =>
    rw [stores, List.mem_cons, ih]
    refine ⟨?_, ?_⟩
    · rintro (rfl | ⟨i, hi, ha⟩)
      · exact ⟨0, rfl, rfl⟩
      · exact ⟨i + 1, hi, by rw [ha, Nat.add_assoc, Nat.add_comm 1]⟩
    · rintro ⟨_ | i, hi, ha⟩
      · left
        rw [List.getElem?_cons_zero, Option.some_inj] at hi
        rw [hi, ← Nat.add_zero base, ← ha]
      · exact .inr ⟨i, hi, by rw [ha, Nat.add_assoc, Nat.add_comm 1]⟩

theorem stores_of_le {top' : ℕ} (bytes : List β) :
    ∀ base, base + bytes.length ≤ top → base + bytes.length ≤ top' →
      stores top base bytes = stores top' base bytes := by
  induction bytes with
  | nil => exact fun _ _ _ => rfl
  | cons b bytes ih =>
    intro base h h'
    rw [List.length_cons] at h h'
    rw [stores, stores, ih _ (by omega) (by omega), Nat.mod_eq_of_lt (by omega),
      Nat.mod_eq_of_lt (by omega)]

theorem map_stores_mod {top' : ℕ} (h : top' ∣ top) (base : ℕ) (bytes : List β) :
    (stores top base bytes).map (fun a => (a.1 % top', a.2)) = stores top' base bytes := by
  induction bytes generalizing base with
  | nil => rfl
  | cons b bytes ih => rw [stores, List.map_cons, ih, stores, Nat.mod_mod_of_dvd _ h]

/-! ### Runs -/

/-- Runs that follow one another from `start` to `stop`. -/
def Tiles : ℕ → ℕ → List (ℕ × ℕ) → Prop
  | start, stop, [] => start = stop
  | start, stop, run :: rest => run.1 = start ∧ Tiles (start + run.2) stop rest

theorem tiles_filter (l : List (ℕ × ℕ)) :
    ∀ start, Tiles start stop l → Tiles start stop (l.filter fun run => run.2 ≠ 0) := by
  induction l with
  | nil => exact fun _ h => h
  | cons run l ih =>
    rintro start ⟨hrun, hrest⟩
    by_cases hzero : run.2 = 0
    · rw [List.filter_cons_of_neg (by simpa using hzero)]
      rw [hzero, Nat.add_zero] at hrest
      exact ih start hrest
    · rw [List.filter_cons_of_pos (by simpa using hzero)]
      exact ⟨hrun, ih _ hrest⟩

theorem tiles_le (l : List (ℕ × ℕ)) :
    ∀ start, Tiles start stop l → start ≤ stop ∧ ∀ run ∈ l, run.1 + run.2 ≤ stop := by
  induction l with
  | nil => exact fun start h => ⟨Nat.le_of_eq h, fun run hrun => absurd hrun List.not_mem_nil⟩
  | cons run l ih =>
    rintro start ⟨rfl, hrest⟩
    obtain ⟨hle, hall⟩ := ih _ hrest
    exact ⟨by omega, List.forall_mem_cons.mpr ⟨hle, hall⟩⟩

theorem tiles_ge (l : List (ℕ × ℕ)) :
    ∀ start, Tiles start stop l → ∀ run ∈ l, start ≤ run.1 := by
  induction l with
  | nil => exact fun start h run hrun => absurd hrun List.not_mem_nil
  | cons run l ih =>
    rintro start ⟨rfl, hrest⟩
    refine List.forall_mem_cons.mpr ⟨Nat.le_refl _, fun other hother => ?_⟩
    exact (Nat.le_add_right _ _).trans (ih _ hrest other hother)

theorem tiles_concat (n : ℕ) (l : List (ℕ × ℕ)) :
    Tiles start stop l → Tiles start (stop + n) (l ++ [(stop, n)]) := by
  induction l generalizing start with
  | nil =>
    rintro rfl
    exact ⟨rfl, rfl⟩
  | cons run l ih => exact fun h => ⟨h.1, ih h.2⟩

/-- **Each position lies in exactly one run.** -/
theorem tiles_countP (l : List (ℕ × ℕ)) :
    ∀ start, Tiles start stop l → start ≤ p → p < stop →
      l.countP (fun run => decide (run.1 ≤ p ∧ p < run.1 + run.2)) = 1 := by
  induction l with
  | nil =>
    rintro start rfl hle hlt
    exact absurd hle (Nat.not_le_of_lt hlt)
  | cons run l ih =>
    rintro start ⟨rfl, hrest⟩ hle hlt
    by_cases hp : p < run.1 + run.2
    · have hnone : l.countP (fun run => decide (run.1 ≤ p ∧ p < run.1 + run.2)) = 0 := by
        refine List.countP_eq_zero.mpr fun other hother => ?_
        have := tiles_ge l _ hrest other hother
        rw [decide_eq_true_eq]
        omega
      rw [List.countP_cons_of_pos (by exact decide_eq_true ⟨hle, hp⟩), hnone]
    · rw [List.countP_cons_of_neg (by rw [decide_eq_true_eq]; omega)]
      exact ih _ hrest (by omega) hlt

/-- Runs in order between `start` and `stop`, with room between them. -/
def Ascend : ℕ → ℕ → List (ℕ × ℕ) → Prop
  | start, stop, [] => start ≤ stop
  | start, stop, run :: rest => start ≤ run.1 ∧ Ascend (run.1 + run.2) stop rest

namespace Ascend

variable {start start' stop stop' : ℕ} {l l' : List (ℕ × ℕ)}

theorem mono (h : Ascend start stop l) (hstart : start' ≤ start) (hstop : stop ≤ stop') :
    Ascend start' stop' l := by
  induction l generalizing start start' with
  | nil => exact (hstart.trans h).trans hstop
  | cons run l ih => exact ⟨hstart.trans h.1, ih h.2 (Nat.le_refl _)⟩

theorem concat {a : ℕ} (h : Ascend start a l) (n : ℕ) : Ascend start (a + n) (l ++ [(a, n)]) := by
  induction l generalizing start with
  | nil => exact ⟨h, Nat.le_refl _⟩
  | cons run l ih => exact ⟨h.1, ih h.2⟩

theorem le (h : Ascend start stop l) : start ≤ stop := by
  induction l generalizing start with
  | nil => exact h
  | cons run l ih => exact (h.1.trans (Nat.le_add_right _ _)).trans (ih h.2)

theorem mem (h : Ascend start stop l) {run : ℕ × ℕ} (hrun : run ∈ l) :
    start ≤ run.1 ∧ run.1 + run.2 ≤ stop := by
  induction l generalizing start with
  | nil => exact absurd hrun List.not_mem_nil
  | cons first l ih =>
    obtain rfl | hrun := List.mem_cons.mp hrun
    · exact ⟨h.1, h.2.le⟩
    · have hmem := ih h.2 hrun
      exact ⟨(h.1.trans (Nat.le_add_right _ _)).trans hmem.1, hmem.2⟩

theorem pairwise (h : Ascend start stop l) : l.Pairwise fun a b => a.1 + a.2 ≤ b.1 := by
  induction l generalizing start with
  | nil => exact List.Pairwise.nil
  | cons run l ih => exact List.pairwise_cons.mpr ⟨fun b hb => (h.2.mem hb).1, ih h.2⟩

end Ascend

/-- **A position outside the runs of one kind is in one run of the other.** -/
theorem gap_countP {α : Type} {run : α → ℕ × ℕ} (kind : α → Bool) {l : List α}
    (h : Tiles 0 stop (l.map run)) (hp : p < stop)
    (hgap : ∀ a ∈ l, kind a = false → ¬((run a).1 ≤ p ∧ p < (run a).1 + (run a).2)) :
    ((l.filter kind).map run).countP (fun r => decide (r.1 ≤ p ∧ p < r.1 + r.2)) = 1 := by
  have hone := tiles_countP (p := p) _ 0 h (Nat.zero_le _) hp
  rw [List.countP_map, List.countP_eq_length_filter] at hone ⊢
  rw [List.filter_filter]
  refine Eq.trans (congrArg List.length (List.filter_congr fun a ha => ?_)) hone
  cases hkind : kind a with
  | true => exact Bool.and_true _
  | false =>
    rw [Bool.and_false]
    exact (decide_eq_false (hgap a ha hkind)).symm

/-! ### Reading -/

variable [Zero β]

/-- The byte at position `p`: that of the first segment that covers it, or zero. -/
def byteAt : List (ℕ × List β) → ℕ → β
  | [], _ => 0
  | (start, bytes) :: segs, p =>
    if start ≤ p ∧ p < start + bytes.length then bytes.getD (p - start) 0 else byteAt segs p

theorem byteAt_nil (p : ℕ) : byteAt ([] : List (ℕ × List β)) p = 0 := rfl

theorem byteAt_cons (a : ℕ × List β) (segs : List (ℕ × List β)) (p : ℕ) :
    byteAt (a :: segs) p =
      if a.1 ≤ p ∧ p < a.1 + a.2.length then a.2.getD (p - a.1) 0 else byteAt segs p := rfl

/-- The `n` bytes from position `base` on. -/
def image (segs : List (ℕ × List β)) (base n : ℕ) : List β :=
  (List.range' base n).map (byteAt segs)

/-- The segments ascend and do not overlap. -/
def Ordered (segs : List (ℕ × List β)) : Prop :=
  segs.Pairwise fun a b => a.1 + a.2.length ≤ b.1

@[simp] theorem length_image (segs : List (ℕ × List β)) (base n : ℕ) :
    (image segs base n).length = n := by
  simp [image]

theorem image_add (segs : List (ℕ × List β)) (base m n : ℕ) :
    image segs base (m + n) = image segs base m ++ image segs (base + m) n := by
  rw [image, ← List.range'_append_1, List.map_append, image, image]

variable {segs : List (ℕ × List β)}

theorem image_congr {segs' : List (ℕ × List β)}
    (h : ∀ p, base ≤ p → p < base + n → byteAt segs p = byteAt segs' p) :
    image segs base n = image segs' base n := by
  refine List.map_congr_left fun p hp => ?_
  obtain ⟨hle, hlt⟩ := List.mem_range'_1.mp hp
  exact h p hle hlt

theorem getElem?_image (segs : List (ℕ × List β)) (base : ℕ) (hp : p < n) :
    (image segs base n)[p]? = some (byteAt segs (base + p)) := by
  rw [image, List.getElem?_map, List.getElem?_range' hp]
  simp

theorem byteAt_eq_zero (segs : List (ℕ × List β)) (p : ℕ) :
    (∀ a ∈ segs, ¬ (a.1 ≤ p ∧ p < a.1 + a.2.length)) → byteAt segs p = 0 := by
  induction segs with
  | nil => intro _; rfl
  | cons a segs ih =>
    intro h
    rw [byteAt_cons, if_neg (h a List.mem_cons_self)]
    exact ih fun b hb => h b (List.mem_cons_of_mem _ hb)

/-- A position holds the byte of a segment that covers it, or zero. -/
theorem byteAt_cases (segs : List (ℕ × List β)) (p : ℕ) :
    (∃ a ∈ segs, a.1 ≤ p ∧ a.2[p - a.1]? = some (byteAt segs p)) ∨
      (byteAt segs p = 0 ∧ ∀ a ∈ segs, ¬ (a.1 ≤ p ∧ p < a.1 + a.2.length)) := by
  induction segs with
  | nil => exact .inr ⟨rfl, fun a ha => absurd ha List.not_mem_nil⟩
  | cons a segs ih =>
    rw [byteAt_cons]
    split
    · next h =>
      refine .inl ⟨a, List.mem_cons_self, h.1, ?_⟩
      have hlt : p - a.1 < a.2.length := by omega
      rw [List.getD_eq_getElem?_getD, List.getElem?_eq_getElem hlt, Option.getD_some]
    · next h =>
      rcases ih with ⟨a, ha, hle, hbyte⟩ | ⟨hzero, hnone⟩
      · exact .inl ⟨a, List.mem_cons_of_mem _ ha, hle, hbyte⟩
      · refine .inr ⟨hzero, fun a ha => ?_⟩
        rcases List.mem_cons.mp ha with rfl | ha
        · exact h
        · exact hnone a ha

theorem overwrite_image (h : start + bytes.length ≤ n) :
    overwrite (image segs 0 n) start bytes = image ((start, bytes) :: segs) 0 n := by
  have hlen : start + bytes.length ≤ (image segs 0 n).length := by
    rw [length_image]
    exact h
  apply List.ext_getElem?
  intro k
  rw [getElem?_overwrite hlen]
  by_cases hk : k < n
  · rw [getElem?_image _ _ hk, getElem?_image _ _ hk, byteAt_cons, Nat.zero_add]
    split
    · next hin =>
      rw [List.getD_eq_getElem?_getD, List.getElem?_eq_getElem (by omega), Option.getD_some]
    · rfl
  · rw [if_neg (by omega), List.getElem?_eq_none (by rw [length_image]; omega),
      List.getElem?_eq_none (by rw [length_image]; omega)]

theorem byteAt_append_left (l r : List (ℕ × List β)) (p : ℕ) (h : ∀ a ∈ r, p < a.1) :
    byteAt (l ++ r) p = byteAt l p := by
  induction l with
  | nil =>
    rw [List.nil_append, byteAt_nil, byteAt_eq_zero]
    intro a ha hp
    have := h a ha
    omega
  | cons a l ih => rw [List.cons_append, byteAt_cons, byteAt_cons, ih]

theorem byteAt_append_right (l r : List (ℕ × List β)) (p : ℕ)
    (h : ∀ a ∈ l, a.1 + a.2.length ≤ p) : byteAt (l ++ r) p = byteAt r p := by
  induction l with
  | nil => rfl
  | cons a l ih =>
    have ha := h a List.mem_cons_self
    rw [List.cons_append, byteAt_cons, if_neg (by omega)]
    exact ih fun b hb => h b (List.mem_cons_of_mem _ hb)

/-- A position covered by one of several ordered segments holds its byte. -/
theorem byteAt_of_mem (segs : List (ℕ × List β)) : Ordered segs → ∀ (a : ℕ × List β), a ∈ segs →
    ∀ i, i < a.2.length → byteAt segs (a.1 + i) = a.2.getD i 0 := by
  induction segs with
  | nil => intro _ a ha; exact absurd ha List.not_mem_nil
  | cons b segs ih =>
    intro hord a ha i hi
    obtain ⟨hb, hord⟩ := List.pairwise_cons.mp hord
    rw [byteAt_cons]
    rcases List.mem_cons.mp ha with hab | ha
    · rw [hab, if_pos (by rw [hab] at hi; omega)]
      congr 1
      omega
    · have := hb a ha
      rw [if_neg (by omega)]
      exact ih hord a ha i hi

/-- The bytes of one of several ordered segments, read back from an image. -/
theorem image_slice (hord : Ordered segs) {a : ℕ × List β} (ha : a ∈ segs) {i len : ℕ}
    (hi : i + len ≤ a.2.length) (hn : a.1 + i + len ≤ n) :
    ((image segs 0 n).drop (a.1 + i)).take len = (a.2.drop i).take len := by
  apply List.ext_getElem?
  intro j
  rw [List.getElem?_take, List.getElem?_take]
  split
  · next hj =>
    rw [List.getElem?_drop, List.getElem?_drop, getElem?_image segs 0 (by omega), Nat.zero_add,
      Nat.add_assoc, byteAt_of_mem segs hord a ha (i + j) (by omega),
      List.getD_eq_getElem?_getD, List.getElem?_eq_getElem (by omega)]
    rfl
  · rfl

theorem image_eq_replicate (h : ∀ a ∈ segs, base + n ≤ a.1) :
    image segs base n = List.replicate n 0 := by
  refine List.eq_replicate_iff.mpr ⟨length_image _ _ _, fun b hb => ?_⟩
  obtain ⟨p, hp, rfl⟩ := List.mem_map.mp hb
  obtain ⟨_, hlt⟩ := List.mem_range'_1.mp hp
  refine byteAt_eq_zero segs p fun a ha hcover => ?_
  have := h a ha
  omega

theorem image_cons_self (start : ℕ) (bytes : List β) (segs : List (ℕ × List β)) :
    image ((start, bytes) :: segs) start bytes.length = bytes := by
  apply List.ext_getElem?
  intro i
  by_cases hi : i < bytes.length
  · rw [getElem?_image _ _ hi, byteAt_cons,
      if_pos ⟨Nat.le_add_right _ _, Nat.add_lt_add_left hi _⟩, List.getElem?_eq_getElem hi,
      Nat.add_sub_cancel_left, List.getD_eq_getElem?_getD, List.getElem?_eq_getElem hi]
    rfl
  · rw [List.getElem?_eq_none (by rw [length_image]; omega), List.getElem?_eq_none (by omega)]

/-- A stretch from the end of the first segments on. -/
theorem image_append_right {l r : List (ℕ × List β)} {base : ℕ} (n : ℕ)
    (h : ∀ a ∈ l, a.1 + a.2.length ≤ base) : image (l ++ r) base n = image r base n := by
  refine image_congr fun p hp _ => byteAt_append_right l r p fun a ha => ?_
  have := h a ha
  omega

theorem image_append_left {l r : List (ℕ × List β)} (h : ∀ a ∈ r, base + n ≤ a.1) :
    image (l ++ r) base n = image l base n := by
  refine image_congr fun p _ hp => byteAt_append_left l r p fun a ha => ?_
  have := h a ha
  omega

end Qld.Lib
