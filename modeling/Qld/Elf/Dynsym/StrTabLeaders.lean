import Qld.Elf.Dynsym.StrTabSpec

/-!
# Duplicates by sorting

* `foundSpec`, `found_eq` — what is known of each text beforehand;
* `mem_order`, `pairwise_order` — the new strings, sorted by hash and position;
* `leadRun_spec` — in a run of one hash, every string gets the first one with its text;
* `leaders_spec` — the leader of a new string is the first occurrence of its text.
-/

namespace Qld.Elf.Dynsym

open Qld.Lib

/-- A text that is not held yet. -/
def IsNew (strings : List (List UInt8)) (text : List UInt8) : Prop := text ≠ [] ∧ text ∉ strings

/-- What is known of a text before the pass. -/
def foundSpec (hash : List UInt8 → ℕ) (strings : List (List UInt8)) (text : List UInt8) :
    ℕ × Option ℕ :=
  if text = [] then (0, some 0)
  else (hash text, if strings.contains text then some (offsetOf strings text) else none)

theorem foundSpec_eq (hash : List UInt8 → ℕ) (strings : List (List UInt8)) (text : List UInt8) :
    foundSpec hash strings text =
      if text = [] then (0, some 0)
      else (hash text, if text ∈ strings then some (offsetOf strings text) else none) := by
  simp only [foundSpec, List.contains_iff_mem]

section Leaders

variable {hash : List UInt8 → ℕ} {t : StrTab} {strings texts : List (List UInt8)}

theorem found_eq (h : Represents hash t strings) (texts : List (List UInt8)) :
    t.found hash texts = texts.map (foundSpec hash strings) := by
  apply List.map_congr_left
  intro text _
  by_cases hne : text = []
  · simp [foundSpec, hne]
  · rw [if_neg hne, foundSpec_eq, if_neg hne, find_spec h hne]

variable {text : List UInt8}

theorem foundSpec_eq_none :
    (foundSpec hash strings text).2 = none ↔ IsNew strings text := by
  unfold IsNew
  rw [foundSpec_eq]
  split
  · next hnil => simp [hnil]
  · next hne =>
    by_cases hmem : text ∈ strings <;> simp [hmem, hne]

theorem foundSpec_hash (h : IsNew strings text) :
    (foundSpec hash strings text).1 = hash text := by
  rw [foundSpec, if_neg h.1]

theorem getD_found (i : ℕ) :
    (texts.map (foundSpec hash strings)).getD i (0, none) =
      if i < texts.length then foundSpec hash strings (texts.getD i []) else (0, none) := by
  rw [List.getD_eq_getElem?_getD, List.getElem?_map]
  split
  · next hlt => simp [hlt]
  · next hlt => rw [List.getElem?_eq_none (Nat.not_lt.mp hlt)]; rfl

/-! ### The order -/

/-- The positions of the new strings. -/
def newPositions (strings texts : List (List UInt8)) (i : ℕ) : Prop :=
  i < texts.length ∧ IsNew strings (texts.getD i [])

theorem order_perm (hlen : texts.length ≤ U32_MAX) :
    (order (texts.map (foundSpec hash strings))).Perm
      ((List.range texts.length).filter fun i =>
        ((texts.map (foundSpec hash strings)).getD i (0, none)).2 = none) := by
  refine (List.mergeSort_perm _ _).trans ?_
  rw [List.length_map]
  refine List.Perm.of_eq ?_
  conv_rhs => rw [← List.map_id (List.filter _ (List.range _))]
  apply List.map_congr_left
  intro i hi
  have hlt := List.mem_range.mp (List.mem_of_mem_filter hi)
  exact if_pos (by omega)

variable {i : ℕ}

theorem mem_order (hlen : texts.length ≤ U32_MAX) :
    i ∈ order (texts.map (foundSpec hash strings)) ↔ newPositions strings texts i := by
  rw [(order_perm hlen).mem_iff, List.mem_filter, List.mem_range, decide_eq_true_iff, getD_found]
  refine and_congr_right fun hlt => ?_
  rw [if_pos hlt, foundSpec_eq_none]

theorem pairLE_iff {a b : ℕ × ℕ} : pairLE a b = true ↔ a.1 < b.1 ∨ a.1 = b.1 ∧ a.2 ≤ b.2 := by
  simp [pairLE]

theorem pairwise_mergeSort_pairLE {α : Type} (f : α → ℕ × ℕ) (xs : List α) :
    (xs.mergeSort fun a b => pairLE (f a) (f b)).Pairwise fun a b =>
      pairLE (f a) (f b) = true := by
  refine List.pairwise_mergeSort (fun a b c hab hbc => ?_) (fun a b => ?_) xs
  · rw [pairLE_iff] at hab hbc ⊢
    omega
  · rw [Bool.or_eq_true, pairLE_iff, pairLE_iff]
    omega

theorem nodup_order (hlen : texts.length ≤ U32_MAX) :
    (order (texts.map (foundSpec hash strings))).Nodup :=
  (order_perm hlen).nodup_iff.mpr (List.nodup_range.filter _)

/-! ### Runs -/

theorem idxOf_getD (h : i < texts.length) :
    texts.idxOf (texts.getD i []) ≤ i ∧ texts.getD (texts.idxOf (texts.getD i [])) [] =
      texts.getD i [] := by
  rw [List.getD_eq_getElem _ _ h]
  refine ⟨?_, ?_⟩
  · by_contra hgt
    have := List.not_of_lt_findIdx (Nat.lt_of_not_ge hgt)
    simp at this
  have hlt := List.idxOf_lt_length_iff.mpr (List.getElem_mem h)
  rw [List.getD_eq_getElem _ _ hlt, List.getElem_idxOf]

/-- One string of a run, behind those that have their leaders. -/
theorem lead_spec {run before : List ℕ} {leader leader' : ℕ → ℕ} {i : ℕ}
    (hrun : ∀ j ∈ run, j < i → j ∈ before) (hbefore : ∀ j ∈ before, j < i)
    (hlt : i < texts.length) (hfirst : texts.idxOf (texts.getD i []) ∈ run) (hid : leader i = i)
    (hleader : ∀ j, leader' j = if j ∈ before then texts.idxOf (texts.getD j []) else leader j)
    (j : ℕ) :
    lead texts before leader' i j =
      if j ∈ before ++ [i] then texts.idxOf (texts.getD j []) else leader j := by
  have hnot : i ∉ before := fun h => Nat.lt_irrefl _ (hbefore i h)
  obtain ⟨hle, hsame⟩ := idxOf_getD hlt
  have hval : lead texts before leader' i =
      Function.update leader' i (texts.idxOf (texts.getD i [])) := by
    unfold lead
    split
    · next first hfind =>
      have hmem := List.mem_of_find?_eq_some hfind
      have hfirst : leader' first = first ∧ texts.getD first [] = texts.getD i [] := by
        simpa using List.find?_some hfind
      rw [← hfirst.2]
      have := hleader first
      rw [if_pos hmem, hfirst.1] at this
      rw [← this]
    · next hnone =>
      -- An earlier string with this text would have been found.
      have heq : texts.idxOf (texts.getD i []) = i := by
        by_contra hne
        have hmem := hrun _ hfirst (Nat.lt_of_le_of_ne hle hne)
        have hlead := hleader (texts.idxOf (texts.getD i []))
        rw [if_pos hmem, hsame] at hlead
        have := List.find?_eq_none.mp hnone _ hmem
        exact this (decide_eq_true ⟨hlead, hsame⟩)
      have hi := hleader i
      rw [if_neg hnot, hid] at hi
      rw [heq, Function.update_eq_self_iff.mpr hi.symm]
  rw [hval]
  by_cases hj : j = i
  · subst hj
    rw [Function.update_self, if_pos (by simp)]
  · rw [Function.update_of_ne hj, hleader]
    simp [hj]

variable {leader : ℕ → ℕ}

/-- **One run.**  Every string of it gets the first occurrence of its text. -/
theorem leadRun_spec {run : List ℕ} (hsorted : run.Pairwise (· < ·))
    (hlt : ∀ i ∈ run, i < texts.length) (hfirst : ∀ i ∈ run, texts.idxOf (texts.getD i []) ∈ run)
    (hid : ∀ i ∈ run, leader i = i) (i : ℕ) :
    leadRun texts [] leader run i =
      if i ∈ run then texts.idxOf (texts.getD i []) else leader i := by
  have hgo : ∀ (rest before : List ℕ) (leader' : ℕ → ℕ), before ++ rest = run →
      (∀ j, leader' j = if j ∈ before then texts.idxOf (texts.getD j []) else leader j) →
      leadRun texts before leader' rest i =
        if i ∈ run then texts.idxOf (texts.getD i []) else leader i := by
    intro rest
    induction rest with
    | nil =>
      rintro before leader' rfl hleader
      rw [leadRun, hleader, List.append_nil]
    | cons k rest ih =>
      intro before leader' hsplit hleader
      have hk : k ∈ run := by simp [← hsplit]
      rw [leadRun]
      refine ih (before ++ [k]) _ (by simpa using hsplit) fun j => ?_
      rw [← hsplit, List.pairwise_append] at hsorted
      refine @lead_spec _ run _ _ _ _ (fun j hj hjk => ?_) (fun j hj => ?_) (hlt k hk) (hfirst k hk)
        (hid k hk) hleader j
      · rw [← hsplit] at hj
        rcases List.mem_append.mp hj with hj | hj
        · exact hj
        · rcases List.mem_cons.mp hj with rfl | hj
          · omega
          · have := (List.pairwise_cons.mp hsorted.2.1).1 j hj
            omega
      · exact hsorted.2.2 j hj k List.mem_cons_self
  exact hgo run [] leader rfl fun j => by simp

/-- **All runs.** -/
theorem leadRuns_spec {runs : List (List ℕ)} (hruns : ∀ run ∈ runs, run.Pairwise (· < ·) ∧
      (∀ i ∈ run, i < texts.length ∧ texts.idxOf (texts.getD i []) ∈ run ∧ leader i = i))
    (hdisjoint : runs.Pairwise List.Disjoint) (i : ℕ) :
    runs.foldl (fun leader run => leadRun texts [] leader run) leader i =
      if i ∈ runs.flatten then texts.idxOf (texts.getD i []) else leader i := by
  induction runs generalizing leader with
  | nil => simp
  | cons run runs ih =>
    obtain ⟨hrun, hrest⟩ := List.forall_mem_cons.mp hruns
    obtain ⟨hapart, hdisjoint⟩ := List.pairwise_cons.mp hdisjoint
    have hlead := leadRun_spec hrun.1 (fun i hi => (hrun.2 i hi).1)
      (fun i hi => (hrun.2 i hi).2.1) (fun i hi => (hrun.2 i hi).2.2)
    rw [List.foldl_cons, ih ?_ hdisjoint, hlead, List.flatten_cons]
    · by_cases hi : i ∈ runs.flatten
      · simp [hi]
      · simp [hi]
    · intro other hother
      refine ⟨(hrest other hother).1, fun i hi => ?_⟩
      obtain ⟨hlt, hfirst, hid⟩ := (hrest other hother).2 i hi
      rw [hlead, if_neg fun hmem => hapart other hother hmem hi]
      exact ⟨hlt, hfirst, hid⟩

/-- **Leaders.**  The leader of a new string is the first occurrence of its text. -/
theorem leaders_spec (hlen : texts.length ≤ U32_MAX) (hi : newPositions strings texts i) :
    leaders texts (texts.map (foundSpec hash strings)) i = texts.idxOf (texts.getD i []) := by
  set found := texts.map (foundSpec hash strings) with hfound
  have hkey : ∀ j, newPositions strings texts j →
      (found.getD j (0, none)).1 = hash (texts.getD j []) := by
    intro j hj
    rw [hfound, getD_found, if_pos hj.1, foundSpec_hash hj.2]
  have hpair : (order found).Pairwise fun a b =>
      pairLE ((found.getD a (0, none)).1, a) ((found.getD b (0, none)).1, b) = true :=
    pairwise_mergeSort_pairLE _ _
  have hmem : ∀ j, j ∈ order found ↔ newPositions strings texts j := fun j => mem_order hlen
  have hflatten := List.flatten_splitBy
    (fun a b => (found.getD a (0, none)).1 == (found.getD b (0, none)).1) (order found)
  have hruns : ((order found).splitBy fun a b =>
      (found.getD a (0, none)).1 == (found.getD b (0, none)).1).Pairwise fun g h =>
      ∀ a ∈ g, ∀ b ∈ h, (found.getD a (0, none)).1 < (found.getD b (0, none)).1 := by
    refine splitBy_pairwise (hpair.imp ?_)
    intro a b hab
    rw [pairLE_iff] at hab
    exact hab.elim .inr fun h => .inl h.1
  have : Std.Symm fun g h : List ℕ =>
      ∀ a ∈ g, ∀ b ∈ h, (found.getD a (0, none)).1 ≠ (found.getD b (0, none)).1 :=
    ⟨fun g h hgh a ha b hb => (hgh b hb a ha).symm⟩
  have hdiffer := hruns.imp fun {g h} (hgh : ∀ a ∈ g, ∀ b ∈ h, _) a ha b hb =>
    (hgh a ha b hb).ne
  unfold leaders
  rw [leadRuns_spec, hflatten, if_pos ((hmem i).mpr hi)]
  · intro run hrun
    have hsub : run.Sublist (order found) := by
      conv_rhs => rw [← hflatten]
      exact List.sublist_flatten_of_mem hrun
    refine ⟨?_, fun j hj => ?_⟩
    · refine ((hpair.and (nodup_order hlen)).sublist hsub).imp_of_mem fun ha hb hab => ?_
      have hsame : (found.getD _ (0, none)).1 = (found.getD _ (0, none)).1 :=
        splitBy_same hrun ha hb
      rw [pairLE_iff] at hab
      have hle := hab.1.resolve_left (Nat.not_lt.mpr hsame.ge)
      exact Nat.lt_of_le_of_ne hle.2 hab.2
    · have hnew := (hmem j).mp (hsub.subset hj)
      obtain ⟨hle, htext⟩ := idxOf_getD hnew.1
      -- The first occurrence of a new text is new, and has the same hash.
      have hfirst : newPositions strings texts (texts.idxOf (texts.getD j [])) :=
        ⟨Nat.lt_of_le_of_lt hle hnew.1, htext.symm ▸ hnew.2⟩
      have hhash : (found.getD (texts.idxOf (texts.getD j [])) (0, none)).1 =
          (found.getD j (0, none)).1 := by rw [hkey _ hfirst, hkey _ hnew, htext]
      have hin := (hmem _).mpr hfirst
      rw [← hflatten, List.mem_flatten] at hin
      obtain ⟨other, hother, hin⟩ := hin
      have hlt := hnew.1
      refine ⟨hlt, ?_, if_pos (show j ≤ U32_MAX by omega)⟩
      by_cases heq : other = run
      · exact heq ▸ hin
      · exact absurd hhash (hdiffer.forall hother hrun heq _ hin _ hj)
  · refine hruns.imp fun hapart => ?_
    intro a ha hb
    exact Nat.lt_irrefl _ (hapart a ha a hb)

end Leaders

end Qld.Elf.Dynsym
