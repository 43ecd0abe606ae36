import Qld.Elf.Dynsym.StrTabLeaders

/-!
# Strings added together

* `copyTasks_spec` — the tasks together copy all strings, whatever the chunks;
* `AssignInv`, `assign_spec` — the pass gives the offsets of adding one by one;
* `addAll_spec` — adding together is adding one by one, but for a table whose last
  string starts within 4 GiB and does not end there;
* `addAll_agrees_iff` — when the two are the same.
-/

namespace Qld.Elf.Dynsym

open Qld.Lib

/-- The texts to copy. -/
def copied (texts : List (List UInt8)) (copies : List (ℕ × ℕ)) : List (List UInt8) :=
  copies.map fun copy => texts.getD copy.1 []

/-- The strings to copy stand one after the other from `base` on. -/
def Consecutive (texts : List (List UInt8)) : ℕ → List (ℕ × ℕ) → Prop
  | _, [] => True
  | base, copy :: copies =>
    copy.2 = base ∧ Consecutive texts (base + (texts.getD copy.1 []).length + 1) copies

section Copy

variable {texts : List (List UInt8)}

theorem length_pieces_cons (s : List UInt8) (strings : List (List UInt8)) :
    (pieces (s :: strings)).length = s.length + 1 + (pieces strings).length := by
  rw [length_pieces, length_pieces, List.map_cons, List.sum_cons]

theorem copied_cons (copy : ℕ × ℕ) (copies : List (ℕ × ℕ)) :
    copied texts (copy :: copies) = texts.getD copy.1 [] :: copied texts copies := rfl

theorem copied_append (xs ys : List (ℕ × ℕ)) :
    copied texts (xs ++ ys) = copied texts xs ++ copied texts ys := List.map_append

theorem pieces_cons (s : List UInt8) (strings : List (List UInt8)) :
    pieces (s :: strings) = s ++ [0] ++ pieces strings := List.flatMap_cons

variable {base : ℕ}

theorem consecutive_append {xs ys : List (ℕ × ℕ)} :
    Consecutive texts base (xs ++ ys) ↔
      Consecutive texts base xs ∧
        Consecutive texts (base + (pieces (copied texts xs)).length) ys := by
  induction xs generalizing base with
  | nil => simp [Consecutive, copied, pieces]
  | cons copy xs ih =>
    rw [List.cons_append, Consecutive, Consecutive, ih, copied_cons, length_pieces_cons,
      and_assoc, ← Nat.add_assoc, ← Nat.add_assoc]

/-! ### Copying -/

theorem copyTask_go {base : ℕ} {chunk : List (ℕ × ℕ)} :
    ∀ written : List UInt8, Consecutive texts (base + written.length) chunk →
    chunk.foldl (fun out copy =>
      if copy.2 - base + (texts.getD copy.1 []).length ≤ out.length then
        overwrite out (copy.2 - base) (texts.getD copy.1 [])
      else out) (written ++ List.replicate (pieces (copied texts chunk)).length 0) =
      written ++ pieces (copied texts chunk) := by
  induction chunk with
  | nil => simp [copied, pieces]
  | cons copy chunk ih =>
    intro written h
    obtain ⟨hcopy, hrest⟩ := h
    have hat : copy.2 - base = written.length := by omega
    rw [List.foldl_cons, hat, copied_cons, length_pieces_cons, if_pos (by simp; omega)]
    have hnext : overwrite (written ++ List.replicate
          ((texts.getD copy.1 []).length + 1 + (pieces (copied texts chunk)).length) 0)
          written.length (texts.getD copy.1 []) =
        (written ++ texts.getD copy.1 [] ++ [0]) ++
          List.replicate (pieces (copied texts chunk)).length 0 := by
      rw [overwrite, List.take_left, List.drop_length_add_append, List.drop_replicate,
        List.append_assoc (written ++ _), Nat.add_assoc, Nat.add_sub_cancel_left, Nat.add_comm 1]
      rfl
    rw [hnext, ih _ (by simpa [Nat.add_assoc] using hrest), pieces_cons]
    simp only [List.append_assoc]

variable {chunk : List (ℕ × ℕ)}

/-- **One task.** -/
theorem copyTask_spec (h : Consecutive texts base chunk) :
    copyTask texts chunk (List.replicate (pieces (copied texts chunk)).length 0) =
      pieces (copied texts chunk) := by
  cases chunk with
  | nil => rfl
  | cons copy chunk =>
    exact @copyTask_go texts copy.2 _ [] (show Consecutive texts (copy.2 + 0) _ from h.1 ▸ h)

theorem stop_eq (h : Consecutive texts base chunk) :
    (chunk.getLast?.elim base fun copy => copy.2 + (texts.getD copy.1 []).length + 1) =
      base + (pieces (copied texts chunk)).length := by
  cases hlast : chunk.getLast? with
  | none =>
    rw [List.getLast?_eq_none_iff.mp hlast]
    rfl
  | some copy =>
    obtain ⟨init, rfl⟩ := List.getLast?_eq_some_iff.mp hlast
    rw [consecutive_append] at h
    have hcopy := h.2.1
    rw [Option.elim_some, hcopy, copied_append, pieces_append, List.length_append,
      show copied texts [copy] = [texts.getD copy.1 []] from rfl, pieces_singleton,
      List.length_append, List.length_singleton]
    omega

/-- **All tasks.**  Together they copy the strings, whatever the chunks are. -/
theorem copyTasks_spec {chunks : List (List (ℕ × ℕ))} : ∀ {base : ℕ},
    Consecutive texts base chunks.flatten →
    copyTasks texts base chunks
      (List.replicate (pieces (copied texts chunks.flatten)).length 0) =
      pieces (copied texts chunks.flatten) := by
  induction chunks with
  | nil => intro base _; rfl
  | cons chunk chunks ih =>
    intro base h
    rw [List.flatten_cons, consecutive_append] at h
    obtain ⟨hchunk, hrest⟩ := h
    rw [copyTasks, stop_eq hchunk, Nat.add_sub_cancel_left, List.flatten_cons, copied_append,
      pieces_append, List.length_append, List.take_replicate, List.drop_replicate,
      Nat.min_eq_left (Nat.le_add_right _ _), Nat.add_sub_cancel_left, copyTask_spec hchunk,
      ih hrest]

end Copy

/-! ### The pass -/

section Pass

variable {hash : List UInt8 → ℕ} {t : StrTab} {strings texts : List (List UInt8)}

/-- What the pass knows behind the texts `done`, when adding them one by one has led to `held`. -/
structure AssignInv (strings texts done held : List (List UInt8)) (s : Assigned) : Prop where
  offsets_length : s.offsets.length = done.length
  offsets_eq : ∀ k < done.length, s.offsets.getD k 0 = offsetOf held (texts.getD k [])
  mem_held : ∀ k < done.length, texts.getD k [] = [] ∨ texts.getD k [] ∈ held
  cursor_eq : s.cursor = (pack held).length
  held_eq : held = strings ++ copied texts s.copies
  nodup : held.Nodup
  copies_new : ∀ copy ∈ s.copies, copy.1 < done.length ∧ IsNew strings (texts.getD copy.1 [])
  consecutive : Consecutive texts (pack strings).length s.copies

variable {done rest held : List (List UInt8)} {text : List UInt8}

theorem getD_append_one (hsplit : done ++ text :: rest = texts) :
    texts.getD done.length [] = text := by
  rw [← hsplit, List.getD_append_right _ _ _ _ (Nat.le_refl _), Nat.sub_self]
  rfl

variable {s : Assigned}

theorem AssignInv.known (hsplit : done ++ text :: rest = texts)
    (h : AssignInv strings texts done held s) (hmem : text = [] ∨ text ∈ held) :
    AssignInv strings texts (done ++ [text]) held
      { s with offsets := s.offsets ++ [offsetOf held text] } := by
  have htext := getD_append_one hsplit
  have hlength : (done ++ [text]).length = done.length + 1 := by simp
  refine { h with offsets_length := ?_, offsets_eq := ?_, mem_held := ?_, copies_new := ?_ }
  · rw [List.length_append, h.offsets_length, hlength, List.length_singleton]
  · intro k hk
    rcases Nat.lt_succ_iff_lt_or_eq.mp (hlength ▸ hk) with hk | rfl
    · rw [List.getD_append _ _ _ _ (h.offsets_length ▸ hk), h.offsets_eq k hk]
    · rw [htext, ← h.offsets_length, List.getD_append_right _ _ _ _ (Nat.le_refl _), Nat.sub_self]
      rfl
  · intro k hk
    rcases Nat.lt_succ_iff_lt_or_eq.mp (hlength ▸ hk) with hk | rfl
    · exact h.mem_held k hk
    · rwa [htext]
  · intro copy hcopy
    obtain ⟨hlt, hnew⟩ := h.copies_new copy hcopy
    exact ⟨by omega, hnew⟩

/-- A text that is not held yet is copied to the end. -/
theorem AssignInv.new {done rest held : List (List UInt8)} {text : List UInt8} {s : Assigned}
    (hsplit : done ++ text :: rest = texts) (h : AssignInv strings texts done held s)
    (hnew : IsNew strings text) (hmem : text ∉ held) :
    AssignInv strings texts (done ++ [text]) (held ++ [text])
      { offsets := s.offsets ++ [s.cursor]
        cursor := s.cursor + text.length + 1
        copies := s.copies ++ [(done.length, s.cursor)] } := by
  have htext := getD_append_one hsplit
  have hlength : (done ++ [text]).length = done.length + 1 := by simp
  have hcopied : copied texts [(done.length, s.cursor)] = [text] := congrArg (fun x => [x]) htext
  refine
    { offsets_length := ?_, offsets_eq := ?_, mem_held := ?_, cursor_eq := ?_, held_eq := ?_,
      nodup := ?_, copies_new := ?_, consecutive := ?_ }
  · rw [List.length_append, h.offsets_length, hlength, List.length_singleton]
  · intro k hk
    rcases Nat.lt_succ_iff_lt_or_eq.mp (hlength ▸ hk) with hk | rfl
    · rw [List.getD_append _ _ _ _ (h.offsets_length ▸ hk), h.offsets_eq k hk,
        offsetOf_append (h.mem_held k hk)]
    · rw [htext, ← h.offsets_length, List.getD_append_right _ _ _ _ (Nat.le_refl _), Nat.sub_self,
        offsetOf, if_neg hnew.1, List.idxOf_append_of_notMem hmem, List.idxOf_cons_self,
        Nat.add_zero, List.take_left, ← h.cursor_eq]
      rfl
  · intro k hk
    rcases Nat.lt_succ_iff_lt_or_eq.mp (hlength ▸ hk) with hk | rfl
    · exact (h.mem_held k hk).imp_right (List.mem_append_left [text])
    · exact .inr (by rw [htext]; simp)
  · rw [pack_append, pieces_singleton, List.length_append, List.length_append,
      List.length_singleton, ← h.cursor_eq, Nat.add_assoc]
  · rw [copied_append, hcopied, ← List.append_assoc, ← h.held_eq]
  · exact h.nodup.append (List.nodup_singleton _) (by simpa using hmem)
  · intro copy hcopy
    rcases List.mem_append.mp hcopy with hcopy | hcopy
    · obtain ⟨hlt, hnew⟩ := h.copies_new copy hcopy
      exact ⟨by omega, hnew⟩
    · obtain rfl := List.mem_singleton.mp hcopy
      exact ⟨by omega, by rwa [htext]⟩
  · rw [consecutive_append]
    refine ⟨h.consecutive, ?_, trivial⟩
    rw [h.cursor_eq, ← List.length_append, ← pack_append, ← h.held_eq]

/-- **One string of the pass.** -/
theorem assignStep_spec (hlen : texts.length ≤ U32_MAX) {done rest held : List (List UInt8)}
    {text : List UInt8} {s : Assigned} (hsplit : done ++ text :: rest = texts)
    (h : AssignInv strings texts done held s) :
    (addSpec held text = .error tooLarge ∧
      assignStep texts (leaders texts (texts.map (foundSpec hash strings))) s
        (foundSpec hash strings text, done.length) = .error tooLarge) ∨
    ∃ offset held' s', addSpec held text = .ok (offset, held') ∧
      assignStep texts (leaders texts (texts.map (foundSpec hash strings))) s
        (foundSpec hash strings text, done.length) = .ok s' ∧
      s'.offsets = s.offsets ++ [offset] ∧ AssignInv strings texts (done ++ [text]) held' s' := by
  have htext := getD_append_one hsplit
  have hlt : done.length < texts.length := by rw [← hsplit]; simp
  -- What is held needs no more room.
  have hknown : (text = [] ∨ text ∈ held) →
      assignStep texts (leaders texts (texts.map (foundSpec hash strings))) s
        (foundSpec hash strings text, done.length) =
          .ok { s with offsets := s.offsets ++ [offsetOf held text] } →
      ∃ offset held' s', addSpec held text = .ok (offset, held') ∧
        assignStep texts (leaders texts (texts.map (foundSpec hash strings))) s
          (foundSpec hash strings text, done.length) = .ok s' ∧
        s'.offsets = s.offsets ++ [offset] ∧
          AssignInv strings texts (done ++ [text]) held' s' := fun hmem hstep =>
    ⟨offsetOf held text, held, _, (addSpec_eq held text).trans (if_pos hmem), hstep, rfl, h.known hsplit hmem⟩
  by_cases hnew : IsNew strings text
  · have hfound : (foundSpec hash strings text).2 = none := foundSpec_eq_none.mpr hnew
    have hleader : leaders texts (texts.map (foundSpec hash strings)) done.length =
        texts.idxOf text := by
      rw [leaders_spec hlen ⟨hlt, by rwa [htext]⟩, htext]
    obtain ⟨hle, hsame⟩ := idxOf_getD hlt
    rw [htext] at hle hsame
    by_cases hfirst : texts.idxOf text = done.length
    · have hmem : text ∉ held := by
        rw [h.held_eq, List.mem_append, not_or]
        refine ⟨hnew.2, fun hmem => ?_⟩
        obtain ⟨copy, hcopy, heq⟩ := List.mem_map.mp hmem
        have hcopylt := (h.copies_new copy hcopy).1
        have := (idxOf_getD (show copy.1 < texts.length by omega)).1
        rw [heq] at this
        omega
      have hspec : addSpec held text = if s.cursor ≤ U32_MAX then .ok (s.cursor, held ++ [text])
          else .error tooLarge := by
        rw [addSpec_eq, if_neg (by simp [hnew.1, hmem]), h.cursor_eq]
      have hstep : assignStep texts (leaders texts (texts.map (foundSpec hash strings))) s
          (foundSpec hash strings text, done.length) =
          if s.cursor ≤ U32_MAX then
            .ok { offsets := s.offsets ++ [s.cursor]
                  cursor := s.cursor + text.length + 1
                  copies := s.copies ++ [(done.length, s.cursor)] }
          else .error tooLarge := by
        simp only [assignStep, hfound, hleader, hfirst, if_true, htext]
      by_cases hfits : s.cursor ≤ U32_MAX
      · rw [if_pos hfits] at hspec hstep
        exact .inr ⟨_, _, _, hspec, hstep, rfl, h.new hsplit hnew hmem⟩
      · rw [if_neg hfits] at hspec hstep
        exact .inl ⟨hspec, hstep⟩
    · have hbefore : texts.idxOf text < done.length := Nat.lt_of_le_of_ne hle hfirst
      have hmem := h.mem_held _ hbefore
      rw [hsame] at hmem
      refine .inr (hknown hmem ?_)
      simp only [assignStep, hfound, hleader, hfirst, if_false, h.offsets_eq _ hbefore, hsame]
  · have hold : text = [] ∨ text ∈ strings := by
      by_contra hnot
      rw [not_or] at hnot
      exact hnew hnot
    have hfound : (foundSpec hash strings text).2 = some (offsetOf held text) := by
      rw [h.held_eq, offsetOf_append hold]
      rw [foundSpec_eq]
      split
      · next hnil => rw [hnil]; rfl
      · next hne => rw [if_pos (hold.resolve_left hne)]
    refine .inr (hknown (hold.imp_right fun hmem => ?_) ?_)
    · rw [h.held_eq]
      exact List.mem_append_left _ hmem
    · simp only [assignStep, hfound]

/-- **The pass.**  It gives the offsets of adding the texts one by one. -/
theorem assign_spec (hlen : texts.length ≤ U32_MAX) {rest : List (List UInt8)} :
    ∀ {done held : List (List UInt8)} {s : Assigned}, done ++ rest = texts →
    AssignInv strings texts done held s →
    (addEachSpec held rest = .error tooLarge ∧
      ((rest.map (foundSpec hash strings)).zipIdx done.length).foldlM
        (assignStep texts (leaders texts (texts.map (foundSpec hash strings)))) s =
          .error tooLarge) ∨
    ∃ offsets held' s', addEachSpec held rest = .ok (offsets, held') ∧
      ((rest.map (foundSpec hash strings)).zipIdx done.length).foldlM
        (assignStep texts (leaders texts (texts.map (foundSpec hash strings)))) s = .ok s' ∧
      s'.offsets = s.offsets ++ offsets ∧ AssignInv strings texts texts held' s' := by
  induction rest with
  | nil =>
    rintro done held s hsplit h
    rw [List.append_nil] at hsplit
    subst hsplit
    exact .inr ⟨[], held, s, rfl, rfl, (List.append_nil _).symm, h⟩
  | cons text rest ih =>
    intro done held s hsplit h
    rw [List.map_cons, List.zipIdx_cons, List.foldlM_cons, addEachSpec]
    rcases @assignStep_spec hash _ _ hlen _ _ _ _ _ hsplit h with ⟨hadd, hstep⟩ |
      ⟨offset, held', s', hadd, hstep, hoffsets, h'⟩
    · rw [hadd, hstep]
      exact .inl ⟨rfl, rfl⟩
    · rw [hadd, hstep]
      have hsplit' : (done ++ [text]) ++ rest = texts := by simpa using hsplit
      have hlength : (done ++ [text]).length = done.length + 1 := by simp
      rcases ih hsplit' h' with ⟨hrest, hfold⟩ | ⟨offsets, held'', s'', hrest, hfold, hoff, h''⟩
      · rw [hlength] at hfold
        refine .inl ⟨?_, hfold⟩
        show (addEachSpec held' rest >>= _) = _
        rw [hrest]
        rfl
      · rw [hlength] at hfold
        refine .inr ⟨offset :: offsets, held'', s'', ?_, hfold, ?_, h''⟩
        · show (addEachSpec held' rest >>= _) = _
          rw [hrest]
          rfl
        · rw [hoff, hoffsets, List.append_assoc, List.singleton_append]

/-! ### Adding together -/

theorem consecutive_getElem? {base : ℕ} {copies : List (ℕ × ℕ)}
    (h : Consecutive texts base copies) {k : ℕ} {copy : ℕ × ℕ} (hk : copies[k]? = some copy) :
    copy.2 = base + (pieces (copied texts (copies.take k))).length := by
  have hsplit : copies = copies.take k ++ copy :: copies.drop (k + 1) := by
    obtain ⟨hlt, rfl⟩ := List.getElem?_eq_some_iff.mp hk
    rw [List.getElem_cons_drop, List.take_append_drop]
  rw [hsplit, consecutive_append] at h
  exact h.2.1

/-- The strings of a table to which texts are added together. -/
def addAllSpec (strings texts : List (List UInt8)) : Except Error (List ℕ × List (List UInt8)) :=
  match addEachSpec strings texts with
  | .error e => .error e
  | .ok (offsets, held) =>
    if (pack held).length ≤ U32_MAX then .ok (offsets, held) else .error tooLarge

theorem assignInv_nil (h : Represents hash t strings) (texts : List (List UInt8)) :
    AssignInv strings texts [] strings
      { offsets := [], cursor := t.data.length, copies := [] } where
  offsets_length := rfl
  offsets_eq k hk := absurd hk (Nat.not_lt_zero k)
  mem_held k hk := absurd hk (Nat.not_lt_zero k)
  cursor_eq := by rw [h.data_eq]
  held_eq := (List.append_nil _).symm
  nodup := h.nodup
  copies_new := by simp
  consecutive := trivial

theorem Represents.addAll (h : Represents hash t strings) {chunk : ℕ} (hchunk : 0 < chunk)
    (hnul : ∀ text ∈ texts, 0 ∉ text) (hs : AssignInv strings texts texts held s) :
    Represents hash
      { t with
        data := t.data ++ copyTasks texts t.data.length (chunks chunk s.copies)
          (List.replicate (s.cursor - t.data.length) 0)
        bulk := (t.bulk ++ s.copies.map fun copy =>
          (((texts.map (foundSpec hash strings)).getD copy.1 (0, none)).1, copy.2)).mergeSort
            pairLE } held := by
  have hflatten := flatten_chunks hchunk s.copies
  have hcursor : s.cursor - t.data.length = (pieces (copied texts s.copies)).length := by
    rw [hs.cursor_eq, hs.held_eq, pack_append, List.length_append, h.data_eq,
      Nat.add_sub_cancel_left]
  have hcopy := @copyTasks_spec texts (chunks chunk s.copies) t.data.length
    (by rw [hflatten, h.data_eq]; exact hs.consecutive)
  rw [hflatten] at hcopy
  have hentry : ∀ copy ∈ s.copies,
      ((texts.map (foundSpec hash strings)).getD copy.1 (0, none)).1 =
        hash (texts.getD copy.1 []) := by
    intro copy hmem
    obtain ⟨hlt, hnew⟩ := hs.copies_new copy hmem
    rw [getD_found, if_pos hlt, foundSpec_hash hnew]
  rw [hs.held_eq]
  refine h.extend ?_ (hs.held_eq ▸ hs.nodup) ?_ (fun entry => ?_) ?_
  · show t.data ++ _ = _
    rw [hcursor, hcopy, h.data_eq, pack_append]
  · intro text htext
    obtain ⟨copy, hmem, rfl⟩ := List.mem_map.mp htext
    obtain ⟨hlt, hnew⟩ := hs.copies_new copy hmem
    refine ⟨hnew.1, hnul _ ?_⟩
    rw [List.getD_eq_getElem _ _ hlt]
    exact List.getElem_mem hlt
  · show entry ∈ t.seen ∨ entry ∈ List.mergeSort _ _ ↔ _
    rw [(List.mergeSort_perm _ _).mem_iff, List.mem_append, or_assoc]
    refine or_congr_right (or_congr_right ?_)
    have hoffset : ∀ k copy, s.copies[k]? = some copy →
        copy.2 = (pack (strings ++ (copied texts s.copies).take k)).length := by
      intro k copy hk
      rw [consecutive_getElem? hs.consecutive hk, pack_append, List.length_append, copied,
        copied, List.map_take]
    refine ⟨fun hmem => ?_, ?_⟩
    · obtain ⟨copy, hcopy, rfl⟩ := List.mem_map.mp hmem
      obtain ⟨k, hk⟩ := List.mem_iff_getElem?.mp hcopy
      refine ⟨k, texts.getD copy.1 [], by rw [copied, List.getElem?_map, hk]; rfl, ?_⟩
      rw [hentry copy hcopy, ← hoffset k copy hk]
    · rintro ⟨k, str, hk, rfl⟩
      rw [copied, List.getElem?_map] at hk
      obtain ⟨copy, hcopy, rfl⟩ := Option.map_eq_some_iff.mp hk
      have hmem := List.mem_of_getElem? hcopy
      refine List.mem_map.mpr ⟨copy, hmem, ?_⟩
      rw [hentry copy hmem, ← hoffset k copy hcopy]
  · exact (pairwise_mergeSort_pairLE id _).imp fun hab =>
      (pairLE_iff.mp hab).elim Nat.le_of_lt fun h => h.1.le

/-- **Adding together.** -/
theorem addAll_spec (h : Represents hash t strings) {chunk : ℕ} (hchunk : 0 < chunk)
    (hnul : ∀ text ∈ texts, 0 ∉ text) (hlen : texts.length ≤ U32_MAX) :
    Simulates hash (t.addAll hash chunk texts) (addAllSpec strings texts) := by
  unfold StrTab.addAll addAllSpec
  rw [found_eq h]
  have hpass := @assign_spec hash _ _ hlen texts _ _ _ (List.nil_append _)
    (assignInv_nil h texts)
  rw [List.length_nil] at hpass
  rcases hpass with ⟨hspec, hfold⟩ | ⟨offsets, held, s, hspec, hfold, hoffsets, hs⟩
  · rw [hspec]
    show Simulates hash (List.foldlM _ _ _ >>= _) _
    rw [hfold]
    exact .error _
  · rw [hspec]
    show Simulates hash (List.foldlM _ _ _ >>= _) _
    rw [hfold]
    show Simulates hash (if s.cursor ≤ U32_MAX then _ else _) (if _ then _ else _)
    rw [← hs.cursor_eq]
    by_cases hfits : s.cursor ≤ U32_MAX
    · rw [if_pos hfits, if_pos hfits, hoffsets]
      exact .ok _ (h.addAll hchunk hnul hs)
    · rw [if_neg hfits, if_neg hfits]
      exact .error _

end Pass

end Qld.Elf.Dynsym
