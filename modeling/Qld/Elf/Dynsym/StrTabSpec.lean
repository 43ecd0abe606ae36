import Qld.Elf.Dynsym.StrTab
import Qld.Lib.Numbering

/-!
# What a string table holds

* `pack` — the strings of a table as its data; `offsetOf` — where a string is;
* `stringAt_pack` — a string is read back at its offset;
* `Represents` — a table holds some strings, each once, and its two lookups know them all;
* `find_spec` — a string is found exactly when it is held;
* `addSpec`, `addEachSpec` — adding to the strings alone; `add_spec`, `addEach_spec` — a
  table does the same.
-/

namespace Qld.Elf.Dynsym

open Qld.Elf.Read Qld.Lib

/-! ### Data -/

/-- Strings one after the other, each with its terminator. -/
def pieces (strings : List (List UInt8)) : List UInt8 := strings.flatMap fun s => s ++ [0]

/-- The data of a table. -/
def pack (strings : List (List UInt8)) : List UInt8 := 0 :: pieces strings

/-- Where a text is. -/
def offsetOf (strings : List (List UInt8)) (text : List UInt8) : ℕ :=
  if text = [] then 0 else (pack (strings.take (strings.idxOf text))).length

theorem pieces_append (xs ys : List (List UInt8)) : pieces (xs ++ ys) = pieces xs ++ pieces ys :=
  List.flatMap_append

theorem pack_append (xs ys : List (List UInt8)) : pack (xs ++ ys) = pack xs ++ pieces ys := by
  rw [pack, pieces_append, pack, List.cons_append]

theorem pieces_singleton (s : List UInt8) : pieces [s] = s ++ [0] := by simp [pieces]

theorem length_pieces (strings : List (List UInt8)) :
    (pieces strings).length = (strings.map fun s => s.length + 1).sum := by
  simp [pieces, List.length_flatMap]

theorem stringAt_append {before s after : List UInt8} (h : 0 ∉ s) :
    stringAt (before ++ s ++ [0] ++ after) before.length = s := by
  have hdrop : (before ++ s ++ [0] ++ after).drop before.length = s ++ ([0] ++ after) := by
    simp only [List.append_assoc, List.drop_left]
  have hidx : (s ++ ([0] ++ after)).findIdx? (fun b => b == 0) = some s.length := by
    rw [List.findIdx?_append, List.findIdx?_eq_none_iff.mpr]
    · simp [List.findIdx?_cons]
    · intro b hb
      rw [beq_eq_false_iff_ne]
      rintro rfl
      exact h hb
  rw [stringAt, hdrop, findNul_eq, hidx, Option.getD_some, List.take_left]

/-- **Strings are read back.** -/
theorem stringAt_pack {strings : List (List UInt8)} {k : ℕ} {s : List UInt8}
    (hk : strings[k]? = some s) (h : 0 ∉ s) :
    stringAt (pack strings) (pack (strings.take k)).length = s := by
  obtain ⟨hlt, rfl⟩ := List.getElem?_eq_some_iff.mp hk
  have hsplit : strings = strings.take k ++ ([strings[k]] ++ strings.drop (k + 1)) := by
    rw [List.singleton_append, List.getElem_cons_drop, List.take_append_drop]
  conv_lhs => rw [hsplit, pack_append, pieces_append, pieces_singleton]
  rw [List.take_append_of_le_length (by simp; omega), List.take_take, Nat.min_self,
    ← List.append_assoc, ← List.append_assoc]
  exact stringAt_append h

theorem stringAt_zero (strings : List (List UInt8)) : stringAt (pack strings) 0 = [] := by
  have hidx : (pack strings).findIdx? (fun b => b == 0) = some 0 := by
    simp [pack, List.findIdx?_cons]
  rw [stringAt, List.drop_zero, findNul_eq, hidx, Option.getD_some, List.take_zero]

/-! ### Tables -/

/-- An entry of a lookup stands for a string. -/
def EntryOf (hash : List UInt8 → ℕ) (strings : List (List UInt8)) (entry : ℕ × ℕ) : Prop :=
  ∃ k s, strings[k]? = some s ∧ entry = (hash s, (pack (strings.take k)).length)

/-- A table holds some strings, each once, and its two lookups know them all. -/
structure Represents (hash : List UInt8 → ℕ) (t : StrTab) (strings : List (List UInt8)) : Prop where
  data_eq : t.data = pack strings
  nodup : strings.Nodup
  ne_nil : ∀ s ∈ strings, s ≠ []
  nul_free : ∀ s ∈ strings, 0 ∉ s
  entries : ∀ entry, entry ∈ t.seen ∨ entry ∈ t.bulk ↔ EntryOf hash strings entry
  sorted : t.bulk.Pairwise fun a b => a.1 ≤ b.1

section Find

variable {hash : List UInt8 → ℕ} {t : StrTab} {strings : List (List UInt8)}

theorem represents_new : Represents hash StrTab.new [] where
  data_eq := rfl
  nodup := List.nodup_nil
  ne_nil := by simp
  nul_free := by simp
  entries := by simp [StrTab.new, EntryOf]
  sorted := List.Pairwise.nil

theorem offsetOf_of_getElem? (hnodup : strings.Nodup) {k : ℕ} {s : List UInt8}
    (hk : strings[k]? = some s) (hs : s ≠ []) :
    offsetOf strings s = (pack (strings.take k)).length := by
  obtain ⟨hlt, rfl⟩ := List.getElem?_eq_some_iff.mp hk
  rw [offsetOf, if_neg hs, hnodup.idxOf_getElem k hlt]

variable {text : List UInt8}

theorem offsetOf_append (h : text = [] ∨ text ∈ strings) (more : List (List UInt8)) :
    offsetOf (strings ++ more) text = offsetOf strings text := by
  unfold offsetOf
  split
  · rfl
  · next hne =>
    have hmem := h.resolve_left hne
    rw [List.idxOf_append_of_mem hmem,
      List.take_append_of_le_length (List.idxOf_lt_length_iff.mpr hmem).le]

theorem stringAt_offsetOf (h : Represents hash t strings) (hmem : text = [] ∨ text ∈ strings) :
    stringAt t.data (offsetOf strings text) = text := by
  rw [h.data_eq, offsetOf]
  split
  · next hnil => rw [hnil, stringAt_zero]
  · next hne =>
    have hmem := hmem.resolve_left hne
    refine stringAt_pack ?_ (h.nul_free _ hmem)
    have hlt := List.idxOf_lt_length_iff.mpr hmem
    rw [List.getElem?_eq_getElem hlt, List.getElem_idxOf]

theorem mem_takeWhile_of_sorted {key : ℕ} {bulk : List (ℕ × ℕ)}
    (h : bulk.Pairwise fun a b => a.1 ≤ b.1) (hge : ∀ e ∈ bulk, key ≤ e.1) (entry : ℕ × ℕ) :
    entry ∈ bulk.takeWhile (fun e => e.1 = key) ↔ entry ∈ bulk ∧ entry.1 = key := by
  induction bulk with
  | nil => simp
  | cons e bulk ih =>
    obtain ⟨he, hbulk⟩ := List.pairwise_cons.mp h
    rw [List.takeWhile_cons]
    split
    · next hkey =>
      rw [List.mem_cons, List.mem_cons,
        ih hbulk fun e he => hge e (List.mem_cons_of_mem _ he), or_and_right]
      have hkey := of_decide_eq_true hkey
      refine or_congr_left (iff_self_and.mpr ?_)
      rintro rfl
      exact hkey
    · next hkey =>
      have hkey : e.1 ≠ key := fun h => hkey (decide_eq_true h)
      have hlt : key < e.1 := Nat.lt_of_le_of_ne (hge e List.mem_cons_self) hkey.symm
      refine iff_of_false List.not_mem_nil ?_
      rintro ⟨hmem, rfl⟩
      rcases List.mem_cons.mp hmem with rfl | hmem
      · exact hkey rfl
      · exact absurd (he entry hmem) (Nat.not_le.mpr hlt)

theorem mem_takeWhile_drop {key : ℕ} {bulk : List (ℕ × ℕ)}
    (h : bulk.Pairwise fun a b => a.1 ≤ b.1) (entry : ℕ × ℕ) :
    entry ∈ (bulk.drop (partitionPoint (fun e => e.1 < key) bulk)).takeWhile (fun e => e.1 = key) ↔
      entry ∈ bulk ∧ entry.1 = key := by
  induction bulk with
  | nil => simp
  | cons e bulk ih =>
    rw [partitionPoint, List.takeWhile_cons]
    split
    · next hlt =>
      have hlt := of_decide_eq_true hlt
      rw [List.length_cons, List.drop_succ_cons, List.mem_cons, or_and_right]
      refine (ih h.of_cons).trans (or_iff_right ?_).symm
      rintro ⟨rfl, rfl⟩
      exact Nat.lt_irrefl _ hlt
    · next hlt =>
      have hle : key ≤ e.1 := Nat.not_lt.mp fun h => hlt (decide_eq_true h)
      rw [List.length_nil, List.drop_zero]
      refine mem_takeWhile_of_sorted h (fun e' he' => ?_) entry
      rcases List.mem_cons.mp he' with rfl | he'
      · exact hle
      · exact hle.trans ((List.pairwise_cons.mp h).1 e' he')

/-- An entry under a text's hash that reads back as the text. -/
theorem entry_of_text (h : Represents hash t strings) {entry : ℕ × ℕ}
    (hentry : entry ∈ t.seen ∨ entry ∈ t.bulk) (htext : stringAt t.data entry.2 = text) :
    text ∈ strings ∧ entry = (hash text, offsetOf strings text) := by
  obtain ⟨k, s, hk, rfl⟩ := (h.entries entry).mp hentry
  have hmem := List.mem_of_getElem? hk
  rw [h.data_eq, stringAt_pack hk (h.nul_free s hmem)] at htext
  subst htext
  exact ⟨hmem, by rw [offsetOf_of_getElem? h.nodup hk (h.ne_nil s hmem)]⟩

/-- **Lookups.**  A string is found exactly when it is held, whatever the hash. -/
theorem find_spec (h : Represents hash t strings) (hne : text ≠ []) :
    t.find (hash text) text =
      if text ∈ strings then some (offsetOf strings text) else none := by
  unfold StrTab.find
  cases hseen : t.seen.find? fun entry => entry.1 = hash text ∧ stringAt t.data entry.2 = text with
  | some entry =>
    have htext : entry.1 = hash text ∧ stringAt t.data entry.2 = text := by
      simpa using List.find?_some hseen
    obtain ⟨hmem, rfl⟩ := entry_of_text h (.inl (List.mem_of_find?_eq_some hseen)) htext.2
    rw [if_pos hmem]
  | none =>
    show ((List.find? _ _).map _) = _
    cases hbulk : ((t.bulk.drop (partitionPoint (fun e => e.1 < hash text) t.bulk)).takeWhile
        fun e => e.1 = hash text).find? fun e => stringAt t.data e.2 = text with
    | some entry =>
      have hentry := (mem_takeWhile_drop h.sorted entry).mp (List.mem_of_find?_eq_some hbulk)
      have htext : stringAt t.data entry.2 = text := by simpa using List.find?_some hbulk
      obtain ⟨hmem, rfl⟩ := entry_of_text h (.inr hentry.1) htext
      rw [if_pos hmem, Option.map_some]
    | none =>
      rw [if_neg, Option.map_none]
      -- A string that is held has an entry in one of the two.
      intro hmem
      have hlt := List.idxOf_lt_length_iff.mpr hmem
      have hget : strings[strings.idxOf text]? = some text := by
        rw [List.getElem?_eq_getElem hlt, List.getElem_idxOf]
      have htext : stringAt t.data (offsetOf strings text) = text :=
        stringAt_offsetOf h (.inr hmem)
      have hentry := (h.entries (hash text, offsetOf strings text)).mpr
        ⟨_, _, hget, by rw [offsetOf, if_neg hne]⟩
      rcases hentry with hentry | hentry
      · exact of_decide_eq_false (Bool.eq_false_iff.mpr (List.find?_eq_none.mp hseen _ hentry))
          ⟨rfl, htext⟩
      · have hentry := (mem_takeWhile_drop h.sorted _).mpr ⟨hentry, rfl⟩
        exact of_decide_eq_false (Bool.eq_false_iff.mpr (List.find?_eq_none.mp hbulk _ hentry))
          htext

end Find

/-! ### Adding to the strings alone -/

/-- What adding a text does to the strings of a table. -/
def addSpec (strings : List (List UInt8)) (text : List UInt8) :
    Except Error (ℕ × List (List UInt8)) :=
  if text = [] ∨ strings.contains text then .ok (offsetOf strings text, strings)
  else if (pack strings).length ≤ U32_MAX then
    .ok ((pack strings).length, strings ++ [text])
  else .error tooLarge

theorem addSpec_eq (strings : List (List UInt8)) (text : List UInt8) :
    addSpec strings text =
      if text = [] ∨ text ∈ strings then .ok (offsetOf strings text, strings)
      else if (pack strings).length ≤ U32_MAX then
        .ok ((pack strings).length, strings ++ [text])
      else .error tooLarge := by
  simp only [addSpec, List.contains_iff_mem]

/-- Adding texts one by one. -/
def addEachSpec (strings : List (List UInt8)) :
    List (List UInt8) → Except Error (List ℕ × List (List UInt8))
  | [] => .ok ([], strings)
  | text :: texts => do
    let (offset, strings) ← addSpec strings text
    let (offsets, strings) ← addEachSpec strings texts
    .ok (offset :: offsets, strings)

/-- A table does what is done to its strings. -/
inductive Simulates (hash : List UInt8 → ℕ) {α : Type} :
    Except Error (α × StrTab) → Except Error (α × List (List UInt8)) → Prop
  | error (e : Error) : Simulates hash (.error e) (.error e)
  | ok {t : StrTab} {strings : List (List UInt8)} (a : α) (h : Represents hash t strings) :
      Simulates hash (.ok (a, t)) (.ok (a, strings))

section Add

variable {hash : List UInt8 → ℕ} {t : StrTab} {strings : List (List UInt8)}

theorem entryOf_append (strings more : List (List UInt8)) (entry : ℕ × ℕ) :
    EntryOf hash (strings ++ more) entry ↔ EntryOf hash strings entry ∨
      ∃ k s, more[k]? = some s ∧ entry = (hash s, (pack (strings ++ more.take k)).length) := by
  refine ⟨?_, ?_⟩
  · rintro ⟨k, s, hk, rfl⟩
    by_cases hlt : k < strings.length
    · rw [List.getElem?_append_left hlt] at hk
      exact .inl ⟨k, s, hk, by rw [List.take_append_of_le_length hlt.le]⟩
    · rw [List.getElem?_append_right (by omega)] at hk
      refine .inr ⟨k - strings.length, s, hk, ?_⟩
      rw [List.take_append, List.take_of_length_le (by omega)]
  · rintro (⟨k, s, hk, rfl⟩ | ⟨k, s, hk, rfl⟩)
    · have hlt := (List.getElem?_eq_some_iff.mp hk).1
      exact ⟨k, s, by rw [List.getElem?_append_left hlt, hk],
        by rw [List.take_append_of_le_length hlt.le]⟩
    · refine ⟨strings.length + k, s, ?_, ?_⟩
      · rw [List.getElem?_append_right (by omega), Nat.add_sub_cancel_left, hk]
      · rw [List.take_length_add_append]

theorem Represents.extend (h : Represents hash t strings) {t' : StrTab} {more : List (List UInt8)}
    (hdata : t'.data = pack (strings ++ more)) (hnodup : (strings ++ more).Nodup)
    (hmore : ∀ s ∈ more, s ≠ [] ∧ 0 ∉ s)
    (hentries : ∀ entry, entry ∈ t'.seen ∨ entry ∈ t'.bulk ↔ (entry ∈ t.seen ∨ entry ∈ t.bulk) ∨
      ∃ k s, more[k]? = some s ∧ entry = (hash s, (pack (strings ++ more.take k)).length))
    (hsorted : t'.bulk.Pairwise fun a b => a.1 ≤ b.1) : Represents hash t' (strings ++ more) where
  data_eq := hdata
  nodup := hnodup
  ne_nil s hs := (List.mem_append.mp hs).elim (h.ne_nil s) fun hs => (hmore s hs).1
  nul_free s hs := (List.mem_append.mp hs).elim (h.nul_free s) fun hs => (hmore s hs).2
  entries entry := by rw [hentries, entryOf_append, h.entries]
  sorted := hsorted

theorem Represents.add (h : Represents hash t strings) {text : List UInt8} (hne : text ≠ [])
    (hnul : 0 ∉ text) (hmem : text ∉ strings) :
    Represents hash
      { t with data := t.data ++ text ++ [0], seen := t.seen ++ [(hash text, t.data.length)] }
      (strings ++ [text]) := by
  refine h.extend ?_ ?_ ?_ (fun entry => ?_) h.sorted
  · rw [pack_append, pieces_singleton, ← h.data_eq, List.append_assoc]
  · exact h.nodup.append (List.nodup_singleton _) (by simpa using hmem)
  · simpa using ⟨hne, hnul⟩
  · have hone : (∃ k s, [text][k]? = some s ∧
        entry = (hash s, (pack (strings ++ [text].take k)).length)) ↔
        entry = (hash text, t.data.length) := by
      rw [h.data_eq]
      refine ⟨?_, fun h => ⟨0, text, rfl, by simpa using h⟩⟩
      rintro ⟨k, s, hk, rfl⟩
      cases k with
      | zero =>
        obtain rfl := Option.some.inj hk
        simp
      | succ k => simp at hk
    rw [hone]
    show entry ∈ t.seen ++ _ ∨ _ ↔ _
    rw [List.mem_append, List.mem_singleton, or_right_comm]

/-- **One string.** -/
theorem add_spec (h : Represents hash t strings) {text : List UInt8} (hnul : 0 ∉ text) :
    Simulates hash (t.add hash text) (addSpec strings text) := by
  unfold StrTab.add
  rw [addSpec_eq]
  by_cases hne : text = []
  · rw [if_pos hne, if_pos (.inl hne), offsetOf, if_pos hne]
    exact .ok _ h
  · rw [if_neg hne, find_spec h hne]
    by_cases hmem : text ∈ strings
    · rw [if_pos hmem, if_pos (show text = [] ∨ text ∈ strings from .inr hmem)]
      exact .ok _ h
    · rw [if_neg hmem, if_neg (show ¬(text = [] ∨ text ∈ strings) by simp [hne, hmem])]
      show Simulates hash (if _ then _ else _) _
      rw [← h.data_eq]
      split
      · exact .ok _ (h.add hne hnul hmem)
      · exact .error _

/-- **Strings one by one.** -/
theorem addEach_spec (h : Represents hash t strings) {texts : List (List UInt8)}
    (hnul : ∀ text ∈ texts, 0 ∉ text) :
    Simulates hash (t.addEach hash texts) (addEachSpec strings texts) := by
  induction texts generalizing t strings with
  | nil => exact .ok _ h
  | cons text texts ih =>
    obtain ⟨htext, htexts⟩ := List.forall_mem_cons.mp hnul
    rw [StrTab.addEach, addEachSpec]
    have hadd := @add_spec hash _ _ h _ htext
    generalize t.add hash text = x at hadd
    generalize addSpec strings text = y at hadd
    cases hadd with
    | error e => exact .error e
    | ok offset h' =>
      have heach := ih h' htexts
      show Simulates hash (StrTab.addEach _ _ _ >>= _) (addEachSpec _ _ >>= _)
      generalize StrTab.addEach hash _ texts = x at heach
      generalize addEachSpec _ texts = y at heach
      cases heach with
      | error e => exact .error e
      | ok offsets h'' => exact .ok _ h''

end Add

end Qld.Elf.Dynsym
