import Qld.Lib.CyclicWalk

/-!
# Open addressing

A table of slots, some of them used.  A key probes slots one after the other; its entry goes to the
first that is free.

* `seek` — the first position on a path that satisfies a test;
* `probeAt` — the position that is probed at some time; `exists_probeAt` — when the step
  has no factor in common with the size, every position is;
* `insertAll` — entries put into the table one after the other;
* `Filled` — every entry stands on its path behind used slots, and once;
  `filled_insertAll` — while slots are free, the insertion ends and leaves such a table;
* `Filled.seek_entry`, `Filled.seek_free` — a search finds the entry of a key, or a free
  slot when there is none.
-/

namespace Qld.Lib

/-! ### Searches -/

/-- The first position, going on from `i`, that satisfies a test; the fuel bounds the positions. -/
def seek (stop : ℕ → Bool) (next : ℕ → ℕ) : ℕ → ℕ → Option ℕ
  | 0, _ => none
  | fuel + 1, i => if stop i then some i else seek stop next fuel (next i)

/-- A path: every position leads to the next. -/
def IsProbing (next path : ℕ → ℕ) : Prop := ∀ j, next (path j) = path (j + 1)

/-- A path through all positions of a table. -/
structure Exhausts (path : ℕ → ℕ) (size : ℕ) : Prop where
  lt : ∀ j, path j < size
  hits : ∀ p < size, ∃ j < size, path j = p

theorem seek_path {stop : ℕ → Bool} {next path : ℕ → ℕ} (hpath : IsProbing next path) {j fuel : ℕ}
    (hstop : stop (path j) = true) (hj : j < fuel) :
    ∃ i ≤ j, seek stop next fuel (path 0) = some (path i) ∧ stop (path i) = true ∧
      ∀ k < i, stop (path k) = false := by
  induction fuel generalizing path j with
  | zero => exact absurd hj (Nat.not_lt_zero j)
  | succ fuel ih =>
    cases hfirst : stop (path 0) with
    | true =>
      exact ⟨0, Nat.zero_le j, if_pos hfirst, hfirst, fun k hk => absurd hk (Nat.not_lt_zero k)⟩
    | false =>
      cases j with
      | zero => exact absurd hstop (by rw [hfirst]; exact Bool.false_ne_true)
      | succ j =>
        -- The rest of the path is a path.
        obtain ⟨i, hi, hseek, hstop, hbefore⟩ :=
          ih (fun j => hpath (j + 1) : IsProbing next fun j => path (j + 1)) hstop
            (Nat.lt_of_succ_lt_succ hj)
        refine ⟨i + 1, Nat.succ_le_succ hi, ?_, hstop, fun k hk => ?_⟩
        · rw [seek, if_neg (by rw [hfirst]; exact Bool.false_ne_true), hpath]
          exact hseek
        · cases k with
          | zero => exact hfirst
          | succ k => exact hbefore k (Nat.lt_of_succ_lt_succ hk)

/-! ### Probes by a fixed step -/

/-- The position that is probed at time `j`. -/
def probeAt (start step size j : ℕ) : ℕ := (start + j * step) % size

section Probe

variable {start step size : ℕ}

theorem probeAt_succ (j : ℕ) :
    (probeAt start step size j + step) % size = probeAt start step size (j + 1) := by
  rw [probeAt, probeAt, Nat.mod_add_mod, Nat.add_assoc, Nat.succ_mul]

theorem probeAt_zero (h : start < size) : probeAt start step size 0 = start := by
  rw [probeAt, Nat.zero_mul, Nat.add_zero, Nat.mod_eq_of_lt h]

/-- **Every position is probed.** -/
theorem exists_probeAt (hcoprime : size.Coprime step) {p : ℕ} (hp : p < size) :
    ∃ j < size, probeAt start step size j = p := by
  -- The walk from zero comes to the distance of the position.
  have hdistance : (p + (size - start % size)) % size < size := Nat.mod_lt _ (Nat.zero_lt_of_lt hp)
  have hmem : (p + (size - start % size)) % size ∈ walkFrom step size (size - 1) 0 := by
    refine (walkFrom_perm hcoprime (by omega)).mem_iff.mpr (List.mem_range.mpr ?_)
    omega
  rw [walkFrom, List.mem_filter, List.mem_map] at hmem
  obtain ⟨⟨j, hj, hwalk⟩, -⟩ := hmem
  refine ⟨j, by simpa using hj, ?_⟩
  have hstart := Nat.mod_lt start (Nat.zero_lt_of_lt hp)
  have hround := Nat.div_add_mod start size
  calc probeAt start step size j
      = (start + (p + (size - start % size))) % size := Nat.ModEq.add_left start hwalk
    _ = (p + size * (start / size + 1)) % size := by
        rw [Nat.mul_succ]
        congr 1
        omega
    _ = p := by rw [Nat.add_mul_mod_self_left, Nat.mod_eq_of_lt hp]

theorem exhausts_probeAt (hsize : 0 < size) (hcoprime : size.Coprime step) :
    Exhausts (probeAt start step size) size :=
  ⟨fun _ => Nat.mod_lt _ hsize, fun _ => exists_probeAt hcoprime⟩

end Probe

/-! ### Tables -/

section Table

variable {σ κ : Type} {used : σ → Bool} {table : List σ}

/-- Whether a position holds nothing. -/
def free (used : σ → Bool) (table : List σ) (i : ℕ) : Bool := !table[i]?.any used

variable {i p : ℕ}

theorem free_eq_true :
    free used table i = true ↔ ∀ s, table[i]? = some s → used s = false := by
  rw [free, Bool.not_eq_true', ← Bool.not_eq_true, Option.any_eq_true]
  simp

theorem free_eq_false :
    free used table i = false ↔ ∃ s, table[i]? = some s ∧ used s = true := by
  rw [free, Bool.not_eq_false', Option.any_eq_true]

/-- An entry stands on a path, behind used slots. -/
def Occupies (used : σ → Bool) (path : ℕ → ℕ) (entry : σ) (table : List σ) : Prop :=
  ∃ j < table.length, table[path j]? = some entry ∧ ∀ i < j, free used table (path i) = false

/-- Used slots stay as they are when a free one is filled. -/
theorem getElem?_set_of_used {new s : σ} (hfree : free used table p = true)
    (hs : table[i]? = some s) (hused : used s = true) : (table.set p new)[i]? = some s := by
  have hne : p ≠ i := by
    rintro rfl
    exact Bool.false_ne_true ((free_eq_true.mp hfree s hs).symm.trans hused)
  rw [List.getElem?_set_ne hne, hs]

theorem free_set {new : σ} (hfree : free used table p = true) (h : free used table i = false) :
    free used (table.set p new) i = false := by
  obtain ⟨s, hs, hused⟩ := free_eq_false.mp h
  exact free_eq_false.mpr ⟨s, getElem?_set_of_used hfree hs hused, hused⟩

theorem Occupies.set {path : ℕ → ℕ} {entry new : σ} (h : Occupies used path entry table)
    (hused : used entry = true) (hfree : free used table p = true) :
    Occupies used path entry (table.set p new) := by
  obtain ⟨j, hj, hentry, hbefore⟩ := h
  exact ⟨j, by rwa [List.length_set], getElem?_set_of_used hfree hentry hused,
    fun i hi => free_set hfree (hbefore i hi)⟩

/-- Somewhere on a path through all positions, a slot is free. -/
theorem exists_free {path : ℕ → ℕ} (hall : Exhausts path table.length)
    (hcount : table.countP used < table.length) :
    ∃ j < table.length, free used table (path j) = true := by
  obtain ⟨s, hs, hfree⟩ : ∃ s ∈ table, ¬used s = true := by
    by_contra hnone
    push Not at hnone
    exact hcount.ne (List.countP_eq_length.mpr hnone)
  obtain ⟨p, hp, rfl⟩ := List.getElem_of_mem hs
  obtain ⟨j, hj, rfl⟩ := hall.hits p hp
  refine ⟨j, hj, free_eq_true.mpr fun s hs => ?_⟩
  obtain rfl := Option.some.inj ((List.getElem?_eq_getElem hp).symm.trans hs)
  exact Bool.eq_false_of_not_eq_true hfree

/-- No two positions hold the same entry. -/
def Distinct (used : σ → Bool) (table : List σ) : Prop :=
  ∀ (i j : ℕ) s, table[i]? = some s → table[j]? = some s → used s = true → i = j

theorem Distinct.set {new : σ} (h : Distinct used table) (hnew : new ∉ table) :
    Distinct used (table.set p new) := by
  intro i j s hi hj hused
  rw [List.getElem?_set] at hi hj
  split at hi <;> split at hj
  · omega
  · split at hi
    · obtain rfl := Option.some.inj hi
      exact absurd (List.mem_of_getElem? hj) hnew
    · cases hi
  · split at hj
    · obtain rfl := Option.some.inj hj
      exact absurd (List.mem_of_getElem? hi) hnew
    · cases hj
  · exact h i j s hi hj hused

theorem countP_set_free {new : σ} (hp : p < table.length) (hfree : free used table p = true)
    (hnew : used new = true) :
    (table.set p new).countP used = table.countP used + 1 := by
  have hold : used table[p] = false := free_eq_true.mp hfree _ (List.getElem?_eq_getElem hp)
  rw [List.countP_set hp, if_neg (by rw [hold]; exact Bool.false_ne_true), if_pos hnew,
    Nat.sub_zero]

/-! ### Insertion -/

variable {next path : κ → ℕ → ℕ} {entry : κ → σ} {keys : List κ} {fuel : ℕ}

/-- Puts the entries of keys into a table, each in the first free slot of its path. -/
def insertAll (used : σ → Bool) (next : κ → ℕ → ℕ) (start : κ → ℕ) (entry : κ → σ) (fuel : ℕ) :
    List κ → List σ → Option (List σ)
  | [], table => some table
  | key :: keys, table =>
    (seek (free used table) (next key) fuel (start key)).bind fun p =>
      insertAll used next start entry fuel keys (table.set p (entry key))

/-- A table that holds the entries of some keys, and is empty elsewhere. -/
structure Filled (used : σ → Bool) (empty : σ) (path : κ → ℕ → ℕ) (entry : κ → σ) (keys : List κ)
    (table : List σ) : Prop where
  placed : ∀ k ∈ keys, Occupies used (path k) (entry k) table
  mem : ∀ s ∈ table, s = empty ∨ ∃ k ∈ keys, entry k = s
  used_entry : ∀ k ∈ keys, used (entry k) = true
  count : table.countP used = keys.length
  distinct : Distinct used table

variable {empty : σ}

theorem filled_nil (h : used empty = false) (size : ℕ) :
    Filled used empty path entry [] (List.replicate size empty) where
  placed k hk := absurd hk List.not_mem_nil
  mem s hs := .inl (List.eq_of_mem_replicate hs)
  used_entry k hk := absurd hk List.not_mem_nil
  count := by
    refine List.countP_eq_zero.mpr fun s hs => ?_
    rw [List.eq_of_mem_replicate hs, h]
    exact Bool.false_ne_true
  distinct i j s hi _ hused := by
    rw [List.eq_of_mem_replicate (List.mem_of_getElem? hi), h] at hused
    exact absurd hused Bool.false_ne_true

section

variable (h : Filled used empty path entry keys table) (hempty : used empty = false)

include h hempty

theorem Filled.exists_key {s : σ} (hs : s ∈ table) (hused : used s = true) :
    ∃ k ∈ keys, entry k = s := by
  rcases h.mem s hs with rfl | hk
  · exact absurd hused (by rw [hempty]; exact Bool.false_ne_true)
  · exact hk

/-- **One more entry.** -/
theorem Filled.insert {key : κ} (hused : used (entry key) = true)
    (hpath : IsProbing (next key) (path key)) (hall : Exhausts (path key) table.length)
    (hroom : keys.length < table.length) (hfuel : table.length ≤ fuel)
    (hnew : ∀ k ∈ keys, entry k ≠ entry key) :
    ∃ p, seek (free used table) (next key) fuel (path key 0) = some p ∧
      Filled used empty path entry (keys ++ [key]) (table.set p (entry key)) := by
  obtain ⟨j, hj, hfree⟩ := exists_free hall (h.count.trans_lt hroom)
  obtain ⟨i, hi, hseek, hstop, hbefore⟩ := seek_path hpath hfree (hj.trans_le hfuel)
  refine ⟨path key i, hseek, ?_, ?_, ?_, ?_, ?_⟩
  · intro k hk
    rcases List.mem_append.mp hk with hk | hk
    · exact (h.placed k hk).set (h.used_entry k hk) hstop
    · obtain rfl := List.mem_singleton.mp hk
      refine ⟨i, by rw [List.length_set]; omega, ?_, fun k hk => free_set hstop (hbefore k hk)⟩
      rw [List.getElem?_set_self (hall.lt i)]
  · intro s hs
    rcases List.mem_or_eq_of_mem_set hs with hs | rfl
    · refine (h.mem s hs).imp_right ?_
      rintro ⟨k, hk, rfl⟩
      exact ⟨k, List.mem_append_left _ hk, rfl⟩
    · exact .inr ⟨key, List.mem_append_right _ List.mem_cons_self, rfl⟩
  · exact List.forall_mem_append.mpr ⟨h.used_entry, List.forall_mem_singleton.mpr hused⟩
  · rw [countP_set_free (hall.lt i) hstop hused, h.count, List.length_append]
    rfl
  · refine h.distinct.set fun hmem => ?_
    obtain ⟨k, hk, heq⟩ := h.exists_key hempty hmem hused
    exact hnew k hk heq

/-- **All entries.** -/
theorem Filled.insertAll {more : List κ} (hused : ∀ k ∈ more, used (entry k) = true)
    (hpath : ∀ k ∈ more, IsProbing (next k) (path k))
    (hall : ∀ k ∈ more, Exhausts (path k) table.length)
    (hroom : keys.length + more.length < table.length) (hfuel : table.length ≤ fuel)
    (hnodup : ((keys ++ more).map entry).Nodup) :
    ∃ filled, insertAll used next (fun k => path k 0) entry fuel more table = some filled ∧
      filled.length = table.length ∧ Filled used empty path entry (keys ++ more) filled := by
  induction more generalizing keys table with
  | nil => exact ⟨table, rfl, rfl, by rwa [List.append_nil]⟩
  | cons key more ih =>
    have hnew : ∀ k ∈ keys, entry k ≠ entry key := by
      rw [List.map_append, List.map_cons] at hnodup
      exact fun k hk => (List.nodup_append.mp hnodup).2.2 _ (List.mem_map_of_mem hk) _
        List.mem_cons_self
    rw [List.length_cons] at hroom
    obtain ⟨p, hseek, hfilled⟩ := h.insert hempty (hused key List.mem_cons_self)
      (hpath key List.mem_cons_self) (hall key List.mem_cons_self) (by omega) hfuel hnew
    have hlength : (table.set p (entry key)).length = table.length := List.length_set
    obtain ⟨filled, hinsert, hsame, hall'⟩ := ih hfilled
      (fun k hk => hused k (List.mem_cons_of_mem _ hk))
      (fun k hk => hpath k (List.mem_cons_of_mem _ hk))
      (fun k hk => hlength.symm ▸ hall k (List.mem_cons_of_mem _ hk))
      (by rw [hlength, List.length_append, List.length_singleton]; omega) (hlength.symm ▸ hfuel)
      (by rwa [List.append_assoc, List.singleton_append])
    refine ⟨filled, ?_, hsame.trans hlength, ?_⟩
    · rw [Lib.insertAll, hseek, Option.bind_some, hinsert]
    · rwa [List.append_assoc, List.singleton_append] at hall'

end

/-! ### Lookup -/

/-- A test that ends a lookup: nothing is there, or what is looked for. -/
def Ends (used matches_ : σ → Bool) (table : List σ) (stop : ℕ → Bool) : Prop :=
  ∀ i s, table[i]? = some s → stop i = (!used s || matches_ s)

variable {matches_ : σ → Bool} {stop : ℕ → Bool} {step : ℕ → ℕ}

/-- **What is there is found.** -/
theorem Filled.seek_entry (h : Filled used empty path entry keys table)
    (hempty : used empty = false) {key : κ} (hkey : key ∈ keys)
    (hpath : IsProbing step (path key)) (hstop : Ends used matches_ table stop)
    (hmatch : matches_ (entry key) = true)
    (honly : ∀ k ∈ keys, matches_ (entry k) = true → entry k = entry key)
    (hfuel : table.length ≤ fuel) :
    ∃ p, seek stop step fuel (path key 0) = some p ∧ table[p]? = some (entry key) := by
  obtain ⟨j, hj, hentry, hbefore⟩ := h.placed key hkey
  have hends : stop (path key j) = true := by rw [hstop _ _ hentry, hmatch, Bool.or_true]
  obtain ⟨i, hi, hseek, hend, -⟩ := seek_path hpath hends (hj.trans_le hfuel)
  refine ⟨path key i, hseek, ?_⟩
  rcases hi.lt_or_eq with hlt | rfl
  · obtain ⟨s, hs, hs'⟩ := free_eq_false.mp (hbefore i hlt)
    -- A match before the place of the key is its entry all the same.
    rw [hstop _ _ hs, hs', Bool.not_true, Bool.false_or] at hend
    obtain ⟨k, hk, rfl⟩ := h.exists_key hempty (List.mem_of_getElem? hs) hs'
    rw [hs, honly k hk hend]
  · exact hentry

/-- **What is not there is not found.** -/
theorem Filled.seek_free (h : Filled used empty path entry keys table)
    (hempty : used empty = false) {path : ℕ → ℕ}
    (hpath : IsProbing step path) (hall : Exhausts path table.length)
    (hstop : Ends used matches_ table stop) (hno : ∀ k ∈ keys, matches_ (entry k) = false)
    (hroom : keys.length < table.length) (hfuel : table.length ≤ fuel) :
    ∃ p s, seek stop step fuel (path 0) = some p ∧ table[p]? = some s ∧ used s = false := by
  obtain ⟨j, hj, hfree⟩ := exists_free hall (h.count.trans_lt hroom)
  have hget (j : ℕ) : ∃ s, table[path j]? = some s := ⟨_, List.getElem?_eq_getElem (hall.lt j)⟩
  obtain ⟨s, hs⟩ := hget j
  have hends : stop (path j) = true := by
    rw [hstop _ _ hs, free_eq_true.mp hfree s hs]
    rfl
  obtain ⟨i, -, hseek, hend, -⟩ := seek_path hpath hends (hj.trans_le hfuel)
  obtain ⟨s, hs⟩ := hget i
  refine ⟨path i, s, hseek, hs, Bool.eq_false_of_not_eq_true fun hused => ?_⟩
  obtain ⟨k, hk, rfl⟩ := h.exists_key hempty (List.mem_of_getElem? hs) hused
  rw [hstop _ _ hs, hused, hno k hk] at hend
  cases hend

end Table

end Qld.Lib
