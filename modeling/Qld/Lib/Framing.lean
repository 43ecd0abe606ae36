import Mathlib.Data.List.Basic

/-!
# Framed records

A text that is a sequence of records, each of which tells where it ends.

* `readMany` — reads records until the text ends;
* `readMany_flatMap` — it gives back records that a writer put one after the other.
-/

namespace Qld.Lib

variable {α β ρ : Type*}

/-- Reads records until the text ends; at most `fuel` of them. -/
def readMany (read : List β → Option (ρ × List β)) : ℕ → List β → Option (List ρ)
  | _, [] => some []
  | 0, _ :: _ => none
  | fuel + 1, b :: text =>
    match read (b :: text) with
    | none => none
    | some (record, rest) => (readMany read fuel rest).map (record :: ·)

variable {write : α → List β} (records : List α)

theorem length_le_flatMap (hne : ∀ r ∈ records, write r ≠ []) :
    records.length ≤ (records.flatMap write).length := by
  induction records with
  | nil => exact Nat.zero_le _
  | cons r records ih =>
    have hr : 0 < (write r).length := List.length_pos_iff.mpr (hne r List.mem_cons_self)
    have hrest := ih fun q hq => hne q (List.mem_cons_of_mem _ hq)
    rw [List.flatMap_cons, List.length_append, List.length_cons]
    omega

variable {read : List β → Option (ρ × List β)} {value : α → ρ}

theorem readMany_of_length_le (hne : ∀ r ∈ records, write r ≠ [])
    (hread : ∀ r ∈ records, ∀ rest, read (write r ++ rest) = some (value r, rest)) :
    ∀ fuel, records.length ≤ fuel →
      readMany read fuel (records.flatMap write) = some (records.map value) := by
  induction records with
  | nil =>
    intro fuel _
    cases fuel with
    | zero => rfl
    | succ fuel => rfl
  | cons r records ih =>
    intro fuel hfuel
    rw [List.length_cons] at hfuel
    obtain ⟨fuel, rfl⟩ := Nat.exists_eq_add_of_lt hfuel
    have hr := hread r List.mem_cons_self (records.flatMap write)
    have hrest := ih (fun q hq => hne q (List.mem_cons_of_mem _ hq))
      (fun q hq => hread q (List.mem_cons_of_mem _ hq)) (records.length + fuel) (by omega)
    rw [List.flatMap_cons]
    cases hw : write r ++ records.flatMap write with
    | nil => exact absurd (List.append_eq_nil_iff.mp hw).1 (hne r List.mem_cons_self)
    | cons b text =>
      rw [hw] at hr
      rw [readMany, hr]
      show (readMany read (records.length + fuel) (records.flatMap write)).map _ = _
      rw [hrest]
      rfl

/-- **Records written one after the other are read back.**  `value` is what the reader
makes of a record. -/
theorem readMany_flatMap (hne : ∀ r ∈ records, write r ≠ [])
    (hread : ∀ r ∈ records, ∀ rest, read (write r ++ rest) = some (value r, rest)) :
    readMany read (records.flatMap write).length (records.flatMap write) =
      some (records.map value) :=
  readMany_of_length_le records hne hread _ (length_le_flatMap records hne)

end Qld.Lib
