import Mathlib.Data.List.Basic

/-!
# Linked records

Records in a table, each with the distance to the next one.  A distance of 0 ends the list.

* `walkLinks` — follows the links from a position;
* `Linked` — records that follow each other without gaps, linked by their sizes;
* `walkLinks_of_linked` — the walk visits these records, and no other.
-/

namespace Qld.Lib

variable {β : Type}

/-- Follows the links: `record` reads what is at a position, and the distance to the next record. -/
def walkLinks (record : ℕ → Option (β × ℕ)) : ℕ → ℕ → Option (List β)
  | 0, _ => none
  | fuel + 1, pos => do
    let r ← record pos
    if r.2 = 0 then some [r.1]
    else do
      let rest ← walkLinks record fuel (pos + r.2)
      some (r.1 :: rest)

/-- Records that follow each other, given with their sizes. -/
def Linked (record : ℕ → Option (β × ℕ)) : ℕ → List (β × ℕ) → Prop
  | _, [] => True
  | pos, r :: rest =>
    record pos = some (r.1, if rest = [] then 0 else r.2) ∧ 0 < r.2 ∧
      Linked record (pos + r.2) rest

/-- **The walk.** -/
theorem walkLinks_of_linked {record : ℕ → Option (β × ℕ)} {records : List (β × ℕ)} :
    ∀ {pos fuel : ℕ}, Linked record pos records → records ≠ [] → records.length ≤ fuel →
      walkLinks record fuel pos = some (records.map (·.1)) := by
  induction records with
  | nil => exact fun _ hne => absurd rfl hne
  | cons r rest ih =>
    rintro pos fuel ⟨hrecord, hsize, hrest⟩ _ hfuel
    obtain ⟨fuel, rfl⟩ := Nat.exists_eq_add_of_le' (Nat.one_le_of_lt hfuel)
    rw [walkLinks, hrecord, Option.bind_eq_bind, Option.bind_some]
    by_cases hlast : rest = []
    · subst hlast
      rfl
    · rw [if_neg hlast, if_neg (Nat.ne_of_gt hsize),
        ih hrest hlast (Nat.le_of_succ_le_succ hfuel)]
      rfl

end Qld.Lib
