import Qld.Elf.Read.Strtab
import Qld.Lib.Segments
import Qld.Lib.SortedGroups

/-!
# String tables

The model of `StrTab` of `elf/dynsym.rs`, a string table under construction that stores every string
once.  The hash is a parameter, and so is the number of strings one task copies.

* `StrTab.find`, `StrTab.add` — one string;
* `StrTab.addAll` — many strings, whose duplicates are found by sorting them by hash, and whose
  contents are copied in chunks; `leadRun`, `assign`, `copyTasks` — its loops;
* `StrTab.addEach` — the same strings one by one.
-/

namespace Qld.Elf.Dynsym

open Qld.Elf.Read Qld.Lib

def U32_MAX : ℕ := 4294967295

/-- `u32::try_from(i).unwrap_or(u32::MAX)`. -/
def saturateU32 (n : ℕ) : ℕ := if n ≤ U32_MAX then n else U32_MAX

inductive Error where
  | limit (message : String)
  deriving DecidableEq

def tooLarge : Error := .limit "dynamic string table larger than 4 GiB"

/-- A string table under construction. -/
structure StrTab where
  data : List UInt8
  /-- Hashes and offsets of the strings added one by one. -/
  seen : List (ℕ × ℕ)
  /-- Hashes and offsets of the strings added together, sorted. -/
  bulk : List (ℕ × ℕ)

/-- The string at an offset, without its terminator. -/
def stringAt (data : List UInt8) (offset : ℕ) : List UInt8 :=
  let rest := data.drop offset
  rest.take ((findNul rest).getD rest.length)

/-! ### Parts of adding strings together -/

/-- One new string of a run, behind those in `before`: the first one with its text leads it. -/
def lead (texts : List (List UInt8)) (before : List ℕ) (leader : ℕ → ℕ) (i : ℕ) : ℕ → ℕ :=
  match before.find? fun j => leader j = j ∧ texts.getD j [] = texts.getD i [] with
  | some first => Function.update leader i first
  | none => leader

/-- The new strings of a run, which have one hash. -/
def leadRun (texts : List (List UInt8)) : List ℕ → (ℕ → ℕ) → List ℕ → (ℕ → ℕ)
  | _, leader, [] => leader
  | before, leader, i :: rest =>
    leadRun texts (before ++ [i]) (lead texts before leader i) rest

/-- What the pass over the strings has found: their offsets, the end of the table, and the strings
to copy with their offsets. -/
structure Assigned where
  offsets : List ℕ
  cursor : ℕ
  copies : List (ℕ × ℕ)

/-- One string of the pass: it is there already, leads its run, or has what its leader has.  The sum
of lengths of strings in memory does not overflow. -/
def assignStep (texts : List (List UInt8)) (leader : ℕ → ℕ) (s : Assigned)
    (x : (ℕ × Option ℕ) × ℕ) : Except Error Assigned :=
  match x.1.2 with
  | some offset => .ok { s with offsets := s.offsets ++ [offset] }
  | none =>
    if leader x.2 = x.2 then
      if s.cursor ≤ U32_MAX then
        .ok { offsets := s.offsets ++ [s.cursor]
              cursor := s.cursor + (texts.getD x.2 []).length + 1
              copies := s.copies ++ [(x.2, s.cursor)] }
      else .error tooLarge
    else .ok { s with offsets := s.offsets ++ [s.offsets.getD (leader x.2) 0] }

/-- One task: copies a run of consecutive strings into its own slice of the new data. -/
def copyTask (texts : List (List UInt8)) (chunk : List (ℕ × ℕ)) (out : List UInt8) : List UInt8 :=
  let base := chunk.head?.elim 0 (·.2)
  chunk.foldl (fun out copy =>
    let at_ := copy.2 - base
    let text := texts.getD copy.1 []
    if at_ + text.length ≤ out.length then overwrite out at_ text else out) out

/-- The tasks, each with its slice, and what is behind them. -/
def copyTasks (texts : List (List UInt8)) :
    ℕ → List (List (ℕ × ℕ)) → List UInt8 → List UInt8
  | _, [], rest => rest
  | base, chunk :: chunks, rest =>
    let stop := chunk.getLast?.elim base fun copy => copy.2 + (texts.getD copy.1 []).length + 1
    copyTask texts chunk (rest.take (stop - base)) ++
      copyTasks texts stop chunks (rest.drop (stop - base))

/-- The order of hashes and what stands behind them. -/
def pairLE (a b : ℕ × ℕ) : Bool := a.1 < b.1 || (a.1 = b.1 && a.2 ≤ b.2)

/-- The new strings by hash and position. -/
def order (found : List (ℕ × Option ℕ)) : List ℕ :=
  (((List.range found.length).filter fun i => (found.getD i (0, none)).2 = none).map
    saturateU32).mergeSort fun i j =>
      pairLE ((found.getD i (0, none)).1, i) ((found.getD j (0, none)).1, j)

/-- The string each string takes its offset from. -/
def leaders (texts : List (List UInt8)) (found : List (ℕ × Option ℕ)) : ℕ → ℕ :=
  ((order found).splitBy fun i j =>
    (found.getD i (0, none)).1 == (found.getD j (0, none)).1).foldl
      (fun leader run => leadRun texts [] leader run) saturateU32

/-- `slice::chunks`. -/
def chunks {α : Type} (size : ℕ) (xs : List α) : List (List α) :=
  if xs = [] ∨ size = 0 then [] else xs.take size :: chunks size (xs.drop size)
termination_by xs.length
decreasing_by
  next h =>
    have := List.length_pos_iff.mpr fun hnil => h (.inl hnil)
    rw [List.length_drop]
    omega

theorem flatten_chunks {α : Type} {size : ℕ} (hsize : 0 < size) (xs : List α) :
    (chunks size xs).flatten = xs := by
  fun_induction chunks size xs with
  | case1 xs h =>
    rcases h with rfl | h
    · rfl
    · omega
  | case2 xs h ih => rw [List.flatten_cons, ih, List.take_append_drop]

namespace StrTab

def new : StrTab :=
  { data := [0]
    seen := []
    bulk := [] }

/-- The offset of a text if it was added already. -/
def find (t : StrTab) (hash : ℕ) (text : List UInt8) : Option ℕ :=
  match t.seen.find? fun entry => entry.1 = hash ∧ stringAt t.data entry.2 = text with
  | some entry => some entry.2
  | none =>
    let start := partitionPoint (fun entry => entry.1 < hash) t.bulk
    (((t.bulk.drop start).takeWhile fun entry => entry.1 = hash).find? fun entry =>
      stringAt t.data entry.2 = text).map (·.2)

section Hash

variable (hash : List UInt8 → ℕ)

def add (t : StrTab) (text : List UInt8) : Except Error (ℕ × StrTab) :=
  if text = [] then .ok (0, t)
  else
    match t.find (hash text) text with
    | some offset => .ok (offset, t)
    | none =>
      if t.data.length ≤ U32_MAX then
        .ok (t.data.length,
          { t with
            data := t.data ++ text ++ [0]
            seen := t.seen ++ [(hash text, t.data.length)] })
      else .error tooLarge

/-- Every text with its hash, and its offset if it is there already. -/
def found (t : StrTab) (texts : List (List UInt8)) : List (ℕ × Option ℕ) :=
  texts.map fun text => if text = [] then (0, some 0) else (hash text, t.find (hash text) text)

/-- Adds texts in order and returns their offsets.  A task copies `chunk` strings. -/
def addAll (chunk : ℕ) (t : StrTab) (texts : List (List UInt8)) :
    Except Error (List ℕ × StrTab) := do
  let found := t.found hash texts
  let leader := leaders texts found
  let assigned ← found.zipIdx.foldlM (assignStep texts leader)
    { offsets := [], cursor := t.data.length, copies := [] }
  if assigned.cursor ≤ U32_MAX then
    let start := t.data.length
    .ok (assigned.offsets,
      { t with
        data := t.data ++ copyTasks texts start (chunks chunk assigned.copies)
          (List.replicate (assigned.cursor - start) 0)
        bulk := (t.bulk ++ assigned.copies.map fun copy =>
          ((found.getD copy.1 (0, none)).1, copy.2)).mergeSort pairLE })
  else .error tooLarge

/-- Adds texts one by one. -/
def addEach (t : StrTab) : List (List UInt8) → Except Error (List ℕ × StrTab)
  | [] => .ok ([], t)
  | text :: texts => do
    let (offset, t) ← t.add hash text
    let (offsets, t) ← addEach t texts
    .ok (offset :: offsets, t)

end Hash

end StrTab

end Qld.Elf.Dynsym
