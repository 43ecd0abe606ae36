import Mathlib.Data.List.Forall2

/-!
# Computations that may fail

* `okOrElse` — an option as a computation; `hex` — a number in a message; `ascii` — a text as bytes;
* `bind_eq_ok` — a sequence succeeds when both parts do;
* `mapM_eq_ok` — a traversal succeeds when it does at every element.
-/

namespace Qld.Lib

variable {ε α β : Type}

/-- `ok_or_else`: the value, or an error. -/
def okOrElse (x : Option α) (e : ε) : Except ε α := x.elim (.error e) .ok

/-- A number in a message, in hexadecimal. -/
def hex (value : ℕ) : String := "0x" ++ String.ofList (Nat.toDigits 16 value)

/-- The bytes of a text. -/
def ascii (text : String) : List UInt8 := text.toList.map fun c => UInt8.ofNat c.toNat

theorem okOrElse_eq_ok {x : Option α} {e : ε} {a : α} : okOrElse x e = .ok a ↔ x = some a := by
  cases x with
  | none => exact ⟨fun h => (nomatch h), fun h => (nomatch h)⟩
  | some b => exact ⟨fun h => congrArg some (Except.ok.inj h), fun h => congrArg _ (Option.some.inj h)⟩

theorem exists_ok_of_isOk {x : Except ε α} (h : x.isOk = true) : ∃ a, x = .ok a := by
  cases x with
  | error e => exact absurd h Bool.false_ne_true
  | ok a => exact ⟨a, rfl⟩

@[simp] theorem toOption_ok (a : α) : (.ok a : Except ε α).toOption = some a := rfl

variable {x : Except ε α} {f : α → Except ε β}

theorem bind_eq_ok {b : β} :
    (x >>= f) = .ok b ↔ ∃ a, x = .ok a ∧ f a = .ok b := by
  cases x with
  | error e => exact ⟨fun h => (nomatch h), fun ⟨_, h, _⟩ => (nomatch h)⟩
  | ok a => exact ⟨fun h => ⟨a, rfl, h⟩, fun ⟨_, ha, h⟩ => Except.ok.inj ha ▸ h⟩

theorem ite_error_eq_ok {p : Prop} [Decidable p] {e : ε} {a : α} :
    (if p then .error e else x) = .ok a ↔ ¬p ∧ x = .ok a := by
  split
  · next hp => exact ⟨fun h => (nomatch h), fun h => absurd hp h.1⟩
  · next hp => exact ⟨fun h => ⟨hp, h⟩, fun h => h.2⟩

theorem map_eq_ok {f : α → β} {b : β} :
    x.map f = .ok b ↔ ∃ a, x = .ok a ∧ f a = b := by
  cases x with
  | error e => exact ⟨fun h => (nomatch h), fun ⟨_, h, _⟩ => (nomatch h)⟩
  | ok a =>
    refine ⟨fun h => ⟨a, rfl, Except.ok.inj h⟩, ?_⟩
    rintro ⟨_, ha, rfl⟩
    rw [← Except.ok.inj ha]
    rfl

variable {l : List α} {m : List β}

/-- **A traversal succeeds when it does at every element.** -/
theorem mapM_eq_ok :
    l.mapM f = .ok m ↔ List.Forall₂ (fun x y => f x = .ok y) l m := by
  induction l generalizing m with
  | nil =>
    rw [List.mapM_nil, List.forall₂_nil_left_iff]
    exact ⟨fun h => (Except.ok.inj h).symm, fun h => by rw [h]; rfl⟩
  | cons x l ih =>
    rw [List.mapM_cons, bind_eq_ok, List.forall₂_cons_left_iff]
    refine ⟨?_, ?_⟩
    · rintro ⟨y, hy, h⟩
      obtain ⟨ys, hys, h⟩ := bind_eq_ok.mp h
      exact ⟨y, ys, hy, ih.mp hys, (Except.ok.inj h).symm⟩
    · rintro ⟨y, ys, hy, hys, rfl⟩
      exact ⟨y, hy, bind_eq_ok.mpr ⟨ys, ih.mpr hys, rfl⟩⟩

theorem exists_right_of_forall₂ {R : α → β → Prop} (h : List.Forall₂ R l m) :
    ∀ x ∈ l, ∃ y ∈ m, R x y := by
  induction h with
  | nil => exact fun x hx => absurd hx List.not_mem_nil
  | cons hxy _ ih =>
    refine List.forall_mem_cons.mpr ⟨⟨_, List.mem_cons_self, hxy⟩, fun z hz => ?_⟩
    obtain ⟨y, hy, hzy⟩ := ih z hz
    exact ⟨y, List.mem_cons_of_mem _ hy, hzy⟩

theorem getElem?_of_forall₂ {R : α → β → Prop} (h : List.Forall₂ R l m) :
    ∀ (j : ℕ) (y : β), m[j]? = some y → ∃ x, l[j]? = some x ∧ R x y := by
  induction h with
  | nil => exact fun j y hy => nomatch hy
  | cons hxy _ ih =>
    intro j y hy
    cases j with
    | zero =>
      obtain rfl := Option.some.inj hy
      exact ⟨_, rfl, hxy⟩
    | succ j => exact ih j y hy

theorem exists_mapM_eq_ok (h : ∀ x ∈ l, ∃ y, f x = .ok y) :
    ∃ m, l.mapM f = .ok m := by
  induction l with
  | nil => exact ⟨[], rfl⟩
  | cons x l ih =>
    obtain ⟨y, hy⟩ := h x List.mem_cons_self
    obtain ⟨ys, hys⟩ := ih fun z hz => h z (List.mem_cons_of_mem _ hz)
    exact ⟨y :: ys, mapM_eq_ok.mpr (.cons hy (mapM_eq_ok.mp hys))⟩

theorem mapM_eq_ok_map {g : α → β} (h : ∀ x ∈ l, f x = .ok (g x)) : l.mapM f = .ok (l.map g) := by
  refine mapM_eq_ok.mpr (List.forall₂_map_right_iff.mpr ?_)
  induction l with
  | nil => exact .nil
  | cons x l ih =>
    exact .cons (h x List.mem_cons_self) (ih fun y hy => h y (List.mem_cons_of_mem _ hy))

theorem eq_map_of_mapM_eq_ok {g : α → β} (h : l.mapM f = .ok m)
    (hg : ∀ x ∈ l, ∀ y, f x = .ok y → y = g x) : m = l.map g := by
  have hall := mapM_eq_ok.mp h
  clear h
  induction hall with
  | nil => rfl
  | cons hxy _ ih =>
    rw [List.map_cons, ← hg _ List.mem_cons_self _ hxy,
      ih fun x hx => hg x (List.mem_cons_of_mem _ hx)]

end Qld.Lib
