import Qld.Script.Pattern

/-!
# The matcher of globs

* `Matches` — the declarative meaning of a token list: a star stands for any run of bytes;
* `matchLoop_spec`, `Glob.matches_iff` — the matcher, which goes back to the last star
  only, terminates and decides it.
-/

namespace Qld.Script

/-! ### The meaning of tokens -/

/-- A token list matches a name. -/
inductive Matches : List Tok → List UInt8 → Prop
  | nil : Matches [] []
  | star {toks : List Tok} (run : List UInt8) {s : List UInt8} :
      Matches toks s → Matches (.star :: toks) (run ++ s)
  | one {tok : Tok} {toks : List Tok} {b : UInt8} {s : List UInt8} :
      tok.accepts b = true → Matches toks s → Matches (tok :: toks) (b :: s)

variable {s u i : List UInt8}

theorem matches_nil : Matches [] s ↔ s = [] := by
  refine ⟨fun h => ?_, fun h => h ▸ .nil⟩
  cases h
  rfl

theorem matches_star {toks : List Tok} :
    Matches (.star :: toks) s ↔ ∃ run t, s = run ++ t ∧ Matches toks t := by
  refine ⟨fun h => ?_, ?_⟩
  · cases h with
    | star run h => exact ⟨run, _, rfl, h⟩
    | one haccepts _ => cases haccepts
  · rintro ⟨run, t, rfl, h⟩
    exact .star run h

theorem matches_one {tok : Tok} {toks : List Tok} (htok : tok ≠ .star) :
    Matches (tok :: toks) s ↔
      ∃ b t, s = b :: t ∧ tok.accepts b = true ∧ Matches toks t := by
  refine ⟨fun h => ?_, ?_⟩
  · cases h with
    | star run h => exact absurd rfl htok
    | one haccepts h => exact ⟨_, _, rfl, haccepts, h⟩
  · rintro ⟨b, t, rfl, haccepts, h⟩
    exact .one haccepts h

variable {p w : List Tok}

theorem matches_append {q : List Tok} :
    Matches (p ++ q) s ↔ ∃ u v, s = u ++ v ∧ Matches p u ∧ Matches q v := by
  refine ⟨fun h => ?_, ?_⟩
  · induction p generalizing s with
    | nil => exact ⟨[], s, rfl, .nil, h⟩
    | cons tok p ih =>
      cases h with
      | star run h =>
        obtain ⟨u, v, rfl, hu, hv⟩ := ih h
        exact ⟨run ++ u, v, (List.append_assoc _ _ _).symm, .star run hu, hv⟩
      | one haccepts h =>
        obtain ⟨u, v, rfl, hu, hv⟩ := ih h
        exact ⟨_ :: u, v, rfl, .one haccepts hu, hv⟩
  · rintro ⟨u, v, rfl, hu, hv⟩
    induction hu with
    | nil => exact hv
    | star run _ ih =>
      rw [List.append_assoc]
      exact .star run ih
    | one haccepts _ ih => exact .one haccepts ih

/-! ### The matcher -/

/-- The bytes consumed by tokens that are no stars. -/
def Consumes (toks : List Tok) (bytes : List UInt8) : Prop :=
  List.Forall₂ (fun tok b => tok.accepts b = true) toks bytes

theorem matches_of_consumes (h : Consumes w u) (hp : Matches p i) : Matches (w ++ p) (u ++ i) := by
  induction h with
  | nil => exact hp
  | cons haccepts _ ih => exact .one haccepts ih

/-- Tokens that are no stars consume as many bytes wherever they match. -/
theorem matches_append_consumes (h : Consumes w u) (hs : Matches (w ++ p) s) :
    ∃ v t, s = v ++ t ∧ v.length = u.length ∧ Matches p t := by
  induction h generalizing s with
  | nil => exact ⟨[], s, rfl, rfl, hs⟩
  | @cons tok b w u haccepts _ ih =>
    cases hs with
    | star run _ => cases haccepts
    | one _ hs =>
      obtain ⟨v, t, rfl, hlen, ht⟩ := ih hs
      exact ⟨_ :: v, t, rfl, by rw [List.length_cons, List.length_cons, hlen], ht⟩

/-- Behind tokens that are no stars, the rest matches where it stands. -/
theorem matches_rest (h : Consumes w u) :
    Matches (w ++ p) (u ++ i) ↔ Matches p i := by
  refine ⟨fun hs => ?_, matches_of_consumes h⟩
  obtain ⟨v, t, heq, hlen, ht⟩ := matches_append_consumes h hs
  rwa [(List.append_inj heq hlen.symm).2]

/-- **Going back to the last star only.**  What the tokens from an earlier star on match,
those from a later one on match where the later one was met. -/
theorem matches_last_star (h : Consumes w u) :
    Matches (.star :: (w ++ .star :: p)) (u ++ i) ↔ Matches (.star :: p) i := by
  refine ⟨fun hs => ?_, fun hi => ?_⟩
  · obtain ⟨run, t, heq, ht⟩ := matches_star.mp hs
    obtain ⟨v, t', rfl, hlen, ht'⟩ := matches_append_consumes h ht
    obtain ⟨run', t'', rfl, ht''⟩ := matches_star.mp ht'
    -- What the star was tried on before is an end of what is left now.
    have hsuffix : run' ++ t'' <:+ i := by
      have hend : run' ++ t'' <:+ u ++ i := ⟨run ++ v, by rw [heq, List.append_assoc]⟩
      refine List.suffix_of_suffix_length_le hend ⟨u, rfl⟩ ?_
      have := congrArg List.length heq
      simp only [List.length_append] at this ⊢
      omega
    obtain ⟨more, rfl⟩ := hsuffix
    rw [← List.append_assoc]
    exact .star _ ht''
  · have := Matches.star [] (matches_of_consumes (p := .star :: p) h hi)
    simpa using this

/-- When the rest does not match where it stands, the star absorbs one more byte. -/
theorem matches_absorb (h : Consumes w u) (hnot : ¬Matches p i) :
    Matches (.star :: (w ++ p)) (u ++ i) ↔
      ∃ b rest, u ++ i = b :: rest ∧ Matches (.star :: (w ++ p)) rest := by
  rw [matches_star]
  refine ⟨?_, ?_⟩
  · rintro ⟨run, t, heq, ht⟩
    cases run with
    | nil =>
      rw [List.nil_append] at heq
      rw [← heq, matches_rest h] at ht
      exact absurd ht hnot
    | cons b run => exact ⟨b, run ++ t, heq, .star run ht⟩
  · rintro ⟨b, rest, heq, hrest⟩
    obtain ⟨run, t, rfl, ht⟩ := matches_star.mp hrest
    exact ⟨b :: run, t, heq, ht⟩

section

variable {tok : Tok} {toks : List Tok} (htok : tok ≠ .star)

include htok

theorem not_matches_nil : ¬Matches (tok :: toks) [] := by
  rw [matches_one htok]
  rintro ⟨b, t, heq, -⟩
  cases heq

theorem not_matches_cons {byte : UInt8} (h : ¬tok.accepts byte = true) :
    ¬Matches (tok :: toks) (byte :: i) := by
  rw [matches_one htok]
  rintro ⟨b, t, heq, haccepts, -⟩
  rw [(List.cons.inj heq).1] at h
  exact h haccepts

theorem matchLoop_nil (fuel : ℕ) (saved : Option (List Tok × List UInt8)) :
    matchLoop (fuel + 1) (tok :: toks, [], saved) = absorb (matchLoop fuel) saved := by
  cases tok <;> first | exact absurd rfl htok | rfl

theorem matchLoop_cons (fuel : ℕ) (byte : UInt8) (saved : Option (List Tok × List UInt8)) :
    matchLoop (fuel + 1) (tok :: toks, byte :: i, saved) =
      if tok.accepts byte then matchLoop fuel (toks, i, saved)
      else absorb (matchLoop fuel) saved := by
  cases tok <;> first | exact absurd rfl htok | rfl

end

/-- The matcher behind a star.  `bound` bounds the number of tokens. -/
theorem matchLoop_star (bound fuel : ℕ) :
    ∀ (p w : List Tok) (u i : List UInt8), Consumes w u → (w ++ p).length ≤ bound →
      (u ++ i).length * (bound + 1) + p.length < fuel →
      ∃ b, matchLoop fuel (p, i, some (w ++ p, u ++ i)) = some b ∧
        (b = true ↔ Matches (.star :: (w ++ p)) (u ++ i)) := by
  induction fuel with
  | zero => exact fun p w u i _ _ hfuel => absurd hfuel (Nat.not_lt_zero _)
  | succ fuel ih =>
    intro p w u i hconsumes hbound hfuel
    have habsorb : ¬Matches p i → ∃ b,
        absorb (matchLoop fuel) (some (w ++ p, u ++ i)) = some b ∧
          (b = true ↔ Matches (.star :: (w ++ p)) (u ++ i)) := by
      intro hnot
      rw [matches_absorb hconsumes hnot]
      cases hrest : u ++ i with
      | nil => exact ⟨false, rfl, by simp⟩
      | cons byte rest =>
        rw [hrest, List.length_cons, Nat.succ_mul] at hfuel
        obtain ⟨b, hb, hmatches⟩ := ih (w ++ p) [] [] rest .nil hbound (by
          simp only [List.nil_append]
          omega)
        refine ⟨b, hb, hmatches.trans ⟨fun h => ⟨byte, rest, rfl, h⟩, ?_⟩⟩
        rintro ⟨byte', rest', heq, h⟩
        rw [(List.cons.inj heq).2]
        exact h
    cases p with
    | nil =>
      rw [matchLoop]
      by_cases hi : i = []
      · subst hi
        refine ⟨true, if_pos rfl, iff_of_true rfl ?_⟩
        exact .star [] (matches_of_consumes hconsumes .nil)
      · rw [if_neg hi]
        exact habsorb fun h => hi (matches_nil.mp h)
    | cons tok p =>
      by_cases htok : tok = .star
      · subst htok
        rw [List.length_append, List.length_cons] at hbound
        rw [List.length_append, List.length_cons, Nat.add_mul] at hfuel
        obtain ⟨b, hb, hmatches⟩ := ih p [] [] i .nil (by simp; omega) (by simp; omega)
        exact ⟨b, hb, hmatches.trans (matches_last_star hconsumes).symm⟩
      · cases i with
        | nil =>
          rw [matchLoop_nil htok]
          exact habsorb (not_matches_nil htok)
        | cons byte i =>
          rw [matchLoop_cons htok]
          split
          · next haccepts =>
            have hmore : Consumes (w ++ [tok]) (u ++ [byte]) :=
              List.rel_append hconsumes (.cons haccepts .nil)
            have := ih p (w ++ [tok]) (u ++ [byte]) i hmore (by simpa using hbound) (by
              simp only [List.append_assoc, List.singleton_append, List.length_cons] at hfuel ⊢
              omega)
            simpa using this
          · next haccepts =>
            exact habsorb (not_matches_cons htok haccepts)

theorem matchLoop_none (bound length fuel : ℕ) :
    ∀ (p w : List Tok) (u i : List UInt8), Consumes w u → (w ++ p).length ≤ bound →
      (u ++ i).length ≤ length → (length + 1) * (bound + 1) + p.length < fuel →
      ∃ b, matchLoop fuel (p, i, none) = some b ∧ (b = true ↔ Matches (w ++ p) (u ++ i)) := by
  induction fuel with
  | zero => exact fun p w u i _ _ _ hfuel => absurd hfuel (Nat.not_lt_zero _)
  | succ fuel ih =>
    intro p w u i hconsumes hbound hlength hfuel
    have hreject : ¬Matches p i → ∃ b, absorb (matchLoop fuel) none = some b ∧
        (b = true ↔ Matches (w ++ p) (u ++ i)) := fun hnot =>
      ⟨false, rfl, iff_of_false Bool.false_ne_true fun h => hnot ((matches_rest hconsumes).mp h)⟩
    cases p with
    | nil =>
      rw [matchLoop]
      by_cases hi : i = []
      · subst hi
        exact ⟨true, if_pos rfl, iff_of_true rfl (matches_of_consumes hconsumes .nil)⟩
      · rw [if_neg hi]
        exact hreject fun h => hi (matches_nil.mp h)
    | cons tok p =>
      by_cases htok : tok = .star
      · subst htok
        rw [List.length_append, List.length_cons] at hbound
        rw [List.length_append] at hlength
        rw [List.length_cons, Nat.succ_mul] at hfuel
        have hmul : i.length * (bound + 1) ≤ length * (bound + 1) :=
          Nat.mul_le_mul_right _ (by omega)
        obtain ⟨b, hb, hmatches⟩ :=
          matchLoop_star bound fuel p [] [] i .nil (by simp; omega) (by simp; omega)
        exact ⟨b, hb, hmatches.trans (matches_rest hconsumes).symm⟩
      · cases i with
        | nil =>
          rw [matchLoop_nil htok]
          exact hreject (not_matches_nil htok)
        | cons byte i =>
          rw [matchLoop_cons htok]
          split
          · next haccepts =>
            have hmore : Consumes (w ++ [tok]) (u ++ [byte]) :=
              List.rel_append hconsumes (.cons haccepts .nil)
            have := ih p (w ++ [tok]) (u ++ [byte]) i hmore (by simpa using hbound)
              (by simpa using hlength) (by rw [List.length_cons] at hfuel; omega)
            simpa using this
          · next haccepts =>
            exact hreject (not_matches_cons htok haccepts)

/-- **The matcher terminates and is right.** -/
theorem matchLoop_spec (toks : List Tok) (s : List UInt8) :
    ∃ b, matchLoop (matchRounds toks s) (toks, s, none) = some b ∧ (b = true ↔ Matches toks s) := by
  refine matchLoop_none toks.length s.length _ toks [] [] s .nil
    (Nat.le_refl _) (Nat.le_refl _) ?_
  rw [matchRounds, Nat.succ_mul (s.length + 1)]
  omega

theorem Glob.matches_iff {glob : Glob} :
    glob.matches s = true ↔ ∃ toks, glob = some toks ∧ Matches toks s := by
  cases glob with
  | none => simp [Glob.matches]
  | some toks =>
    obtain ⟨b, hb, hmatches⟩ := matchLoop_spec toks s
    simp only [Glob.matches, Option.elim_some, hb, Option.getD_some, hmatches, Option.some.injEq,
      exists_eq_left']

end Qld.Script
