import Qld.Script.GlobCorrect

/-!
# What patterns match

* `compileLoop_plain`, `compileLoop_ends` — the literal ends of a text are literal tokens;
* `file_matches`, `section_matches` — the kinds that skip the matcher agree with it, but
  for the overlap of the two ends of a section pattern;
* `section_literalPrefix`, `fileName_literalPrefix` — every match starts with the
  literal prefix.
-/

namespace Qld.Script

open Qld.Lib

/-! ### Compiling literal text -/

/-- No byte that starts or ends anything but itself. -/
def Plain (text : List UInt8) : Prop := ∀ b ∈ text, isSpecial b = false ∧ b ≠ BACKSLASH

variable {text p s name : List UInt8}

theorem plain_of_all (h : (text.all fun b => !isSpecial b && b != BACKSLASH) = true) :
    Plain text := by
  intro b hb
  simpa using List.all_eq_true.mp h b hb

variable {b : UInt8}

theorem isSpecial_eq_false :
    isSpecial b = false ↔ b ≠ STAR ∧ b ≠ QUESTION ∧ b ≠ OPEN := by
  simp [isSpecial, and_assoc]

theorem compileLoop_star (toks : List Tok) (rest : List UInt8) :
    compileLoop toks (STAR :: rest) =
      compileLoop (if toks.getLast? = some .star then toks else toks ++ [.star]) rest := by
  rw [compileLoop.eq_def]
  rfl

theorem compileLoop_question (toks : List Tok) (rest : List UInt8) :
    compileLoop toks (QUESTION :: rest) = compileLoop (toks ++ [.any]) rest := by
  rw [compileLoop.eq_def]
  rfl

theorem compileLoop_escape (toks : List Tok) (next : UInt8) (rest : List UInt8) :
    compileLoop toks (BACKSLASH :: next :: rest) = compileLoop (toks ++ [.byte next]) rest := by
  rw [compileLoop.eq_def]
  rfl

theorem compileLoop_trailing (toks : List Tok) : compileLoop toks [BACKSLASH] = none := by
  rw [compileLoop.eq_def]
  rfl

theorem open_ne : OPEN ≠ STAR ∧ OPEN ≠ QUESTION ∧ OPEN ≠ BACKSLASH := by decide

section Bracket

variable {rest : List UInt8} (toks : List Tok)

theorem compileLoop_set {set : ByteSet} {next : List UInt8}
    (h : parseBracket rest = .set set next) :
    compileLoop toks (OPEN :: rest) = compileLoop (toks ++ [.set set]) next := by
  rw [compileLoop.eq_def]
  simp only [open_ne.1, open_ne.2.1, open_ne.2.2, if_false, if_true]
  split <;> simp_all

theorem compileLoop_literal (h : parseBracket rest = .literal) :
    compileLoop toks (OPEN :: rest) = compileLoop (toks ++ [.byte OPEN]) rest := by
  rw [compileLoop.eq_def]
  simp only [open_ne.1, open_ne.2.1, open_ne.2.2, if_false, if_true]
  split <;> simp_all

theorem compileLoop_never (h : parseBracket rest = .never) :
    compileLoop toks (OPEN :: rest) = none := by
  rw [compileLoop.eq_def]
  simp only [open_ne.1, open_ne.2.1, open_ne.2.2, if_false, if_true]
  split <;> simp_all

end Bracket

theorem compileLoop_byte {c : UInt8} (hspecial : isSpecial c = false) (hback : c ≠ BACKSLASH)
    (toks : List Tok) (rest : List UInt8) :
    compileLoop toks (c :: rest) = compileLoop (toks ++ [.byte c]) rest := by
  obtain ⟨hstar, hquestion, hopen⟩ := isSpecial_eq_false.mp hspecial
  rw [compileLoop.eq_def]
  simp only [hstar, hquestion, hback, hopen, if_false]

theorem compileLoop_plain (h : Plain text) (toks : List Tok) (rest : List UInt8) :
    compileLoop toks (text ++ rest) = compileLoop (toks ++ text.map .byte) rest := by
  induction text generalizing toks with
  | nil => simp
  | cons c text ih =>
    obtain ⟨hspecial, hback⟩ := h c List.mem_cons_self
    rw [List.cons_append, compileLoop_byte hspecial hback,
      ih (fun b hb => h b (List.mem_cons_of_mem _ hb))]
    simp

/-- The tokens found before do not matter behind one that is no star. -/
theorem compileLoop_append (before : List Tok) (toks : List Tok) (p : List UInt8)
    (h : before.getLast? ≠ some .star ∨ toks ≠ []) :
    compileLoop (before ++ toks) p = (compileLoop toks p).map (before ++ ·) := by
  have hmore : ∀ (toks : List Tok) (tok : Tok),
      before.getLast? ≠ some .star ∨ toks ++ [tok] ≠ [] := fun toks tok => .inr (by simp)
  fun_induction compileLoop toks p with
  | case1 toks => rw [compileLoop.eq_def, Option.map_some]
  | case2 toks rest ih =>
    have hlast : (before ++ toks).getLast? = some .star ↔ toks.getLast? = some .star := by
      cases toks with
      | nil => simpa using h
      | cons tok toks => simp
    simp only [dite_eq_ite] at ih
    rw [compileLoop_star]
    by_cases hsame : toks.getLast? = some .star
    · rw [if_pos hsame] at ih ⊢
      rw [if_pos (hlast.mpr hsame), ih h]
    · rw [if_neg hsame] at ih ⊢
      rw [if_neg (mt hlast.mp hsame), List.append_assoc, ih (hmore toks _)]
  | case3 toks rest _ ih =>
    rw [compileLoop_question, List.append_assoc, ih (hmore toks _)]
  | case4 toks next rest _ _ ih =>
    rw [compileLoop_escape, List.append_assoc, ih (hmore toks _)]
  | case5 toks => rw [compileLoop_trailing, Option.map_none]
  | case6 toks rest set next hset _ _ _ ih =>
    rw [compileLoop_set _ hset, List.append_assoc, ih (hmore toks _)]
  | case7 toks rest hliteral _ _ _ ih =>
    rw [compileLoop_literal _ hliteral, List.append_assoc, ih (hmore toks _)]
  | case8 toks rest hnever => rw [compileLoop_never _ hnever, Option.map_none]
  | case9 toks c rest hstar hquestion hback hopen ih =>
    rw [compileLoop_byte (isSpecial_eq_false.mpr ⟨hstar, hquestion, hopen⟩) hback,
      List.append_assoc, ih (hmore toks _)]

/-! ### The literal end of a pattern -/

theorem rangeEnd_ne_none {low : UInt8} (h : BACKSLASH ∉ text) :
    rangeEnd low text ≠ none := by
  unfold rangeEnd
  split
  · next d high rest =>
    split
    · rw [if_neg]
      · simp
      · rintro rfl
        exact h (by simp)
    · simp
  · simp

theorem close_mem_of_classEnd {len : ℕ} (h : classEnd text = some len) :
    CLOSE ∈ text := by
  induction text generalizing len with
  | nil => cases h
  | cons a text ih =>
    cases text with
    | nil => cases h
    | cons b rest =>
      rw [classEnd] at h
      split at h
      · next hend => simp [hend.2]
      · obtain ⟨n, hn, -⟩ := Option.map_eq_some_iff.mp h
        exact List.mem_cons_of_mem _ (ih hn)

/-- A bracket that is never closed is a literal one. -/
theorem bracketLoop_literal (hclose : CLOSE ∉ p) (hback : BACKSLASH ∉ p) (set : ByteSet)
    (first : Bool) : bracketLoop set first p = .literal := by
  fun_induction bracketLoop set first p with
  | case1 => rfl
  | case2 set first c rest hend => exact absurd hend.1.symm (List.ne_of_not_mem_cons hclose)
  | case3 | case4 | case5 => exact absurd List.mem_cons_self hback
  | case6 => rfl
  | case7 set first c rest _ _ _ len hlen | case8 set first c rest _ _ _ len hlen =>
    have := List.mem_of_mem_tail (close_mem_of_classEnd hlen)
    exact absurd (List.mem_cons_of_mem _ this) hclose
  | case9 set first c rest _ _ _ hnone =>
    exact absurd hnone (rangeEnd_ne_none (List.not_mem_of_not_mem_cons hback))
  | case10 set first c rest _ _ _ high next hrange ih =>
    have hsub : next ⊆ c :: rest := fun b hb =>
      List.mem_cons_of_mem _ ((rangeEnd_suffix hrange).subset hb)
    exact ih (fun h => hclose (hsub h)) (fun h => hback (hsub h))

theorem parseBracket_literal (hclose : CLOSE ∉ p) (hback : BACKSLASH ∉ p) :
    parseBracket p = .literal := by
  unfold parseBracket
  split
  · rw [bracketLoop_literal (fun h => hclose (List.mem_of_mem_tail h))
      (fun h => hback (List.mem_of_mem_tail h))]
  · exact bracketLoop_literal hclose hback _ _

/-- A text that stands for itself at the end of a section pattern. -/
def LiteralEnd (text : List UInt8) : Prop := ∀ b ∈ text, endsLiteral b = false ∧ b ≠ BACKSLASH

theorem endsLiteral_eq_false :
    endsLiteral b = false ↔ b ≠ STAR ∧ b ≠ QUESTION ∧ b ≠ CLOSE := by
  simp [endsLiteral, and_assoc]

theorem LiteralEnd.tail (h : LiteralEnd (b :: text)) :
    LiteralEnd text := fun b hb => h b (List.mem_cons_of_mem _ hb)

theorem LiteralEnd.close (h : LiteralEnd text) : CLOSE ∉ text :=
  fun hb => (endsLiteral_eq_false.mp (h _ hb).1).2.2 rfl

theorem LiteralEnd.back (h : LiteralEnd text) : BACKSLASH ∉ text :=
  fun hb => (h _ hb).2 rfl

theorem compileLoop_literalEnd (h : LiteralEnd text) (toks : List Tok) :
    compileLoop toks text = some (toks ++ text.map .byte) := by
  induction text generalizing toks with
  | nil => rw [compileLoop.eq_def, List.map_nil, List.append_nil]
  | cons c text ih =>
    obtain ⟨hends, hback⟩ := h c List.mem_cons_self
    obtain ⟨hstar, hquestion, -⟩ := endsLiteral_eq_false.mp hends
    by_cases hopen : c = OPEN
    · subst hopen
      rw [compileLoop_literal _ (parseBracket_literal h.tail.close h.tail.back), ih h.tail]
      simp
    · rw [compileLoop_byte (isSpecial_eq_false.mpr ⟨hstar, hquestion, hopen⟩) hback, ih h.tail]
      simp

/-- A text that ends with what ends a literal end, if with anything. -/
def Ended (text : List UInt8) : Prop := ∀ b, text.getLast? = some b → endsLiteral b = true

theorem Ended.of_append {u v : List UInt8} (h : Ended (u ++ v)) : Ended v := fun b hb =>
  h b (by rw [List.getLast?_append, hb, Option.some_or])

/-- The tokens of a text end with those of its literal end. -/
theorem compileLoop_ends (h : LiteralEnd text) (n : ℕ) :
    ∀ (r : List UInt8) (toks result : List Tok), r.length = n → Ended r → BACKSLASH ∉ r →
      compileLoop toks (r ++ text) = some result → ∃ front, result = front ++ text.map .byte := by
  induction n using Nat.strong_induction_on with
  | _ n ih =>
    intro r toks result hlen hended hback hcompile
    cases r with
    | nil =>
      rw [List.nil_append, compileLoop_literalEnd h] at hcompile
      exact ⟨toks, (Option.some.inj hcompile).symm⟩
    | cons c r =>
      have hrest : ∀ toks', compileLoop toks' (r ++ text) = some result →
          ∃ front, result = front ++ text.map .byte := fun toks' hcompile' =>
        ih r.length (by rw [← hlen, List.length_cons]; omega) r toks' result rfl
          (Ended.of_append (show Ended ([c] ++ r) from hended))
          (List.not_mem_of_not_mem_cons hback) hcompile'
      rw [List.cons_append] at hcompile
      by_cases hstar : c = STAR
      · subst hstar
        rw [compileLoop_star] at hcompile
        exact hrest _ hcompile
      by_cases hquestion : c = QUESTION
      · subst hquestion
        rw [compileLoop_question] at hcompile
        exact hrest _ hcompile
      by_cases hopen : c = OPEN
      · subst hopen
        cases hbracket : parseBracket (r ++ text) with
        | literal =>
          rw [compileLoop_literal _ hbracket] at hcompile
          exact hrest _ hcompile
        | never =>
          rw [compileLoop_never _ hbracket] at hcompile
          cases hcompile
        | set set next =>
          rw [compileLoop_set _ hbracket] at hcompile
          -- The closing bracket is not part of the literal end.
          obtain ⟨inside, hinside⟩ := parseBracket_suffix hbracket
          obtain ⟨a, ha, hnext⟩ | ⟨a, -, ha⟩ := List.append_eq_append_iff.mp hinside
          · cases a with
            | nil => exact absurd (by rw [← show CLOSE :: next = text from hnext]; simp) h.close
            | cons d a =>
              obtain ⟨rfl, rfl⟩ := List.cons.inj hnext
              subst ha
              refine ih a.length (by rw [← hlen]; simp; omega) a _ result rfl
                (Ended.of_append (show Ended ((OPEN :: inside ++ [CLOSE]) ++ a) by
                  simpa using hended)) (fun hmem => hback (by simp [hmem])) hcompile
          · exact absurd (by rw [ha]; simp) h.close
      · rw [compileLoop_byte (isSpecial_eq_false.mpr ⟨hstar, hquestion, hopen⟩)
          (List.ne_of_not_mem_cons hback).symm] at hcompile
        exact hrest _ hcompile

variable {toks : List Tok}

theorem compileLoop_prefix {result : List Tok} (h : compileLoop toks p = some result) :
    toks <+: result := by
  fun_induction compileLoop toks p with
  | case1 toks => exact Option.some.inj h ▸ List.prefix_rfl
  | case2 toks rest ih =>
    rw [← dite_eq_ite] at h
    have hmore := ih h
    split at hmore
    · exact hmore
    · exact (List.prefix_append _ _).trans hmore
  | case5 | case8 => cases h
  | case3 _ _ _ ih | case4 _ _ _ _ _ ih | case6 _ _ _ _ _ _ _ _ ih | case7 _ _ _ _ _ _ ih
  | case9 _ _ _ _ _ _ _ ih => exact (List.prefix_append _ _).trans (ih h)

/-! ### What literal tokens match -/

theorem matches_bytes : Matches (text.map .byte) s ↔ s = text := by
  induction text generalizing s with
  | nil => exact matches_nil
  | cons b text ih =>
    rw [List.map_cons, matches_one (by simp)]
    refine ⟨?_, ?_⟩
    · rintro ⟨c, t, rfl, haccepts, ht⟩
      rw [ih.mp ht, of_decide_eq_true haccepts]
    · rintro rfl
      exact ⟨b, text, rfl, decide_eq_true rfl, ih.mpr rfl⟩

theorem matches_bytes_append :
    Matches (text.map .byte ++ toks) s ↔ ∃ t, s = text ++ t ∧ Matches toks t := by
  rw [matches_append]
  refine ⟨?_, ?_⟩
  · rintro ⟨u, v, rfl, hu, hv⟩
    exact ⟨v, by rw [matches_bytes.mp hu], hv⟩
  · rintro ⟨t, rfl, ht⟩
    exact ⟨text, t, rfl, matches_bytes.mpr rfl, ht⟩

theorem matches_append_bytes (h : Matches (toks ++ text.map .byte) s) : text <:+ s := by
  obtain ⟨u, v, rfl, -, hv⟩ := matches_append.mp h
  exact ⟨u, by rw [matches_bytes.mp hv]⟩

theorem matches_only_star (s : List UInt8) : Matches [.star] s :=
  List.append_nil s ▸ .star s .nil

theorem matches_starts :
    Matches (text.map .byte ++ [.star]) s ↔ text <+: s := by
  rw [matches_bytes_append]
  refine ⟨?_, ?_⟩
  · rintro ⟨t, rfl, -⟩
    exact ⟨t, rfl⟩
  · rintro ⟨t, rfl⟩
    exact ⟨t, rfl, matches_only_star t⟩

theorem matches_ends :
    Matches (.star :: text.map .byte) s ↔ text <:+ s := by
  refine ⟨fun h => matches_append_bytes (show Matches ([.star] ++ text.map .byte) s from h), ?_⟩
  rintro ⟨t, rfl⟩
  exact .star t (matches_bytes.mpr rfl)

/-! ### File patterns -/

theorem plain_of_not_hasWildcard (h : (!hasWildcard text) = true) (hback : BACKSLASH ∉ text) :
    Plain text := by
  rw [hasWildcard, Bool.not_eq_true', List.any_eq_false] at h
  exact fun b hb => ⟨Bool.eq_false_iff.mpr (h b hb), fun hback' => hback (hback' ▸ hb)⟩

theorem compile_plain (h : Plain text) :
    Glob.compile text = some (text.map .byte) := by
  have := compileLoop_plain h [] []
  rw [List.append_nil] at this
  rw [Glob.compile, this, compileLoop.eq_def, List.nil_append]

theorem compile_starts (h : Plain text) :
    Glob.compile (text ++ [STAR]) = some (text.map .byte ++ [.star]) := by
  have hlast : (text.map Tok.byte).getLast? ≠ some .star := by
    simp [List.getLast?_map]
  rw [Glob.compile, compileLoop_plain h, List.nil_append, compileLoop_star, if_neg hlast,
    compileLoop.eq_def]

theorem compile_ends (h : Plain text) :
    Glob.compile (STAR :: text) = some (.star :: text.map .byte) := by
  have := compileLoop_plain h [.star] []
  rw [List.append_nil] at this
  rw [Glob.compile, compileLoop_star, if_neg (by simp), List.nil_append, this, compileLoop.eq_def,
    List.singleton_append]

theorem Glob.matches_some :
    Glob.matches (some toks) s = true ↔ Matches toks s := by
  rw [Glob.matches_iff]
  simp

/-- **File patterns.**  Whichever kind was picked, the pattern matches what its glob
matches. -/
theorem file_matches (hback : BACKSLASH ∉ text) (name : List UInt8) :
    (Pattern.file text).matches name = (Glob.compile text).matches name := by
  show (Pattern.fileName text).matches name = _
  rw [Bool.eq_iff_iff]
  unfold Pattern.fileName
  dsimp only
  split
  · next hall =>
    have hcompile : Glob.compile ([] ++ [STAR]) = some ([].map .byte ++ [.star]) :=
      compile_starts (by simp [Plain])
    rw [hall, ← List.nil_append [STAR], hcompile]
    exact iff_of_true rfl (Glob.matches_some.mpr (matches_only_star name))
  split
  · next hwild =>
    rw [compile_plain (plain_of_not_hasWildcard hwild hback), Glob.matches_some, matches_bytes]
    simp [NamePattern.matches]
  have hplain : ∀ part : List UInt8, part ⊆ text → STAR ∉ part →
      (!text.contains BACKSLASH && !text.contains QUESTION && !text.contains OPEN) = true →
      Plain part := by
    intro part hsub hstar hsimple b hb
    simp only [Bool.and_eq_true, Bool.not_eq_true', List.contains_eq_mem, decide_eq_false_iff_not]
      at hsimple
    refine ⟨isSpecial_eq_false.mpr ⟨?_, ?_, ?_⟩, ?_⟩ <;> rintro rfl
    · exact hstar hb
    · exact hsimple.1.2 (hsub hb)
    · exact hsimple.2 (hsub hb)
    · exact hback (hsub hb)
  split
  · next h =>
    obtain ⟨hsimple, hstars, hlast⟩ := h
    obtain ⟨part, rfl⟩ := List.getLast?_eq_some_iff.mp hlast
    have hstar : ∀ b ∈ part, b ≠ STAR := by
      simpa [List.countP_append, List.countP_eq_zero] using hstars
    rw [compile_starts (hplain part (by simp) (fun hmem => hstar STAR hmem rfl) hsimple),
      Glob.matches_some, matches_starts]
    simp [NamePattern.matches]
  split
  · next h =>
    obtain ⟨hsimple, hstars, hhead⟩ := h
    obtain ⟨part, rfl⟩ := List.head?_eq_some_iff.mp hhead
    have hstar : ∀ b ∈ part, b ≠ STAR := by
      simpa [List.countP_cons, List.countP_eq_zero] using hstars
    rw [compile_ends (hplain part (by simp) (fun hmem => hstar STAR hmem rfl) hsimple),
      Glob.matches_some, matches_ends]
    simp [NamePattern.matches]
  · rfl

/-! ### Section patterns -/

/-- The bytes before the first one with a property. -/
theorem split_first (p : UInt8 → Bool) (text : List UInt8) :
    ∃ u v, text = u ++ v ∧ (text.findIdx? p).getD text.length = u.length ∧
      (∀ b ∈ u, p b = false) ∧ ∀ b, v.head? = some b → p b = true := by
  induction text with
  | nil => exact ⟨[], [], rfl, rfl, by simp, by simp⟩
  | cons a text ih =>
    rw [List.findIdx?_cons]
    cases ha : p a with
    | true => exact ⟨[], a :: text, rfl, rfl, by simp, by simpa using ha⟩
    | false =>
      obtain ⟨u, v, htext, hlen, hu, hv⟩ := ih
      refine ⟨a :: u, v, by rw [htext, List.cons_append], ?_, by simpa [ha] using hu, hv⟩
      rw [List.length_cons, List.length_cons, ← hlen]
      cases text.findIdx? p <;> simp

theorem split_unique {p : UInt8 → Bool} {u v u' v' : List UInt8} (heq : u ++ v = u' ++ v')
    (hu : ∀ b ∈ u, p b = false) (hv : ∀ b, v.head? = some b → p b = true)
    (hu' : ∀ b ∈ u', p b = false) (hv' : ∀ b, v'.head? = some b → p b = true) :
    u = u' ∧ v = v' := by
  induction u generalizing u' with
  | nil =>
    cases u' with
    | nil => exact ⟨rfl, heq⟩
    | cons a u' =>
      rw [List.nil_append] at heq
      have := hv a (by rw [heq]; rfl)
      rw [hu' a List.mem_cons_self] at this
      cases this
  | cons a u ih =>
    cases u' with
    | nil =>
      rw [List.nil_append] at heq
      have := hv' a (by rw [← heq]; rfl)
      rw [hu a List.mem_cons_self] at this
      cases this
    | cons a' u' =>
      rw [List.cons_append, List.cons_append] at heq
      obtain ⟨rfl, hrest⟩ := List.cons.inj heq
      obtain ⟨rfl, rfl⟩ := ih hrest (fun b hb => hu b (List.mem_cons_of_mem _ hb))
        (fun b hb => hu' b (List.mem_cons_of_mem _ hb))
      exact ⟨rfl, rfl⟩

theorem split_last (p : UInt8 → Bool) (text : List UInt8) :
    ∃ u v, text = u ++ v ∧ (text.reverse.findIdx? p).getD text.length = v.length ∧
      (∀ b ∈ v, p b = false) ∧ ∀ b, u.getLast? = some b → p b = true := by
  obtain ⟨v, u, htext, hlen, hv, hu⟩ := split_first p text.reverse
  refine ⟨u.reverse, v.reverse, ?_, ?_, by simpa using hv, by simpa using hu⟩
  · rw [← List.reverse_append, ← htext, List.reverse_reverse]
  · rw [List.length_reverse, ← hlen, List.length_reverse]

/-- A section pattern with a wildcard, in parts: what is before the wildcard, and the rest with its
literal end. -/
structure Parts (text pre front last : List UInt8) : Prop where
  text_eq : text = pre ++ (front ++ last)
  pre_plain : ∀ b ∈ pre, isSpecial b = false
  special : ∀ b, (front ++ last).head? = some b → isSpecial b = true
  last_literal : ∀ b ∈ last, endsLiteral b = false
  front_ended : Ended front

/-- What a section pattern with a wildcard matches. -/
theorem section_parts (hwild : hasWildcard text = true) :
    ∃ pre front last, Parts text pre front last ∧ ∀ name,
      (Pattern.section_ text).matches name = true ↔
        pre <+: name ∧ last <:+ name ∧ (front ++ last = STAR :: last ∨
          (Glob.compile (front ++ last)).matches (name.drop pre.length) = true) := by
  obtain ⟨pre, rest, htext, hpre, hplain, hspecial⟩ := split_first isSpecial text
  obtain ⟨front, last, rfl, hlast, hliteral, hended⟩ := split_last endsLiteral rest
  refine ⟨pre, front, last, ⟨htext, hplain, hspecial, hliteral, hended⟩, fun name => ?_⟩
  have hdrop : text.drop pre.length = front ++ last := by rw [htext, List.drop_left]
  have htake : text.take pre.length = pre := by rw [htext, List.take_left]
  have hlen : text.length = pre.length + (front.length + last.length) := by simp [htext]
  have hsuffix : text.drop (text.length - last.length) = last := by
    rw [show text.length - last.length = (pre ++ front).length by simp [hlen]; omega, htext,
      ← List.append_assoc, List.drop_left]
  have hstar : pre.length + last.length + 1 = text.length ∧ text[pre.length]? = some STAR ↔
      front ++ last = STAR :: last := by
    have hget : text[pre.length]? = (front ++ last)[0]? := by
      rw [htext, List.getElem?_append_right (Nat.le_refl _), Nat.sub_self]
    rw [hget]
    refine ⟨?_, fun heq => ?_⟩
    · rintro ⟨hone, hget⟩
      obtain ⟨a, rfl⟩ := List.length_eq_one_iff.mp (show front.length = 1 by omega)
      rw [show a = STAR by simpa using hget, List.singleton_append]
    · have hfront : front = [STAR] := List.append_cancel_right (show _ = [STAR] ++ last from heq)
      rw [hlen, hfront]
      exact ⟨by simp; omega, rfl⟩
  have hall : text = [STAR] → pre = [] ∧ last = [] ∧ front = [STAR] := by
    intro hall
    have hpre : pre = [] := by
      cases pre with
      | nil => rfl
      | cons a pre =>
        have := hplain a List.mem_cons_self
        rw [show a = STAR from (List.cons.inj (htext.symm.trans hall)).1] at this
        cases this
    subst hpre
    cases last with
    | nil => exact ⟨rfl, rfl, by simpa using htext.symm.trans hall⟩
    | cons b last =>
      have hmem : b ∈ text := by simp [htext]
      have := hliteral b List.mem_cons_self
      rw [show b = STAR by simpa [hall] using hmem] at this
      cases this
  unfold Pattern.section_
  dsimp only
  split
  · next heq =>
    obtain ⟨rfl, rfl, rfl⟩ := hall heq
    simp [NamePattern.matches]
  rw [if_neg (by simp [hwild]), hpre, hdrop, hlast]
  split
  · next h =>
    obtain ⟨hone, hget, hzero⟩ := h
    rw [List.length_eq_zero_iff] at hzero
    subst hzero
    have := hstar.mp ⟨hone, hget⟩
    simp [NamePattern.matches, htake, this]
  · show NamePattern.sectionMatch _ name _ _ _ = true ↔ _
    unfold NamePattern.sectionMatch
    dsimp only
    rw [htake, hsuffix]
    by_cases h₁ : pre <+: name
    · rw [if_neg (by simp [h₁])]
      by_cases h₂ : last <:+ name
      · rw [if_neg (by simp [h₂])]
        by_cases h₃ : front ++ last = STAR :: last
        · rw [if_pos (hstar.mpr h₃)]
          exact iff_of_true rfl ⟨h₁, h₂, .inl h₃⟩
        · rw [if_neg (mt hstar.mp h₃), if_pos h₁.length_le]
          simp [h₁, h₂, h₃]
      · have hpos : 0 < last.length := List.length_pos_iff.mpr fun h => h₂ (h ▸ List.nil_suffix)
        rw [if_pos ⟨hpos, by simpa using h₂⟩]
        simp [h₂]
    · have hpos : 0 < pre.length := List.length_pos_iff.mpr fun h => h₁ (h ▸ List.nil_prefix)
      rw [if_pos ⟨hpos, by simpa using h₁⟩]
      simp [h₁]

/-- **Section patterns with one star.**  The two ends may overlap. -/
theorem section_star {pre last : List UInt8} (hpre : ∀ b ∈ pre, isSpecial b = false)
    (hlast : ∀ b ∈ last, endsLiteral b = false) (name : List UInt8) :
    (Pattern.section_ (pre ++ STAR :: last)).matches name =
      (pre.isPrefixOf name && last.isSuffixOf name) := by
  obtain ⟨pre', front, last', hparts, hmatches⟩ :=
    section_parts (show hasWildcard (pre ++ STAR :: last) = true by simp [hasWildcard, isSpecial])
  obtain ⟨rfl, hrest⟩ := split_unique hparts.text_eq hpre
    (fun b hb => by rw [← Option.some.inj hb]; rfl) hparts.pre_plain hparts.special
  have hreverse : last.reverse ++ [STAR] = last'.reverse ++ front.reverse := by
    rw [← List.reverse_append, ← hrest, List.reverse_cons]
  obtain ⟨hsame, -⟩ := split_unique hreverse (by simpa using hlast)
    (fun b hb => by rw [← Option.some.inj hb]; rfl) (by simpa using hparts.last_literal)
    (by simpa using show ∀ b, front.getLast? = some b → _ from hparts.front_ended)
  obtain rfl := List.reverse_inj.mp hsame
  rw [Bool.eq_iff_iff, hmatches]
  simp [hrest.symm]

/-- **Section patterns.**  A pattern that is not one star between literal ends matches what
its glob matches. -/
theorem section_matches (hback : BACKSLASH ∉ text)
    (hstar : ¬∃ pre last, text = pre ++ STAR :: last ∧ (∀ b ∈ pre, isSpecial b = false) ∧
      ∀ b ∈ last, endsLiteral b = false) (name : List UInt8) :
    (Pattern.section_ text).matches name = (Glob.compile text).matches name := by
  cases hwild : hasWildcard text with
  | false =>
    have hkind : (Pattern.section_ text).matches name = decide (name = text) := by
      unfold Pattern.section_
      dsimp only
      split
      · next hall =>
        rw [hall] at hwild
        cases hwild
      · rw [if_pos (by simp [hwild])]
        rfl
    rw [hkind, Bool.eq_iff_iff, compile_plain (plain_of_not_hasWildcard (by simp [hwild]) hback),
      Glob.matches_some, matches_bytes, decide_eq_true_iff]
  | true =>
    obtain ⟨pre, front, last, hparts, hmatches⟩ := section_parts hwild
    have hfront : front ++ last ≠ STAR :: last := fun h =>
      hstar ⟨pre, last, h ▸ hparts.text_eq, hparts.pre_plain, hparts.last_literal⟩
    have hplain : Plain pre := fun b hb => ⟨hparts.pre_plain b hb, fun h =>
      hback (by rw [hparts.text_eq, ← h]; simp [hb])⟩
    have hliteral : LiteralEnd last := fun b hb => ⟨hparts.last_literal b hb, fun h =>
      hback (by rw [hparts.text_eq, ← h]; simp [hb])⟩
    have hnotstar : (pre.map Tok.byte).getLast? ≠ some .star := by simp [List.getLast?_map]
    have hcompile : Glob.compile text =
        (Glob.compile (front ++ last)).map (pre.map .byte ++ ·) := by
      rw [hparts.text_eq, Glob.compile, compileLoop_plain hplain, List.nil_append, Glob.compile,
        ← compileLoop_append _ _ _ (.inl hnotstar), List.append_nil]
    rw [Bool.eq_iff_iff, hmatches, hcompile]
    cases hglob : Glob.compile (front ++ last) with
    | none => simp [hfront, Glob.matches]
    | some toks =>
      rw [Option.map_some, Glob.matches_some, Glob.matches_some, matches_bytes_append]
      refine ⟨?_, ?_⟩
      · rintro ⟨⟨rest, rfl⟩, -, h⟩
        rw [List.drop_left] at h
        exact ⟨rest, rfl, h.resolve_left hfront⟩
      · rintro ⟨rest, rfl, h⟩
        obtain ⟨toks, rfl⟩ := compileLoop_ends hliteral _ front [] toks rfl hparts.front_ended
          (fun h => hback (by rw [hparts.text_eq]; simp [h])) hglob
        refine ⟨List.prefix_append _ _, ?_, .inr (by rwa [List.drop_left])⟩
        exact (matches_append_bytes h).trans (List.suffix_append _ _)

/-! ### The literal prefix -/

/-- Every kind but the plain glob tests its literal prefix. -/
theorem literalPrefix_of_kind {p : NamePattern} (hkind : ∀ glob, p.kind ≠ .glob glob)
    (h : p.matches name = true) :
    p.literalPrefix <+: name := by
  unfold NamePattern.matches at h
  unfold NamePattern.literalPrefix
  cases hp : p.kind with
  | all => exact List.nil_prefix
  | ends => exact List.nil_prefix
  | literal =>
    rw [hp] at h
    rw [List.take_length, of_decide_eq_true h]
  | starts len =>
    rw [hp] at h
    exact List.isPrefixOf_iff_prefix.mp h
  | sectionName pre suffix glob =>
    rw [hp] at h
    simp only [NamePattern.sectionMatch] at h
    split at h
    · cases h
    · next hpre =>
      rcases Nat.eq_zero_or_pos pre with rfl | hpos
      · exact List.nil_prefix
      · simpa [hpos] using hpre
  | glob glob => exact absurd hp (hkind glob)

/-- **Literal prefixes.**  What a section pattern matches starts with its literal
prefix. -/
theorem section_literalPrefix (h : (Pattern.section_ text).matches name = true) :
    (Pattern.section_ text).literalPrefix <+: name := by
  refine literalPrefix_of_kind (fun glob => ?_) h
  unfold Pattern.section_
  dsimp only
  split
  · simp
  · split
    · simp
    · split <;> simp

/-- **Literal prefixes.**  What a file pattern matches starts with its literal prefix. -/
theorem fileName_literalPrefix (h : (Pattern.fileName text).matches name = true) :
    (Pattern.fileName text).literalPrefix <+: name := by
  by_cases hkind : ∀ glob, (Pattern.fileName text).kind ≠ .glob glob
  · exact literalPrefix_of_kind hkind h
  · simp only [not_forall, ne_eq, not_not] at hkind
    obtain ⟨glob, hglob⟩ := hkind
    have hcompile : glob = Glob.compile text := by
      unfold Pattern.fileName at hglob
      dsimp only at hglob
      split at hglob
      · cases hglob
      split at hglob
      · cases hglob
      split at hglob
      · cases hglob
      split at hglob
      · cases hglob
      · exact (Kind.glob.inj hglob).symm
    obtain ⟨pre, rest, htext, hlen, hplain, -⟩ :=
      split_first (fun b => isSpecial b || b = BACKSLASH) text
    unfold NamePattern.matches at h
    rw [hglob] at h
    obtain ⟨toks, htoks, hmatches⟩ := Glob.matches_iff.mp (show glob.matches name = true from h)
    unfold NamePattern.literalPrefix
    rw [hglob]
    show text.take ((text.findIdx? _).getD text.length) <+: name
    rw [hlen, htext, List.take_left]
    rw [hcompile, htext, Glob.compile, compileLoop_plain (fun b hb => by simpa using hplain b hb)]
      at htoks
    obtain ⟨more, rfl⟩ := compileLoop_prefix htoks
    rw [List.nil_append] at hmatches
    obtain ⟨t, rfl, -⟩ := matches_bytes_append.mp hmatches
    exact List.prefix_append _ _

/-! ### The reference matcher -/

/-- The matcher the source tests against: a direct recursive definition, without brackets and
escapes. -/
def reference : List UInt8 → List UInt8 → Bool
  | [], s => s.isEmpty
  | c :: p, s =>
    if c = STAR then (List.range (s.length + 1)).any fun k => reference p (s.drop k)
    else if c = QUESTION then !s.isEmpty && reference p s.tail
    else s.head? = some c && reference p s.tail

/-- The token a byte stands for, without brackets and escapes. -/
def refTok (c : UInt8) : Tok := if c = STAR then .star else if c = QUESTION then .any else .byte c

theorem reference_iff :
    reference p s = true ↔ Matches (p.map refTok) s := by
  induction p generalizing s with
  | nil => rw [reference, List.isEmpty_iff, List.map_nil, matches_nil]
  | cons c p ih =>
    rw [reference, List.map_cons, refTok]
    split
    · rw [matches_star, List.any_eq_true]
      refine ⟨?_, ?_⟩
      · rintro ⟨k, -, hk⟩
        exact ⟨s.take k, s.drop k, (List.take_append_drop k s).symm, ih.mp hk⟩
      · rintro ⟨run, t, rfl, ht⟩
        refine ⟨run.length, List.mem_range.mpr ?_, ?_⟩
        · rw [List.length_append]
          omega
        rw [List.drop_left]
        exact ih.mpr ht
    split
    · rw [matches_one (by simp)]
      cases s with
      | nil => simp
      | cons b s => simp [Tok.accepts, ih]
    · rw [matches_one (by simp)]
      cases s with
      | nil => simp
      | cons b s =>
        rw [List.head?_cons, List.tail_cons, Bool.and_eq_true, decide_eq_true_iff, ih]
        refine ⟨?_, ?_⟩
        · rintro ⟨hb, h⟩
          exact ⟨b, s, rfl, decide_eq_true (Option.some.inj hb).symm, h⟩
        · rintro ⟨b', t, heq, haccepts, h⟩
          obtain ⟨rfl, rfl⟩ := List.cons.inj heq
          exact ⟨congrArg some (of_decide_eq_true haccepts).symm, h⟩

theorem matches_star_star :
    Matches (.star :: .star :: toks) s ↔ Matches (.star :: toks) s := by
  refine ⟨fun h => ?_, fun h => ?_⟩
  · obtain ⟨run, t, rfl, ht⟩ := matches_star.mp h
    obtain ⟨run', t', rfl, ht'⟩ := matches_star.mp ht
    rw [← List.append_assoc]
    exact .star _ ht'
  · exact .star [] h

theorem compileLoop_reference (hopen : OPEN ∉ p) (hback : BACKSLASH ∉ p) (toks : List Tok) :
    ∃ result, compileLoop toks p = some result ∧
      ∀ s, Matches result s ↔ Matches (toks ++ p.map refTok) s := by
  induction p generalizing toks with
  | nil => exact ⟨toks, by rw [compileLoop.eq_def], fun s => by simp⟩
  | cons c p ih =>
    have ih := ih (List.not_mem_of_not_mem_cons hopen) (List.not_mem_of_not_mem_cons hback)
    rw [List.map_cons, refTok]
    by_cases hstar : c = STAR
    · subst hstar
      rw [compileLoop_star, if_pos rfl]
      split
      · next hlast =>
        obtain ⟨front, rfl⟩ := List.getLast?_eq_some_iff.mp hlast
        obtain ⟨result, hresult, hmatches⟩ := ih (front ++ [.star])
        refine ⟨result, hresult, fun s => ?_⟩
        rw [hmatches, List.append_assoc, List.append_assoc, matches_append, matches_append]
        simp only [List.singleton_append, matches_star_star]
      · obtain ⟨result, hresult, hmatches⟩ := ih (toks ++ [.star])
        exact ⟨result, hresult, fun s => by rw [hmatches, List.append_assoc, List.singleton_append]⟩
    rw [if_neg hstar]
    by_cases hquestion : c = QUESTION
    · subst hquestion
      obtain ⟨result, hresult, hmatches⟩ := ih (toks ++ [.any])
      exact ⟨result, by rw [compileLoop_question, hresult], fun s => by
        rw [hmatches, List.append_assoc, List.singleton_append, if_pos rfl]⟩
    · rw [if_neg hquestion, compileLoop_byte (isSpecial_eq_false.mpr ⟨hstar, hquestion,
        (List.ne_of_not_mem_cons hopen).symm⟩) (List.ne_of_not_mem_cons hback).symm]
      obtain ⟨result, hresult, hmatches⟩ := ih (toks ++ [.byte c])
      exact ⟨result, hresult, fun s => by rw [hmatches, List.append_assoc, List.singleton_append]⟩

/-- **The reference matcher.**  Without brackets and escapes, a glob matches what the
reference matches. -/
theorem compile_reference (hopen : OPEN ∉ text) (hback : BACKSLASH ∉ text) (name : List UInt8) :
    (Glob.compile text).matches name = reference text name := by
  obtain ⟨result, hresult, hmatches⟩ := compileLoop_reference hopen hback []
  rw [Bool.eq_iff_iff, Glob.compile, hresult, Glob.matches_some, hmatches, List.nil_append,
    reference_iff]

/-! ### The whole -/

/-- **What patterns match (proved).**  The matcher decides the meaning of its tokens.  Without
escapes a file pattern matches what its glob does, and so does a section pattern that is not one
star between literal ends of which the second has no `]`; that one tests its ends alone.  Every
match starts with the literal prefix. -/
theorem pattern_matches_spec :
    (∀ toks s, ∃ b, matchLoop (matchRounds toks s) (toks, s, none) = some b ∧
      (b = true ↔ Matches toks s)) ∧
    (∀ text name, BACKSLASH ∉ text →
      (Pattern.file text).matches name = (Glob.compile text).matches name) ∧
    (∀ text name, BACKSLASH ∉ text →
      (¬∃ pre last, text = pre ++ STAR :: last ∧ (∀ b ∈ pre, isSpecial b = false) ∧
        ∀ b ∈ last, endsLiteral b = false) →
      (Pattern.section_ text).matches name = (Glob.compile text).matches name) ∧
    (∀ pre last name, (∀ b ∈ pre, isSpecial b = false) → (∀ b ∈ last, endsLiteral b = false) →
      (Pattern.section_ (pre ++ STAR :: last)).matches name =
        (pre.isPrefixOf name && last.isSuffixOf name)) ∧
    (∀ text name, OPEN ∉ text → BACKSLASH ∉ text →
      (Glob.compile text).matches name = reference text name) ∧
    (∀ text name, (Pattern.section_ text).matches name = true →
      (Pattern.section_ text).literalPrefix <+: name) ∧
    ∀ text name, (Pattern.fileName text).matches name = true →
      (Pattern.fileName text).literalPrefix <+: name :=
  ⟨matchLoop_spec, fun _ name hback => file_matches hback name,
    fun _ name hback hstar => section_matches hback hstar name,
    fun _ _ name hpre hlast => section_star hpre hlast name,
    fun _ name hopen hback => compile_reference hopen hback name,
    fun _ _ h => section_literalPrefix h, fun _ _ h => fileName_literalPrefix h⟩

/-- A `]` behind the star ends the literal end: `ab*b]` is matched by its glob, so that its two ends
do not overlap. -/
theorem section_close_bracket :
    hasWildcard (ascii "ab") = false ∧ hasWildcard (ascii "b]") = false ∧
      Glob.compile (ascii "ab") = some ((ascii "ab").map .byte) ∧
      Glob.compile (ascii "b]") = some ((ascii "b]").map .byte) ∧
      (ascii "ab").isPrefixOf (ascii "ab]") = true ∧
      (ascii "b]").isSuffixOf (ascii "ab]") = true ∧
      (Pattern.section_ (ascii "ab" ++ STAR :: ascii "b]")).matches (ascii "ab]") = false := by
  have hpre : Plain (ascii "ab") := plain_of_all (by decide)
  have hlast : Plain (ascii "b]") := plain_of_all (by decide)
  refine ⟨by decide, by decide, compile_plain hpre, compile_plain hlast, by decide, by decide, ?_⟩
  have hkind : Pattern.section_ (ascii "ab" ++ STAR :: ascii "b]") =
      { text := ascii "ab" ++ STAR :: ascii "b]"
        kind := .sectionName 2 0 (Glob.compile (STAR :: ascii "b]"))
        archive := none } := rfl
  rw [hkind, compile_ends hlast]
  decide

end Qld.Script
