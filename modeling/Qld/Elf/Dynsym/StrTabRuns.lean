import Qld.Elf.Dynsym.StrTabCorrect
import Qld.Lib.Except

/-!
# Runs of a string table

* `Call`, `StrTab.run`, `Reachable` — calls to a table, and the tables they lead to;
* `run_spec` — what a run returns depends on the strings alone;
* `addEachSpec_ok`, `addEachSpec_error` — when adding one by one fails;
* `Agrees`, `Overshoots`, `addAll_agrees_iff` — when adding together is adding one by
  one.
-/

namespace Qld.Elf.Dynsym

open Qld.Lib

/-! ### Calls -/

inductive Call where
  | add (text : List UInt8)
  | addAll (texts : List (List UInt8))

/-- The texts have no NUL bytes, and their positions fit. -/
def Call.Valid : Call → Prop
  | add text => 0 ∉ text
  | addAll texts => (∀ text ∈ texts, 0 ∉ text) ∧ texts.length ≤ U32_MAX

section Run

variable (hash : List UInt8 → ℕ) (chunk : ℕ)

def StrTab.call (t : StrTab) : Call → Except Error (List ℕ × StrTab)
  | .add text => (t.add hash text).map fun r => ([r.1], r.2)
  | .addAll texts => t.addAll hash chunk texts

/-- The offsets that calls return, one after the other. -/
def StrTab.run (t : StrTab) : List Call → Except Error (List ℕ × StrTab)
  | [] => .ok ([], t)
  | call :: calls => do
    let (offsets, t) ← t.call hash chunk call
    let (more, t) ← StrTab.run t calls
    .ok (offsets ++ more, t)

def callSpec (strings : List (List UInt8)) : Call → Except Error (List ℕ × List (List UInt8))
  | .add text => (addSpec strings text).map fun r => ([r.1], r.2)
  | .addAll texts => addAllSpec strings texts

def runSpec (strings : List (List UInt8)) :
    List Call → Except Error (List ℕ × List (List UInt8))
  | [] => .ok ([], strings)
  | call :: calls => do
    let (offsets, strings) ← callSpec strings call
    let (more, strings) ← runSpec strings calls
    .ok (offsets ++ more, strings)

/-- The tables that calls lead to.  A call that fails leaves the table as it is. -/
inductive Reachable : StrTab → Prop
  | new : Reachable StrTab.new
  | call {t t' : StrTab} {c : Call} {offsets : List ℕ} (h : Reachable t) (hc : c.Valid)
      (ht : t.call hash chunk c = .ok (offsets, t')) : Reachable t'

/-- What can be seen of a result: the offsets and the data. -/
def observe (r : Except Error (List ℕ × StrTab)) : Except Error (List ℕ × List UInt8) :=
  r.map fun r => (r.1, r.2.data)

variable {hash chunk} {t : StrTab} {strings : List (List UInt8)}

theorem call_spec (hchunk : 0 < chunk) (h : Represents hash t strings) {c : Call} (hc : c.Valid) :
    Simulates hash (t.call hash chunk c) (callSpec strings c) := by
  cases c with
  | addAll texts => exact addAll_spec h hchunk hc.1 hc.2
  | add text =>
    have hadd := @add_spec hash _ _ h _ hc
    show Simulates hash ((t.add hash text).map _) ((addSpec strings text).map _)
    generalize t.add hash text = x at hadd
    generalize addSpec strings text = y at hadd
    cases hadd with
    | error e => exact .error e
    | ok offset h' => exact .ok _ h'

/-- **Runs.**  What a run returns depends on the strings alone. -/
theorem run_spec (hchunk : 0 < chunk) {calls : List Call} (hcalls : ∀ c ∈ calls, c.Valid)
    (h : Represents hash t strings) :
    Simulates hash (t.run hash chunk calls) (runSpec strings calls) := by
  induction calls generalizing t strings with
  | nil => exact .ok _ h
  | cons c calls ih =>
    obtain ⟨hc, hcalls⟩ := List.forall_mem_cons.mp hcalls
    have hcall := call_spec hchunk h hc
    rw [StrTab.run, runSpec]
    generalize t.call hash chunk c = x at hcall
    generalize callSpec strings c = y at hcall
    cases hcall with
    | error e => exact .error e
    | ok offsets h' =>
      have hrest := ih hcalls h'
      show Simulates hash (StrTab.run _ _ _ _ >>= _) (runSpec _ _ >>= _)
      generalize StrTab.run hash chunk _ calls = x at hrest
      generalize runSpec _ calls = y at hrest
      cases hrest with
      | error e => exact .error e
      | ok more h'' => exact .ok _ h''

theorem reachable_represents (hchunk : 0 < chunk) (h : Reachable hash chunk t) :
    ∃ strings, Represents hash t strings := by
  induction h with
  | new => exact ⟨[], represents_new⟩
  | @call t t' c offsets _ hc ht ih =>
    obtain ⟨strings, hstrings⟩ := ih
    have hcall := call_spec hchunk hstrings hc
    rw [ht] at hcall
    generalize callSpec strings c = y at hcall
    cases hcall with
    | ok _ h' => exact ⟨_, h'⟩

/-- Tables with the same strings are not told apart. -/
theorem observe_run (hchunk : 0 < chunk) {t' : StrTab} (h : Represents hash t strings)
    (h' : Represents hash t' strings) {calls : List Call} (hcalls : ∀ c ∈ calls, c.Valid) :
    observe (t.run hash chunk calls) = observe (t'.run hash chunk calls) := by
  have hrun := run_spec hchunk hcalls h
  have hrun' := run_spec hchunk hcalls h'
  generalize t.run hash chunk calls = x at hrun ⊢
  generalize t'.run hash chunk calls = x' at hrun' ⊢
  generalize runSpec strings calls = y at hrun hrun'
  cases hrun with
  | error e =>
    cases hrun' with
    | error => rfl
  | ok offsets hs =>
    cases hrun' with
    | ok _ hs' =>
      show Except.ok (offsets, _) = Except.ok (offsets, _)
      rw [hs.data_eq, hs'.data_eq]

end Run

/-! ### When adding fails -/

/-- The texts that are not held, each once. -/
def newTexts (held texts : List (List UInt8)) : List (List UInt8) :=
  fresh held (texts.filter fun text => text ≠ [])

/-- Every new text starts where an offset reaches. -/
def StartsFit (held new : List (List UInt8)) : Prop :=
  ∀ k < new.length, (pack (held ++ new.take k)).length ≤ U32_MAX

variable {held texts strings : List (List UInt8)} {text : List UInt8}

theorem startsFit_cons {new : List (List UInt8)} :
    StartsFit held (text :: new) ↔
      (pack held).length ≤ U32_MAX ∧ StartsFit (held ++ [text]) new := by
  refine ⟨fun h => ⟨?_, fun k hk => ?_⟩, ?_⟩
  · simpa using h 0 (by simp)
  · have := h (k + 1) (by simpa using hk)
    rwa [List.take_succ_cons, ← List.singleton_append, ← List.append_assoc] at this
  · rintro ⟨hfirst, hrest⟩ k hk
    cases k with
    | zero => simpa using hfirst
    | succ k =>
      rw [List.take_succ_cons, ← List.singleton_append, ← List.append_assoc]
      exact hrest k (by simpa using hk)

theorem newTexts_known (h : text = [] ∨ text ∈ held) :
    newTexts held (text :: texts) = newTexts held texts := by
  unfold newTexts
  rw [List.filter_cons]
  split
  · next hne => rw [fresh, if_pos (h.resolve_left (of_decide_eq_true hne))]
  · rfl

theorem newTexts_new (hne : text ≠ []) (hmem : text ∉ held) :
    newTexts held (text :: texts) = text :: newTexts (held ++ [text]) texts := by
  unfold newTexts
  rw [List.filter_cons, if_pos (decide_eq_true hne), fresh, if_neg hmem]

/-- **Adding one by one succeeds when every new text starts within reach.** -/
theorem addEachSpec_ok (h : StartsFit held (newTexts held texts)) :
    ∃ offsets, addEachSpec held texts = .ok (offsets, held ++ newTexts held texts) := by
  induction texts generalizing held with
  | nil => exact ⟨[], by rw [addEachSpec, newTexts, List.filter_nil, fresh, List.append_nil]⟩
  | cons text texts ih =>
    rw [addEachSpec]
    by_cases hmem : text = [] ∨ text ∈ held
    · rw [newTexts_known hmem] at h ⊢
      obtain ⟨offsets, hrest⟩ := ih h
      rw [addSpec_eq, if_pos hmem]
      exact ⟨_, by show (addEachSpec _ _ >>= _) = _; rw [hrest]; rfl⟩
    · have hnew := not_or.mp hmem
      rw [newTexts_new hnew.1 hnew.2, startsFit_cons] at h
      obtain ⟨offsets, hrest⟩ := ih h.2
      rw [addSpec_eq, if_neg hmem, if_pos h.1, newTexts_new hnew.1 hnew.2]
      refine ⟨(pack held).length :: offsets, ?_⟩
      show (addEachSpec _ _ >>= _) = _
      rw [hrest, List.append_assoc, List.singleton_append]
      rfl

/-- **And fails when one does not.** -/
theorem addEachSpec_error (h : ¬StartsFit held (newTexts held texts)) :
    addEachSpec held texts = .error tooLarge := by
  induction texts generalizing held with
  | nil => exact absurd (fun k hk => absurd hk (Nat.not_lt_zero k)) h
  | cons text texts ih =>
    rw [addEachSpec]
    by_cases hmem : text = [] ∨ text ∈ held
    · rw [newTexts_known hmem] at h
      rw [addSpec_eq, if_pos hmem]
      show (addEachSpec _ _ >>= _) = _
      rw [ih h]
      rfl
    · have hnew := not_or.mp hmem
      rw [newTexts_new hnew.1 hnew.2, startsFit_cons] at h
      rw [addSpec_eq, if_neg hmem]
      by_cases hfirst : (pack held).length ≤ U32_MAX
      · rw [if_pos hfirst]
        show (addEachSpec _ _ >>= _) = _
        rw [ih fun hrest => h ⟨hfirst, hrest⟩]
        rfl
      · rw [if_neg hfirst]
        rfl

theorem addSpec_ok {offset : ℕ} (h : addSpec strings text = .ok (offset, held)) :
    (∃ more, held = strings ++ more) ∧ (text = [] ∨ text ∈ held) ∧
      offset = offsetOf held text := by
  rw [addSpec_eq] at h
  split at h
  · next hmem =>
    obtain ⟨rfl, rfl⟩ := Prod.mk.inj (Except.ok.inj h)
    exact ⟨⟨[], (List.append_nil _).symm⟩, hmem, rfl⟩
  · next hmem =>
    have hnew := not_or.mp hmem
    split at h
    · obtain ⟨rfl, rfl⟩ := Prod.mk.inj (Except.ok.inj h)
      refine ⟨⟨[text], rfl⟩, .inr (by simp), ?_⟩
      rw [offsetOf, if_neg hnew.1, List.idxOf_append_of_notMem hnew.2, List.idxOf_cons_self,
        Nat.add_zero, List.take_left]
    · cases h

/-- What adding one by one returns is where the texts are. -/
theorem addEachSpec_offsets {offsets : List ℕ} (h : addEachSpec strings texts = .ok (offsets, held))
    :
    (∃ more, held = strings ++ more) ∧
      List.Forall₂ (fun text offset => (text = [] ∨ text ∈ held) ∧ offset = offsetOf held text)
        texts offsets := by
  induction texts generalizing strings offsets held with
  | nil =>
    obtain ⟨rfl, rfl⟩ := Prod.mk.inj (Except.ok.inj h)
    exact ⟨⟨[], (List.append_nil _).symm⟩, .nil⟩
  | cons text texts ih =>
    rw [addEachSpec] at h
    obtain ⟨⟨offset, held'⟩, hadd, h⟩ := bind_eq_ok.mp h
    obtain ⟨⟨offsets', held''⟩, heach, h⟩ := bind_eq_ok.mp h
    obtain ⟨rfl, rfl⟩ := Prod.mk.inj (Except.ok.inj h)
    obtain ⟨⟨more, rfl⟩, hmem, rfl⟩ := addSpec_ok hadd
    obtain ⟨⟨more', rfl⟩, hrest⟩ := ih heach
    refine ⟨⟨more ++ more', List.append_assoc _ _ _⟩, .cons ⟨?_, ?_⟩ hrest⟩
    · exact hmem.imp_right (List.mem_append_left _)
    · exact (offsetOf_append hmem more').symm

/-! ### The strings of a table's data -/

/-- The strings of some data, behind the bytes of the current one. -/
def splitNul : List UInt8 → List UInt8 → List (List UInt8)
  | _, [] => []
  | current, b :: rest =>
    if b = 0 then current :: splitNul [] rest else splitNul (current ++ [b]) rest

/-- The strings a table's data holds. -/
def heldStrings (data : List UInt8) : List (List UInt8) := splitNul [] data.tail

theorem splitNul_append {s rest : List UInt8} (h : 0 ∉ s) (current : List UInt8) :
    splitNul current (s ++ 0 :: rest) = (current ++ s) :: splitNul [] rest := by
  induction s generalizing current with
  | nil => rw [List.nil_append, splitNul, if_pos rfl, List.append_nil]
  | cons b s ih =>
    rw [List.cons_append, splitNul, if_neg (List.ne_of_not_mem_cons h).symm,
      ih (List.not_mem_of_not_mem_cons h), List.append_assoc, List.singleton_append]

theorem heldStrings_pack (h : ∀ s ∈ strings, 0 ∉ s) :
    heldStrings (pack strings) = strings := by
  show splitNul [] (pieces strings) = strings
  induction strings with
  | nil => rfl
  | cons s strings ih =>
    obtain ⟨hs, hstrings⟩ := List.forall_mem_cons.mp h
    rw [pieces_cons, List.append_assoc, List.singleton_append, splitNul_append hs,
      List.nil_append, ih hstrings]

/-! ### Agreement -/

section Agrees

variable (hash : List UInt8 → ℕ) (chunk : ℕ)

/-- Two ways of adding texts have the same result: the same error, or the same offsets and the same
data, which holds every text once and reads it back, and no later calls tell the tables apart. -/
inductive Agrees (texts : List (List UInt8)) :
    Except Error (List ℕ × StrTab) → Except Error (List ℕ × StrTab) → Prop
  | error (e : Error) : Agrees texts (.error e) (.error e)
  | ok (offsets : List ℕ) {t t' : StrTab} (data_eq : t.data = t'.data)
      (stored : t.data = pack (heldStrings t.data) ∧ (heldStrings t.data).Nodup ∧
        ∀ s ∈ heldStrings t.data, s ≠ [] ∧ 0 ∉ s)
      (read : List.Forall₂ (fun text offset => (text = [] ∨ text ∈ heldStrings t.data) ∧
        stringAt t.data offset = text) texts offsets)
      (later : ∀ calls : List Call, (∀ c ∈ calls, c.Valid) →
        observe (t.run hash chunk calls) = observe (t'.run hash chunk calls)) :
      Agrees texts (.ok (offsets, t)) (.ok (offsets, t'))

/-- Every new text starts where an offset reaches, and the last one ends behind that. -/
def Overshoots (held texts : List (List UInt8)) : Prop :=
  StartsFit held (newTexts held texts) ∧
    U32_MAX < (pack (held ++ newTexts held texts)).length

variable {hash chunk}

/-- Tables with the same strings, in which all texts are. -/
theorem agrees_of_represents (hchunk : 0 < chunk) {t t' : StrTab}
    {held texts : List (List UInt8)} {offsets : List ℕ} (h : Represents hash t held)
    (h' : Represents hash t' held)
    (hoffsets : List.Forall₂
      (fun text offset => (text = [] ∨ text ∈ held) ∧ offset = offsetOf held text) texts offsets) :
    Agrees hash chunk texts (.ok (offsets, t)) (.ok (offsets, t')) := by
  have hheld : heldStrings t.data = held := by rw [h.data_eq, heldStrings_pack h.nul_free]
  refine .ok offsets (h.data_eq.trans h'.data_eq.symm) ?_ ?_ fun calls hcalls =>
    observe_run hchunk h h' hcalls
  · rw [hheld]
    exact ⟨h.data_eq, h.nodup, fun s hs => ⟨h.ne_nil s hs, h.nul_free s hs⟩⟩
  · rw [hheld]
    refine hoffsets.imp fun text offset hmem => ⟨hmem.1, ?_⟩
    rw [hmem.2]
    exact stringAt_offsetOf h hmem.1

/-- **Adding together (proved).**  It is adding one by one, unless every new text starts within
4 GiB and the table ends behind that. -/
theorem addAll_agrees_iff (hchunk : 0 < chunk) {t : StrTab} (ht : Reachable hash chunk t)
    {texts : List (List UInt8)} (hnul : ∀ text ∈ texts, 0 ∉ text)
    (hlen : texts.length ≤ U32_MAX) :
    Agrees hash chunk texts (t.addAll hash chunk texts) (t.addEach hash texts) ↔
      ¬Overshoots (heldStrings t.data) texts := by
  obtain ⟨strings, h⟩ := reachable_represents hchunk ht
  have hheld : heldStrings t.data = strings := by rw [h.data_eq, heldStrings_pack h.nul_free]
  have hall := addAll_spec h hchunk hnul hlen
  have heach := addEach_spec h hnul
  rw [hheld, Overshoots]
  by_cases hfit : StartsFit strings (newTexts strings texts)
  · obtain ⟨offsets, hok⟩ := addEachSpec_ok hfit
    rw [hok] at heach
    by_cases hend : (pack (strings ++ newTexts strings texts)).length ≤ U32_MAX
    · refine iff_of_true ?_ fun hover => Nat.not_lt.mpr hend hover.2
      have hspec : addAllSpec strings texts = .ok (offsets, strings ++ newTexts strings texts) := by
        rw [addAllSpec, hok]
        exact if_pos hend
      rw [hspec] at hall
      generalize t.addAll hash chunk texts = x at hall ⊢
      generalize t.addEach hash texts = x' at heach ⊢
      cases hall with
      | ok _ h₁ =>
        cases heach with
        | ok _ h₂ => exact agrees_of_represents hchunk h₁ h₂ (addEachSpec_offsets hok).2
    · refine iff_of_false ?_ fun hnot => hnot ⟨hfit, Nat.not_le.mp hend⟩
      have hspec : addAllSpec strings texts = .error tooLarge := by
        rw [addAllSpec, hok]
        exact if_neg hend
      rw [hspec] at hall
      generalize t.addAll hash chunk texts = x at hall ⊢
      generalize t.addEach hash texts = x' at heach ⊢
      cases hall
      cases heach
      intro h
      cases h
  · refine iff_of_true ?_ fun hover => hfit hover.1
    have herror := addEachSpec_error hfit
    have hspec : addAllSpec strings texts = .error tooLarge := by rw [addAllSpec, herror]
    rw [hspec] at hall
    rw [herror] at heach
    generalize t.addAll hash chunk texts = x at hall ⊢
    generalize t.addEach hash texts = x' at heach ⊢
    cases hall
    cases heach
    exact .error _

/-- `STRINGS_PER_TASK`. -/
def STRINGS_PER_TASK : ℕ := 4096

theorem addAll_agrees_three :
    Agrees (fun text => text.length) STRINGS_PER_TASK [[97], [98], [97]]
      (StrTab.new.addAll (fun text => text.length) STRINGS_PER_TASK [[97], [98], [97]])
      (StrTab.new.addEach (fun text => text.length) [[97], [98], [97]]) :=
  (addAll_agrees_iff (by decide) .new (by decide) (by decide)).mpr fun h => absurd h.2 (by decide)

/-- One text that starts within 4 GiB and does not end there. -/
theorem addAll_overshoots {s : List UInt8} (hlen : s.length = 4294967294) (hnul : 0 ∉ s)
    (hash : List UInt8 → ℕ) :
    StrTab.new.addAll hash STRINGS_PER_TASK [s] = .error tooLarge ∧
      ∃ t, StrTab.new.addEach hash [s] = .ok ([1], t) := by
  have hne : s ≠ [] := by
    rintro rfl
    cases hlen
  have hspec : addEachSpec [] [s] = .ok ([1], [s]) := by
    rw [addEachSpec, addSpec_eq, if_neg (by simp [hne])]
    rfl
  have hend : ¬(pack [s]).length ≤ U32_MAX := by
    rw [pack, List.length_cons, pieces_singleton, List.length_append, hlen]
    decide
  have hall := @addAll_spec hash _ _ _ represents_new _ (show 0 < STRINGS_PER_TASK by decide)
    (show ∀ text ∈ [s], 0 ∉ text by simpa using hnul) (show 1 ≤ U32_MAX by decide)
  have heach := @addEach_spec hash _ _ represents_new _
    (show ∀ text ∈ [s], 0 ∉ text by simpa using hnul)
  have hfail : addAllSpec [] [s] = .error tooLarge := by
    rw [addAllSpec, hspec]
    exact if_neg hend
  rw [hfail] at hall
  rw [hspec] at heach
  generalize StrTab.new.addAll hash STRINGS_PER_TASK [s] = x at hall ⊢
  generalize StrTab.new.addEach hash [s] = x' at heach ⊢
  cases hall
  cases heach with
  | ok _ h => exact ⟨rfl, _, rfl⟩

/-- A text of `2 ^ 32 - 2` bytes is added alone, and not together. -/
theorem addAll_not_agrees :
    ¬Agrees (fun text => text.length) STRINGS_PER_TASK [List.replicate 4294967294 97]
      (StrTab.new.addAll (fun text => text.length) STRINGS_PER_TASK
        [List.replicate 4294967294 97])
      (StrTab.new.addEach (fun text => text.length) [List.replicate 4294967294 97]) := by
  have h := addAll_overshoots (List.length_replicate (n := 4294967294) (a := (97 : UInt8)))
    (fun hmem => by cases List.eq_of_mem_replicate hmem) fun text => text.length
  obtain ⟨hall, t, heach⟩ := h
  rw [hall, heach]
  intro hagrees
  cases hagrees

end Agrees

end Qld.Elf.Dynsym
