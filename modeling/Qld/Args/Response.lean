import Mathlib.Data.UInt
import Qld.Lib.Except

/-!
# Response files

The model of `args/response.rs`: how the contents of a file are split into arguments, by the rules
of GNU tools or of Windows, and how `@file` arguments are replaced by those of the file.

* `tokenizeGnu`, `tokenizeWindows`, `tokenize` — the two ways to split;
* `expand` — the replacement, down to 64 files;
* `GnuWrites`, `quoteWindows`, `Joined` — the ways to write arguments;
* `Substitutes`, `Occurs` — the replacement without a limit, and the files in it;
* `response_inverts` — splitting gives back what was written, and the replacement fails
  only for a file that cannot be read or lies too deep.
-/

namespace Qld.Args

open Qld.Lib

/-- The bytes of an argument. -/
abbrev Arg := List UInt8

def BACKSLASH : UInt8 := 92

def SQUOTE : UInt8 := 39

def DQUOTE : UInt8 := 34

def isSpace (byte : UInt8) : Bool :=
  byte == 32 || byte == 9 || byte == 10 || byte == 13 || byte == 11 || byte == 12

/-- Tokenization rules for response file contents. -/
inductive Quoting where
  | gnu
  | windows
  deriving DecidableEq, Repr

/-! ### One argument -/

/-- An argument from its first byte on, by GNU rules, and what follows it. -/
def gnuArg (arg : Arg) (squote dquote escape : Bool) : List UInt8 → Arg × List UInt8
  | [] => (arg, [])
  | byte :: rest =>
    if isSpace byte && !squote && !dquote && !escape then (arg, byte :: rest)
    else if escape then gnuArg (arg ++ [byte]) squote dquote false rest
    else if byte = BACKSLASH then gnuArg arg squote dquote true rest
    else if squote then
      if byte = SQUOTE then gnuArg arg false dquote false rest
      else gnuArg (arg ++ [byte]) squote dquote false rest
    else if dquote then
      if byte = DQUOTE then gnuArg arg squote false false rest
      else gnuArg (arg ++ [byte]) squote dquote false rest
    else if byte = SQUOTE then gnuArg arg true dquote false rest
    else if byte = DQUOTE then gnuArg arg squote true false rest
    else gnuArg (arg ++ [byte]) squote dquote false rest

/-- The backslashes in front, and what follows them. -/
def backslashes : List UInt8 → ℕ × List UInt8
  | [] => (0, [])
  | byte :: rest =>
    if byte = BACKSLASH then ((backslashes rest).1 + 1, (backslashes rest).2) else (0, byte :: rest)

theorem backslashes_length (text : List UInt8) :
    (backslashes text).1 + (backslashes text).2.length = text.length := by
  induction text with
  | nil => rfl
  | cons byte rest ih =>
    rw [backslashes]
    split
    · show (backslashes rest).1 + 1 + (backslashes rest).2.length = rest.length + 1
      omega
    · exact Nat.zero_add _

/-- An argument from its first byte on, by Windows rules, and what follows it. -/
def windowsArg (arg : Arg) (quoted : Bool) : List UInt8 → Arg × List UInt8
  | [] => (arg, [])
  | byte :: rest =>
    if isSpace byte && !quoted then (arg, byte :: rest)
    else if byte = BACKSLASH then
      let count := (backslashes rest).1 + 1
      let after := (backslashes rest).2
      if after.head? = some DQUOTE then
        if count % 2 = 1 then
          windowsArg (arg ++ List.replicate (count / 2) BACKSLASH ++ [DQUOTE]) quoted after.tail
        else windowsArg (arg ++ List.replicate (count / 2) BACKSLASH) quoted after
      else windowsArg (arg ++ List.replicate count BACKSLASH) quoted after
    else if byte = DQUOTE then
      if quoted && rest.head? == some DQUOTE then windowsArg (arg ++ [DQUOTE]) quoted rest.tail
      else windowsArg arg (!quoted) rest
    else windowsArg (arg ++ [byte]) quoted rest
termination_by text => text.length
decreasing_by
  · have := backslashes_length rest
    simp only [List.length_tail, List.length_cons]
    omega
  · have := backslashes_length rest
    simp only [List.length_cons]
    omega
  · have := backslashes_length rest
    simp only [List.length_cons]
    omega
  · simp only [List.length_tail, List.length_cons]
    omega
  · exact Nat.lt_succ_self _
  · exact Nat.lt_succ_self _

theorem gnuArg_length (text : List UInt8) : ∀ (arg : Arg) (squote dquote escape : Bool),
    (gnuArg arg squote dquote escape text).2.length ≤ text.length := by
  induction text with
  | nil => exact fun _ _ _ _ => Nat.le_refl 0
  | cons byte rest ih =>
    intro arg squote dquote escape
    rw [gnuArg]
    split
    · exact Nat.le_refl _
    refine Nat.le_succ_of_le ?_
    split
    · exact ih _ _ _ _
    split
    · exact ih _ _ _ _
    split
    · split <;> exact ih _ _ _ _
    split
    · split <;> exact ih _ _ _ _
    split
    · exact ih _ _ _ _
    split <;> exact ih _ _ _ _

theorem windowsArg_length (n : ℕ) : ∀ (arg : Arg) (quoted : Bool) (text : List UInt8),
    text.length ≤ n → (windowsArg arg quoted text).2.length ≤ text.length := by
  induction n with
  | zero =>
    intro arg quoted text hn
    rw [List.length_eq_zero_iff.mp (Nat.le_zero.mp hn), windowsArg]
  | succ n ih =>
    intro arg quoted text hn
    cases text with
    | nil => rw [windowsArg]
    | cons byte rest =>
      have hrun := backslashes_length rest
      rw [List.length_cons] at hn ⊢
      rw [windowsArg]
      split
      · exact Nat.le_refl _
      split
      · dsimp only
        split
        · split
          · refine (ih _ _ _ ?_).trans ?_ <;> rw [List.length_tail] <;> omega
          · refine (ih _ _ _ ?_).trans ?_ <;> omega
        · refine (ih _ _ _ ?_).trans ?_ <;> omega
      split
      · split
        · refine (ih _ _ _ ?_).trans ?_ <;> rw [List.length_tail] <;> omega
        · refine (ih _ _ _ ?_).trans ?_ <;> omega
      · refine (ih _ _ _ ?_).trans ?_ <;> omega

/-! ### All arguments -/

/-- What takes an argument from a text, and leaves less of it. -/
structure ArgReader where
  run : List UInt8 → Arg × List UInt8
  progress : ∀ byte rest, isSpace byte = false → (run (byte :: rest)).2.length ≤ rest.length

/-- libiberty `buildargv`. -/
def gnuReader : ArgReader where
  run := gnuArg [] false false false
  progress := by
    intro byte rest hspace
    rw [gnuArg, if_neg (by simp [hspace]), if_neg Bool.false_ne_true]
    split
    · exact gnuArg_length _ _ _ _ _
    rw [if_neg Bool.false_ne_true, if_neg Bool.false_ne_true]
    split
    · exact gnuArg_length _ _ _ _ _
    split <;> exact gnuArg_length _ _ _ _ _

/-- MSVC CRT style. -/
def windowsReader : ArgReader where
  run := windowsArg [] false
  progress := by
    intro byte rest hspace
    have hrun := backslashes_length rest
    have hlength : ∀ arg quoted text, text.length ≤ rest.length →
        (windowsArg arg quoted text).2.length ≤ rest.length :=
      fun arg quoted text h => (windowsArg_length _ arg quoted text (Nat.le_refl _)).trans h
    rw [windowsArg, if_neg (by simp [hspace])]
    split
    · dsimp only
      split
      · split
        · exact hlength _ _ _ (by rw [List.length_tail]; omega)
        · exact hlength _ _ _ (by omega)
      · exact hlength _ _ _ (by omega)
    split
    · split
      · exact hlength _ _ _ (by rw [List.length_tail]; omega)
      · exact hlength _ _ _ (Nat.le_refl _)
    · exact hlength _ _ _ (Nat.le_refl _)

theorem length_dropWhile_le (text : List UInt8) :
    (text.dropWhile isSpace).length ≤ text.length :=
  (List.dropWhile_sublist isSpace).length_le

/-- The arguments of a text: whitespace separates them. -/
def splitArgs (reader : ArgReader) (contents : List UInt8) : List Arg :=
  match _htext : contents.dropWhile isSpace with
  | [] => []
  | byte :: rest => (reader.run (byte :: rest)).1 :: splitArgs reader (reader.run (byte :: rest)).2
termination_by contents.length
decreasing_by
  have hlength := length_dropWhile_le contents
  have hspace := List.head?_dropWhile_not isSpace contents
  rw [_htext] at hlength hspace
  exact Nat.lt_of_le_of_lt (reader.progress byte rest (by simpa using hspace))
    (Nat.lt_of_lt_of_le (Nat.lt_succ_self _) hlength)

/-- `tokenize_gnu`. -/
def tokenizeGnu (contents : List UInt8) : List Arg := splitArgs gnuReader contents

/-- `tokenize_windows`. -/
def tokenizeWindows (contents : List UInt8) : List Arg := splitArgs windowsReader contents

/-- Splits response file contents into arguments. -/
def tokenize (contents : List UInt8) : Quoting → List Arg
  | .gnu => tokenizeGnu contents
  | .windows => tokenizeWindows contents

/-! ### Expansion -/

/-- Maximum nesting of response files. -/
def MAX_DEPTH : ℕ := 64

/-- Why arguments are not expanded: a file could not be read, or nests too deeply. -/
inductive ExpandError (ε : Type) where
  | io (path : Arg) (source : ε)
  | option (message : String) (arg : Arg)
  deriving DecidableEq, Repr

/-- The name in an `@file` argument. -/
def fileName : Arg → Option Arg
  | mark :: byte :: rest => if mark = 64 then some (byte :: rest) else none
  | _ => none

section Expand

variable {ε : Type} (read : Arg → Except ε (List UInt8)) (quoting : Quoting)

/-- `expand_into`, with the arguments that it adds. -/
def expandInto (depth : ℕ) : List Arg → Except (ExpandError ε) (List Arg)
  | [] => .ok []
  | arg :: args =>
    match fileName arg with
    | none => do
      let rest ← expandInto depth args
      .ok (arg :: rest)
    | some name =>
      if MAX_DEPTH ≤ depth then .error (.option "response files nested too deeply at " arg)
      else do
        let contents ← (read name).mapError (.io name)
        let nested ← expandInto (depth + 1) (tokenize contents quoting)
        let rest ← expandInto depth args
        .ok (nested ++ rest)
termination_by args => (MAX_DEPTH - depth, args.length)
decreasing_by
  · exact Prod.Lex.right _ (Nat.lt_succ_self _)
  · exact Prod.Lex.left _ _ (by omega)
  · exact Prod.Lex.right _ (Nat.lt_succ_self _)

/-- Replaces every `@file` argument with the arguments read from that file, recursively. -/
def expand (args : List Arg) : Except (ExpandError ε) (List Arg) := expandInto read quoting 0 args

end Expand

/-! ### Ways to write arguments -/

/-- A text that starts with whitespace or is at an end. -/
def AtGap (rest : List UInt8) : Prop :=
  rest = [] ∨ ∃ byte tail, rest = byte :: tail ∧ isSpace byte = true

/-- Bytes enclosed in a quote: the quote and a backslash are escaped, and any byte can be. -/
inductive InQuotes (quote : UInt8) : Arg → List UInt8 → Prop
  | nil : InQuotes quote [] []
  | plain {byte : UInt8} {arg : Arg} {text : List UInt8} : byte ≠ quote → byte ≠ BACKSLASH →
      InQuotes quote arg text → InQuotes quote (byte :: arg) (byte :: text)
  | escaped {byte : UInt8} {arg : Arg} {text : List UInt8} :
      InQuotes quote arg text → InQuotes quote (byte :: arg) (BACKSLASH :: byte :: text)

/-- Pieces of an argument by GNU quoting: plain bytes, escaped bytes and quoted parts. -/
inductive GnuPieces : Arg → List UInt8 → Prop
  | nil : GnuPieces [] []
  | plain {byte : UInt8} {arg : Arg} {text : List UInt8} : isSpace byte = false →
      byte ≠ BACKSLASH → byte ≠ SQUOTE → byte ≠ DQUOTE →
      GnuPieces arg text → GnuPieces (byte :: arg) (byte :: text)
  | escaped {byte : UInt8} {arg : Arg} {text : List UInt8} :
      GnuPieces arg text → GnuPieces (byte :: arg) (BACKSLASH :: byte :: text)
  | quoted {quote : UInt8} {part arg : Arg} {inner text : List UInt8} :
      quote = SQUOTE ∨ quote = DQUOTE → InQuotes quote part inner →
      GnuPieces arg text → GnuPieces (part ++ arg) (quote :: (inner ++ quote :: text))

/-- An argument by GNU quoting; an empty one takes quotes. -/
def GnuWrites (arg : Arg) (text : List UInt8) : Prop := GnuPieces arg text ∧ text ≠ []

/-- The rest of an argument and the closing quote, behind `count` backslashes. -/
def quoteFrom : ℕ → Arg → List UInt8
  | count, [] => List.replicate (2 * count) BACKSLASH ++ [DQUOTE]
  | count, byte :: rest =>
    if byte = BACKSLASH then quoteFrom (count + 1) rest
    else if byte = DQUOTE then
      List.replicate (2 * count + 1) BACKSLASH ++ DQUOTE :: quoteFrom 0 rest
    else List.replicate count BACKSLASH ++ byte :: quoteFrom 0 rest

/-- An argument in double quotes by the MSVC rule. -/
def quoteWindows (arg : Arg) : List UInt8 := DQUOTE :: quoteFrom 0 arg

/-- Arguments, each written in a way, with whitespace between them. -/
inductive Joined (writes : Arg → List UInt8 → Prop) : List Arg → List UInt8 → Prop
  | nil : Joined writes [] []
  | one {arg : Arg} {text : List UInt8} : writes arg text → Joined writes [arg] text
  | more {arg next : Arg} {args : List Arg} {text gap rest : List UInt8} : writes arg text →
      gap ≠ [] → (∀ byte ∈ gap, isSpace byte = true) → Joined writes (next :: args) rest →
      Joined writes (arg :: next :: args) (text ++ (gap ++ rest))

/-- A reader inverts a way to write an argument. -/
structure Inverts (reader : ArgReader) (writes : Arg → List UInt8 → Prop) : Prop where
  start : ∀ arg text, writes arg text → ∃ byte tail, text = byte :: tail ∧ isSpace byte = false
  run : ∀ arg text rest, writes arg text → AtGap rest → reader.run (text ++ rest) = (arg, rest)

theorem splitArgs_gap (reader : ArgReader) {gap : List UInt8}
    (hgap : ∀ byte ∈ gap, isSpace byte = true) (rest : List UInt8) :
    splitArgs reader (gap ++ rest) = splitArgs reader rest := by
  have hdrop : (gap ++ rest).dropWhile isSpace = rest.dropWhile isSpace :=
    List.dropWhile_append_of_pos hgap
  rw [splitArgs, splitArgs, hdrop]

variable {text rest : List UInt8}

variable {reader : ArgReader} {writes : Arg → List UInt8 → Prop}

theorem splitArgs_arg (h : Inverts reader writes) {arg : Arg} (harg : writes arg text)
    (hrest : AtGap rest) :
    splitArgs reader (text ++ rest) = arg :: splitArgs reader rest := by
  obtain ⟨byte, tail, rfl, hspace⟩ := h.start arg text harg
  have hrun := h.run arg _ rest harg hrest
  rw [splitArgs]
  have hdrop : (byte :: tail ++ rest).dropWhile isSpace = byte :: (tail ++ rest) := by
    rw [List.cons_append, List.dropWhile_cons_of_neg (by rw [hspace]; exact Bool.false_ne_true)]
  split
  · next hnil => exact absurd (hnil.symm.trans hdrop) (List.cons_ne_nil _ _).symm
  · next byte' rest' hcons =>
    obtain ⟨rfl, rfl⟩ := List.cons.inj (hcons.symm.trans hdrop)
    rw [← List.cons_append, hrun]

/-- **Splitting gives back arguments that were written and joined.** -/
theorem splitArgs_joined (h : Inverts reader writes) {args : List Arg}
    (hjoined : Joined writes args text) :
    splitArgs reader text = args := by
  have hnil : splitArgs reader [] = [] := by
    rw [splitArgs]
    rfl
  induction hjoined with
  | nil => exact hnil
  | @one arg text harg =>
    have := splitArgs_arg h harg (.inl rfl)
    rwa [List.append_nil, hnil] at this
  | @more arg next args text gap rest harg hne hgap _ ih =>
    have hrest : AtGap (gap ++ rest) := by
      cases gap with
      | nil => exact absurd rfl hne
      | cons byte gap => exact .inr ⟨byte, gap ++ rest, rfl, hgap byte List.mem_cons_self⟩
    rw [splitArgs_arg h harg hrest, splitArgs_gap reader hgap, ih]

/-! ### GNU quoting -/

theorem gnuArg_gap (h : AtGap rest) (arg : Arg) :
    gnuArg arg false false false rest = (arg, rest) := by
  rcases h with rfl | ⟨byte, tail, rfl, hspace⟩
  · rfl
  · rw [gnuArg, if_pos (by simp [hspace])]

/-- An escaped byte stands for itself, in quotes and outside. -/
theorem gnuArg_escaped (arg : Arg) (squote dquote : Bool) (byte : UInt8) (rest : List UInt8) :
    gnuArg arg squote dquote false (BACKSLASH :: byte :: rest) =
      gnuArg (arg ++ [byte]) squote dquote false rest := by
  have hspace : isSpace BACKSLASH = false := by decide
  rw [gnuArg]
  simp only [hspace, Bool.false_and, Bool.false_eq_true, if_false, if_true]
  rw [gnuArg]
  simp only [Bool.not_true, Bool.and_false, Bool.false_eq_true, if_false, if_true]

/-- Which quotes are open. -/
def Open (quote : UInt8) (squote dquote : Bool) : Prop :=
  quote = SQUOTE ∧ squote = true ∧ dquote = false ∨ quote = DQUOTE ∧ squote = false ∧ dquote = true

variable {part : Arg}

theorem gnuArg_quoted {quote : UInt8} {squote dquote : Bool} (hopen : Open quote squote dquote)
    {inner : List UInt8} (h : InQuotes quote part inner) (rest : List UInt8) :
    ∀ arg : Arg, gnuArg arg squote dquote false (inner ++ quote :: rest) =
      gnuArg (arg ++ part) false false false rest := by
  induction h with
  | nil =>
    intro arg
    rw [List.nil_append, List.append_nil, gnuArg]
    rcases hopen with ⟨rfl, rfl, rfl⟩ | ⟨rfl, rfl, rfl⟩ <;> rfl
  | @plain byte part inner hquote hback _ ih =>
    intro arg
    have hstep : gnuArg arg squote dquote false (byte :: (inner ++ quote :: rest)) =
        gnuArg (arg ++ [byte]) squote dquote false (inner ++ quote :: rest) := by
      rw [gnuArg]
      rcases hopen with ⟨rfl, rfl, rfl⟩ | ⟨rfl, rfl, rfl⟩ <;> simp [hback, hquote]
    rw [List.cons_append, hstep, ih, List.append_assoc]
    rfl
  | @escaped byte part inner _ ih =>
    intro arg
    rw [List.cons_append, List.cons_append, gnuArg_escaped, ih, List.append_assoc]
    rfl

/-- **The pieces of an argument are put together.** -/
theorem gnuArg_pieces (h : GnuPieces part text) (rest : List UInt8) :
    ∀ arg : Arg, gnuArg arg false false false (text ++ rest) =
      gnuArg (arg ++ part) false false false rest := by
  induction h with
  | nil =>
    intro arg
    rw [List.nil_append, List.append_nil]
  | @plain byte part text hspace hback hsquote hdquote _ ih =>
    intro arg
    rw [List.cons_append, gnuArg]
    simp only [hspace, Bool.false_and, Bool.false_eq_true, if_false, hback, hsquote, hdquote]
    rw [ih, List.append_assoc]
    rfl
  | @escaped byte part text _ ih =>
    intro arg
    rw [List.cons_append, List.cons_append, gnuArg_escaped, ih, List.append_assoc]
    rfl
  | @quoted quote part more inner text hquote hinner _ ih =>
    intro arg
    rw [List.cons_append, List.append_assoc, List.cons_append, gnuArg]
    rcases hquote with rfl | rfl
    · have hspace : isSpace SQUOTE = false := by decide
      have hback : SQUOTE ≠ BACKSLASH := by decide
      simp only [hspace, Bool.false_and, Bool.false_eq_true, if_false, if_true, hback]
      rw [gnuArg_quoted (.inl ⟨rfl, rfl, rfl⟩) hinner, ih, List.append_assoc]
    · have hspace : isSpace DQUOTE = false := by decide
      have hback : DQUOTE ≠ BACKSLASH := by decide
      have hsquote : DQUOTE ≠ SQUOTE := by decide
      simp only [hspace, Bool.false_and, Bool.false_eq_true, if_false, if_true, hback, hsquote]
      rw [gnuArg_quoted (.inr ⟨rfl, rfl, rfl⟩) hinner, ih, List.append_assoc]

theorem gnu_inverts : Inverts gnuReader GnuWrites where
  start := by
    rintro arg text ⟨hpieces, hne⟩
    cases hpieces with
    | nil => exact absurd rfl hne
    | plain hspace _ _ _ _ => exact ⟨_, _, rfl, hspace⟩
    | escaped _ => exact ⟨_, _, rfl, by decide⟩
    | quoted hquote _ _ =>
      refine ⟨_, _, rfl, ?_⟩
      rcases hquote with rfl | rfl <;> decide
  run := by
    rintro arg text rest ⟨hpieces, -⟩ hrest
    show gnuArg [] false false false (text ++ rest) = (arg, rest)
    rw [gnuArg_pieces hpieces, List.nil_append, gnuArg_gap hrest]

/-- Every argument can be written, each byte escaped between quotes. -/
theorem exists_gnuWrites (arg : Arg) : ∃ text, GnuWrites arg text := by
  have hinner : ∃ inner, InQuotes SQUOTE arg inner := by
    induction arg with
    | nil => exact ⟨[], InQuotes.nil⟩
    | cons byte arg ih =>
      obtain ⟨inner, h⟩ := ih
      exact ⟨_, h.escaped⟩
  obtain ⟨inner, h⟩ := hinner
  have := GnuPieces.quoted (.inl rfl) h GnuPieces.nil
  rw [List.append_nil] at this
  exact ⟨_, this, List.cons_ne_nil _ _⟩

/-! ### Windows quoting -/

theorem windowsArg_gap (h : AtGap rest) (arg : Arg) :
    windowsArg arg false rest = (arg, rest) := by
  rcases h with rfl | ⟨byte, tail, rfl, hspace⟩
  · rw [windowsArg]
  · rw [windowsArg, if_pos (by simp [hspace])]

theorem backslashes_run (count : ℕ) (h : text.head? ≠ some BACKSLASH) :
    backslashes (List.replicate count BACKSLASH ++ text) = (count, text) := by
  induction count with
  | zero =>
    cases text with
    | nil => rfl
    | cons byte text =>
      have hne : byte ≠ BACKSLASH := fun heq => h (by rw [heq]; rfl)
      show backslashes (byte :: text) = _
      rw [backslashes, if_neg hne]
  | succ count ih =>
    rw [List.replicate_succ, List.cons_append, backslashes, if_pos rfl, ih]

/-- Backslashes that are not before a quote stand for themselves. -/
theorem windowsArg_run (arg : Arg) (count : ℕ) (h : text.head? ≠ some BACKSLASH)
    (h' : text.head? ≠ some DQUOTE) :
    windowsArg arg true (List.replicate count BACKSLASH ++ text) =
      windowsArg (arg ++ List.replicate count BACKSLASH) true text := by
  cases count with
  | zero => rw [List.replicate_zero, List.nil_append, List.append_nil]
  | succ count =>
    rw [List.replicate_succ, List.cons_append, windowsArg, if_neg (by simp), if_pos rfl,
      backslashes_run count h]
    dsimp only
    rw [if_neg h', ← List.replicate_succ]

theorem windowsArg_even (arg : Arg) (count : ℕ) (text : List UInt8) :
    windowsArg arg true (List.replicate (2 * count) BACKSLASH ++ DQUOTE :: text) =
      windowsArg (arg ++ List.replicate count BACKSLASH) true (DQUOTE :: text) := by
  cases count with
  | zero => rw [Nat.mul_zero, List.replicate_zero, List.nil_append, List.append_nil]
  | succ count =>
    rw [show 2 * (count + 1) = 2 * count + 1 + 1 by omega, List.replicate_succ, List.cons_append,
      windowsArg, if_neg (by simp), if_pos rfl, backslashes_run (2 * count + 1) (by simp; decide)]
    dsimp only
    rw [if_pos (by rfl), if_neg (by omega), show (2 * count + 1 + 1) / 2 = count + 1 by omega]

theorem windowsArg_odd (arg : Arg) (count : ℕ) (text : List UInt8) :
    windowsArg arg true (List.replicate (2 * count + 1) BACKSLASH ++ DQUOTE :: text) =
      windowsArg (arg ++ List.replicate count BACKSLASH ++ [DQUOTE]) true text := by
  rw [List.replicate_succ, List.cons_append, windowsArg, if_neg (by simp), if_pos rfl,
    backslashes_run (2 * count) (by simp; decide)]
  dsimp only
  rw [if_pos (by rfl), if_pos (by omega), show (2 * count + 1) / 2 = count by omega, List.tail_cons]

/-- **The rest of an argument and its closing quote.** -/
theorem windowsArg_quoteFrom (hrest : AtGap rest) (tail : Arg) :
    ∀ (arg : Arg) (count : ℕ), windowsArg arg true (quoteFrom count tail ++ rest) =
      (arg ++ List.replicate count BACKSLASH ++ tail, rest) := by
  induction tail with
  | nil =>
    intro arg count
    have hhead : ¬ (rest.head? = some DQUOTE) := by
      rcases hrest with rfl | ⟨byte, tail, rfl, hspace⟩
      · exact fun h => absurd h (by simp)
      · intro h
        rw [Option.some.inj h] at hspace
        exact absurd hspace (by decide)
    rw [quoteFrom, List.append_assoc, List.singleton_append, windowsArg_even, List.append_nil,
      windowsArg, if_neg (by simp), if_neg (by decide), if_pos rfl, if_neg (by simp [hhead])]
    exact windowsArg_gap hrest _
  | cons byte tail ih =>
    intro arg count
    rw [quoteFrom]
    by_cases hback : byte = BACKSLASH
    · subst hback
      rw [if_pos rfl, ih, List.replicate_succ', ← List.append_assoc, List.append_assoc _ [_]]
      rfl
    rw [if_neg hback]
    by_cases hquote : byte = DQUOTE
    · subst hquote
      rw [if_pos rfl, List.append_assoc, List.cons_append, windowsArg_odd, ih,
        List.replicate_zero, List.append_nil, List.append_assoc _ [_]]
      rfl
    · have hhead : (byte :: (quoteFrom 0 tail ++ rest)).head? ≠ some BACKSLASH :=
        fun h => hback (Option.some.inj h)
      have hhead' : (byte :: (quoteFrom 0 tail ++ rest)).head? ≠ some DQUOTE :=
        fun h => hquote (Option.some.inj h)
      rw [if_neg hquote, List.append_assoc, List.cons_append, windowsArg_run arg count hhead hhead',
        windowsArg, if_neg (by simp), if_neg hback, if_neg hquote, ih, List.replicate_zero,
        List.append_nil, List.append_assoc _ [_]]
      rfl

theorem windows_inverts : Inverts windowsReader fun arg text => text = quoteWindows arg where
  start := by
    rintro arg text rfl
    exact ⟨DQUOTE, quoteFrom 0 arg, rfl, by decide⟩
  run := by
    rintro arg text rest rfl hrest
    show windowsArg [] false (DQUOTE :: (quoteFrom 0 arg ++ rest)) = (arg, rest)
    rw [windowsArg, if_neg (by decide), if_neg (by decide), if_pos rfl, if_neg (by simp)]
    have := windowsArg_quoteFrom hrest arg [] 0
    rw [List.replicate_zero, List.append_nil, List.nil_append] at this
    exact this

/-! ### Substitution -/

section Expand

variable {ε : Type} (read : Arg → Except ε (List UInt8)) (quoting : Quoting)

/-- Every `@file` argument is replaced, to any depth. -/
inductive Substitutes : List Arg → List Arg → Prop
  | nil : Substitutes [] []
  | keep {arg : Arg} {args out : List Arg} : fileName arg = none → Substitutes args out →
      Substitutes (arg :: args) (arg :: out)
  | file {arg name : Arg} {contents : List UInt8} {args nested out : List Arg} :
      fileName arg = some name → read name = .ok contents →
      Substitutes (tokenize contents quoting) nested → Substitutes args out →
      Substitutes (arg :: args) (nested ++ out)

/-- A file of the substitution, below so many others. -/
inductive Occurs : List Arg → ℕ → Arg → Prop
  | here {arg name : Arg} {args : List Arg} : arg ∈ args → fileName arg = some name →
      Occurs args 0 name
  | inside {arg name inner : Arg} {args : List Arg} {contents : List UInt8} {depth : ℕ} :
      arg ∈ args → fileName arg = some name → read name = .ok contents →
      Occurs (tokenize contents quoting) depth inner → Occurs args (depth + 1) inner

variable {read quoting}

/-- The substitution is determined by the arguments and the files. -/
theorem Substitutes.unique {args out : List Arg} (h : Substitutes read quoting args out) :
    ∀ {out' : List Arg}, Substitutes read quoting args out' → out' = out := by
  induction h with
  | nil =>
    intro out' h'
    cases h'
    rfl
  | keep harg _ ih =>
    intro out' h'
    cases h' with
    | keep _ hrest => rw [ih hrest]
    | file hfile _ _ _ => exact absurd (harg.symm.trans hfile) (Option.some_ne_none _).symm
  | file hfile hread _ _ ihnested ihrest =>
    intro out' h'
    cases h' with
    | keep harg _ => exact absurd (harg.symm.trans hfile) (Option.some_ne_none _).symm
    | file hfile' hread' hnested hrest =>
      obtain rfl := Option.some.inj (hfile.symm.trans hfile')
      obtain rfl := Except.ok.inj (hread.symm.trans hread')
      rw [ihnested hnested, ihrest hrest]

theorem Occurs.cons {args : List Arg} {depth : ℕ} {name : Arg} (arg : Arg)
    (h : Occurs read quoting args depth name) : Occurs read quoting (arg :: args) depth name := by
  cases h with
  | here hmem hfile => exact .here (List.mem_cons_of_mem _ hmem) hfile
  | inside hmem hfile hread h => exact .inside (List.mem_cons_of_mem _ hmem) hfile hread h

/-- A file that stops the replacement at a depth: it cannot be read, or lies too deep. -/
def Stops (read : Arg → Except ε (List UInt8)) (quoting : Quoting) (depth : ℕ)
    (args : List Arg) : Prop :=
  ∃ below name, Occurs read quoting args below name ∧
    ((∃ source, read name = .error source) ∨ MAX_DEPTH ≤ depth + below)

/-- What stops the replacement of a list: a file in front, or one of the rest. -/
theorem stops_cons {depth : ℕ} {arg : Arg} {args : List Arg} :
    Stops read quoting depth (arg :: args) ↔
      (∃ name, fileName arg = some name ∧
        (MAX_DEPTH ≤ depth ∨ (∃ source, read name = .error source) ∨
          ∃ contents, read name = .ok contents ∧
            Stops read quoting (depth + 1) (tokenize contents quoting))) ∨
      Stops read quoting depth args := by
  constructor
  · rintro ⟨below, name, hoccurs, hstop⟩
    cases hoccurs with
    | here hmem hfile =>
      rcases List.mem_cons.mp hmem with rfl | hmem
      · exact .inl ⟨name, hfile, hstop.elim (fun h => .inr (.inl h)) .inl⟩
      · exact .inr ⟨0, name, .here hmem hfile, hstop⟩
    | @inside _ file _ _ contents below hmem hfile hread hbelow =>
      rcases List.mem_cons.mp hmem with rfl | hmem
      · refine .inl ⟨file, hfile, .inr (.inr ⟨contents, hread, below, name, hbelow, ?_⟩)⟩
        exact hstop.imp_right fun h => by omega
      · exact .inr ⟨below + 1, name, .inside hmem hfile hread hbelow, hstop⟩
  · rintro (⟨name, hfile, hstop⟩ | ⟨below, name, hoccurs, hstop⟩)
    · rcases hstop with hdeep | herror | ⟨contents, hread, below, inner, hbelow, hstop⟩
      · exact ⟨0, name, .here List.mem_cons_self hfile, .inr hdeep⟩
      · exact ⟨0, name, .here List.mem_cons_self hfile, .inl herror⟩
      · refine ⟨below + 1, inner, .inside List.mem_cons_self hfile hread hbelow, ?_⟩
        exact hstop.imp_right fun h => by omega
    · exact ⟨below, name, hoccurs.cons arg, hstop⟩

theorem not_stops_nil (depth : ℕ) : ¬ Stops read quoting depth [] := by
  rintro ⟨below, name, hoccurs, -⟩
  cases hoccurs with
  | here hmem _ => exact absurd hmem List.not_mem_nil
  | inside hmem _ _ _ => exact absurd hmem List.not_mem_nil

/-- **A replacement gives the substitution, and fails only when a file stops it.**  The
induction is on the levels that are left and on the arguments. -/
theorem expandInto_spec (depth : ℕ) (args : List Arg) :
    (∀ out, expandInto read quoting depth args = .ok out → Substitutes read quoting args out) ∧
      ((∃ e, expandInto read quoting depth args = .error e) ↔ Stops read quoting depth args) := by
  induction depth, args using expandInto.induct quoting with
  | case1 depth =>
    rw [expandInto]
    refine ⟨fun out h => ?_, iff_of_false ?_ (not_stops_nil depth)⟩
    · rw [← Except.ok.inj h]
      exact .nil
    · rintro ⟨e, he⟩
      exact absurd he (by simp)
  | case2 depth arg args hfile ih =>
    obtain ⟨hok, hstop⟩ := ih
    have hiff : Stops read quoting depth (arg :: args) ↔ Stops read quoting depth args := by
      rw [stops_cons, hfile]
      simp
    rw [expandInto, hfile, hiff, ← hstop]
    cases hrest : expandInto read quoting depth args with
    | ok rest =>
      refine ⟨fun out h => ?_, by simp [bind, Except.bind]⟩
      rw [← Except.ok.inj h]
      exact .keep hfile (hok rest hrest)
    | error e =>
      exact ⟨fun out h => absurd h (by simp [bind, Except.bind]), by simp [bind, Except.bind]⟩
  | case3 depth arg args name hfile hdeep =>
    rw [expandInto, hfile]
    dsimp only
    rw [if_pos hdeep]
    refine ⟨fun out h => absurd h (by simp), iff_of_true ⟨_, rfl⟩ ?_⟩
    exact stops_cons.mpr (.inl ⟨name, hfile, .inl hdeep⟩)
  | case4 depth arg args name hfile hdeep ihnested ihrest =>
    obtain ⟨hok, hstop⟩ := ihrest
    have hcons := @stops_cons _ read quoting depth arg args
    rw [expandInto, hfile]
    dsimp only
    rw [if_neg hdeep]
    cases hread : read name with
    | error source =>
      refine ⟨fun out h => absurd h (by simp [bind, Except.bind, Except.mapError]),
        iff_of_true ⟨.io name source, rfl⟩ ?_⟩
      exact hcons.mpr (.inl ⟨name, hfile, .inr (.inl ⟨source, hread⟩)⟩)
    | ok contents =>
      obtain ⟨hnestedOk, hnestedStop⟩ := ihnested contents
      have hiff : Stops read quoting depth (arg :: args) ↔
          Stops read quoting (depth + 1) (tokenize contents quoting) ∨
            Stops read quoting depth args := by
        rw [hcons, hfile]
        simp [hread, hdeep]
      rw [hiff, ← hstop, ← hnestedStop]
      simp only [Except.mapError, bind, Except.bind]
      cases hnested : expandInto read quoting (depth + 1) (tokenize contents quoting) with
      | error e =>
        exact ⟨fun out h => absurd h (by simp), by simp⟩
      | ok nested =>
        cases hrest : expandInto read quoting depth args with
        | error e =>
          exact ⟨fun out h => absurd h (by simp), by simp⟩
        | ok rest =>
          refine ⟨fun out h => ?_, by simp⟩
          rw [← Except.ok.inj h]
          exact .file hfile hread (hnestedOk nested hnested) (hok rest hrest)

end Expand

theorem exists_joined (args : List Arg) : ∃ text, Joined GnuWrites args text := by
  induction args with
  | nil => exact ⟨[], .nil⟩
  | cons arg args ih =>
    obtain ⟨text, harg⟩ := exists_gnuWrites arg
    obtain ⟨rest, hrest⟩ := ih
    cases args with
    | nil => exact ⟨text, .one harg⟩
    | cons next args =>
      refine ⟨_, .more harg (List.cons_ne_nil 32 []) (fun byte hbyte => ?_) hrest⟩
      rw [List.mem_singleton.mp hbyte]
      rfl

/-- **Splitting gives back what was written, and the replacement of files is the substitution, which
fails only for a file that cannot be read or lies below 64 others (proved).** -/
theorem response_inverts (args : List Arg) :
    (∀ text, Joined GnuWrites args text → tokenize text .gnu = args) ∧
    (∃ text, Joined GnuWrites args text) ∧
    (∀ text, Joined (fun arg text => text = quoteWindows arg) args text →
      tokenize text .windows = args) ∧
    ∀ {ε : Type} (read : Arg → Except ε (List UInt8)) (quoting : Quoting),
      (∀ out, expand read quoting args = .ok out → Substitutes read quoting args out ∧
        ∀ out', Substitutes read quoting args out' → out' = out) ∧
      ((∃ e, expand read quoting args = .error e) ↔
        ∃ below name, Occurs read quoting args below name ∧
          ((∃ source, read name = .error source) ∨ 64 ≤ below)) := by
  refine ⟨fun text h => splitArgs_joined gnu_inverts h, exists_joined args,
    fun text h => splitArgs_joined windows_inverts h, fun read quoting => ?_⟩
  obtain ⟨hok, herror⟩ := @expandInto_spec _ read quoting 0 args
  refine ⟨fun out h => ⟨hok out h, fun out' h' => (hok out h).unique h'⟩, herror.trans ?_⟩
  refine exists_congr fun below => exists_congr fun name => and_congr_right fun _ => ?_
  rw [Nat.zero_add]
  exact Iff.rfl

/-- An argument with a space in single quotes, and an empty one in double quotes. -/
theorem spaced_split : tokenize [39, 97, 32, 39, 32, 34, 34] .gnu = [[97, 32], []] := by
  have hfirst : GnuWrites [97, 32] [39, 97, 32, 39] :=
    ⟨.quoted (.inl rfl) (.plain (by decide) (by decide) (.plain (by decide) (by decide) .nil)) .nil,
      List.cons_ne_nil _ _⟩
  have hempty : GnuWrites [] [34, 34] := ⟨.quoted (.inr rfl) .nil .nil, List.cons_ne_nil _ _⟩
  have hgap : ∀ byte ∈ [(32 : UInt8)], isSpace byte = true := by
    intro byte hbyte
    rw [List.mem_singleton.mp hbyte]
    rfl
  exact (response_inverts [[97, 32], []]).1 _
    (.more hfirst (List.cons_ne_nil 32 []) hgap (.one hempty))

end Qld.Args
