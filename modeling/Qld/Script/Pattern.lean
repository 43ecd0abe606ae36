import Mathlib.Data.UInt
import Qld.Lib.Except

/-!
# Wildcard patterns

The model of `script/pattern.rs`: patterns for section and file names of a linker script.  A
position in a text is the rest of the text from there on.

* `parseBracket`, `Glob.compile` — a pattern's text as a list of tokens;
* `matchLoop`, `Glob.matches` — the matcher, which goes back to the last star only;
* `Pattern.section_`, `Pattern.file` — patterns, with the kinds that skip the general matcher;
* `literalPrefix`, `initPriority` — what else patterns and names are asked.
-/

namespace Qld.Script

open Qld.Lib

/-! ### Bytes -/

def STAR : UInt8 := 42

def DASH : UInt8 := 45

def DOT : UInt8 := 46

def COLON : UInt8 := 58

def QUESTION : UInt8 := 63

def OPEN : UInt8 := 91

def BACKSLASH : UInt8 := 92

def CLOSE : UInt8 := 93

def isAsciiDigit (b : UInt8) : Bool := 48 ≤ b && b ≤ 57

def isAsciiUppercase (b : UInt8) : Bool := 65 ≤ b && b ≤ 90

def isAsciiLowercase (b : UInt8) : Bool := 97 ≤ b && b ≤ 122

def isAsciiAlphabetic (b : UInt8) : Bool := isAsciiUppercase b || isAsciiLowercase b

def isAsciiAlphanumeric (b : UInt8) : Bool := isAsciiAlphabetic b || isAsciiDigit b

def isAsciiGraphic (b : UInt8) : Bool := 33 ≤ b && b ≤ 126

/-! ### Byte sets -/

/-- A set of bytes: the four words of the source, as one. -/
abbrev ByteSet := BitVec 256

def setInsert (set : ByteSet) (b : UInt8) : ByteSet := set ||| 1#256 <<< b.toNat

def setContains (set : ByteSet) (b : UInt8) : Bool := set.getLsbD b.toNat

/-- Inserts `low ..= high`. -/
def insertRange (set : ByteSet) (low high : UInt8) : ByteSet :=
  (List.range' low.toNat (high.toNat + 1 - low.toNat)).foldl
    (fun set b => setInsert set (UInt8.ofNat b)) set

/-- The bytes of a named class. -/
def classContains (name : List UInt8) : Option (UInt8 → Bool) :=
  if name = ascii "alnum" then some isAsciiAlphanumeric
  else if name = ascii "alpha" then some isAsciiAlphabetic
  else if name = ascii "blank" then some fun b => b = 32 || b = 9
  else if name = ascii "cntrl" then some fun b => b < 32 || b = 127
  else if name = ascii "digit" then some isAsciiDigit
  else if name = ascii "graph" then some isAsciiGraphic
  else if name = ascii "lower" then some isAsciiLowercase
  else if name = ascii "print" then some fun b => isAsciiGraphic b || b = 32
  else if name = ascii "punct" then some fun b => isAsciiGraphic b && !isAsciiAlphanumeric b
  else if name = ascii "space" then some fun b =>
    b = 32 || b = 9 || b = 10 || b = 12 || b = 13 || b = 11
  else if name = ascii "upper" then some isAsciiUppercase
  else if name = ascii "xdigit" then some fun b =>
    isAsciiDigit b || (65 ≤ b && b ≤ 70) || (97 ≤ b && b ≤ 102)
  else none

def insertClass (set : ByteSet) (contains : UInt8 → Bool) : ByteSet :=
  (List.range 256).foldl
    (fun set b => if contains (UInt8.ofNat b) then setInsert set (UInt8.ofNat b) else set) set

/-! ### Bracket expressions -/

/-- What follows a `[`: a set and the text behind it, an ordinary byte, or what never matches. -/
inductive Bracket where
  | set (set : ByteSet) (next : List UInt8)
  | literal
  | never

/-- The end of the range that starts at `low`, and the text behind it.  `none` for a trailing
backslash. -/
def rangeEnd (low : UInt8) : List UInt8 → Option (UInt8 × List UInt8)
  | d :: high :: rest =>
    if d = DASH ∧ high ≠ CLOSE then
      if high = BACKSLASH then
        match rest with
        | h :: rest => some (h, rest)
        | [] => none
      else some (high, rest)
    else some (low, d :: high :: rest)
  | rest => some (low, rest)

variable {low high : UInt8} {text next p : List UInt8}

theorem rangeEnd_suffix (h : rangeEnd low text = some (high, next)) : next <:+ text := by
  unfold rangeEnd at h
  split at h
  · next d x rest =>
    split at h
    · split at h
      · cases rest with
        | nil => cases h
        | cons y rest =>
          obtain ⟨-, rfl⟩ := Prod.mk.inj (Option.some.inj h)
          exact ⟨[d, x, y], rfl⟩
      · obtain ⟨-, rfl⟩ := Prod.mk.inj (Option.some.inj h)
        exact ⟨[d, x], rfl⟩
    · obtain ⟨-, rfl⟩ := Prod.mk.inj (Option.some.inj h)
      exact List.suffix_rfl
  · obtain ⟨-, rfl⟩ := Prod.mk.inj (Option.some.inj h)
    exact List.suffix_rfl

theorem rangeEnd_length (h : rangeEnd low text = some (high, next)) : next.length ≤ text.length :=
  (rangeEnd_suffix h).length_le

/-- The length of the text before `:]`. -/
def classEnd : List UInt8 → Option ℕ
  | a :: b :: rest =>
    if a = COLON ∧ b = CLOSE then some 0 else (classEnd (b :: rest)).map (· + 1)
  | _ => none

/-- The elements of a bracket expression up to its `]`, which is an element when it comes first. -/
def bracketLoop (set : ByteSet) (first : Bool) (p : List UInt8) : Bracket :=
  match p with
  | [] => .literal
  | c :: rest =>
    if c = CLOSE ∧ first = false then .set set rest
    else if c = BACKSLASH then
      match rest with
      | [] => .never
      | low :: rest =>
        match _h : rangeEnd low rest with
        | none => .never
        | some (high, next) => bracketLoop (insertRange set low high) false next
    else if c = OPEN ∧ rest.head? = some COLON then
      match classEnd rest.tail with
      | none => .literal
      | some len =>
        match classContains (rest.tail.take len) with
        | none => .never
        | some contains => bracketLoop (insertClass set contains) false (rest.tail.drop (len + 2))
    else
      match _h : rangeEnd c rest with
      | none => .never
      | some (high, next) => bracketLoop (insertRange set c high) false next
termination_by p.length
decreasing_by
  · have := rangeEnd_length _h
    rw [List.length_cons, List.length_cons]
    omega
  · rw [List.length_drop, List.length_tail, List.length_cons]
    omega
  · have := rangeEnd_length _h
    rw [List.length_cons]
    omega

/-- Parses a bracket expression, from behind its `[`. -/
def parseBracket (p : List UInt8) : Bracket :=
  if p.head? = some 33 ∨ p.head? = some 94 then
    match bracketLoop 0 true p.tail with
    | .set set next => .set (~~~set) next
    | other => other
  else bracketLoop 0 true p

variable {s : ByteSet}

theorem bracketLoop_suffix {set : ByteSet} {first : Bool}
    (h : bracketLoop set first p = .set s next) : CLOSE :: next <:+ p := by
  fun_induction bracketLoop set first p with
  | case1 | case3 | case4 | case6 | case7 | case9 => cases h
  | case2 set first c rest hclose =>
    obtain ⟨-, rfl⟩ := Bracket.set.inj h
    exact hclose.1 ▸ List.suffix_rfl
  | case5 set first low rest high after hrange _ ih =>
    exact ((ih h).trans (rangeEnd_suffix hrange)).trans ⟨[BACKSLASH, low], rfl⟩
  | case8 set first c rest _ _ _ len _ contains _ ih =>
    have hdrop : rest.tail.drop (len + 2) <:+ c :: rest :=
      (List.drop_suffix _ _).trans ((List.tail_suffix _).trans (List.suffix_cons _ _))
    exact (ih h).trans hdrop
  | case10 set first c rest _ _ _ high after hrange ih =>
    exact ((ih h).trans (rangeEnd_suffix hrange)).trans (List.suffix_cons _ _)

theorem parseBracket_suffix (h : parseBracket p = .set s next) : CLOSE :: next <:+ p := by
  unfold parseBracket at h
  split at h
  · split at h
    · next hloop =>
      obtain ⟨-, rfl⟩ := Bracket.set.inj h
      exact (bracketLoop_suffix hloop).trans (List.tail_suffix _)
    · next hnot => exact absurd h (hnot _ _)
  · exact bracketLoop_suffix h

/-! ### Globs -/

/-- One element of a compiled pattern. -/
inductive Tok where
  | byte (b : UInt8)
  | any
  | star
  | set (set : ByteSet)
  deriving DecidableEq

/-- Whether the element matches one byte. -/
def Tok.accepts : Tok → UInt8 → Bool
  | byte b, byte' => b = byte'
  | any, _ => true
  | set s, b => setContains s b
  | star, _ => false

/-- A compiled pattern.  `none` never matches. -/
abbrev Glob := Option (List Tok)

/-- The tokens of the rest of a pattern, behind those found so far. -/
def compileLoop (toks : List Tok) (p : List UInt8) : Glob :=
  match p with
  | [] => some toks
  | c :: rest =>
    if c = STAR then
      compileLoop (if toks.getLast? = some .star then toks else toks ++ [.star]) rest
    else if c = QUESTION then compileLoop (toks ++ [.any]) rest
    else if c = BACKSLASH then
      match rest with
      | next :: rest => compileLoop (toks ++ [.byte next]) rest
      | [] => none
    else if c = OPEN then
      match _h : parseBracket rest with
      | .set set next => compileLoop (toks ++ [.set set]) next
      | .literal => compileLoop (toks ++ [.byte OPEN]) rest
      | .never => none
    else compileLoop (toks ++ [.byte c]) rest
termination_by p.length
decreasing_by
  · exact Nat.lt_succ_self _
  · exact Nat.lt_succ_self _
  · rw [List.length_cons, List.length_cons]
    omega
  · have := (parseBracket_suffix _h).length_le
    rw [List.length_cons] at this ⊢
    omega
  · exact Nat.lt_succ_self _
  · exact Nat.lt_succ_self _

def Glob.compile (pattern : List UInt8) : Glob := compileLoop [] pattern

/-- Where the matcher is: what is left of the tokens and of the name, and the resume point behind
the last star. -/
abbrev MatchState := List Tok × List UInt8 × Option (List Tok × List UInt8)

/-- A mismatch: the last star absorbs one more byte, and `go` goes on behind it. -/
def absorb (go : MatchState → Option Bool) : Option (List Tok × List UInt8) → Option Bool
  | some (resume, _ :: rest) => go (resume, rest, some (resume, rest))
  | some (_, []) | none => some false

/-- The matcher.  `none` when `fuel` is used up. -/
def matchLoop : ℕ → MatchState → Option Bool
  | 0, _ => none
  | fuel + 1, (.star :: p, i, _) => matchLoop fuel (p, i, some (p, i))
  | fuel + 1, (tok :: p, byte :: i, star) =>
    if tok.accepts byte then matchLoop fuel (p, i, star) else absorb (matchLoop fuel) star
  | fuel + 1, (_ :: _, [], star) => absorb (matchLoop fuel) star
  | fuel + 1, ([], i, star) => if i = [] then some true else absorb (matchLoop fuel) star

/-- Rounds of the loop that are enough. -/
def matchRounds (toks : List Tok) (s : List UInt8) : ℕ := (s.length + 2) * (toks.length + 1)

def Glob.matches (glob : Glob) (s : List UInt8) : Bool :=
  glob.elim false fun toks => (matchLoop (matchRounds toks s) (toks, s, none)).getD false

/-! ### Patterns -/

inductive Kind where
  /-- `*`. -/
  | all
  /-- No wildcard. -/
  | literal
  /-- The first `len` bytes of the text, then `*`. -/
  | starts (len : ℕ)
  /-- `*`, then the text without its first byte. -/
  | ends
  /-- The first bytes and the last bytes literally, and a glob from the end of the first ones. -/
  | sectionName (pre suffix : ℕ) (glob : Glob)
  /-- A plain glob. -/
  | glob (glob : Glob)
  deriving DecidableEq

/-- A compiled pattern for names. -/
structure NamePattern where
  text : List UInt8
  kind : Kind
  deriving DecidableEq

/-- A compiled pattern: for a file pattern with a `:`, with its archive and member parts. -/
structure Pattern extends NamePattern where
  archive : Option (NamePattern × NamePattern)
  deriving DecidableEq

def isSpecial (b : UInt8) : Bool := b = STAR || b = QUESTION || b = OPEN

/-- A byte that ends the literal end of a section pattern. -/
def endsLiteral (b : UInt8) : Bool := b = STAR || b = QUESTION || b = CLOSE

def hasWildcard (text : List UInt8) : Bool := text.any isSpecial

namespace Pattern

/-- Compiles a section name pattern. -/
def section_ (text : List UInt8) : Pattern :=
  let kind : Kind :=
    if text = [STAR] then .all
    else if !hasWildcard text then .literal
    else
      let pre := (text.findIdx? isSpecial).getD text.length
      let rest := text.drop pre
      let suffix := (rest.reverse.findIdx? endsLiteral).getD rest.length
      if pre + suffix + 1 = text.length ∧ text[pre]? = some STAR ∧ suffix = 0 then .starts pre
      else .sectionName pre suffix (Glob.compile rest)
  { text := text, kind := kind, archive := none }

def fileName (text : List UInt8) : NamePattern :=
  let simple := !text.contains BACKSLASH && !text.contains QUESTION && !text.contains OPEN
  let stars := text.countP fun b => b = STAR
  let kind : Kind :=
    if text = [STAR] then .all
    else if !hasWildcard text then .literal
    else if simple ∧ stars = 1 ∧ text.getLast? = some STAR then .starts (text.length - 1)
    else if simple ∧ stars = 1 ∧ text.head? = some STAR then .ends
    else .glob (Glob.compile text)
  { text := text, kind := kind }

/-- Compiles a file name pattern. -/
def file (text : List UInt8) : Pattern :=
  { fileName text with
    archive := (text.findIdx? fun b => b = COLON).map fun colon =>
      (fileName (text.take colon), fileName (text.drop (colon + 1))) }

end Pattern

namespace NamePattern

/-- The literal bytes every match starts with. -/
def literalPrefix (p : NamePattern) : List UInt8 :=
  p.text.take
    (match p.kind with
      | .all | .ends => 0
      | .literal => p.text.length
      | .starts len => len
      | .sectionName pre _ _ => pre
      | .glob _ =>
        (p.text.findIdx? fun b => isSpecial b || b = BACKSLASH).getD p.text.length)

/-- The section matcher: the literal bytes at both ends, which may overlap, and the glob. -/
def sectionMatch (p : NamePattern) (name : List UInt8) (pre suffix : ℕ) (glob : Glob) : Bool :=
  if 0 < pre ∧ ¬(p.text.take pre).isPrefixOf name then false
  else if 0 < suffix ∧ ¬(p.text.drop (p.text.length - suffix)).isSuffixOf name then false
  else if pre + suffix + 1 = p.text.length ∧ p.text[pre]? = some STAR then true
  else if pre ≤ name.length then glob.matches (name.drop pre)
  else false

end NamePattern

/-- Tests a name against the whole pattern. -/
def NamePattern.matches (p : NamePattern) (name : List UInt8) : Bool :=
  match p.kind with
  | .all => true
  | .literal => name = p.text
  | .starts len => (p.text.take len).isPrefixOf name
  | .ends => (p.text.drop 1).isSuffixOf name
  | .sectionName pre suffix glob => p.sectionMatch name pre suffix glob
  | .glob glob => glob.matches name

/-! ### Init priorities -/

/-- The number the digits stand for, behind `value`; `none` from `2 ^ 64` on. -/
def decimal : ℕ → List UInt8 → Option ℕ
  | value, [] => some value
  | value, d :: digits =>
    if value * 10 < 2 ^ 64 ∧ value * 10 + (d.toNat - 48) < 2 ^ 64 then
      decimal (value * 10 + (d.toNat - 48)) digits
    else none

/-- The `init_priority` encoded in a section name. -/
def initPriority (name : List UInt8) : Option ℕ := do
  let after ← name.reverse.findIdx? fun b => b = DOT
  let dot := name.length - 1 - after
  let digits := name.drop (dot + 1)
  if ¬(digits ≠ [] ∧ digits.all isAsciiDigit) then none
  else
    let value ← decimal 0 digits
    let value ←
      if dot = 6 ∧ ((ascii ".ctors").isPrefixOf name ∨ (ascii ".dtors").isPrefixOf name) then
        if value ≤ 65535 then some (65535 - value) else none
      else some value
    if value < 2 ^ 31 then some value else none

end Qld.Script
