import Qld.Elf.AddressesCorrect

/-!
# A RELRO region is placed in one pass

`relro_start` places the region backwards from a page boundary, so that it ends there.

* `forwardEnd` — where sections end that are laid out forward, over all natural numbers;
* `forwardEnd_mono` — a later start never makes them end earlier;
* `relroBack_spec` — the backward pass stays at or after the forward layout it came
  from, and the forward layout from where it arrives does not overtake it;
* `relroStart_firstPass` — the first pass succeeds, so no other one is made.
-/

namespace Qld.Elf.Layout

open Qld.Lib

variable {o : Options}

/-! ### Laying out forward -/

/-- `value`, rounded up to a multiple of `align`, without a bound. -/
def ceilTo (value align : ℕ) : ℕ := (value + (max align 1 - 1)) / max align 1 * max align 1

theorem ceilTo_dvd (value align : ℕ) : max align 1 ∣ ceilTo value align :=
  Nat.dvd_mul_left _ _

theorem le_ceilTo (value align : ℕ) : value ≤ ceilTo value align := by
  have hpos : 0 < max align 1 := by omega
  have hround := Nat.div_add_mod' (value + (max align 1 - 1)) (max align 1)
  have hmod := Nat.mod_lt (value + (max align 1 - 1)) hpos
  rw [ceilTo]
  omega

variable {value align result : ℕ}

theorem ceilTo_le {x : ℕ} (hx : value ≤ x) (hdvd : max align 1 ∣ x) :
    ceilTo value align ≤ x := by
  have hpos : 0 < max align 1 := by omega
  obtain ⟨q, rfl⟩ := hdvd
  rw [ceilTo, Nat.mul_comm (max align 1) q]
  apply Nat.mul_le_mul_right
  apply Nat.le_of_lt_succ
  rw [Nat.div_lt_iff_lt_mul hpos, Nat.succ_mul, Nat.mul_comm q]
  omega

theorem ceilTo_of_dvd (hdvd : max align 1 ∣ value) :
    ceilTo value align = value :=
  Nat.le_antisymm (ceilTo_le le_rfl hdvd) (le_ceilTo _ _)

theorem ceilTo_mono {v w : ℕ} (h : v ≤ w) (align : ℕ) : ceilTo v align ≤ ceilTo w align :=
  ceilTo_le (h.trans (le_ceilTo _ _)) (ceilTo_dvd _ _)

theorem alignUp_eq_ceilTo (h : alignUp value align = .ok result) :
    result = ceilTo value align := by
  obtain ⟨hle, -, hdvd, hleast⟩ := alignUp_spec h
  apply Nat.le_antisymm
  · exact hleast _ (le_ceilTo _ _) (ceilTo_dvd _ _)
  · exact ceilTo_le hle hdvd

/-- The alignment that `align_up` accepts is a power of two. -/
theorem alignUp_powerOfTwo (h : alignUp value align = .ok result) :
    ∃ k ≤ 64, max align 1 = 2 ^ k := by
  rw [alignUp] at h
  split at h
  · cases h
  · next hpow =>
    obtain ⟨k, hk⟩ := not_not.mp hpow
    obtain ⟨v, hv, -⟩ := Option.map_eq_some_iff.mp (okOrElse_eq_ok.mp h)
    obtain ⟨-, hlt⟩ := checkedAdd_eq_some hv
    refine ⟨k, ?_, hk⟩
    apply (Nat.pow_le_pow_iff_right Nat.one_lt_two).mp
    omega

/-- Where the sections end that are laid out from `dot` on: each is aligned, and thread-local ones
without contents take no addresses. -/
def forwardEnd : ℕ → List OutSection → ℕ
  | dot, [] => dot
  | dot, s :: relro =>
    if s.isTbss then forwardEnd dot relro else forwardEnd (ceilTo dot s.align + s.size) relro

theorem forwardEnd_mono (relro : List OutSection) :
    ∀ {a b : ℕ}, a ≤ b → forwardEnd a relro ≤ forwardEnd b relro := by
  induction relro with
  | nil => exact fun h => h
  | cons s relro ih =>
    intro a b h
    simp only [forwardEnd]
    split
    · exact ih h
    · exact ih (Nat.add_le_add_right (ceilTo_mono h _) _)

variable {relro : List OutSection}

/-- `relro_start`'s first loop lays the sections out forward. -/
theorem relroDot_eq :
    ∀ {start dot : ℕ}, relroDot start relro = .ok dot → dot = forwardEnd start relro := by
  induction relro with
  | nil => exact fun h => (Except.ok.inj h).symm
  | cons s relro ih =>
    intro start dot h
    rw [relroDot] at h
    obtain ⟨address, haddress, h⟩ := bind_eq_ok.mp h
    rw [forwardEnd]
    split at h
    · next htbss => simp only [htbss, if_true]; exact ih h
    · next htbss =>
      obtain ⟨next, hnext, h⟩ := bind_eq_ok.mp h
      rw [if_neg htbss, ← alignUp_eq_ceilTo haddress, ← (add_eq_ok hnext).1]
      exact ih h

/-! ### Placing backwards -/

theorem relroBack_append (back : List OutSection) (more : List OutSection) :
    ∀ position, relroBack position (back ++ more) =
      relroBack position back >>= fun reached => relroBack reached more := by
  induction back with
  | nil => intro position; rfl
  | cons s back ih =>
    intro position
    simp only [List.cons_append, relroBack]
    split
    · exact ih position
    split
    · rfl
    · exact ih _

/-- **The backward pass and the forward layout.**  From a place that the forward layout
does not pass, the backward pass succeeds and arrives at or after its start; laid out forward
from there, the sections do not pass that place either. -/
theorem relroBack_spec {stop : ℕ} (hstop : stop < 2 ^ 64) :
    ∀ {start dot : ℕ}, relroDot start relro = .ok dot → dot ≤ stop →
      ∃ position, relroBack stop relro.reverse = .ok position ∧ start ≤ position ∧
        forwardEnd position relro ≤ stop := by
  induction relro with
  | nil =>
    intro start dot h hle
    obtain rfl := Except.ok.inj h
    exact ⟨stop, rfl, hle, le_rfl⟩
  | cons s relro ih =>
    intro start dot h hle
    rw [relroDot] at h
    obtain ⟨address, haddress, h⟩ := bind_eq_ok.mp h
    simp only [List.reverse_cons, relroBack_append, forwardEnd]
    split at h
    · next htbss =>
      obtain ⟨position, hback, hstart, hend⟩ := ih h hle
      refine ⟨position, ?_, hstart, ?_⟩
      · simp only [hback, relroBack, htbss, if_true]
        rfl
      · simpa [htbss] using hend
    · next htbss =>
      obtain ⟨next, hnext, h⟩ := bind_eq_ok.mp h
      obtain ⟨rfl, -⟩ := add_eq_ok hnext
      obtain ⟨position, hback, hstart, hend⟩ := ih h hle
      obtain ⟨k, hk, halign⟩ := alignUp_powerOfTwo haddress
      obtain ⟨haddressLe, -, haddressDvd, -⟩ := alignUp_spec haddress
      have htop := relroBack_le hback
      -- The section goes to the last aligned address from which it fits below `position`.
      have hplace : (position - s.size) &&& not64 (max s.align 1 - 1) =
          (position - s.size) / 2 ^ k * 2 ^ k := by
        rw [halign]
        exact land_not_low (by omega) hk
      have hfloor : (position - s.size) / 2 ^ k * 2 ^ k ≤ position - s.size :=
        Nat.div_mul_le_self _ _
      have hreach : address ≤ (position - s.size) / 2 ^ k * 2 ^ k := by
        rw [halign] at haddressDvd
        obtain ⟨q, rfl⟩ := haddressDvd
        rw [Nat.mul_comm (2 ^ k) q]
        apply Nat.mul_le_mul_right
        rw [Nat.le_div_iff_mul_le (Nat.two_pow_pos k), Nat.mul_comm q]
        omega
      refine ⟨(position - s.size) / 2 ^ k * 2 ^ k, ?_, haddressLe.trans hreach, ?_⟩
      · show (relroBack stop relro.reverse >>= fun reached => relroBack reached [s]) = _
        rw [hback]
        show relroBack position [s] = _
        rw [relroBack, if_neg htbss, if_neg (by omega), hplace, relroBack]
      · rw [if_neg htbss]
        have hdvd : max s.align 1 ∣ (position - s.size) / 2 ^ k * 2 ^ k :=
          halign ▸ Nat.dvd_mul_left _ _
        rw [ceilTo_of_dvd hdvd]
        exact (forwardEnd_mono relro (by omega)).trans hend

/-- **The first backward pass is the only one (proved)**, when laying out forward overflows nowhere:
the region found holds its sections and ends on the first page boundary that they do not pass. -/
theorem relroStart_firstPass {sections : List OutSection} {start dot stop : ℕ}
    (hdot : relroDot start (sections.takeWhile o.isRelro) = .ok dot)
    (hstop : alignUp dot o.page = .ok stop) :
    ∃ position, relroBack stop (sections.takeWhile o.isRelro).reverse = .ok position ∧
      relroStart o sections start = .ok (position, stop) ∧
      start ≤ position ∧
      dot = forwardEnd start (sections.takeWhile o.isRelro) ∧
      (dot ≤ stop ∧ max o.page 1 ∣ stop ∧ ∀ x, dot ≤ x → max o.page 1 ∣ x → stop ≤ x) ∧
      forwardEnd position (sections.takeWhile o.isRelro) ≤ stop ∧
      ∀ reached, relroDot position (sections.takeWhile o.isRelro) = .ok reached →
        reached ≤ stop := by
  obtain ⟨hle, htop, hdvd, hleast⟩ := alignUp_spec hstop
  obtain ⟨position, hback, hstart, hend⟩ := relroBack_spec htop hdot hle
  refine ⟨position, hback, ?_, hstart, relroDot_eq hdot, ⟨hle, hdvd, hleast⟩, hend, ?_⟩
  · show (relroDot start _ >>= fun dot => _) = _
    rw [hdot]
    show (alignUp dot o.page >>= fun stop => _) = _
    rw [hstop]
    show (relroBack stop _ >>= fun position => _) = _
    rw [hback]
    show (if start ≤ position then _ else _) = _
    rw [if_pos hstart]
    rfl
  · intro reached hreached
    rw [relroDot_eq hreached]
    exact hend

/-- A region with a thread-local section without contents, and with an alignment larger than a
page. -/
def relroExample : Options × List OutSection :=
  ({ kind := .elf64Le, separate := .none, relro := true, relroRule := fun _ => true,
     page := 0x1000, base := 0, otherHeaders := 0 },
   [⟨0, 1, SHF_ALLOC ||| SHF_WRITE, 0, 0, 0x234, 16, 0⟩,
    ⟨1, SHT_NOBITS, SHF_ALLOC ||| SHF_WRITE ||| SHF_TLS, 0, 0, 0x9000, 64, 0⟩,
    ⟨2, 1, SHF_ALLOC ||| SHF_WRITE, 0, 0, 0x10, 0x2000, 0⟩])

theorem relroStart_firstPass_example :
    ∃ position, relroStart relroExample.1 relroExample.2 0x3008 = .ok (position, 0x5000) ∧
      0x3008 ≤ position := by
  have hdot : relroDot 0x3008 (relroExample.2.takeWhile relroExample.1.isRelro) =
    .ok 0x4010 := by rfl
  have hstop : alignUp 0x4010 relroExample.1.page = .ok 0x5000 := by rfl
  obtain ⟨position, -, hstart, hle, -⟩ := relroStart_firstPass hdot hstop
  exact ⟨position, hstart, hle⟩

end Qld.Elf.Layout
