import Rivulet.Machine.Eval
import Mathlib.Algebra.Ring.Parity
import Mathlib.Data.Int.ModEq
import Mathlib.Tactic.Ring

set_option autoImplicit false

/-! # Powers of words

Repeated squaring gives the word that is congruent to the exact power modulo `2 ^ 64`
(`Word.toInt_pow_modEq`). The operator `**` squares only for exponents below `2 ^ 32`, however, and
is zero for all others. For a negative exponent that is what it should be. For an exponent from
`2 ^ 32` on it is right if the base is even, since then the exact power is a multiple of `2 ^ 64`, and
wrong if the base is odd: already `1 ** 2 ^ 32` is zero.

The main statement `eval_pow` says this of the evaluation of an expression `l ** r`. -/

namespace Rivulet.Machine

open Ir

namespace Word

/-- A product of words is congruent to the product of their values. -/
theorem toInt_mul_modEq (a b : Int64) : (a * b).toInt ≡ a.toInt * b.toInt [ZMOD 2 ^ 64] := by
  rw [Int64.toInt_mul]
  exact Int.bmod_emod

/-- **Repeated squaring computes the power modulo `2 ^ 64`.** -/
theorem toInt_pow_modEq (a : Int64) (n : Nat) : (pow a n).toInt ≡ a.toInt ^ n [ZMOD 2 ^ 64] := by
  -- the recursion squares the base and halves the exponent; each product wraps on its own
  induction a, n using pow.induct with
  | case1 a =>
      rw [pow, if_pos rfl, pow_zero]
      exact Int.ModEq.refl _
  | case2 a n hn hodd ih =>
      have hpow : pow a n = a * pow (a * a) (n / 2) := by rw [pow, if_neg hn]; exact if_pos hodd
      have hsplit : n = 2 * (n / 2) + 1 := by omega
      rw [hpow]
      calc (a * pow (a * a) (n / 2)).toInt
          ≡ a.toInt * (pow (a * a) (n / 2)).toInt [ZMOD 2 ^ 64] := toInt_mul_modEq _ _
        _ ≡ a.toInt * (a * a).toInt ^ (n / 2) [ZMOD 2 ^ 64] := ih.mul_left _
        _ ≡ a.toInt * (a.toInt * a.toInt) ^ (n / 2) [ZMOD 2 ^ 64] :=
          ((toInt_mul_modEq a a).pow _).mul_left _
        _ = a.toInt ^ n := by
          conv_rhs => rw [hsplit]
          ring
  | case3 a n hn heven ih =>
      have hpow : pow a n = pow (a * a) (n / 2) := by rw [pow, if_neg hn]; exact if_neg heven
      have hsplit : n = 2 * (n / 2) := by omega
      rw [hpow]
      calc (pow (a * a) (n / 2)).toInt
          ≡ (a * a).toInt ^ (n / 2) [ZMOD 2 ^ 64] := ih
        _ ≡ (a.toInt * a.toInt) ^ (n / 2) [ZMOD 2 ^ 64] := (toInt_mul_modEq a a).pow _
        _ = a.toInt ^ n := by
          conv_rhs => rw [hsplit]
          ring

/-- A high power is a multiple of `2 ^ 64` exactly if its base is even. -/
theorem pow_modEq_zero_iff {x : Int} {n : Nat} (hn : 64 ≤ n) :
    0 ≡ x ^ n [ZMOD 2 ^ 64] ↔ Even x := by
  rw [Int.modEq_comm, Int.modEq_zero_iff_dvd]
  constructor
  · intro hdvd
    -- if 64 twos divide a power, one divides its base, as two is prime
    have heven : Even (x ^ n) := even_iff_two_dvd.2 (dvd_trans (dvd_pow_self 2 (by decide)) hdvd)
    exact (Int.even_pow.1 heven).1
  · intro heven
    exact dvd_trans (pow_dvd_pow_of_dvd heven.two_dvd 64) (pow_dvd_pow x hn)

/-- Where the operator has an exponent to work with. -/
theorem power_of_lt {a b : Int64} (hb : 0 ≤ b.toInt) (hlt : b.toInt < 2 ^ 32) :
    power a b = pow a b.toInt.toNat := if_pos ⟨hb, hlt⟩

theorem power_of_neg {a b : Int64} (hb : b.toInt < 0) : power a b = 0 :=
  if_neg fun h => absurd h.1 (by omega)

theorem power_of_le {a b : Int64} (hb : 2 ^ 32 ≤ b.toInt) : power a b = 0 :=
  if_neg fun h => absurd h.2 (not_lt.2 hb)

/-- The operator is right about an exponent that is not negative exactly if the exponent is below
`2 ^ 32` or the base is even. -/
theorem toInt_power_modEq_iff {a b : Int64} (hb : 0 ≤ b.toInt) :
    (power a b).toInt ≡ a.toInt ^ b.toInt.toNat [ZMOD 2 ^ 64] ↔ b.toInt < 2 ^ 32 ∨ Even a.toInt := by
  by_cases hlt : b.toInt < 2 ^ 32
  · rw [power_of_lt hb hlt]
    exact ⟨fun _ => .inl hlt, fun _ => toInt_pow_modEq a _⟩
  · have hle : 2 ^ 32 ≤ b.toInt := not_lt.1 hlt
    rw [power_of_le hle, Int64.toInt_zero, pow_modEq_zero_iff (by omega)]
    exact ⟨.inr, fun h => h.resolve_left hlt⟩

end Word

/-- **The value of a power.** If the operands of `**` have integer values, so has the power, and
nothing else happens. For a negative exponent it is zero. For any other, it is the word congruent to
the exact power modulo `2 ^ 64` exactly if the exponent is below `2 ^ 32` or the base is even: from
`2 ^ 32` on it is always zero. -/
theorem eval_pow {m : Engine} {fr : Frame} {l r : Expr} {common : Option Ir.Ty}
    {facts : Option MapFacts} {i : Info} {s s₁ s₂ : Store} {a b : Int64}
    (hl : eval m fr l s = .ok (.int a) s₁) (hr : eval m fr r s₁ = .ok (.int b) s₂) :
    ∃ n : Int64, eval m fr (.binary .pow l r common facts i) s = .ok (.int n) s₂ ∧
      (b.toInt < 0 → n = 0) ∧
      (0 ≤ b.toInt → (n.toInt ≡ a.toInt ^ b.toInt.toNat [ZMOD 2 ^ 64] ↔
        b.toInt < 2 ^ 32 ∨ Even a.toInt)) ∧
      (2 ^ 32 ≤ b.toInt → n = 0) := by
  refine ⟨Word.power a b, ?_, Word.power_of_neg, Word.toInt_power_modEq_iff, Word.power_of_le⟩
  have heval : eval m fr (.binary .pow l r common facts i)
      = (do let v ← eval m fr l; let w ← eval m fr r; binary .pow v w) := by rw [eval]; rfl
  rw [heval, Run.bind_apply_of_ok hl, Run.bind_apply_of_ok hr]
  rfl

/-- One to the power of `2 ^ 32` comes out as zero. -/
theorem eval_pow_one :
    let m : Engine := ⟨.refuse, fun _ _ => Run.exhausted, 0⟩
    let i : Info := ⟨.i64, ⟨0, 0⟩⟩
    let l : Expr := .const (.int 1) i
    let r : Expr := .const (.int 4294967296) i
    ∃ n : Int64, eval m ⟨0, []⟩ (.binary .pow l r none none i) {} = .ok (.int n) {} ∧
      n = 0 ∧ ¬ n.toInt ≡ 1 [ZMOD 2 ^ 64] := by
  intro m i l r
  have hl : eval m ⟨0, []⟩ l {} = .ok (.int 1) {} := rfl
  have hr : eval m ⟨0, []⟩ r {} = .ok (.int 4294967296) {} := rfl
  obtain ⟨n, hn, -, -, hzero⟩ := eval_pow hl hr
  obtain rfl : n = 0 := hzero (by decide)
  exact ⟨0, hn, rfl, by decide⟩

end Rivulet.Machine
