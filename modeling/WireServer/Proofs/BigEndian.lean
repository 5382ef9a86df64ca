import Mathlib.Algebra.Group.Nat.Defs
import Mathlib.Data.List.Induction
import WireServer.Bytes

/-! Big-endian numbers: writing and reading are inverse, as far as the width goes. -/

namespace WireServer.Bytes

/-- The bytes of a number spell what of it the width can hold. -/
theorem toNatBE_ofNatBE (width n : Nat) : toNatBE (ofNatBE width n) = n % 256 ^ width := by
  induction width generalizing n with
  | zero => simp [ofNatBE, toNatBE, Nat.mod_one]
  | succ width ih =>
    have hsplit : n % 256 ^ (width + 1) = n % 256 + 256 * (n / 256 % 256 ^ width) := by
      rw [Nat.pow_succ', Nat.mod_mul]
    rw [ofNatBE, toNatBE_append_singleton, ih, UInt8.toNat_ofNat', hsplit]
    omega

/-- A number spelled by some bytes is written with the same bytes. -/
theorem ofNatBE_toNatBE (bs : Bytes) : ofNatBE bs.length (toNatBE bs) = bs := by
  induction bs using List.reverseRecOn with
  | nil => rfl
  | append_singleton bs b ih =>
    have hlow : UInt8.ofNat (toNatBE bs * 256 + b.toNat) = b := by
      rw [← UInt8.toNat_inj, UInt8.toNat_ofNat']
      have := b.toNat_lt
      omega
    have hhigh : (toNatBE bs * 256 + b.toNat) / 256 = toNatBE bs := by
      have := b.toNat_lt
      omega
    rw [toNatBE_append_singleton, List.length_append, List.length_singleton, ofNatBE, hhigh, hlow,
      ih]

theorem toNatBE_lt (bs : Bytes) : toNatBE bs < 256 ^ bs.length := by
  have hmod := toNatBE_ofNatBE bs.length (toNatBE bs)
  rw [ofNatBE_toNatBE] at hmod
  rw [hmod]
  exact Nat.mod_lt _ (Nat.pow_pos (by decide))

end WireServer.Bytes
