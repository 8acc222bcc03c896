import Mathlib.Data.UInt
import Mathlib.Tactic

/-!
# Numbers in memory, least significant byte first

An encoding has a fixed width and drops what does not fit; decoding gives back the number modulo
the width's power.
-/
namespace TlpiExercises.LittleEndian

def encode : ℕ → ℕ → List UInt8
  | 0, _ => []
  | width + 1, x => UInt8.ofNat x :: encode width (x / 256)

def decode : List UInt8 → ℕ
  | [] => 0
  | b :: bytes => b.toNat + 256 * decode bytes

@[simp] theorem length_encode (width x : ℕ) : (encode width x).length = width := by
  induction width generalizing x with
  | zero => rfl
  | succ width ih => rw [encode, List.length_cons, ih]

theorem decode_encode (width x : ℕ) : decode (encode width x) = x % 256 ^ width := by
  induction width generalizing x with
  | zero => simp [encode, decode, Nat.mod_one]
  | succ width ih =>
      have hbyte : (UInt8.ofNat x).toNat = x % 256 := UInt8.toNat_ofNat'
      rw [encode, decode, ih, hbyte, pow_succ', Nat.mod_mul]

theorem decode_encode_of_lt {width x : ℕ} (h : x < 256 ^ width) : decode (encode width x) = x := by
  rw [decode_encode, Nat.mod_eq_of_lt h]

end TlpiExercises.LittleEndian
