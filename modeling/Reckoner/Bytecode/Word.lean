/-!
Words as bytes, least significant byte first.
-/
namespace Reckoner.Bytecode

def toBytes : (count n : Nat) → List UInt8
  | 0, _ => []
  | count + 1, n => (n % 256).toUInt8 :: toBytes count (n / 256)

def ofBytes : List UInt8 → Nat
  | [] => 0
  | b :: bs => b.toNat + 256 * ofBytes bs

@[simp] theorem length_toBytes (count n : Nat) : (toBytes count n).length = count := by
  induction count generalizing n with
  | zero => rfl
  | succ count ih => simp [toBytes, ih]

theorem ofBytes_toBytes (count n : Nat) : ofBytes (toBytes count n) = n % Nat.pow 256 count := by
  induction count generalizing n with
  | zero => simp [toBytes, ofBytes, Nat.mod_one]
  | succ count ih =>
    have h : (n % 256).toUInt8.toNat = n % 256 := by simp
    have hpow : Nat.pow 256 (count + 1) = 256 * Nat.pow 256 count := Nat.mul_comm _ _
    rw [toBytes, ofBytes, ih, h, hpow, Nat.mod_mul]

theorem toBytes_ofBytes (bs : List UInt8) : toBytes bs.length (ofBytes bs) = bs := by
  induction bs with
  | nil => rfl
  | cons b bs ih =>
    have hb : b.toNat < 256 := b.toNat_lt
    have hm : (b.toNat + 256 * ofBytes bs) % 256 = b.toNat := by omega
    have hd : (b.toNat + 256 * ofBytes bs) / 256 = ofBytes bs := by omega
    simp [toBytes, ofBytes, hm, hd, ih]

end Reckoner.Bytecode
