import StackScript.Proofs.Code.Encoding

-- Numbers as bytes, the most significant first. Reading some bytes and writing as many gives them back.
namespace StackScript

theorem byteRange_pos (width : Nat) : 0 < byteRange width := by
  induction width with
  | zero => exact Nat.one_pos
  | succ width ih => exact Nat.mul_pos ih (by decide)

theorem bigEndian_beyond (width k n : Nat) : bigEndian width (byteRange width * k + n) = bigEndian width n := by
  induction width generalizing k with
  | zero => rfl
  | succ width ih =>
    have split : byteRange (width + 1) * k + n = byteRange width * (256 * k) + n := by
      simp only [byteRange, Nat.mul_assoc]
    have digit : ((byteRange width * (256 * k) + n) / byteRange width).toUInt8 = (n / byteRange width).toUInt8 := by
      apply UInt8.toNat_inj.mp
      simp only [Nat.mul_add_div (byteRange_pos width), Nat.toUInt8_eq, UInt8.toNat_ofNat']
      omega
    simp only [bigEndian, split, digit, ih]

theorem ofBigEndian_first (b : UInt8) (bytes : List UInt8) :
    ofBigEndian (b :: bytes) = bytes.foldl (fun n b => 256 * n + b.toNat) b.toNat := by
  simp only [ofBigEndian, List.foldl_cons, Nat.mul_zero, Nat.zero_add]

theorem foldl_ofBigEndian (bytes : List UInt8) (m : Nat) :
    bytes.foldl (fun n b => 256 * n + b.toNat) m = byteRange bytes.length * m + ofBigEndian bytes := by
  induction bytes generalizing m with
  | nil => simp [byteRange, ofBigEndian]
  | cons b bytes ih =>
    simp only [List.foldl_cons, List.length_cons, byteRange, ofBigEndian_first, ih, Nat.mul_add, Nat.mul_assoc,
      Nat.add_assoc]

theorem ofBigEndian_cons (b : UInt8) (bytes : List UInt8) :
    ofBigEndian (b :: bytes) = byteRange bytes.length * b.toNat + ofBigEndian bytes :=
  (ofBigEndian_first b bytes).trans (foldl_ofBigEndian bytes b.toNat)

theorem ofBigEndian_lt (bytes : List UInt8) : ofBigEndian bytes < byteRange bytes.length := by
  induction bytes with
  | nil => exact Nat.one_pos
  | cons b bytes ih =>
    have digit : byteRange bytes.length * (b.toNat + 1) ≤ byteRange bytes.length * 256 :=
      Nat.mul_le_mul_left _ b.toNat_lt
    simp only [ofBigEndian_cons, List.length_cons, byteRange]
    calc byteRange bytes.length * b.toNat + ofBigEndian bytes
      _ < byteRange bytes.length * b.toNat + byteRange bytes.length := Nat.add_lt_add_left ih _
      _ = byteRange bytes.length * (b.toNat + 1) := (Nat.mul_succ ..).symm
      _ ≤ byteRange bytes.length * 256 := digit

theorem bigEndian_ofBigEndian (bytes : List UInt8) : bigEndian bytes.length (ofBigEndian bytes) = bytes := by
  induction bytes with
  | nil => rfl
  | cons b bytes ih =>
    have digit : (byteRange bytes.length * b.toNat + ofBigEndian bytes) / byteRange bytes.length = b.toNat := by
      simp only [Nat.mul_add_div (byteRange_pos _), Nat.div_eq_of_lt (ofBigEndian_lt bytes), Nat.add_zero]
    simp only [ofBigEndian_cons, List.length_cons, bigEndian, digit, bigEndian_beyond, ih, Nat.toUInt8_eq,
      UInt8.ofNat_toNat]

end StackScript
