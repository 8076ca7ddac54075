import Mathlib.Data.Nat.Bitwise
import Mathlib.Tactic.Ring

/-!
# Bit strings

Numbers and bytes as lists of bits, most significant bit first.  A field of a
bit stream is the number of its bits, and a field may be read in two parts.
-/

namespace Xhive.Support

/-! ## Numbers -/

/-- The low `n` bits of a number. -/
def bitsOf : ℕ → ℕ → List Bool
  | 0, _ => []
  | n + 1, v => v.testBit n :: bitsOf n v

/-- The number of a list of bits. -/
def ofBits : List Bool → ℕ
  | [] => 0
  | b :: bs => b.toNat * 2 ^ bs.length + ofBits bs

@[simp] theorem length_bitsOf (n v : ℕ) : (bitsOf n v).length = n := by
  induction n with
  | zero => rfl
  | succ n ih => rw [bitsOf, List.length_cons, ih]

@[simp] theorem ofBits_nil : ofBits [] = 0 := rfl

theorem ofBits_lt (bs : List Bool) : ofBits bs < 2 ^ bs.length := by
  induction bs with
  | nil => exact Nat.one_pos
  | cons b bs ih =>
      have hb : b.toNat ≤ 1 := Bool.toNat_le b
      rw [ofBits, List.length_cons, Nat.pow_succ']
      calc b.toNat * 2 ^ bs.length + ofBits bs
          < b.toNat * 2 ^ bs.length + 2 ^ bs.length := Nat.add_lt_add_left ih _
        _ ≤ 1 * 2 ^ bs.length + 2 ^ bs.length :=
            Nat.add_le_add_right (Nat.mul_le_mul_right _ hb) _
        _ = 2 * 2 ^ bs.length := by ring

theorem ofBits_append (xs ys : List Bool) :
    ofBits (xs ++ ys) = ofBits xs * 2 ^ ys.length + ofBits ys := by
  induction xs with
  | nil => rw [List.nil_append, ofBits_nil, Nat.zero_mul, Nat.zero_add]
  | cons b xs ih =>
      rw [List.cons_append, ofBits, ofBits, ih, List.length_append, Nat.pow_add]
      ring

theorem ofBits_concat (xs : List Bool) (b : Bool) :
    ofBits (xs ++ [b]) = ofBits xs * 2 + b.toNat := by
  rw [ofBits_append]
  simp [ofBits]

theorem ofBits_bitsOf (n v : ℕ) : ofBits (bitsOf n v) = v % 2 ^ n := by
  induction n with
  | zero => rw [bitsOf, ofBits_nil, Nat.pow_zero, Nat.mod_one]
  | succ n ih =>
      rw [bitsOf, ofBits, ih, length_bitsOf, Nat.toNat_testBit, Nat.mod_pow_succ, Nat.mul_comm,
        Nat.add_comm]

theorem ofBits_bitsOf_of_lt {n v : ℕ} (h : v < 2 ^ n) : ofBits (bitsOf n v) = v := by
  rw [ofBits_bitsOf, Nat.mod_eq_of_lt h]

theorem bitsOf_mod (n v : ℕ) {k : ℕ} (h : n ≤ k) : bitsOf n (v % 2 ^ k) = bitsOf n v := by
  induction n with
  | zero => rfl
  | succ n ih =>
      rw [bitsOf, bitsOf, ih (by omega), Nat.testBit_mod_two_pow, decide_eq_true (by omega),
        Bool.true_and]

/-- The bits of a number in two parts. -/
theorem bitsOf_add (m n v : ℕ) : bitsOf (m + n) v = bitsOf m (v / 2 ^ n) ++ bitsOf n v := by
  induction m with
  | zero => rw [Nat.zero_add, bitsOf, List.nil_append]
  | succ m ih =>
      rw [Nat.add_right_comm, bitsOf, bitsOf, ih, List.cons_append, Nat.testBit_div_two_pow,
        Nat.add_comm m n]

theorem bitsOf_ofBits (bs : List Bool) : bitsOf bs.length (ofBits bs) = bs := by
  induction bs with
  | nil => rfl
  | cons b bs ih =>
      have hlt := ofBits_lt bs
      rw [List.length_cons, bitsOf, ofBits]
      congr 1
      · rw [Nat.mul_comm, Nat.testBit_two_pow_mul_add _ hlt, if_neg (lt_irrefl _), Nat.sub_self]
        cases b <;> rfl
      · have hmod : (b.toNat * 2 ^ bs.length + ofBits bs) % 2 ^ bs.length = ofBits bs := by
          rw [Nat.mul_add_mod_self_right, Nat.mod_eq_of_lt hlt]
        rw [← bitsOf_mod _ _ le_rfl, hmod, ih]

/-- Bits with zeros below them. -/
theorem bitsOf_shiftLeft (bs : List Bool) (k : ℕ) :
    bitsOf (bs.length + k) (ofBits bs * 2 ^ k) = bs ++ List.replicate k false := by
  have hzero : ∀ n, n ≤ k → bitsOf n (ofBits bs * 2 ^ k) = List.replicate n false := by
    intro n
    induction n with
    | zero => exact fun _ => rfl
    | succ n ih =>
        intro hn
        rw [bitsOf, ih (by omega), Nat.testBit_mul_two_pow, decide_eq_false (by omega),
          Bool.false_and, List.replicate_succ]
  rw [bitsOf_add, hzero k le_rfl, Nat.mul_div_cancel _ (Nat.two_pow_pos k), bitsOf_ofBits]

/-! ## Bytes -/

def byteBits (b : UInt8) : List Bool :=
  bitsOf 8 b.toNat

/-- The bits of a list of bytes. -/
def bitsOfBytes (bytes : List UInt8) : List Bool :=
  bytes.flatMap byteBits

@[simp] theorem length_byteBits (b : UInt8) : (byteBits b).length = 8 :=
  length_bitsOf 8 _

theorem ofBits_byteBits (b : UInt8) : ofBits (byteBits b) = b.toNat :=
  ofBits_bitsOf_of_lt b.toNat_lt

@[simp] theorem bitsOfBytes_nil : bitsOfBytes [] = [] := rfl

@[simp] theorem bitsOfBytes_cons (b : UInt8) (bytes : List UInt8) :
    bitsOfBytes (b :: bytes) = byteBits b ++ bitsOfBytes bytes :=
  List.flatMap_cons

theorem bitsOfBytes_append (xs ys : List UInt8) :
    bitsOfBytes (xs ++ ys) = bitsOfBytes xs ++ bitsOfBytes ys :=
  List.flatMap_append

theorem bitsOfBytes_concat (bytes : List UInt8) (b : UInt8) :
    bitsOfBytes (bytes ++ [b]) = bitsOfBytes bytes ++ byteBits b := by
  rw [bitsOfBytes_append, bitsOfBytes_cons, bitsOfBytes_nil, List.append_nil]

theorem length_bitsOfBytes (bytes : List UInt8) :
    (bitsOfBytes bytes).length = 8 * bytes.length := by
  induction bytes with
  | nil => rfl
  | cons b bytes ih =>
      rw [bitsOfBytes_cons, List.length_append, length_byteBits, ih, List.length_cons,
        Nat.mul_succ, Nat.add_comm]

/-! ## Fields -/

/-- The next `n` bits as a number, with the bits after them. -/
def takeField (n : ℕ) (bits : List Bool) : Option (ℕ × List Bool) :=
  if n ≤ bits.length then some (ofBits (bits.take n), bits.drop n) else none

theorem takeField_eq_none {n : ℕ} {bits : List Bool} (h : bits.length < n) :
    takeField n bits = none :=
  if_neg (Nat.not_le.mpr h)

/-- A field does not depend on the bits after it. -/
theorem takeField_extend {n v : ℕ} {bits rest : List Bool}
    (h : takeField n bits = some (v, rest)) (extra : List Bool) :
    takeField n (bits ++ extra) = some (v, rest ++ extra) := by
  rw [takeField] at h
  split at h
  · rename_i hle
    obtain ⟨rfl, rfl⟩ := Prod.mk.inj (Option.some.inj h)
    rw [takeField, if_pos (by rw [List.length_append]; omega), List.take_append_of_le_length hle,
      List.drop_append_of_le_length hle]
  · exact absurd h (by simp)

theorem takeField_lt {n v : ℕ} {bits rest : List Bool} (h : takeField n bits = some (v, rest)) :
    v < 2 ^ n := by
  rw [takeField] at h
  split at h
  · rename_i hle
    rw [← (Prod.mk.inj (Option.some.inj h)).1]
    have hlt := ofBits_lt (bits.take n)
    rwa [List.length_take_of_le hle] at hlt
  · exact absurd h (by simp)

theorem takeField_append {field : List Bool} (rest : List Bool) {n : ℕ} (h : field.length = n) :
    takeField n (field ++ rest) = some (ofBits field, rest) := by
  rw [takeField, if_pos (by rw [List.length_append]; omega), ← h, List.take_left,
    List.drop_left]

/-- A field that was written is read back. -/
theorem takeField_bitsOf {n v : ℕ} (hv : v < 2 ^ n) (rest : List Bool) :
    takeField n (bitsOf n v ++ rest) = some (v, rest) := by
  rw [takeField_append rest (length_bitsOf n v), ofBits_bitsOf_of_lt hv]

/-- A field in two parts. -/
theorem takeField_add (m n : ℕ) (bits : List Bool) :
    takeField (m + n) bits =
      (takeField m bits).bind fun high =>
        (takeField n high.2).map fun low => (high.1 * 2 ^ n + low.1, low.2) := by
  rw [takeField, takeField]
  by_cases hm : m ≤ bits.length
  · rw [if_pos hm, Option.bind_some, takeField]
    by_cases hn : n ≤ (bits.drop m).length
    · have htotal : m + n ≤ bits.length := by
        rw [List.length_drop] at hn
        omega
      have hlength : ((bits.drop m).take n).length = n := List.length_take_of_le hn
      rw [if_pos htotal, if_pos hn, Option.map_some, List.take_add, ofBits_append, hlength,
        List.drop_drop]
    · rw [if_neg hn, Option.map_none, if_neg]
      rw [List.length_drop] at hn
      omega
  · rw [if_neg hm, Option.bind_none, if_neg (by omega)]

end Xhive.Support
