import Mathlib.Algebra.Order.Ring.Nat
import Mathlib.Tactic.Common

/-!
# Elements in a byte memory

A value lies in a few consecutive bytes.  A store changes these bytes and no
others, so an array keeps its elements while another range is written.
-/

namespace Xhive.Support

/-- Bytes by address. -/
abbrev ByteMemory : Type :=
  ℕ → UInt8

/-! ## Ranges of addresses -/

/-- An address of a range. -/
def InRange (start size x : ℕ) : Prop :=
  start ≤ x ∧ x < start + size

instance (start size x : ℕ) : Decidable (InRange start size x) :=
  inferInstanceAs (Decidable (_ ∧ _))

/-- Two ranges without a common address. -/
def Apart (a asize b bsize : ℕ) : Prop :=
  ∀ x, InRange a asize x → ¬InRange b bsize x

theorem Apart.symm {a asize b bsize : ℕ} (h : Apart a asize b bsize) : Apart b bsize a asize :=
  fun x hb ha => h x ha hb

/-- Two memories agree on a range. -/
def AgreeOn (m m' : ByteMemory) (start size : ℕ) : Prop :=
  ∀ x, InRange start size x → m x = m' x

/-- The second memory differs from the first on a range at most. -/
def ChangedOnly (m m' : ByteMemory) (start size : ℕ) : Prop :=
  ∀ x, ¬InRange start size x → m' x = m x

theorem ChangedOnly.refl (m : ByteMemory) (start size : ℕ) : ChangedOnly m m start size :=
  fun _ _ => rfl

theorem ChangedOnly.trans {m m' m'' : ByteMemory} {start size : ℕ}
    (h : ChangedOnly m m' start size) (h' : ChangedOnly m' m'' start size) :
    ChangedOnly m m'' start size :=
  fun x hx => (h' x hx).trans (h x hx)

/-- A range apart from the change keeps its bytes. -/
theorem ChangedOnly.agreeOn {m m' : ByteMemory} {start size a asize : ℕ}
    (h : ChangedOnly m m' start size) (hapart : Apart a asize start size) :
    AgreeOn m' m a asize :=
  fun x hx => h x (hapart x hx)

/-- Copying `size` bytes, which may overlap their copy. -/
def memmove (target source size : ℕ) (m : ByteMemory) : ByteMemory :=
  fun x => if InRange target size x then m (source + (x - target)) else m x

theorem changedOnly_memmove (target source size : ℕ) (m : ByteMemory) :
    ChangedOnly m (memmove target source size m) target size :=
  fun _ hx => if_neg hx

/-! ## Values -/

/-- How a value lies in `width` bytes. -/
structure Codec (V : Type) (width : ℕ) where
  decode : (ℕ → UInt8) → V
  encode : V → ℕ → UInt8
  decode_congr : ∀ bytes bytes' : ℕ → UInt8, (∀ i < width, bytes i = bytes' i) →
    decode bytes = decode bytes'
  decode_encode : ∀ value, decode (encode value) = value

namespace Codec

variable {V : Type} {width : ℕ} (codec : Codec V width)

def load (m : ByteMemory) (address : ℕ) : V :=
  codec.decode fun i => m (address + i)

def store (m : ByteMemory) (address : ℕ) (value : V) : ByteMemory :=
  fun x => if InRange address width x then codec.encode value (x - address) else m x

theorem load_congr {m m' : ByteMemory} {address : ℕ} (h : AgreeOn m m' address width) :
    codec.load m address = codec.load m' address :=
  codec.decode_congr _ _ fun _ hi => h _ ⟨Nat.le_add_right _ _, Nat.add_lt_add_left hi _⟩

@[simp] theorem load_store (m : ByteMemory) (address : ℕ) (value : V) :
    codec.load (codec.store m address value) address = value := by
  refine (codec.decode_congr _ _ fun _ hi => ?_).trans (codec.decode_encode value)
  rw [store, if_pos ⟨Nat.le_add_right _ _, Nat.add_lt_add_left hi _⟩, Nat.add_sub_cancel_left]

theorem changedOnly_store (m : ByteMemory) (address : ℕ) (value : V) :
    ChangedOnly m (codec.store m address value) address width :=
  fun _ hx => if_neg hx

/-- A store elsewhere. -/
theorem load_store_of_apart {m : ByteMemory} {address address' : ℕ} (value : V)
    (h : Apart address' width address width) :
    codec.load (codec.store m address value) address' = codec.load m address' :=
  codec.load_congr ((codec.changedOnly_store m address value).agreeOn h)

end Codec

/-! ## Words with the least significant byte first -/

/-- The number in `width` bytes. -/
def littleEndian : ℕ → (ℕ → UInt8) → ℕ
  | 0, _ => 0
  | width + 1, bytes => (bytes 0).toNat + 256 * littleEndian width fun i => bytes (i + 1)

theorem littleEndian_congr {width : ℕ} {bytes bytes' : ℕ → UInt8}
    (h : ∀ i < width, bytes i = bytes' i) :
    littleEndian width bytes = littleEndian width bytes' := by
  induction width generalizing bytes bytes' with
  | zero => rfl
  | succ width ih =>
      rw [littleEndian, littleEndian, h 0 (Nat.succ_pos width),
        ih fun i hi => h (i + 1) (Nat.succ_lt_succ hi)]

theorem littleEndian_digits {width n : ℕ} (h : n < 256 ^ width) :
    littleEndian width (fun i => UInt8.ofNat (n / 256 ^ i)) = n := by
  induction width generalizing n with
  | zero => exact (Nat.lt_one_iff.mp h).symm
  | succ width ih =>
      have hdigit : ∀ i, n / 256 ^ (i + 1) = n / 256 / 256 ^ i := fun i => by
        rw [Nat.pow_succ', Nat.div_div_eq_div_mul]
      rw [Nat.pow_succ'] at h
      rw [littleEndian]
      simp only [hdigit]
      rw [ih (Nat.div_lt_of_lt_mul h), Nat.pow_zero, Nat.div_one, UInt8.toNat_ofNat']
      exact Nat.mod_add_div n 256

/-- The layout of a type whose values are numbered by `width` bytes. -/
def Codec.word {V : Type} (width : ℕ) (toNat : V → ℕ) (ofNat : ℕ → V)
    (lt : ∀ value, toNat value < 256 ^ width) (ofNat_toNat : ∀ value, ofNat (toNat value) = value) :
    Codec V width where
  decode bytes := ofNat (littleEndian width bytes)
  encode value i := UInt8.ofNat (toNat value / 256 ^ i)
  decode_congr bytes bytes' h := by rw [littleEndian_congr h]
  decode_encode value := by rw [littleEndian_digits (lt value), ofNat_toNat]

/-! ## Arrays -/

section Arrays

variable {width stride start count : ℕ}

/-- An element of an array with elements every `stride` bytes. -/
theorem inRange_of_element {i x : ℕ} (hwidth : width ≤ stride) (hi : i < count)
    (h : InRange (start + stride * i) width x) : InRange start (stride * count) x := by
  have hnext : stride * (i + 1) ≤ stride * count := Nat.mul_le_mul_left _ hi
  rw [Nat.mul_succ] at hnext
  obtain ⟨hlow, hhigh⟩ := h
  exact ⟨by omega, by omega⟩

/-- Elements of one array do not meet. -/
theorem element_apart {i j : ℕ} (hwidth : width ≤ stride) (hne : i ≠ j) :
    Apart (start + stride * i) width (start + stride * j) width := by
  intro x hi hj
  obtain ⟨hlow, hhigh⟩ := hi
  obtain ⟨hlow', hhigh'⟩ := hj
  rcases Nat.lt_or_gt_of_ne hne with hlt | hlt
  · have hnext : stride * (i + 1) ≤ stride * j := Nat.mul_le_mul_left _ hlt
    rw [Nat.mul_succ] at hnext
    omega
  · have hnext : stride * (j + 1) ≤ stride * i := Nat.mul_le_mul_left _ hlt
    rw [Nat.mul_succ] at hnext
    omega

/-- Writing an element changes its array at most. -/
theorem ChangedOnly.of_element {m m' : ByteMemory} {i : ℕ} (hwidth : width ≤ stride)
    (hi : i < count) (h : ChangedOnly m m' (start + stride * i) width) :
    ChangedOnly m m' start (stride * count) :=
  fun x hx => h x fun hx' => hx (inRange_of_element hwidth hi hx')

variable {V : Type} (codec : Codec V width)

/-- An array outside of the bytes that changed. -/
theorem Codec.load_element_congr {m m' : ByteMemory} {i : ℕ} (hwidth : width ≤ stride)
    (hi : i < count) (h : AgreeOn m m' start (stride * count)) :
    codec.load m (start + stride * i) = codec.load m' (start + stride * i) :=
  codec.load_congr fun x hx => h x (inRange_of_element hwidth hi hx)

/-- An element that was copied with its array. -/
theorem Codec.load_memmove (m : ByteMemory) (source : ℕ) {i : ℕ} (hwidth : width ≤ stride)
    (hi : i < count) :
    codec.load (memmove start source (stride * count) m) (start + stride * i) =
      codec.load m (source + stride * i) := by
  refine codec.decode_congr _ _ fun j hj => ?_
  have helement : InRange (start + stride * i) width (start + stride * i + j) :=
    ⟨Nat.le_add_right _ _, Nat.add_lt_add_left hj _⟩
  have hin := inRange_of_element hwidth hi helement
  rw [memmove, if_pos hin]
  congr 1
  omega

end Arrays

end Xhive.Support
