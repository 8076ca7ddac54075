import Xhive.Base64.SizeQuery

/-!
# Encoding and decoding back

A group of three bytes is written as four digits of six bits, and the last group
is padded, so the text stands for the number of the bytes followed by as many
zero bits as the padding leaves out.  The decoder regroups it into the bytes.
-/

namespace Xhive.Base64

open Xhive.Support Xhive.Linears

/-! ## The characters of a group -/

theorem toNat_pack (buffer : UInt32) (byte : UInt8) (h : buffer.toNat < 2 ^ 24) :
    (pack buffer byte).toNat = buffer.toNat * 2 ^ 8 + byte.toNat := by
  have hshift : (buffer <<< 8).toNat = buffer.toNat * 2 ^ 8 := by
    rw [UInt32.toNat_shiftLeft, Nat.shiftLeft_eq]
    change buffer.toNat * 2 ^ 8 % 2 ^ 32 = _
    omega
  rw [pack, UInt32.toNat_or, hshift, UInt8.toNat_toUInt32, mul_two_pow_lor _ byte.toNat_lt]

theorem toNat_shift_byte (buffer : UInt32) (h : buffer.toNat < 2 ^ 24) :
    (buffer <<< 8).toNat = buffer.toNat * 2 ^ 8 := by
  rw [UInt32.toNat_shiftLeft, Nat.shiftLeft_eq]
  change buffer.toNat * 2 ^ 8 % 2 ^ 32 = _
  omega

/-- The character of six bits. -/
def lutChar (d : ℕ) : UInt8 :=
  base64Lut.getD d 0

/-- A place before the padding holds its six bits of the group. -/
theorem groupChar_eq {data : List UInt8} {i j : ℕ} (hj : j < groupSize data i + 1) (hj' : j < 4) :
    groupChar data i j = lutChar ((groupBuffer data i).toNat / 2 ^ (18 - j * 6) % 2 ^ 6) := by
  have hshift : (UInt32.ofNat (18 - j * 6)).toNat % 32 = 18 - j * 6 := by
    rw [UInt32.toNat_ofNat', Nat.mod_eq_of_lt (a := 18 - j * 6) (by omega)]
    omega
  rw [groupChar, if_pos hj, lutChar, UInt32.toNat_and, UInt32.toNat_shiftRight, hshift,
    Nat.shiftRight_eq_div_pow]
  change base64Lut.getD (_ &&& (2 ^ 6 - 1)) 0 = _
  rw [Nat.and_two_pow_sub_one_eq_mod]

/-- The six-bit digits of a byte list, the last one filled up with zero bits. -/
def sextets : List UInt8 → List ℕ
  | [] => []
  | [x] => [x.toNat / 4, x.toNat % 4 * 16]
  | [x, y] => [x.toNat / 4, x.toNat % 4 * 16 + y.toNat / 16, y.toNat % 16 * 4]
  | x :: y :: z :: rest =>
      x.toNat / 4 :: (x.toNat % 4 * 16 + y.toNat / 16) :: (y.toNat % 16 * 4 + z.toNat / 64) ::
        z.toNat % 64 :: sextets rest

/-- The padding characters of a list of `n` bytes. -/
def padding (n : ℕ) : ℕ :=
  (3 - n % 3) % 3

/-- The characters that the groups write. -/
def encodeText (data : List UInt8) : List UInt8 :=
  (List.range ((data.length + 2) / 3)).flatMap fun k => (List.range 4).map (groupChar data (3 * k))

theorem groupChar_cons (x y z : UInt8) (rest : List UInt8) (k j : ℕ) :
    groupChar (x :: y :: z :: rest) (3 * (k + 1)) j = groupChar rest (3 * k) j := by
  have hsize : groupSize (x :: y :: z :: rest) (3 * (k + 1)) = groupSize rest (3 * k) := by
    simp only [groupSize, List.length_cons]
    congr 1 <;> [skip; omega]
    apply propext
    omega
  have hget : ∀ i, (x :: y :: z :: rest).getD (3 * (k + 1) + i) 0 = rest.getD (3 * k + i) 0 := by
    intro i
    rw [show 3 * (k + 1) + i = 3 * k + i + 1 + 1 + 1 by ring, List.getD_cons_succ,
      List.getD_cons_succ, List.getD_cons_succ]
  simp only [groupChar, groupBuffer, hsize, hget]

theorem toNat_pack_zero (x : UInt8) : (pack 0 x).toNat = x.toNat := by
  rw [toNat_pack 0 x (by norm_num), UInt32.toNat_zero, Nat.zero_mul, Nat.zero_add]

theorem toNat_pack_two (x y : UInt8) : (pack (pack 0 x) y).toNat = x.toNat * 2 ^ 8 + y.toNat := by
  have hx := x.toNat_lt
  rw [toNat_pack _ y (by rw [toNat_pack_zero]; omega), toNat_pack_zero]

theorem groupBuffer_one (x : UInt8) : (groupBuffer [x] 0).toNat = x.toNat * 2 ^ 16 := by
  have hx := x.toNat_lt
  have hbyte := toNat_pack_zero x
  have hshift := toNat_shift_byte (pack 0 x) (by omega)
  change ((pack 0 x <<< 8) <<< 8).toNat = _
  rw [toNat_shift_byte _ (by omega), hshift, hbyte]
  ring

theorem groupBuffer_two (x y : UInt8) :
    (groupBuffer [x, y] 0).toNat = x.toNat * 2 ^ 16 + y.toNat * 2 ^ 8 := by
  have hx := x.toNat_lt
  have hy := y.toNat_lt
  have hbytes := toNat_pack_two x y
  change (pack (pack 0 x) y <<< 8).toNat = _
  rw [toNat_shift_byte _ (by omega), hbytes]
  ring

theorem groupBuffer_three (x y z : UInt8) (rest : List UInt8) :
    (groupBuffer (x :: y :: z :: rest) 0).toNat =
      x.toNat * 2 ^ 16 + y.toNat * 2 ^ 8 + z.toNat := by
  have hx := x.toNat_lt
  have hy := y.toNat_lt
  have hbytes := toNat_pack_two x y
  have hsize : groupSize (x :: y :: z :: rest) 0 = 3 := by
    rw [groupSize, if_pos (by simp only [List.length_cons]; omega)]
  rw [groupBuffer, hsize]
  change (pack (pack (pack 0 x) y) z).toNat = _
  rw [toNat_pack _ z (by omega), hbytes]
  ring

/-- A group in the middle of the data holds four digits. -/
theorem groupText_three (x y z : UInt8) (rest : List UInt8) :
    (List.range 4).map (groupChar (x :: y :: z :: rest) 0) =
      [x.toNat / 4, x.toNat % 4 * 16 + y.toNat / 16, y.toNat % 16 * 4 + z.toNat / 64,
        z.toNat % 64].map lutChar := by
  have hx := x.toNat_lt
  have hy := y.toNat_lt
  have hz := z.toNat_lt
  have hsize : groupSize (x :: y :: z :: rest) 0 = 3 := by
    rw [groupSize, if_pos (by simp only [List.length_cons]; omega)]
  have hchar : ∀ j < 4, groupChar (x :: y :: z :: rest) 0 j =
      lutChar ((x.toNat * 2 ^ 16 + y.toNat * 2 ^ 8 + z.toNat) / 2 ^ (18 - j * 6) % 2 ^ 6) := by
    intro j hj
    rw [groupChar_eq (by omega) hj, groupBuffer_three]
  have hzero : groupChar (x :: y :: z :: rest) 0 0 = lutChar (x.toNat / 4) :=
    (hchar 0 (by norm_num)).trans (congrArg lutChar (by norm_num; omega))
  have hone : groupChar (x :: y :: z :: rest) 0 1 = lutChar (x.toNat % 4 * 16 + y.toNat / 16) :=
    (hchar 1 (by norm_num)).trans (congrArg lutChar (by norm_num; omega))
  have htwo : groupChar (x :: y :: z :: rest) 0 2 = lutChar (y.toNat % 16 * 4 + z.toNat / 64) :=
    (hchar 2 (by norm_num)).trans (congrArg lutChar (by norm_num; omega))
  have hthree : groupChar (x :: y :: z :: rest) 0 3 = lutChar (z.toNat % 64) :=
    (hchar 3 (by norm_num)).trans (congrArg lutChar (by norm_num; omega))
  simp [List.range, List.range.loop, hzero, hone, htwo, hthree]

theorem groupText_one (x : UInt8) :
    (List.range 4).map (groupChar [x] 0) =
      [lutChar (x.toNat / 4), lutChar (x.toNat % 4 * 16), equals, equals] := by
  have hx := x.toNat_lt
  have hzero : groupChar [x] 0 0 = lutChar (x.toNat / 4) := by
    rw [groupChar_eq (Nat.succ_pos _) (by norm_num), groupBuffer_one]
    exact congrArg lutChar (by norm_num; omega)
  have hone : groupChar [x] 0 1 = lutChar (x.toNat % 4 * 16) := by
    rw [groupChar_eq (show 1 < 1 + 1 by norm_num) (by norm_num), groupBuffer_one]
    exact congrArg lutChar (by norm_num; omega)
  have htwo : groupChar [x] 0 2 = equals := rfl
  have hthree : groupChar [x] 0 3 = equals := rfl
  simp [List.range, List.range.loop, hzero, hone, htwo, hthree]

theorem groupText_two (x y : UInt8) :
    (List.range 4).map (groupChar [x, y] 0) =
      [lutChar (x.toNat / 4), lutChar (x.toNat % 4 * 16 + y.toNat / 16),
        lutChar (y.toNat % 16 * 4), equals] := by
  have hx := x.toNat_lt
  have hy := y.toNat_lt
  have hchar : ∀ j < 3, groupChar [x, y] 0 j =
      lutChar ((x.toNat * 2 ^ 16 + y.toNat * 2 ^ 8) / 2 ^ (18 - j * 6) % 2 ^ 6) := by
    intro j hj
    rw [groupChar_eq (show j < 2 + 1 from hj) (by omega), groupBuffer_two]
  have hzero : groupChar [x, y] 0 0 = lutChar (x.toNat / 4) :=
    (hchar 0 (by norm_num)).trans (congrArg lutChar (by norm_num; omega))
  have hone : groupChar [x, y] 0 1 = lutChar (x.toNat % 4 * 16 + y.toNat / 16) :=
    (hchar 1 (by norm_num)).trans (congrArg lutChar (by norm_num; omega))
  have htwo : groupChar [x, y] 0 2 = lutChar (y.toNat % 16 * 4) :=
    (hchar 2 (by norm_num)).trans (congrArg lutChar (by norm_num; omega))
  have hthree : groupChar [x, y] 0 3 = equals := rfl
  simp [List.range, List.range.loop, hzero, hone, htwo, hthree]

theorem encodeText_cons (x y z : UInt8) (rest : List UInt8) :
    encodeText (x :: y :: z :: rest) =
      (List.range 4).map (groupChar (x :: y :: z :: rest) 0) ++ encodeText rest := by
  have hgroups : ((x :: y :: z :: rest).length + 2) / 3 = (rest.length + 2) / 3 + 1 := by
    simp only [List.length_cons]
    omega
  have hnext : ∀ k, groupChar (x :: y :: z :: rest) (3 * (k + 1)) = groupChar rest (3 * k) :=
    fun k => funext (groupChar_cons x y z rest k)
  rw [encodeText, encodeText, hgroups, List.range_succ_eq_map (n := (rest.length + 2) / 3),
    List.flatMap_cons, List.flatMap_map]
  simp only [Nat.succ_eq_add_one, hnext, Nat.mul_zero]

/-- The text is the characters of the digits, and the padding. -/
theorem encodeText_eq (data : List UInt8) :
    encodeText data = (sextets data).map lutChar ++ List.replicate (padding data.length) equals := by
  induction data using sextets.induct with
  | case1 => rfl
  | case2 x =>
      have hgroup : encodeText [x] = (List.range 4).map (groupChar [x] 0) := by
        rw [encodeText, show [x].length = 1 from rfl]
        rfl
      exact hgroup.trans (groupText_one x)
  | case3 x y =>
      have hgroup : encodeText [x, y] = (List.range 4).map (groupChar [x, y] 0) := by
        rw [encodeText, show [x, y].length = 2 from rfl]
        rfl
      exact hgroup.trans (groupText_two x y)
  | case4 x y z rest ih =>
      have hpadding : padding (x :: y :: z :: rest).length = padding rest.length := by
        simp only [padding, List.length_cons]
        omega
      rw [encodeText_cons, groupText_three, ih, hpadding, ← List.append_assoc, ← List.map_append]
      rfl

/-! ## The digits -/

theorem sextets_lt (data : List UInt8) : ∀ d ∈ sextets data, d < 2 ^ 6 := by
  have hbyte : ∀ x : UInt8, x.toNat < 2 ^ 8 := fun x => x.toNat_lt
  induction data using sextets.induct with
  | case1 => exact nofun
  | case2 x =>
      have hx := hbyte x
      simp [sextets]
      omega
  | case3 x y =>
      have hx := hbyte x
      have hy := hbyte y
      simp [sextets]
      omega
  | case4 x y z rest ih =>
      have hx := hbyte x
      have hy := hbyte y
      have hz := hbyte z
      simp only [sextets, List.forall_mem_cons]
      exact ⟨by omega, by omega, by omega, by omega, ih⟩

theorem length_sextets (data : List UInt8) :
    6 * (sextets data).length = 8 * data.length + 2 * padding data.length := by
  induction data using sextets.induct with
  | case1 => rfl
  | case2 x => rfl
  | case3 x y => rfl
  | case4 x y z rest ih =>
      simp only [sextets, List.length_cons, padding] at ih ⊢
      omega

/-- The digits are the bytes and the zero bits that fill them up. -/
theorem bigEndian_sextets (data : List UInt8) :
    bigEndian 8 (data.map UInt8.toNat) * 2 ^ (2 * padding data.length) =
      bigEndian 6 (sextets data) := by
  induction data using sextets.induct with
  | case1 => rfl
  | case2 x =>
      simp only [sextets, List.map_cons, List.map_nil, bigEndian_cons, bigEndian_nil,
        List.length_cons, List.length_nil, padding]
      norm_num
      omega
  | case3 x y =>
      simp only [sextets, List.map_cons, List.map_nil, bigEndian_cons, bigEndian_nil,
        List.length_cons, List.length_nil, padding]
      norm_num
      omega
  | case4 x y z rest ih =>
      have hlength := length_sextets rest
      have hpadding : padding (x :: y :: z :: rest).length = padding rest.length := by
        simp only [padding, List.length_cons]
        omega
      have hgroup : bigEndian 6 [x.toNat / 4, x.toNat % 4 * 16 + y.toNat / 16,
          y.toNat % 16 * 4 + z.toNat / 64, z.toNat % 64] =
          bigEndian 8 [x.toNat, y.toNat, z.toNat] := by
        have hx := x.toNat_lt
        have hy := y.toNat_lt
        have hz := z.toNat_lt
        simp only [bigEndian_cons, bigEndian_nil, List.length_cons, List.length_nil]
        norm_num
        omega
      have hdigits := bigEndian_append 6 [x.toNat / 4, x.toNat % 4 * 16 + y.toNat / 16,
        y.toNat % 16 * 4 + z.toNat / 64, z.toNat % 64] (sextets rest)
      have hbytes := bigEndian_append 8 [x.toNat, y.toNat, z.toNat] (rest.map UInt8.toNat)
      rw [hgroup, hlength, ← ih] at hdigits
      rw [List.length_map] at hbytes
      calc bigEndian 8 ((x :: y :: z :: rest).map UInt8.toNat) *
            2 ^ (2 * padding (x :: y :: z :: rest).length)
          = (bigEndian 8 [x.toNat, y.toNat, z.toNat] * 2 ^ (8 * rest.length) +
              bigEndian 8 (rest.map UInt8.toNat)) * 2 ^ (2 * padding rest.length) := by
            rw [hpadding, ← hbytes]
            rfl
        _ = bigEndian 8 [x.toNat, y.toNat, z.toNat] *
              2 ^ (8 * rest.length + 2 * padding rest.length) +
              bigEndian 8 (rest.map UInt8.toNat) * 2 ^ (2 * padding rest.length) := by
            rw [Nat.add_mul, Nat.mul_assoc, ← pow_add]
        _ = bigEndian 6 (sextets (x :: y :: z :: rest)) := hdigits.symm

/-- The character of a digit, as the tests and the decoder see it. -/
theorem lutChar_spec {d : ℕ} (h : d < 2 ^ 6) :
    base64Lut.contains (lutChar d) ∧ lutChar d ≠ 0 ∧ lutChar d ≠ equals ∧
      base64CharDecode (lutChar d) ≠ -1 ∧ digit (lutChar d) = d := by
  have htable : ∀ d < 2 ^ 6, base64Lut.contains (lutChar d) ∧ lutChar d ≠ 0 ∧
      lutChar d ≠ equals ∧ base64CharDecode (lutChar d) ≠ -1 ∧ digit (lutChar d) = d := by
    decide +kernel
  exact htable d h

theorem decodable_encodeText (data : List UInt8) :
    decodable (encodeText data) = (sextets data).map lutChar := by
  have hall : ∀ c ∈ (sextets data).map lutChar, base64CharDecode c ≠ -1 := by
    intro c hc
    obtain ⟨d, hd, rfl⟩ := List.mem_map.mp hc
    exact (lutChar_spec (sextets_lt data d hd)).2.2.2.1
  have hread : decodable ((sextets data).map lutChar) = (sextets data).map lutChar :=
    (decodable_sublist _).eq_of_length ((length_decodable_eq_iff _).mpr hall)
  rw [encodeText_eq]
  cases padding data.length with
  | zero => rw [List.replicate_zero, List.append_nil, hread]
  | succ pad => rw [List.replicate_succ, decodable_append, hread]

/-- The decoder reads the bytes back. -/
theorem decodeLoop_encodeText (data : List UInt8) :
    (decodeLoop (encodeText data) ⟨0, 0, []⟩).out = data := by
  have hdigits : (decodable (encodeText data)).map digit = sextets data := by
    rw [decodable_encodeText, List.map_map]
    conv_rhs => rw [← List.map_id (sextets data)]
    apply List.map_congr_left
    intro d hd
    exact (lutChar_spec (sextets_lt data d hd)).2.2.2.2
  have hview := view_decodeLoop (encodeText data)
  have hheld := Regrouped.run_holds (a := 6) (b := 8) (by norm_num) (by norm_num) (sextets_lt data)
  rw [hdigits] at hview
  rw [← hview] at hheld
  have hpadding : padding data.length < 3 := Nat.mod_lt _ (by norm_num)
  have hsize : 8 * (data.map UInt8.toNat).length + 2 * padding data.length =
      6 * (sextets data).length := by
    rw [List.length_map, length_sextets]
  have hbytes := Regrouped.out_eq hheld (by omega) hsize (bigEndian_sextets data) ?_
  · exact List.map_injective_iff.mpr (fun _ _ h => UInt8.toNat_inj.mp h) hbytes
  · intro d hd
    obtain ⟨x, -, rfl⟩ := List.mem_map.mp hd
    exact x.toNat_lt

/-! ## The round trip -/

/-- The characters a call writes. -/
def encoded (wide : Bool) (data : List UInt8) : List UInt8 :=
  (base64Encode wide (some data) true).2.map Prod.snd

/-- Each cell of the queried size is written once, the text passes the test, and
decoding it gives the data and the size that its own query reports. -/
structure RoundTrips (wide : Bool) (data : List UInt8) : Prop where
  queried : (base64Encode wide (some data) false).1 = 4 * ((data.length + 2) / 3)
  returned : (base64Encode wide (some data) true).1 = 4 * ((data.length + 2) / 3)
  written : (base64Encode wide (some data) true).2.map Prod.fst =
    List.range (4 * ((data.length + 2) / 3))
  accepted : isBase64 (some (encoded wide data)) = true
  decoded : base64Decode wide (some (encoded wide data)) true = (data.length, data)
  size : (base64Decode wide (some (encoded wide data)) false).1 = data.length

theorem base64EncodedLen_eq {wide : Bool} {len : ℕ} (h : 3 * (4 * ((len + 2) / 3)) ≤ sizeMax wide) :
    base64EncodedLen wide len = 4 * ((len + 2) / 3) := by
  have hsum : sizeT wide (len + 2) = len + 2 := by
    have hrange : 2 ≤ sizeMax wide := by cases wide <;> decide
    exact_mod_cast sizeT_of_le wide (show len + 2 ≤ sizeMax wide by omega)
  rw [base64EncodedLen, hsum, sizeT_of_le wide (by omega), Nat.mul_comm]

/-- With room for all groups, each writes its four cells. -/
theorem groupWrites_eq {data : List UInt8} {outputLen k : ℕ} (h : 4 * (k + 1) ≤ outputLen) :
    groupWrites data outputLen (3 * k) =
      (List.range 4).map fun j => (k * 4 + j, groupChar data (3 * k) j) := by
  have hgroup : 3 * k / 3 = k := Nat.mul_div_cancel_left k (by norm_num)
  rw [groupWrites, hgroup, List.takeWhile_eq_self_iff]
  intro write hwrite
  obtain ⟨j, hj, rfl⟩ := List.mem_map.mp hwrite
  have hlt := List.mem_range.mp hj
  exact decide_eq_true (by dsimp only; omega)

/-- Groups of four cells are a run of cells. -/
theorem range_groups (c : ℕ) :
    ((List.range c).flatMap fun k => (List.range 4).map (k * 4 + ·)) = List.range (4 * c) := by
  induction c with
  | zero => rfl
  | succ c ih =>
      rw [List.range_succ (n := c), List.flatMap_append, ih, List.flatMap_singleton,
        show 4 * (c + 1) = 4 * c + 4 by ring, List.range_add, Nat.mul_comm c 4]

theorem base64Encode_writes {wide : Bool} {data : List UInt8} (hne : data ≠ [])
    (h : base64EncodedLen wide data.length = 4 * ((data.length + 2) / 3)) :
    (base64Encode wide (some data) true).2 =
      (List.range ((data.length + 2) / 3)).flatMap fun k =>
        (List.range 4).map fun j => (k * 4 + j, groupChar data (3 * k) j) := by
  have hlength : data.length ≠ 0 := by simpa using hne
  rw [base64Encode, if_neg hlength, h]
  change List.flatMap _ _ = _
  apply List.flatMap_congr
  intro k hk
  have hlt := List.mem_range.mp hk
  exact groupWrites_eq (by omega)

theorem encoded_eq {wide : Bool} {data : List UInt8} (hne : data ≠ [])
    (h : base64EncodedLen wide data.length = 4 * ((data.length + 2) / 3)) :
    encoded wide data = encodeText data := by
  rw [encoded, base64Encode_writes hne h, encodeText, List.map_flatMap]
  simp only [List.map_map, Function.comp_def]

theorem length_encodeText (data : List UInt8) :
    (encodeText data).length = 4 * ((data.length + 2) / 3) := by
  have hlength := length_sextets data
  rw [encodeText_eq, List.length_append, List.length_map, List.length_replicate]
  rw [padding] at *
  omega

/-- The last two characters show the padding. -/
theorem base64Padding_encodeText {data : List UInt8} (hne : data ≠ []) :
    base64Padding (encodeText data) = padding data.length := by
  have hdata := List.length_pos_of_ne_nil hne
  have hlength := length_sextets data
  have hdigit : ∀ d ∈ sextets data, lutChar d ≠ equals :=
    fun d hd => (lutChar_spec (sextets_lt data d hd)).2.2.1
  have hpadding : padding data.length = 0 ∨ padding data.length = 1 ∨ padding data.length = 2 := by
    rw [padding]
    omega
  rw [encodeText_eq]
  obtain hnil | ⟨front, b, hb⟩ := List.eq_nil_or_concat' (sextets data)
  · rw [hnil, List.length_nil] at hlength
    omega
  obtain rfl | ⟨w, a, rfl⟩ := List.eq_nil_or_concat' front
  · rw [hb] at hlength
    simp only [List.nil_append, List.length_singleton] at hlength
    omega
  rw [hb] at hdigit ⊢
  have ha := hdigit a (by simp)
  have hb := hdigit b (by simp)
  rcases hpadding with hpad | hpad | hpad <;> rw [hpad]
  · have htext : (w ++ [a] ++ [b]).map lutChar ++ List.replicate 0 equals =
        w.map lutChar ++ [lutChar a, lutChar b] := by simp
    rw [htext, base64Padding_append, if_neg hb, if_neg ha]
  · have htext : (w ++ [a] ++ [b]).map lutChar ++ List.replicate 1 equals =
        (w ++ [a]).map lutChar ++ [lutChar b, equals] := by simp
    rw [htext, base64Padding_append, if_pos rfl, if_neg hb]
  · have htext : (w ++ [a] ++ [b]).map lutChar ++ List.replicate 2 equals =
        (w ++ [a] ++ [b]).map lutChar ++ [equals, equals] := rfl
    rw [htext, base64Padding_append, if_pos rfl]

theorem zero_notMem_encodeText (data : List UInt8) : 0 ∉ encodeText data := by
  rw [encodeText_eq, List.mem_append, not_or]
  constructor
  · intro hmem
    obtain ⟨d, hd, hzero⟩ := List.mem_map.mp hmem
    exact (lutChar_spec (sextets_lt data d hd)).2.1 hzero
  · intro hmem
    exact absurd (List.eq_of_mem_replicate hmem) (by decide)

theorem isBase64_encodeText {data : List UInt8} (hne : data ≠ []) :
    isBase64 (some (encodeText data)) = true := by
  have hpos := length_encodeText data
  have hdata := List.length_pos_of_ne_nil hne
  have hchars : ∀ c ∈ encodeText data, base64Lut.contains c := by
    rw [encodeText_eq]
    intro c hc
    rcases List.mem_append.mp hc with hc | hc
    · obtain ⟨d, hd, rfl⟩ := List.mem_map.mp hc
      exact (lutChar_spec (sextets_lt data d hd)).1
    · rw [List.eq_of_mem_replicate hc]
      decide
  rw [isBase64, List.all_eq_true.mpr hchars, Bool.and_true, Bool.not_eq_true',
    List.isEmpty_eq_false_iff]
  exact List.ne_nil_of_length_pos (by omega)

theorem base64Encode_returned (wide : Bool) {data : List UInt8} (hne : data ≠ []) (output : Bool) :
    (base64Encode wide (some data) output).1 = base64EncodedLen wide data.length := by
  rw [base64Encode, if_neg (by simpa using hne)]
  cases output <;> rfl

/-- Three quarters of the text, less the padding. -/
theorem decoded_size (n : ℕ) :
    (3 * (4 * ((n + 2) / 3)) / 4 : ℕ) - (padding n : ℤ) = n := by
  rw [padding]
  omega

/-- The query of the text is the exact size when the tripled length fits. -/
theorem query_encodeText_iff {wide : Bool} {data : List UInt8} (hne : data ≠ [])
    (hfits : 4 * ((data.length + 2) / 3) < sizeMax wide) :
    base64OutputLen wide (encodeText data) = data.length ↔
      3 * (4 * ((data.length + 2) / 3)) ≤ sizeMax wide := by
  have htext := length_encodeText data
  have hsize := decoded_size data.length
  have hexact := base64OutputLen_exact_iff
    (show (encodeText data).length < sizeMax wide by omega)
  rw [htext, base64Padding_encodeText hne, hsize] at hexact
  constructor
  · intro h
    exact (hexact.mp (by exact_mod_cast h)).1
  · intro h
    exact_mod_cast hexact.mpr ⟨h, by omega⟩

theorem RoundTrips.product_fits {wide : Bool} {data : List UInt8} (hne : data ≠ [])
    (h : RoundTrips wide data) : 3 * (4 * ((data.length + 2) / 3)) ≤ sizeMax wide := by
  have hlen := (base64Encode_returned wide hne false).symm.trans h.queried
  have hquery := h.size
  have htext : encodeText data ≠ [] := by
    have hlength := length_encodeText data
    have hdata := List.length_pos_of_ne_nil hne
    exact List.ne_nil_of_length_pos (by omega)
  rw [encoded_eq hne hlen, base64Decode_query (zero_notMem_encodeText data) htext] at hquery
  refine (query_encodeText_iff hne ?_).mp hquery
  have hfits := sizeT_le wide (sizeT wide (data.length + 2) / 3 * 4 : ℕ)
  rw [← base64EncodedLen, hlen] at hfits
  have hodd : sizeMax wide % 4 = 3 := by cases wide <;> decide
  omega

theorem roundTrips_of_fits {wide : Bool} {data : List UInt8} (hne : data ≠ [])
    (h : 3 * (4 * ((data.length + 2) / 3)) ≤ sizeMax wide) : RoundTrips wide data := by
  have hlength := length_encodeText data
  have hdata := List.length_pos_of_ne_nil hne
  have htext : encodeText data ≠ [] := List.ne_nil_of_length_pos (by omega)
  have hzero := zero_notMem_encodeText data
  have hlen := base64EncodedLen_eq h
  have hstored := decodeLoop_encodeText data
  refine ⟨(base64Encode_returned wide hne false).trans hlen,
    (base64Encode_returned wide hne true).trans hlen, ?_, ?_, ?_, ?_⟩
  · rw [base64Encode_writes hne hlen, List.map_flatMap, ← range_groups]
    simp only [List.map_map, Function.comp_def]
  · rw [encoded_eq hne hlen, isBase64_encodeText hne]
  · rw [encoded_eq hne hlen, base64Decode, cString_eq hzero, if_neg (by simpa using htext)]
    simp [hstored]
  · rw [encoded_eq hne hlen, base64Decode_query hzero htext]
    exact (query_encodeText_iff hne (by omega)).mpr h

/-- The data come back exactly when the query of the text does not wrap. -/
theorem roundTrips_iff (wide : Bool) {data : List UInt8} (hne : data ≠ []) :
    RoundTrips wide data ↔ 3 * (4 * ((data.length + 2) / 3)) ≤ sizeMax wide :=
  ⟨RoundTrips.product_fits hne, roundTrips_of_fits hne⟩

theorem roundTrips_two : RoundTrips true [0, 255] :=
  (roundTrips_iff true (by decide)).mpr (by decide)

/-- A gibibyte of zeros, where sizes have 32 bits: the query of its text wraps. -/
theorem roundTrip_wraps : ¬∀ (wide : Bool) (data : List UInt8), data ≠ [] → RoundTrips wide data := by
  intro hclaim
  have hne : List.replicate (2 ^ 30) (0 : UInt8) ≠ [] := by
    rw [Ne, List.replicate_eq_nil_iff]
    norm_num
  have hfits := (hclaim false _ hne).product_fits hne
  rw [List.length_replicate] at hfits
  exact absurd hfits (by decide)

end Xhive.Base64
