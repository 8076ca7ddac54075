import Xhive.Base64.RoundTrip

/-!
# Binary strings of the curve module

`push_binary_string` hands a byte string to Lua as it is or as base64 text, and
`load_binary_data` takes one back, telling the two apart by the characters
alone.  The allocator is a parameter.
-/

namespace Xhive.Base64

open Xhive.Support Xhive.Linears

/-- A zeroed buffer after the writes of an encoder. -/
def bufferAfter (size : ℕ) (writes : List (ℕ × UInt8)) : List UInt8 :=
  writes.foldl (fun buffer write => buffer.set write.1 write.2) (List.replicate size 0)

/-- The string pushed; without an encoding or a buffer it is the data. -/
def pushBinaryString (wide : Bool) (calloc : ℕ → Bool) (data : List UInt8) (useBase64 : Bool) :
    List UInt8 :=
  if useBase64 then
    let encodedLen := (base64Encode wide (some data) false).1
    if encodedLen = 0 then data
    else if calloc (sizeT wide (encodedLen + 1)) then
      let call := base64Encode wide (some data) true
      (bufferAfter (sizeT wide (encodedLen + 1)) call.2).take call.1
    else data
  else data

/-- What a load leaves: nothing, the bytes of its buffer, or bytes past it. -/
inductive Loaded where
  | rejected
  | data (bytes : List UInt8)
  | overrun
  deriving DecidableEq

def loadBinaryData (wide : Bool) (malloc : ℕ → Bool) (str : Option (List UInt8)) : Loaded :=
  match str with
  | none => .rejected
  | some chars =>
      if isBase64 (some chars) ∧ chars.length > 0 then
        let decodedSize := (base64Decode wide (some chars) false).1
        if decodedSize > 0 then
          if malloc decodedSize then
            let bytes := (base64Decode wide (some chars) true).2
            if bytes.length ≤ decodedSize then .data bytes else .overrun
          else .rejected
        else .rejected
      else if malloc chars.length then .data chars
      else .rejected

/-! ## Encoded strings -/

/-- Writing the cells of a buffer in order fills its front. -/
theorem bufferAfter_eq {size : ℕ} {writes : List (ℕ × UInt8)}
    (h : writes.map Prod.fst = List.range writes.length) (hsize : writes.length ≤ size) :
    bufferAfter size writes =
      writes.map Prod.snd ++ List.replicate (size - writes.length) 0 := by
  induction writes using List.reverseRecOn with
  | nil => rfl
  | append_singleton writes write ih =>
      rw [List.length_append, List.length_singleton] at h hsize ⊢
      rw [List.map_append, List.map_singleton, List.range_succ] at h
      obtain ⟨hbefore, hindex⟩ := List.append_inj' h rfl
      have hwrite : write.1 = (writes.map Prod.snd).length := by
        rw [List.length_map]
        exact List.head_eq_of_cons_eq hindex
      have hroom : size - writes.length = size - (writes.length + 1) + 1 := by omega
      rw [bufferAfter, List.foldl_append, ← bufferAfter, ih hbefore (by omega), hroom,
        List.replicate_succ, List.map_append, List.map_singleton]
      simp [hwrite]

theorem take_bufferAfter {size n : ℕ} {writes : List (ℕ × UInt8)}
    (h : writes.map Prod.fst = List.range n) (hsize : n ≤ size) :
    (bufferAfter size writes).take n = writes.map Prod.snd := by
  have hlength : writes.length = n := by
    have := congrArg List.length h
    rwa [List.length_map, List.length_range] at this
  subst hlength
  rw [bufferAfter_eq h hsize, List.take_left' (List.length_map _)]

/-- The string pushed with an encoding is the text. -/
theorem push_encoded {wide : Bool} {calloc : ℕ → Bool} {data : List UInt8} (hne : data ≠ [])
    (hfits : 3 * (4 * ((data.length + 2) / 3)) ≤ sizeMax wide)
    (hcalloc : calloc (4 * ((data.length + 2) / 3) + 1) = true) :
    pushBinaryString wide calloc data true = encoded wide data := by
  have htrip := roundTrips_of_fits hne hfits
  have hdata := List.length_pos_of_ne_nil hne
  have hroom : sizeT wide (4 * ((data.length + 2) / 3) + 1 : ℕ) =
      4 * ((data.length + 2) / 3) + 1 := sizeT_of_le wide (by omega)
  rw [Nat.cast_add, Nat.cast_one] at hroom
  rw [pushBinaryString, if_pos rfl, htrip.queried]
  dsimp only
  rw [if_neg (by omega), hroom, if_pos hcalloc, htrip.returned,
    take_bufferAfter htrip.written (Nat.le_succ _), encoded]

/-- The text of the data is loaded as the data. -/
theorem load_encoded {wide : Bool} {malloc : ℕ → Bool} {data : List UInt8} (hne : data ≠ [])
    (hfits : 3 * (4 * ((data.length + 2) / 3)) ≤ sizeMax wide)
    (hmalloc : malloc data.length = true) :
    loadBinaryData wide malloc (some (encoded wide data)) = .data data := by
  have htrip := roundTrips_of_fits hne hfits
  have hdata := List.length_pos_of_ne_nil hne
  have hpos : (encoded wide data).length > 0 := by
    have haccepted := htrip.accepted
    rw [isBase64, Bool.and_eq_true, Bool.not_eq_true', List.isEmpty_eq_false_iff] at haccepted
    exact List.length_pos_of_ne_nil haccepted.1
  rw [loadBinaryData, if_pos ⟨htrip.accepted, hpos⟩, htrip.size, htrip.decoded]
  dsimp only
  rw [if_pos hdata, if_pos hmalloc, if_pos le_rfl]

/-! ## Raw strings -/

/-- A decoded string is shorter than its characters. -/
theorem stored_lt (wide : Bool) {chars : List UInt8} (hne : chars ≠ []) :
    (base64Decode wide (some chars) true).2.length < chars.length := by
  have hpos := List.length_pos_of_ne_nil hne
  have hstored := length_decodeLoop (cString chars)
  have hread := (decodable_sublist (cString chars)).length_le
  have hstring : (cString chars).length ≤ chars.length := (List.takeWhile_sublist _).length_le
  rw [base64Decode]
  split
  · exact hpos
  · change (decodeLoop (cString chars) ⟨0, 0, []⟩).out.length < _
    omega

/-- A string that passes the test is not loaded as itself. -/
theorem load_accepted_ne {wide : Bool} {malloc : ℕ → Bool} {chars : List UInt8}
    (h : isBase64 (some chars) = true) :
    loadBinaryData wide malloc (some chars) ≠ .data chars := by
  have hne : chars ≠ [] := by
    rintro rfl
    exact absurd h (by decide)
  have hshort := stored_lt wide hne
  rw [loadBinaryData, if_pos ⟨h, List.length_pos_of_ne_nil hne⟩]
  dsimp only
  split_ifs
  · intro heq
    rw [Loaded.data.inj heq] at hshort
    exact lt_irrefl _ hshort
  all_goals exact nofun

theorem load_rejected {wide : Bool} {malloc : ℕ → Bool} {chars : List UInt8}
    (h : isBase64 (some chars) = false) (hmalloc : malloc chars.length = true) :
    loadBinaryData wide malloc (some chars) = .data chars := by
  rw [loadBinaryData, if_neg (by simp [h]), if_pos hmalloc]

/-- The encoded mode gives the data back; the raw mode does so exactly when the
data fail the character test. -/
theorem load_push (wide : Bool) (calloc malloc : ℕ → Bool) {data : List UInt8} (hne : data ≠ [])
    (hcalloc : calloc (4 * ((data.length + 2) / 3) + 1) = true)
    (hmalloc : malloc data.length = true) :
    (3 * (4 * ((data.length + 2) / 3)) ≤ sizeMax wide →
      loadBinaryData wide malloc (some (pushBinaryString wide calloc data true)) = .data data) ∧
    (loadBinaryData wide malloc (some (pushBinaryString wide calloc data false)) = .data data ↔
      isBase64 (some data) = false) := by
  constructor
  · intro hfits
    rw [push_encoded hne hfits hcalloc, load_encoded hne hfits hmalloc]
  · rw [pushBinaryString, if_neg (by decide)]
    constructor
    · intro hload
      by_contra haccepted
      exact load_accepted_ne (Bool.of_not_eq_false haccepted) hload
    · exact fun hrejected => load_rejected hrejected hmalloc

theorem load_push_three :
    loadBinaryData true (fun _ => true)
        (some (pushBinaryString true (fun _ => true) [1, 2, 3] true)) = .data [1, 2, 3] ∧
      loadBinaryData true (fun _ => true)
        (some (pushBinaryString true (fun _ => true) [1, 2, 3] false)) = .data [1, 2, 3] := by
  have h := load_push true (fun _ => true) (fun _ => true) (show [(1 : UInt8), 2, 3] ≠ [] by decide)
    rfl rfl
  exact ⟨h.1 (by decide), h.2.mpr (by decide)⟩

/-- The raw bytes of `ABCD` are loaded as three others. -/
theorem load_push_reinterpreted :
    loadBinaryData true (fun _ => true)
        (some (pushBinaryString true (fun _ => true) [65, 66, 67, 68] false)) =
      .data [0, 16, 131] ∧
    ¬∀ (wide : Bool) (data : List UInt8) (useBase64 : Bool), data ≠ [] →
      loadBinaryData wide (fun _ => true)
        (some (pushBinaryString wide (fun _ => true) data useBase64)) = .data data := by
  have hload : loadBinaryData true (fun _ => true)
      (some (pushBinaryString true (fun _ => true) [65, 66, 67, 68] false)) =
        .data [0, 16, 131] := by
    decide +kernel
  refine ⟨hload, fun hclaim => ?_⟩
  have hsame := hclaim true [65, 66, 67, 68] false (by decide)
  rw [hload] at hsame
  exact absurd hsame (by decide)

end Xhive.Base64
