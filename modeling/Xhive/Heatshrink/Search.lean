import Xhive.Heatshrink.Format
import Xhive.Support.Outcome
import Mathlib.Logic.Function.Basic

/-!
# The search for a match

The encoder looks for the bytes that come next among those before them, either
byte by byte or along an index that links the places of equal bytes.
-/

namespace Xhive.Heatshrink

open Xhive.Support

/-- A loop of the encoder that does not come to its end. -/
inductive Fault where
  | counterOverflow
  | endless
  deriving DecidableEq, Repr

/-- The conversion to `uint16_t`. -/
def uint16 (v : ℤ) : ℕ :=
  (v % 2 ^ 16).toNat

/-- The conversion to `int16_t`. -/
def int16 (v : ℤ) : ℤ :=
  v.bmod (2 ^ 16)

theorem uint16_natCast {v : ℕ} (h : v < 2 ^ 16) : uint16 v = v := by
  rw [uint16]
  omega

theorem uint16_sub {a b : ℕ} (hle : b ≤ a) (ha : a < 2 ^ 16) : uint16 ((a : ℤ) - b) = a - b := by
  rw [uint16]
  omega

theorem uint16_add {a b : ℕ} (h : a + b < 2 ^ 16) : uint16 ((a : ℤ) + b) = a + b := by
  rw [uint16]
  omega

theorem int16_of_bounds {v : ℤ} (hlow : -2 ^ 15 ≤ v) (hhigh : v < 2 ^ 15) : int16 v = v :=
  Int.bmod_eq_of_le (by omega) (by omega)

/-! ## The index -/

/-- `do_indexing` of the first `end_` bytes; its counter is an `int16_t`. -/
def doIndexing (data : ℕ → UInt8) (end_ : ℕ) (index : ℕ → ℤ) : Except Fault (ℕ → ℤ) := do
  let s ← forRange 0 end_ ((fun _ : UInt8 => (-1 : ℤ)), index) fun i s =>
    let v := data i
    let lv := s.1 v
    let next := (Function.update s.1 v (i : ℤ), Function.update s.2 i lv)
    if i + 1 < 2 ^ 15 then .ok next else .error .counterOverflow
  .ok s.2

/-- The last place of a byte among the first `n`, or -1. -/
def lastBefore (data : ℕ → UInt8) (v : UInt8) : ℕ → ℤ
  | 0 => -1
  | n + 1 => if data n = v then n else lastBefore data v n

/-- Every place among the first `end_` is linked to the one before it with the same byte. -/
def Indexed (data : ℕ → UInt8) (end_ : ℕ) (index : ℕ → ℤ) : Prop :=
  ∀ i < end_, index i = lastBefore data (data i) i

theorem lastBefore_lt (data : ℕ → UInt8) (v : UInt8) (n : ℕ) : lastBefore data v n < n := by
  induction n with
  | zero => exact neg_one_lt_zero
  | succ n ih =>
      rw [lastBefore]
      split_ifs <;> omega

/-- The index is complete unless the counter cannot pass the last place. -/
theorem doIndexing_spec (data : ℕ → UInt8) (end_ : ℕ) (index : ℕ → ℤ) :
    Ensures (doIndexing data end_ index) (fun index' => end_ < 2 ^ 15 ∧ Indexed data end_ index')
      (fun e => e = .counterOverflow ∧ 2 ^ 15 ≤ end_) := by
  rw [doIndexing]
  refine Ensures.seq (Ensures.forRange (fun k (s : (UInt8 → ℤ) × (ℕ → ℤ)) =>
    k < 2 ^ 15 ∧ (∀ v, s.1 v = lastBefore data v k) ∧ Indexed data k s.2)
    (Nat.zero_le end_) ⟨by decide, fun _ => rfl, fun i hi => absurd hi (Nat.not_lt_zero i)⟩ ?_)
    fun s hs => ⟨hs.1, hs.2.2⟩
  rintro k ⟨last, links⟩ - hk ⟨-, hlast, hlinks⟩
  dsimp only at hlast hlinks ⊢
  refine Ensures.ite (fun hfits => ⟨hfits, fun v => ?_, fun i hi => ?_⟩)
    fun hover => ⟨rfl, by omega⟩
  · rw [lastBefore]
    dsimp only
    split_ifs with hv
    · rw [← hv, Function.update_self]
    · rw [Function.update_of_ne (Ne.symm hv), hlast]
  · dsimp only
    rcases Nat.lt_succ_iff_lt_or_eq.mp hi with hlt | rfl
    · rw [Function.update_of_ne hlt.ne, hlinks i hlt]
    · rw [Function.update_self, hlast]

theorem doIndexing_overflows (data : ℕ → UInt8) {n : ℕ} (hn : 2 ^ 15 ≤ n) (index : ℕ → ℤ) :
    doIndexing data n index = .error .counterOverflow := by
  have hspec := doIndexing_spec data n index
  cases hrun : doIndexing data n index with
  | ok index' => exact absurd (hspec.of_eq_ok hrun).1 (not_lt.mpr hn)
  | error e => rw [(hspec.of_eq_error hrun).1]

/-! ## Candidates -/

/-- The comparison of further bytes, of which `count` are left. -/
def compareFrom (buf : ℕ → UInt8) (pos end_ : ℕ) : ℕ → ℕ → ℕ
  | 0, len => len
  | count + 1, len =>
      if buf (pos + len) ≠ buf (end_ + len) then len
      else compareFrom buf pos end_ count (len + 1)

/-- The longest match so far, `match_maxlen` and `match_index`. -/
structure Best where
  maxlen : ℕ
  index : ℕ
  deriving DecidableEq, Repr

/-- `MATCH_NOT_FOUND`. -/
def matchNotFound : ℕ := 2 ^ 16 - 1

/-- The search without the index, over `count` places from the last one down. -/
def scanPlain (buf : ℕ → UInt8) (start end_ maxlen : ℕ) : ℕ → Best → Best
  | 0, best => best
  | count + 1, best =>
      let pos := start + count
      if buf (pos + best.maxlen) = buf (end_ + best.maxlen) ∧ buf pos = buf end_ then
        let len := compareFrom buf pos end_ (maxlen - 1) 1
        if len > best.maxlen then
          if len = maxlen then ⟨len, pos⟩ else scanPlain buf start end_ maxlen count ⟨len, pos⟩
        else scanPlain buf start end_ maxlen count best
      else scanPlain buf start end_ maxlen count best

/-- The search along the index. -/
def scanIndex (buf : ℕ → UInt8) (index : ℕ → ℤ) (start end_ maxlen : ℕ) :
    ℕ → ℤ → Best → Except Fault Best
  | 0, _, _ => .error .endless
  | fuel + 1, pos, best =>
      if pos - int16 start ≥ 0 then
        if buf (pos.toNat + best.maxlen) ≠ buf (end_ + best.maxlen) then
          scanIndex buf index start end_ maxlen fuel (index pos.toNat) best
        else
          let len := compareFrom buf pos.toNat end_ (maxlen - 1) 1
          if len > best.maxlen then
            if len = maxlen then .ok ⟨len, uint16 pos⟩
            else scanIndex buf index start end_ maxlen fuel (index pos.toNat) ⟨len, uint16 pos⟩
          else scanIndex buf index start end_ maxlen fuel (index pos.toNat) best
      else .ok best

/-- `find_longest_match`; the result is the distance and `*match_length`.  A chain
of the index gets lower with every link, so the links do not run out. -/
def findLongestMatch (config : Config) (indexed : Bool) (buf : ℕ → UInt8) (index : ℕ → ℤ)
    (start end_ maxlen : ℕ) : Except Fault (ℕ × ℕ) := do
  let best ← if indexed then
      scanIndex buf index start end_ maxlen (2 ^ 16) (index end_) ⟨0, matchNotFound⟩
    else
      .ok (scanPlain buf start end_ maxlen
        (int16 ((end_ : ℤ) - 1) - int16 start + 1).toNat ⟨0, matchNotFound⟩)
  let breakEvenPoint := 1 + config.windowBits + config.lookaheadBits
  .ok (if best.maxlen > breakEvenPoint / 8 then
      (uint16 ((end_ : ℤ) - best.index), best.maxlen)
    else (matchNotFound, 0))

/-! ## What is found -/

/-- The bytes from `end_` on are those from `pos` on, `len` of them. -/
def Agrees (buf : ℕ → UInt8) (pos end_ len : ℕ) : Prop :=
  ∀ j < len, buf (pos + j) = buf (end_ + j)

/-- A place before `end_` where the next `len` bytes are found. -/
structure IsMatch (buf : ℕ → UInt8) (start end_ maxlen len pos : ℕ) : Prop where
  start_le : start ≤ pos
  lt_end : pos < end_
  pos_len : 0 < len
  len_le : len ≤ maxlen
  agrees : Agrees buf pos end_ len

/-- The comparison stops at the first difference. -/
theorem compareFrom_spec {buf : ℕ → UInt8} {pos end_ : ℕ} (count : ℕ) {len : ℕ}
    (h : Agrees buf pos end_ len) :
    let n := compareFrom buf pos end_ count len
    len ≤ n ∧ n ≤ len + count ∧ Agrees buf pos end_ n ∧
      (n < len + count → buf (pos + n) ≠ buf (end_ + n)) := by
  induction count generalizing len with
  | zero => exact ⟨le_rfl, le_rfl, h, fun hlt => absurd hlt (lt_irrefl _)⟩
  | succ count ih =>
      rw [compareFrom]
      split_ifs with hne
      · exact ⟨le_rfl, Nat.le_add_right _ _, h, fun _ => hne⟩
      · have hnext : Agrees buf pos end_ (len + 1) := by
          intro j hj
          rcases Nat.lt_succ_iff_lt_or_eq.mp hj with hlt | rfl
          · exact h j hlt
          · exact not_not.mp hne
        obtain ⟨hle, hle', hagrees, hstop⟩ := ih hnext
        exact ⟨(Nat.le_succ len).trans hle, by omega, hagrees, fun hlt => hstop (by omega)⟩

/-- The longest match at a place whose first byte agrees. -/
theorem isMatch_compareFrom {buf : ℕ → UInt8} {start end_ maxlen pos : ℕ} (hstart : start ≤ pos)
    (hend : pos < end_) (hmaxlen : 0 < maxlen) (hfirst : buf pos = buf end_) :
    IsMatch buf start end_ maxlen (compareFrom buf pos end_ (maxlen - 1) 1) pos ∧
      ∀ len, IsMatch buf start end_ maxlen len pos →
        len ≤ compareFrom buf pos end_ (maxlen - 1) 1 := by
  have hagrees : Agrees buf pos end_ 1 := by
    intro j hj
    rw [Nat.lt_one_iff.mp hj]
    exact hfirst
  obtain ⟨hone, hle, hmatch, hstop⟩ := compareFrom_spec (maxlen - 1) hagrees
  refine ⟨⟨hstart, hend, hone, by omega, hmatch⟩, fun len hlen => ?_⟩
  by_contra hlt
  have hlonger := hlen.len_le
  exact hstop (by omega) (hlen.agrees _ (not_le.mp hlt))

/-- No match from `lo` on is longer than the best one, and none as long is nearer. -/
structure BestAbove (buf : ℕ → UInt8) (lo end_ maxlen : ℕ) (best : Best) : Prop where
  isMatch : best.maxlen ≠ 0 → IsMatch buf lo end_ maxlen best.maxlen best.index
  longest : ∀ len pos, IsMatch buf lo end_ maxlen len pos → len ≤ best.maxlen
  nearest : ∀ pos, IsMatch buf lo end_ maxlen best.maxlen pos → pos ≤ best.index

section Scan

variable {buf : ℕ → UInt8} {start end_ maxlen pos len : ℕ} {best : Best}

theorem IsMatch.lower {p : ℕ} (h : IsMatch buf pos end_ maxlen len p) (hle : start ≤ pos) :
    IsMatch buf start end_ maxlen len p :=
  ⟨hle.trans h.start_le, h.lt_end, h.pos_len, h.len_le, h.agrees⟩

/-- Before the first place there is no match. -/
theorem bestAbove_end (index : ℕ) : BestAbove buf end_ end_ maxlen ⟨0, index⟩ where
  isMatch h := absurd rfl h
  longest _ _ h := absurd (h.start_le.trans_lt h.lt_end) (lt_irrefl _)
  nearest _ h := absurd (h.start_le.trans_lt h.lt_end) (lt_irrefl _)

/-- A place where no longer match begins. -/
theorem BestAbove.skip (h : BestAbove buf (pos + 1) end_ maxlen best)
    (hshort : ∀ len, IsMatch buf pos end_ maxlen len pos → len ≤ best.maxlen) :
    BestAbove buf pos end_ maxlen best where
  isMatch hne := (h.isMatch hne).lower (Nat.le_succ pos)
  longest len p hp := by
    rcases hp.start_le.eq_or_lt with rfl | hlt
    · exact hshort len hp
    · exact h.longest len p ⟨hlt, hp.lt_end, hp.pos_len, hp.len_le, hp.agrees⟩
  nearest p hp := by
    rcases hp.start_le.eq_or_lt with rfl | hlt
    · exact (Nat.le_succ _).trans (h.isMatch hp.pos_len.ne').start_le
    · exact h.nearest p ⟨hlt, hp.lt_end, hp.pos_len, hp.len_le, hp.agrees⟩

/-- A place where a longer match begins. -/
theorem BestAbove.improve (h : BestAbove buf (pos + 1) end_ maxlen best)
    (hmatch : IsMatch buf pos end_ maxlen len pos) (hlonger : best.maxlen < len)
    (hlongest : ∀ len', IsMatch buf pos end_ maxlen len' pos → len' ≤ len) :
    BestAbove buf pos end_ maxlen ⟨len, pos⟩ where
  isMatch _ := hmatch
  longest len' p hp := by
    rcases hp.start_le.eq_or_lt with rfl | hlt
    · exact hlongest len' hp
    · exact (h.longest len' p ⟨hlt, hp.lt_end, hp.pos_len, hp.len_le, hp.agrees⟩).trans
        hlonger.le
  nearest p hp := by
    by_contra hlt
    have hle := h.longest len p ⟨not_le.mp hlt, hp.lt_end, hp.pos_len, hp.len_le, hp.agrees⟩
    exact absurd hle (not_le.mpr hlonger)

/-- A match that cannot be longer ends the search. -/
theorem BestAbove.full (h : BestAbove buf pos end_ maxlen ⟨maxlen, pos⟩) (hle : start ≤ pos)
    (hmaxlen : 0 < maxlen) : BestAbove buf start end_ maxlen ⟨maxlen, pos⟩ where
  isMatch _ := (h.isMatch hmaxlen.ne').lower hle
  longest _ _ hp := hp.len_le
  nearest p hp := by
    by_contra hlt
    exact hlt (h.nearest p ⟨(not_le.mp hlt).le, hp.lt_end, hp.pos_len, hp.len_le, hp.agrees⟩)

/-- By induction on the places left. -/
theorem scanPlain_best (hmaxlen : 0 < maxlen) (count : ℕ) (hle : start + count ≤ end_)
    (hbest : BestAbove buf (start + count) end_ maxlen best) (hshort : best.maxlen < maxlen) :
    BestAbove buf start end_ maxlen (scanPlain buf start end_ maxlen count best) := by
  induction count generalizing best with
  | zero => exact hbest
  | succ count ih =>
      have hend : start + count < end_ := hle
      have hstart : start ≤ start + count := Nat.le_add_right _ _
      rw [scanPlain]
      dsimp only
      by_cases htest : buf (start + count + best.maxlen) = buf (end_ + best.maxlen) ∧
          buf (start + count) = buf end_
      · obtain ⟨hmatch, hlongest⟩ :=
          isMatch_compareFrom (le_refl (start + count)) hend hmaxlen htest.2
        rw [if_pos htest]
        by_cases hlonger :
            compareFrom buf (start + count) end_ (maxlen - 1) 1 > best.maxlen
        · have hnext := BestAbove.improve hbest hmatch hlonger hlongest
          rw [if_pos hlonger]
          by_cases hfull : compareFrom buf (start + count) end_ (maxlen - 1) 1 = maxlen
          · rw [if_pos hfull]
            rw [hfull] at hnext ⊢
            exact hnext.full hstart hmaxlen
          · rw [if_neg hfull]
            exact ih hend.le hnext (lt_of_le_of_ne hmatch.len_le hfull)
        · rw [if_neg hlonger]
          exact ih hend.le
            (BestAbove.skip hbest fun len h => (hlongest len h).trans (not_lt.mp hlonger)) hshort
      · rw [if_neg htest]
        refine ih hend.le (BestAbove.skip hbest fun len h => ?_) hshort
        by_contra hlt
        exact htest ⟨h.agrees _ (not_le.mp hlt), h.agrees 0 h.pos_len⟩

/-- Along the index the search meets the places that the other one does not pass over. -/
theorem scanIndex_eq {index : ℕ → ℤ} {n : ℕ} (hindex : Indexed buf n index) (hn : end_ < n)
    (hsmall : n ≤ 2 ^ 15) (count : ℕ) (hle : start + count ≤ end_) {fuel : ℕ}
    (hfuel : count < fuel) :
    scanIndex buf index start end_ maxlen fuel (lastBefore buf (buf end_) (start + count)) best =
      .ok (scanPlain buf start end_ maxlen count best) := by
  have hstart : int16 start = start := int16_of_bounds (by omega) (by omega)
  induction count generalizing best fuel with
  | zero =>
      obtain ⟨fuel, rfl⟩ := Nat.exists_eq_succ_of_ne_zero hfuel.ne'
      have hlt := lastBefore_lt buf (buf end_) start
      rw [scanIndex, Nat.add_zero, hstart, if_neg (by omega), scanPlain]
  | succ count ih =>
      have hend : start + count < end_ := hle
      obtain ⟨fuel, rfl⟩ := Nat.exists_eq_succ_of_ne_zero (Nat.zero_lt_of_lt hfuel).ne'
      rw [← Nat.add_assoc, lastBefore, scanPlain]
      dsimp only
      by_cases hfirst : buf (start + count) = buf end_
      · have hlink : index (start + count) = lastBefore buf (buf end_) (start + count) := by
          rw [hindex _ (hend.trans hn), hfirst]
        have hcast : uint16 ((start + count : ℕ) : ℤ) = start + count :=
          uint16_natCast (by omega)
        rw [if_pos hfirst, scanIndex, hstart, if_pos (by omega), Int.toNat_natCast, hlink, hcast]
        by_cases htest : buf (start + count + best.maxlen) = buf (end_ + best.maxlen)
        · have hboth := And.intro htest hfirst
          rw [if_neg (not_not.mpr htest), if_pos hboth]
          dsimp only
          split_ifs
          · rfl
          · exact ih hend.le (Nat.lt_of_succ_lt_succ hfuel)
          · exact ih hend.le (Nat.lt_of_succ_lt_succ hfuel)
        · rw [if_pos htest, if_neg fun h => htest h.1]
          exact ih hend.le (Nat.lt_of_succ_lt_succ hfuel)
      · rw [if_neg hfirst, if_neg fun h => hfirst h.2]
        exact ih hend.le ((Nat.lt_succ_self count).trans hfuel)

end Scan

/-! ## The result -/

section Result

variable {config : Config} {indexed : Bool} {buf : ℕ → UInt8} {index : ℕ → ℤ}
  {start end_ maxlen n : ℕ}

/-- What the encoder goes by: the longest match, the nearest of that length, or that
none pays for its fields. -/
def Found (config : Config) (buf : ℕ → UInt8) (start end_ maxlen : ℕ) (r : ℕ × ℕ) : Prop :=
  (r = (matchNotFound, 0) ∧ ∀ len pos, IsMatch buf start end_ maxlen len pos →
      len ≤ (1 + config.windowBits + config.lookaheadBits) / 8) ∨
    ∃ pos, IsMatch buf start end_ maxlen r.2 pos ∧ r.1 = end_ - pos ∧
      (1 + config.windowBits + config.lookaheadBits) / 8 < r.2 ∧
      ∀ len p, IsMatch buf start end_ maxlen len p → len ≤ r.2 ∧ (len = r.2 → p ≤ pos)

/-- The distance and the length of a match, or no match. -/
def Sound (buf : ℕ → UInt8) (start end_ maxlen : ℕ) (r : ℕ × ℕ) : Prop :=
  r = (matchNotFound, 0) ∨
    ∃ pos, IsMatch buf start end_ maxlen r.2 pos ∧ r.1 = end_ - pos

theorem Found.sound {r : ℕ × ℕ} (h : Found config buf start end_ maxlen r) :
    Sound buf start end_ maxlen r := by
  rcases h with ⟨hnone, -⟩ | ⟨pos, hmatch, hdistance, -⟩
  · exact Or.inl hnone
  · exact Or.inr ⟨pos, hmatch, hdistance⟩

/-- The result from the best match. -/
theorem found_of_best {best : Best} (hend : end_ < 2 ^ 16)
    (h : BestAbove buf start end_ maxlen best) :
    Found config buf start end_ maxlen
      (if best.maxlen > (1 + config.windowBits + config.lookaheadBits) / 8 then
        (uint16 ((end_ : ℤ) - best.index), best.maxlen)
      else (matchNotFound, 0)) := by
  split_ifs with hpays
  · have hmatch := h.isMatch (Nat.zero_lt_of_lt hpays).ne'
    refine Or.inr ⟨best.index, hmatch, uint16_sub hmatch.lt_end.le hend, hpays,
      fun len p hp => ⟨h.longest len p hp, fun heq => ?_⟩⟩
    rw [heq] at hp
    exact h.nearest p hp
  · exact Or.inl ⟨rfl, fun len pos hp => (h.longest len pos hp).trans (not_lt.mp hpays)⟩

variable (config) (start) in
/-- Both searches find the longest match and the nearest of them, if the places fit
in sixteen bits with a sign. -/
theorem findLongestMatch_found
    (hindex : indexed = true → Indexed buf n index ∧ end_ < n ∧ n ≤ 2 ^ 15)
    (hend : end_ ≤ 2 ^ 15) (hstart : start ≤ end_) (hsmall : start < 2 ^ 15)
    (hmaxlen : 0 < maxlen) :
    ∃ r, findLongestMatch config indexed buf index start end_ maxlen = .ok r ∧
      Found config buf start end_ maxlen r := by
  have hcast : int16 start = start := int16_of_bounds (by omega) (by omega)
  obtain ⟨count, rfl⟩ := Nat.exists_eq_add_of_le hstart
  have hcount : (int16 (((start + count : ℕ) : ℤ) - 1) - int16 start + 1).toNat = count := by
    rw [int16_of_bounds (by omega) (by omega), hcast]
    omega
  have hbest : BestAbove buf start (start + count) maxlen
      (scanPlain buf start (start + count) maxlen count ⟨0, matchNotFound⟩) :=
    scanPlain_best hmaxlen count le_rfl (bestAbove_end matchNotFound) hmaxlen
  refine ⟨_, ?_, found_of_best (hend.trans_lt (by decide)) hbest⟩
  cases indexed with
  | true =>
      obtain ⟨hlinks, hlt, hn⟩ := hindex rfl
      rw [findLongestMatch, if_pos rfl, hlinks _ hlt,
        scanIndex_eq hlinks hlt hn count le_rfl (by omega)]
      rfl
  | false =>
      rw [findLongestMatch, if_neg Bool.false_ne_true, hcount]
      rfl

variable (config) in
/-- The search without the index is sound for every place; past the sixteen bits it
looks at none. -/
theorem findLongestMatch_sound (hend : end_ < 2 ^ 16) (hstart : start ≤ end_)
    (hsmall : start < 2 ^ 15) (hmaxlen : 0 < maxlen) :
    ∃ r, findLongestMatch config false buf index start end_ maxlen = .ok r ∧
      Sound buf start end_ maxlen r := by
  by_cases hfits : end_ ≤ 2 ^ 15
  · have hindex : false = true → Indexed buf 0 index ∧ end_ < 0 ∧ 0 ≤ 2 ^ 15 :=
      fun h => absurd h Bool.false_ne_true
    obtain ⟨r, hr, hfound⟩ :=
      findLongestMatch_found config start hindex hfits hstart hsmall hmaxlen
    exact ⟨r, hr, hfound.sound⟩
  · have hcount : (int16 ((end_ : ℤ) - 1) - int16 start + 1).toNat = 0 := by
      have hwrap : int16 ((end_ : ℤ) - 1) = (end_ : ℤ) - 1 - 2 ^ 16 := by
        rw [int16, Int.bmod_def]
        omega
      rw [hwrap, int16_of_bounds (by omega) (by omega)]
      omega
    refine ⟨(matchNotFound, 0), ?_, Or.inl rfl⟩
    rw [findLongestMatch, hcount]
    rfl

theorem Found.unique {r r' : ℕ × ℕ} (h : Found config buf start end_ maxlen r)
    (h' : Found config buf start end_ maxlen r') : r = r' := by
  rcases h with ⟨hr, hnone⟩ | ⟨pos, hmatch, hdistance, hpays, hbest⟩ <;>
    rcases h' with ⟨hr', hnone'⟩ | ⟨pos', hmatch', hdistance', hpays', hbest'⟩
  · rw [hr, hr']
  · exact absurd (hnone _ _ hmatch') (not_le.mpr hpays')
  · exact absurd (hnone' _ _ hmatch) (not_le.mpr hpays)
  · have hlen := Nat.le_antisymm (hbest' _ _ hmatch).1 (hbest _ _ hmatch').1
    have hpos := Nat.le_antisymm ((hbest' _ _ hmatch).2 hlen) ((hbest _ _ hmatch').2 hlen.symm)
    exact Prod.ext (by rw [hdistance, hdistance', hpos]) hlen

end Result

/-- If the counter passes all places, the search along the index is the search without
it, and finds the longest match and the nearest of them. -/
theorem indexed_search_greedy (config : Config) (data : ℕ → UInt8) (n : ℕ) (index : ℕ → ℤ) :
    Ensures (doIndexing data n index)
      (fun index' => n < 2 ^ 15 ∧ ∀ start end_ maxlen, start ≤ end_ → end_ < n → 0 < maxlen →
        ∃ r, (∀ indexed, findLongestMatch config indexed data index' start end_ maxlen = .ok r) ∧
          Found config data start end_ maxlen r)
      (fun e => e = .counterOverflow ∧ 2 ^ 15 ≤ n) := by
  refine (doIndexing_spec data n index).imp fun index' hspec => ⟨hspec.1, ?_⟩
  intro start end_ maxlen hstart hend hmaxlen
  have hsearch : ∀ indexed, ∃ r,
      findLongestMatch config indexed data index' start end_ maxlen = .ok r ∧
        Found config data start end_ maxlen r := by
    intro indexed
    have hn := hspec.1
    exact findLongestMatch_found config start (n := n) (fun _ => ⟨hspec.2, hend, hn.le⟩)
      (by omega) hstart (by omega) hmaxlen
  obtain ⟨r, -, hfound⟩ := hsearch true
  refine ⟨r, fun indexed => ?_, hfound⟩
  obtain ⟨r', hr', hfound'⟩ := hsearch indexed
  rw [hr', hfound'.unique hfound]

end Xhive.Heatshrink
