import Xhive.Filters.Smoothing

/-!
# The frequency-designed filters

Low-pass, high-pass and band-pass sections in direct form I.  The rounded
coefficients that the floating-point side of a design delivers, or the error it
ends with, are inputs here; the integer part of each design derives the
numerator from them.
-/

namespace Xhive.Filters

open Xhive.Support Xhive.Linears

variable {Q : Type} [FilterFormat Q]

/-- Coefficients and direct-form-I history of one section. -/
structure IirSection where
  b0 : Int64
  b1 : Int64
  b2 : Int64
  a1 : Int64
  a2 : Int64
  x1 : Int64
  x2 : Int64
  y1 : Int64
  y2 : Int64
  deriving DecidableEq, Repr

/-! ## Designs -/

/-- The outcome of the prewarped design of a denominator: an error, or the
rounded `a1` and second-order `a2`. -/
abbrev Tuning := Except Status (Int64 × Int64)

/-- An order-one denominator has no second coefficient. -/
def butterworth (order : ℕ) (tuning : Tuning) (s : IirSection) : Except Status IirSection := do
  if order ≠ 1 ∧ order ≠ 2 then throw .errorDomain
  let a ← tuning
  if order = 1 then .ok { s with a1 := a.1, a2 := 0 }
  else .ok { s with a1 := a.1, a2 := a.2 }

/-- The low-pass numerator: its taps sum to `1 + a1 + a2`. -/
def lowpassNumerator (order : ℕ) (s : IirSection) : IirSection :=
  let sum := fixedOne + s.a1 + s.a2
  if order = 1 then
    let b0 := sum / 2
    { s with b0, b1 := sum - b0, b2 := 0 }
  else
    let b0 := (sum + 2) / 4
    { s with b0, b1 := sum - 2 * b0, b2 := b0 }

/-- The high-pass numerator: its taps cancel. -/
def highpassNumerator (order : ℕ) (s : IirSection) : IirSection :=
  let sum := fixedOne - s.a1 + s.a2
  if order = 1 then
    let b0 := (sum + 1) / 2
    { s with b0, b1 := -b0, b2 := 0 }
  else
    let b0 := (sum + 2) / 4
    { s with b0, b1 := -2 * b0, b2 := b0 }

def lowpassDesign (order : ℕ) (tuning : Tuning) (s : IirSection) : Except Status IirSection := do
  let s ← butterworth order tuning s
  .ok (lowpassNumerator order s)

def highpassDesign (order : ℕ) (tuning : Tuning) (s : IirSection) :
    Except Status IirSection := do
  let s ← butterworth order tuning s
  .ok (highpassNumerator order s)

/-- The outcome of the three `quantize` calls of a band-pass section. -/
abbrev Resonator := Except Status (Int64 × Int64 × Int64)

def bandpassSection (resonator : Resonator) (s : IirSection) : Except Status IirSection := do
  let (b0, a1, a2) ← resonator
  .ok { s with b0, a1, a2, b1 := 0, b2 := -b0 }

/-- What the floating-point side offers for each section of either order. -/
structure BandTuning where
  single : Resonator
  low : Resonator
  high : Resonator

def unusedSection : IirSection := ⟨0, 0, 0, 0, 0, 0, 0, 0, 0⟩

def bandpassDesign (order : ℕ) (tuning : BandTuning) (s : IirSection × IirSection) :
    Except Status (IirSection × IirSection) := do
  if order = 1 then
    let first ← bandpassSection tuning.single s.1
    .ok (first, unusedSection)
  else if order ≠ 2 then throw .errorDomain
  else
    let first ← bandpassSection tuning.low s.1
    let second ← bandpassSection tuning.high s.2
    .ok (first, second)

def seed (input output : Int64) (s : IirSection) : IirSection :=
  { s with x1 := input, x2 := input, y1 := output, y2 := output }

/-! ## The cascade -/

/-- One exact F62 sum per section. -/
def sectionSum (s : IirSection) (x : Int64) : Except Status Accum := do
  let sum ← checked (linearsFixedMac (some ⟨0, 0⟩) s.b0 x)
  let sum ← checked (linearsFixedMac (some sum) s.b1 s.x1)
  let sum ← checked (linearsFixedMac (some sum) s.b2 s.x2)
  let sum ← checked (linearsFixedMsu (some sum) s.a1 s.y1)
  checked (linearsFixedMsu (some sum) s.a2 s.y2)

/-- The locals of `cascade`. -/
structure CascadeLocals where
  x : ℕ → Int64
  y : ℕ → Int64
  signal : Int64
  sum : Accum

/-- One section; the signal between sections stays F31. -/
def cascadeSection (sections : ℕ → IirSection) (i : ℕ) (l : CascadeLocals) :
    Except Status CascadeLocals := do
  let sum ← sectionSum (sections i) l.signal
  let y ← checked (linearsAccumToFixed sum (some 0))
  .ok { x := Function.update l.x i l.signal, y := Function.update l.y i y, signal := y, sum }

/-- The staged histories and the output rounded from the last sum. -/
def cascade (sections : ℕ → IirSection) (count : ℕ) (input : Q) :
    Except Status (CascadeLocals × Q) := do
  let l ← forRange 0 count ⟨fun _ => 0, fun _ => 0, FilterFormat.load input, ⟨0, 0⟩⟩
    (cascadeSection sections)
  let result ← checked (linearsAccumToQ l.sum (some FilterFormat.zero))
  .ok (l, result)

/-- The history commit of one section. -/
def shiftHistory (x y : Int64) (s : IirSection) : IirSection :=
  { s with x2 := s.x1, x1 := x, y2 := s.y1, y1 := y }

/-! ## Low-pass and high-pass -/

/-- `filters_lpf_t` and `filters_hpf_t`. -/
structure PassContext where
  order : ℕ
  filterSection : IirSection

inductive PassControl (Q : Type) where
  | set (tuning : Tuning)
  | reset (initial : Q)

/-- What distinguishes the low-pass from the high-pass calls. -/
structure PassKind (Q : Type) where
  design : ℕ → Tuning → IirSection → Except Status IirSection
  /-- The settled output at a level. -/
  settled : Int64 → Int64

def passInit (kind : PassKind Q) (self : Extent) (order : ℕ) (tuning : Tuning) (initial : Q) :
    Except Status PassContext := do
  if self.address = 0 then throw .errorArgument
  let level := FilterFormat.load initial
  let s ← kind.design order tuning unusedSection
  .ok { order, filterSection := seed level (kind.settled level) s }

def passSet (kind : PassKind Q) (self : Extent) (tuning : Tuning) (ctx : PassContext) :
    Except Status PassContext := do
  if self.address = 0 then throw .errorArgument
  let s ← kind.design ctx.order tuning ctx.filterSection
  .ok { ctx with filterSection := s }

def passReset (kind : PassKind Q) (self : Extent) (initial : Q) (ctx : PassContext) :
    Except Status PassContext :=
  if self.address = 0 then .error .errorArgument
  else
    let level := FilterFormat.load initial
    .ok { ctx with filterSection := seed level (kind.settled level) ctx.filterSection }

def passStep (self : Extent) (input : Q) (output : ℕ) :
    Procedure Status (Memory PassContext Unit Q) Unit := do
  .attempt (checkOutput self ⟨output, FilterFormat.scalarBytes Q⟩)
  let ctx ← .read Memory.ctx
  let (l, result) ← .attempt (cascade (fun _ => ctx.filterSection) 1 input)
  .write (Memory.mapCtx fun ctx =>
    { ctx with filterSection := shiftHistory (l.x 0) (l.y 0) ctx.filterSection })
  .write (Memory.emit result)

def lpfKind (Q : Type) : PassKind Q where
  design := lowpassDesign
  settled level := level

def hpfKind (Q : Type) : PassKind Q where
  design := highpassDesign
  settled _ := 0

def lpfInit : Extent → ℕ → Tuning → Q → Except Status PassContext := passInit (lpfKind Q)

def lpfSet : Extent → Tuning → PassContext → Except Status PassContext := passSet (lpfKind Q)

def lpfReset : Extent → Q → PassContext → Except Status PassContext := passReset (lpfKind Q)

def lpfStep : Extent → Q → ℕ → Procedure Status (Memory PassContext Unit Q) Unit := passStep

def hpfInit : Extent → ℕ → Tuning → Q → Except Status PassContext := passInit (hpfKind Q)

def hpfSet : Extent → Tuning → PassContext → Except Status PassContext := passSet (hpfKind Q)

def hpfReset : Extent → Q → PassContext → Except Status PassContext := passReset (hpfKind Q)

def hpfStep : Extent → Q → ℕ → Procedure Status (Memory PassContext Unit Q) Unit := passStep

abbrev lpfFilter (Q : Type) [FilterFormat Q] (self : Extent) : Filter Q where
  Context := PassContext
  Scratch := Unit
  Arguments := ℕ × Tuning × Q
  Control := PassControl Q
  Input := Q
  init arguments := lpfInit self arguments.1 arguments.2.1 arguments.2.2
  control
    | .set tuning => lpfSet (Q := Q) self tuning
    | .reset initial => lpfReset self initial
  step := lpfStep self

abbrev hpfFilter (Q : Type) [FilterFormat Q] (self : Extent) : Filter Q where
  Context := PassContext
  Scratch := Unit
  Arguments := ℕ × Tuning × Q
  Control := PassControl Q
  Input := Q
  init arguments := hpfInit self arguments.1 arguments.2.1 arguments.2.2
  control
    | .set tuning => hpfSet (Q := Q) self tuning
    | .reset initial => hpfReset self initial
  step := hpfStep self

/-! ## Band-pass -/

structure BpfContext where
  order : ℕ
  sections : IirSection × IirSection

/-- The band and the center forms differ only in the frequency checks that
precede the design; `band` is what those end with. -/
inductive BpfControl (Q : Type) where
  | setBand (band : Except Status BandTuning)
  | setCenter (band : Except Status BandTuning)
  | reset (initial : Q)

def bpfSeed (level : Int64) (s : IirSection × IirSection) : IirSection × IirSection :=
  (seed level 0 s.1, seed 0 0 s.2)

def bpfInit (self : Extent) (order : ℕ) (band : Except Status BandTuning) (initial : Q) :
    Except Status BpfContext := do
  if self.address = 0 then throw .errorArgument
  let tuning ← band
  let s ← bandpassDesign order tuning (unusedSection, unusedSection)
  .ok { order, sections := bpfSeed (FilterFormat.load initial) s }

def bpfSet (self : Extent) (band : Except Status BandTuning) (ctx : BpfContext) :
    Except Status BpfContext := do
  if self.address = 0 then throw .errorArgument
  let tuning ← band
  let s ← bandpassDesign ctx.order tuning ctx.sections
  .ok { ctx with sections := s }

def bpfReset (self : Extent) (initial : Q) (ctx : BpfContext) : Except Status BpfContext :=
  if self.address = 0 then .error .errorArgument
  else .ok { ctx with sections := bpfSeed (FilterFormat.load initial) ctx.sections }

def bpfCount (ctx : BpfContext) : ℕ :=
  if ctx.order = 2 then 2 else 1

/-- The commit loop over the sections in use. -/
def bpfCommit (l : CascadeLocals) (ctx : BpfContext) : BpfContext :=
  { ctx with sections :=
      (shiftHistory (l.x 0) (l.y 0) ctx.sections.1,
        if bpfCount ctx = 2 then shiftHistory (l.x 1) (l.y 1) ctx.sections.2
        else ctx.sections.2) }

def bpfStep (self : Extent) (input : Q) (output : ℕ) :
    Procedure Status (Memory BpfContext Unit Q) Unit := do
  .attempt (checkOutput self ⟨output, FilterFormat.scalarBytes Q⟩)
  let ctx ← .read Memory.ctx
  let (l, result) ← .attempt (cascade
    (fun i => if i = 0 then ctx.sections.1 else ctx.sections.2) (bpfCount ctx) input)
  .write (Memory.mapCtx (bpfCommit l))
  .write (Memory.emit result)

abbrev bpfFilter (Q : Type) [FilterFormat Q] (self : Extent) : Filter Q where
  Context := BpfContext
  Scratch := Unit
  Arguments := ℕ × Except Status BandTuning × Q
  Control := BpfControl Q
  Input := Q
  init arguments := bpfInit self arguments.1 arguments.2.1 arguments.2.2
  control
    | .setBand band => bpfSet self band
    | .setCenter band => bpfSet self band
    | .reset initial => bpfReset self initial
  step := bpfStep self

end Xhive.Filters
