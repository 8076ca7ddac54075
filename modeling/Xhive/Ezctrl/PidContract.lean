import Mathlib.Tactic.NormNum
import Xhive.Ezctrl.Pid

/-!
# The contract of the PID adapter

A context that was never configured answers like the one built from the all-zero
configuration: `settled` is the context that its next use would build, and every
call respects it.  A rejected call leaves the settled context alone, so nothing
later tells that it was made.
-/

namespace Xhive.Ezctrl

open Xhive.Support Xhive.Linears Xhive.Filters Xhive.Fieldctrl

variable {K : Type} [Field K] [LinearOrder K] {MAX : K}

/-! ## The two ways to build a controller -/

/-- A controller without history. -/
def startPid (config : Exact.PidConfig K) (integral : K) : Exact.Pid K :=
  ⟨config, integral, 0, 0, 0, 0, 0, 0, 0, false⟩

omit [Field K] in
/-- The adapter clamps by the rule of the controller. -/
theorem ezcPidClampIntegral_eq (fc : Exact.PidConfig K) (value : K) :
    ezcPidClampIntegral fc value =
      Exact.baseClamp value (Exact.pidIntegralBounds fc).1 (Exact.pidIntegralBounds fc).2 := by
  rw [ezcPidClampIntegral, Exact.pidIntegralBounds, Exact.PidConfig.has]
  split <;> rfl

/-- A retuned controller that has not run yet is a new one. -/
theorem pidRetune_start {config old : Exact.PidConfig K} {bounds : K × K}
    (h : Exact.pidCheck MAX config = .ok bounds) :
    Exact.pidRetune MAX config (startPid old 0) =
      .ok (startPid config (ezcPidClampIntegral config 0)) := by
  obtain ⟨rfl, -⟩ := Exact.pidCheck_ok h
  rw [Exact.pidRetune, h, ok_bind, ezcPidClampIntegral_eq]
  simp only [startPid]
  congr 2
  · exact ite_self 0
  · exact ite_self 0

/-- An unbuilt controller and a new one take an integral alike. -/
theorem pidInit_eq_reset {config : Exact.PidConfig K} {bounds : K × K} (integral : K)
    (h : Exact.pidCheck MAX config = .ok bounds) :
    Exact.pidInit MAX config integral = Exact.pidReset MAX integral (startPid config 0) := by
  obtain ⟨rfl, -⟩ := Exact.pidCheck_ok h
  rw [Exact.pidInit, Exact.pidReset, h]
  rfl

theorem blankContext_not_built (callback callbackCtx : ℕ) :
    ¬ezcPidBuilt (blankContext callback callbackCtx : EzcPid K) := lt_irrefl _

variable [IsStrictOrderedRing K]

theorem abs_le_of_mem {x lo hi : K} (hlow : lo ≤ x) (hhigh : x ≤ hi) (hlo : |lo| ≤ MAX)
    (hhi : |hi| ≤ MAX) : |x| ≤ MAX :=
  abs_le.mpr ⟨(abs_le.mp hlo).1.trans hlow, hhigh.trans (abs_le.mp hhi).2⟩

/-- Zero clamped into the bounds of an accepted tuning is a finite integral. -/
theorem clampIntegral_spec {config : Exact.PidConfig K} {bounds : K × K}
    (h : Exact.pidCheck MAX config = .ok bounds) :
    |ezcPidClampIntegral config 0| ≤ MAX ∧ bounds.1 ≤ ezcPidClampIntegral config 0 ∧
      ezcPidClampIntegral config 0 ≤ bounds.2 := by
  obtain ⟨rfl, hordered, -, hlo, hhi⟩ := Exact.pidCheck_ok h
  rw [ezcPidClampIntegral_eq]
  obtain ⟨hlow, hhigh⟩ := Exact.baseClamp_mem (x := 0) hordered
  exact ⟨abs_le_of_mem hlow hhigh hlo hhi, hlow, hhigh⟩

theorem pidInit_start {config : Exact.PidConfig K} {bounds : K × K}
    (h : Exact.pidCheck MAX config = .ok bounds) :
    Exact.pidInit MAX config (ezcPidClampIntegral config 0) =
      .ok (startPid config (ezcPidClampIntegral config 0)) := by
  obtain ⟨hfinite, hlow, hhigh⟩ := clampIntegral_spec h
  exact Exact.pidInit_eq h hfinite hlow hhigh

/-- An unbuilt controller and a new one take a tuning alike. -/
theorem pidInit_eq_retune (MAX : K) (config old : Exact.PidConfig K) :
    (∃ pid, Exact.pidInit MAX config (ezcPidClampIntegral config 0) = .ok pid ∧
      Exact.pidRetune MAX config (startPid old 0) = .ok pid) ∨
    ∃ e e', Exact.pidInit MAX config (ezcPidClampIntegral config 0) = .error e ∧
      Exact.pidRetune MAX config (startPid old 0) = .error e' := by
  cases hcheck : Exact.pidCheck MAX config with
  | ok bounds => exact Or.inl ⟨_, pidInit_start hcheck, pidRetune_start hcheck⟩
  | error e =>
      right
      cases hinit : Exact.pidInit MAX config (ezcPidClampIntegral config 0) with
      | ok pid =>
          obtain ⟨⟨bounds, hok⟩, -⟩ := Exact.pidInit_ok hinit
          rw [hok] at hcheck
          cases hcheck
      | error e' =>
          refine ⟨e', e, rfl, ?_⟩
          rw [Exact.pidRetune, hcheck]
          rfl

/-! ## The settled context -/

/-- The context that the next use of this one would build. -/
def settled (MAX : K) (ctx : EzcPid K) : EzcPid K :=
  if ezcPidBuilt ctx then ctx else (ezcPidApply MAX ctx.cfg ctx).2

/-- The context of the all-zero configuration, with a callback. -/
def startContext (MAX : K) (callback callbackCtx : ℕ) : EzcPid K :=
  ⟨blankCfg callback callbackCtx, startPid (ezcPidMap MAX (blankCfg callback callbackCtx)) 0, 0⟩

/-- What holds of every context in use: a built controller has the accepted
tuning of `cfg` and an integral in its bounds, and an unbuilt one is blank. -/
structure Sound (MAX : K) (ctx : EzcPid K) : Prop where
  checked : ezcPidBuilt ctx → ∃ bounds, Exact.pidCheck MAX ctx.pid.config = .ok bounds
  tuned : ezcPidBuilt ctx → ctx.pid.config = ezcPidMap MAX ctx.cfg
  bounded : ezcPidBuilt ctx → (Exact.pidIntegralBounds ctx.pid.config).1 ≤ ctx.pid.integral ∧
    ctx.pid.integral ≤ (Exact.pidIntegralBounds ctx.pid.config).2
  blank : ¬ezcPidBuilt ctx → ctx = blankContext ctx.cfg.callback ctx.cfg.callbackCtx

omit [IsStrictOrderedRing K] in
theorem settled_of_built {ctx : EzcPid K} (h : ezcPidBuilt ctx) : settled MAX ctx = ctx :=
  if_pos h

omit [IsStrictOrderedRing K] in
theorem blankContext_sound (callback callbackCtx : ℕ) :
    Sound MAX (blankContext callback callbackCtx) where
  checked h := absurd h (blankContext_not_built _ _)
  tuned h := absurd h (blankContext_not_built _ _)
  bounded h := absurd h (blankContext_not_built _ _)
  blank _ := rfl

omit [IsStrictOrderedRing K] in
/-- A built controller with an accepted tuning is sound. -/
theorem Sound.of_pid {cfg : EzcPidCfg K} {pid : Exact.Pid K} (output : K)
    (hcheck : ∃ bounds, Exact.pidCheck MAX (ezcPidMap MAX cfg) = .ok bounds)
    (hconfig : pid.config = ezcPidMap MAX cfg)
    (hlow : (Exact.pidIntegralBounds (ezcPidMap MAX cfg)).1 ≤ pid.integral)
    (hhigh : pid.integral ≤ (Exact.pidIntegralBounds (ezcPidMap MAX cfg)).2) :
    ezcPidBuilt ⟨cfg, pid, output⟩ ∧ Sound MAX ⟨cfg, pid, output⟩ := by
  obtain ⟨bounds, hcheck⟩ := hcheck
  obtain ⟨-, -, hrange, -⟩ := Exact.pidCheck_ok hcheck
  rw [← hconfig] at hcheck hlow hhigh hrange
  exact ⟨hrange, fun _ => ⟨bounds, hcheck⟩, fun _ => hconfig, fun _ => ⟨hlow, hhigh⟩,
    fun h => absurd hrange h⟩

section Positive

variable (hMAX : 0 < MAX)

include hMAX

/-- The all-zero configuration is accepted. -/
theorem pidCheck_blank (callback callbackCtx : ℕ) :
    Exact.pidCheck MAX (ezcPidMap MAX (blankCfg callback callbackCtx)) = .ok (-MAX, MAX) := by
  have hzero : Exact.load MAX 0 = .ok 0 := Exact.load_of_le (by simpa using hMAX.le)
  have hlo : Exact.load MAX (-MAX) = .ok (-MAX) :=
    Exact.load_of_le (by rw [abs_neg, abs_of_pos hMAX])
  have hhi : Exact.load MAX MAX = .ok MAX := Exact.load_of_le (abs_of_pos hMAX).le
  have hrange : ¬MAX ≤ -MAX := by linarith
  simp [Exact.pidCheck, ezcPidMap, blankCfg, Exact.PidConfig.has, hzero, hlo, hhi, ok_bind,
    hrange, fieldctrlPidDerivativeOnError]

theorem startContext_sound (callback callbackCtx : ℕ) :
    ezcPidBuilt (startContext MAX callback callbackCtx) ∧
      Sound MAX (startContext MAX callback callbackCtx) := by
  have hcheck := pidCheck_blank hMAX callback callbackCtx
  obtain ⟨hbounds, -⟩ := Exact.pidCheck_ok hcheck
  refine Sound.of_pid _ ⟨_, hcheck⟩ rfl ?_ ?_ <;> rw [← hbounds]
  · exact neg_nonpos.mpr hMAX.le
  · exact hMAX.le

/-- Zero lies in the whole finite range. -/
theorem clampIntegral_blank (callback callbackCtx : ℕ) :
    ezcPidClampIntegral (ezcPidMap MAX (blankCfg callback callbackCtx)) 0 = 0 := by
  obtain ⟨hbounds, -⟩ := Exact.pidCheck_ok (pidCheck_blank hMAX callback callbackCtx)
  rw [ezcPidClampIntegral_eq, ← hbounds, Exact.baseClamp, if_neg, if_neg]
  · exact not_lt.mpr hMAX.le
  · exact not_lt.mpr (neg_nonpos.mpr hMAX.le)

/-- The first use of a blank context builds the all-zero configuration. -/
theorem ezcPidApply_blank (callback callbackCtx : ℕ) :
    ezcPidApply MAX (blankCfg callback callbackCtx) (blankContext callback callbackCtx) =
      (.ok, startContext MAX callback callbackCtx) := by
  have hclamp := clampIntegral_blank hMAX callback callbackCtx
  have hinit := pidInit_start (pidCheck_blank hMAX callback callbackCtx)
  rw [hclamp] at hinit
  simp only [ezcPidApply, if_neg (blankContext_not_built callback callbackCtx), hclamp, hinit]
  rfl

theorem settled_blank (callback callbackCtx : ℕ) :
    settled MAX (blankContext callback callbackCtx) = startContext MAX callback callbackCtx := by
  rw [settled, if_neg (blankContext_not_built callback callbackCtx)]
  exact congrArg Prod.snd (ezcPidApply_blank hMAX callback callbackCtx)

/-- A settled context is built, and shows what the context showed. -/
theorem Sound.settles {ctx : EzcPid K} (h : Sound MAX ctx) :
    ezcPidBuilt (settled MAX ctx) ∧ Sound MAX (settled MAX ctx) ∧
      (settled MAX ctx).cfg = ctx.cfg ∧ (settled MAX ctx).output = ctx.output := by
  by_cases hbuilt : ezcPidBuilt ctx
  · rw [settled_of_built hbuilt]
    exact ⟨hbuilt, h, rfl, rfl⟩
  · obtain ⟨hstart, hsound⟩ :=
      startContext_sound hMAX ctx.cfg.callback ctx.cfg.callbackCtx
    rw [h.blank hbuilt, settled_blank hMAX]
    exact ⟨hstart, hsound, rfl, rfl⟩

theorem Sound.settled_settled {ctx : EzcPid K} (h : Sound MAX ctx) :
    settled MAX (settled MAX ctx) = settled MAX ctx :=
  settled_of_built (h.settles hMAX).1

/-! ## One call -/

omit hMAX [IsStrictOrderedRing K] in
theorem Sound.apply {ctx : EzcPid K} (h : Sound MAX ctx) (next : EzcPidCfg K) :
    Sound MAX (ezcPidApply MAX next ctx).2 := by
  simp only [ezcPidApply]
  by_cases hbuilt : ezcPidBuilt ctx
  · rw [if_pos hbuilt]
    cases hretune : Exact.pidRetune MAX (ezcPidMap MAX next) ctx.pid with
    | ok pid =>
        obtain ⟨hcheck, hconfig, hlow, hhigh⟩ := Exact.pidRetune_ok hretune
        exact (Sound.of_pid _ hcheck hconfig hlow hhigh).2
    | error e => exact h
  · rw [if_neg hbuilt]
    cases hinit : Exact.pidInit MAX (ezcPidMap MAX next)
        (ezcPidClampIntegral (ezcPidMap MAX next) 0) with
    | ok pid =>
        obtain ⟨hcheck, hconfig, hintegral, hlow, hhigh⟩ := Exact.pidInit_ok hinit
        refine (Sound.of_pid _ hcheck hconfig ?_ ?_).2
        · rw [hintegral]
          exact hlow
        · rw [hintegral]
          exact hhigh
    | error e => exact h

/-- What two contexts cannot tell apart: the answers are equal, and so are the
settled contexts after them. -/
def Alike (MAX : K) (r r' : EzcAnswer K × EzcPid K) : Prop :=
  r.1 = r'.1 ∧ settled MAX r.2 = settled MAX r'.2

omit hMAX [IsStrictOrderedRing K] in
theorem Alike.refl (r : EzcAnswer K × EzcPid K) : Alike MAX r r := ⟨rfl, rfl⟩

/-- A blank and a settled context take a configuration alike. -/
theorem ezcPidApply_start (next : EzcPidCfg K) (callback callbackCtx : ℕ) :
    Alike MAX (answered (ezcPidApply MAX next (blankContext callback callbackCtx)))
      (answered (ezcPidApply MAX next (startContext MAX callback callbackCtx))) := by
  have hbuilt := (startContext_sound hMAX callback callbackCtx).1
  simp only [ezcPidApply, if_neg (blankContext_not_built callback callbackCtx), if_pos hbuilt]
  rcases pidInit_eq_retune MAX (ezcPidMap MAX next)
      (ezcPidMap MAX (blankCfg callback callbackCtx)) with
    ⟨pid, hinit, hretune⟩ | ⟨e, e', hinit, hretune⟩
  · simp only [startContext, hinit, hretune]
    exact .refl _
  · simp only [startContext, hinit, hretune]
    refine ⟨rfl, ?_⟩
    change settled MAX (blankContext callback callbackCtx) =
      settled MAX (startContext MAX callback callbackCtx)
    rw [settled_blank hMAX, settled_of_built hbuilt]

theorem reconfigure_alike {ctx : EzcPid K} (h : Sound MAX ctx) (self : Extent)
    (change : EzcPidCfg K → EzcPidCfg K) :
    Alike MAX (answered (reconfigure MAX self change ctx))
      (answered (reconfigure MAX self change (settled MAX ctx))) := by
  by_cases hbuilt : ezcPidBuilt ctx
  · rw [settled_of_built hbuilt]
    exact .refl _
  · rw [h.blank hbuilt, settled_blank hMAX]
    rw [reconfigure, reconfigure]
    split
    · refine ⟨rfl, ?_⟩
      change settled MAX (blankContext _ _) = settled MAX (startContext MAX _ _)
      rw [settled_blank hMAX, settled_of_built (startContext_sound hMAX _ _).1]
    · exact ezcPidApply_start hMAX _ _ _

/-- A step works on the settled context, unless a pointer is NULL. -/
theorem ezcPidTryUpdate_eq {ctx : EzcPid K} (h : Sound MAX ctx) (self output : Extent)
    (setpoint measure dt : K) :
    ezcPidTryUpdate MAX self output setpoint measure dt ctx =
      if self.address = 0 ∨ output.address = 0 then (.ofStatus .errInvalidArg, ctx)
      else ezcPidStep MAX setpoint measure dt (settled MAX ctx) := by
  rw [ezcPidTryUpdate]
  by_cases hbuilt : ezcPidBuilt ctx
  · rw [if_pos hbuilt, settled_of_built hbuilt]
  · obtain ⟨callback, callbackCtx, rfl⟩ : ∃ callback callbackCtx,
        ctx = blankContext callback callbackCtx := ⟨_, _, h.blank hbuilt⟩
    rw [if_neg hbuilt, settled_blank hMAX]
    have happly := ezcPidApply_blank hMAX callback callbackCtx
    split
    · rfl
    · rw [show (blankContext callback callbackCtx : EzcPid K).cfg =
        blankCfg callback callbackCtx from rfl, happly]

theorem ezcPidTryUpdate_alike {ctx : EzcPid K} (h : Sound MAX ctx) (self output : Extent)
    (setpoint measure dt : K) :
    Alike MAX (ezcPidTryUpdate MAX self output setpoint measure dt ctx)
      (ezcPidTryUpdate MAX self output setpoint measure dt (settled MAX ctx)) := by
  obtain ⟨-, hsettled, -⟩ := h.settles hMAX
  rw [ezcPidTryUpdate_eq hMAX h, ezcPidTryUpdate_eq hMAX hsettled, h.settled_settled hMAX]
  split
  · exact ⟨rfl, (h.settled_settled hMAX).symm⟩
  · exact .refl _

omit hMAX [IsStrictOrderedRing K] in
/-- An update leaves the context that its inner step leaves. -/
theorem ezcPidUpdate_ctx (self : Extent) (setpoint measure dt : K) (ctx : EzcPid K) :
    (ezcPidUpdate MAX self setpoint measure dt ctx).2 =
      if self.address = 0 then ctx
      else (ezcPidTryUpdate MAX self ⟨1, 0⟩ setpoint measure dt ctx).2 := by
  rw [ezcPidUpdate]
  split
  · rfl
  · dsimp only
    split <;> rfl

theorem ezcPidUpdate_alike {ctx : EzcPid K} (h : Sound MAX ctx) (self : Extent)
    (setpoint measure dt : K) :
    Alike MAX (ezcPidUpdate MAX self setpoint measure dt ctx)
      (ezcPidUpdate MAX self setpoint measure dt (settled MAX ctx)) := by
  obtain ⟨-, hsettled, -⟩ := h.settles hMAX
  rw [ezcPidUpdate, ezcPidUpdate]
  split
  · exact ⟨rfl, (h.settled_settled hMAX).symm⟩
  · rename_i hself
    have hvalid : ¬(self.address = 0 ∨ (⟨1, 0⟩ : Extent).address = 0) :=
      not_or.mpr ⟨hself, Nat.one_ne_zero⟩
    rw [ezcPidTryUpdate_eq hMAX h, ezcPidTryUpdate_eq hMAX hsettled, h.settled_settled hMAX,
      if_neg hvalid, if_neg hvalid]
    exact .refl _

/-- The inner reset of a context without history changes nothing. -/
theorem ezcPidReset_start (self : Extent) (callback callbackCtx : ℕ) :
    ezcPidReset MAX self (startContext MAX callback callbackCtx) =
      startContext MAX callback callbackCtx := by
  have hcheck := pidCheck_blank hMAX callback callbackCtx
  have hclamp := clampIntegral_blank hMAX callback callbackCtx
  have hreset := (pidInit_eq_reset 0 hcheck).symm
  have hinit := pidInit_start hcheck
  rw [hclamp] at hinit
  rw [ezcPidReset]
  split
  · rfl
  · simp only [startContext, startPid] at hclamp hreset hinit ⊢
    simp only [hclamp, hreset, hinit]

theorem ezcPidReset_alike {ctx : EzcPid K} (h : Sound MAX ctx) (self : Extent) :
    settled MAX (ezcPidReset MAX self ctx) =
      settled MAX (ezcPidReset MAX self (settled MAX ctx)) := by
  by_cases hbuilt : ezcPidBuilt ctx
  · rw [settled_of_built hbuilt]
  · obtain ⟨callback, callbackCtx, rfl⟩ : ∃ callback callbackCtx,
        ctx = blankContext callback callbackCtx := ⟨_, _, h.blank hbuilt⟩
    rw [settled_blank hMAX, ezcPidReset_start hMAX,
      settled_of_built (startContext_sound hMAX _ _).1, ezcPidReset, if_pos (.inr hbuilt),
      settled_blank hMAX]

theorem ezcPidResetTo_alike {ctx : EzcPid K} (h : Sound MAX ctx) (self : Extent) (integral : K) :
    Alike MAX (answered (ezcPidResetTo MAX self integral ctx))
      (answered (ezcPidResetTo MAX self integral (settled MAX ctx))) := by
  by_cases hbuilt : ezcPidBuilt ctx
  · rw [settled_of_built hbuilt]
    exact .refl _
  · obtain ⟨callback, callbackCtx, rfl⟩ : ∃ callback callbackCtx,
        ctx = blankContext callback callbackCtx := ⟨_, _, h.blank hbuilt⟩
    have hstart := (startContext_sound hMAX callback callbackCtx).1
    have hrest : settled MAX (blankContext callback callbackCtx) =
        settled MAX (startContext MAX callback callbackCtx) := by
      rw [settled_blank hMAX, settled_of_built hstart]
    have hequal := pidInit_eq_reset integral (pidCheck_blank hMAX callback callbackCtx)
    rw [settled_blank hMAX, ezcPidResetTo, ezcPidResetTo, if_neg hbuilt, if_pos hstart]
    split
    · exact ⟨rfl, hrest⟩
    · rw [show (blankContext callback callbackCtx : EzcPid K).cfg =
        blankCfg callback callbackCtx from rfl, hequal, startContext]
      cases Exact.pidReset MAX integral
          (startPid (ezcPidMap MAX (blankCfg callback callbackCtx)) 0) with
      | ok pid => exact .refl _
      | error e => exact ⟨rfl, hrest⟩

theorem ezcPidSetCallback_alike {ctx : EzcPid K} (h : Sound MAX ctx) (self : Extent)
    (callback userCtx : ℕ) :
    Alike MAX (answered (ezcPidSetCallback self callback userCtx ctx))
      (answered (ezcPidSetCallback self callback userCtx (settled MAX ctx))) := by
  by_cases hbuilt : ezcPidBuilt ctx
  · rw [settled_of_built hbuilt]
    exact .refl _
  · rw [h.blank hbuilt, settled_blank hMAX, ezcPidSetCallback, ezcPidSetCallback]
    split
    · refine ⟨rfl, ?_⟩
      change settled MAX (blankContext _ _) = settled MAX (startContext MAX _ _)
      rw [settled_blank hMAX, settled_of_built (startContext_sound hMAX _ _).1]
    · refine ⟨rfl, ?_⟩
      change settled MAX (blankContext callback userCtx) =
        settled MAX (startContext MAX callback userCtx)
      rw [settled_blank hMAX, settled_of_built (startContext_sound hMAX _ _).1]

/-- Every call answers a context and its settled form alike. -/
theorem react_alike {ctx : EzcPid K} (h : Sound MAX ctx) (request : Extent × EzcPidCall K) :
    Alike MAX ((ezcPidMachine MAX).react request ctx)
      ((ezcPidMachine MAX).react request (settled MAX ctx)) := by
  obtain ⟨self, call⟩ := request
  cases call with
  | setCallback callback userCtx => exact ezcPidSetCallback_alike hMAX h self callback userCtx
  | reset => exact ⟨rfl, ezcPidReset_alike hMAX h self⟩
  | resetTo integral => exact ezcPidResetTo_alike hMAX h self integral
  | tryUpdate output setpoint measure dt =>
      exact ezcPidTryUpdate_alike hMAX h self output setpoint measure dt
  | update setpoint measure dt => exact ezcPidUpdate_alike hMAX h self setpoint measure dt
  | _ => exact reconfigure_alike hMAX h self _

omit hMAX in
theorem ezcPidStep_sound {ctx : EzcPid K} (hbuilt : ezcPidBuilt ctx) (h : Sound MAX ctx)
    (setpoint measure dt : K) : Sound MAX (ezcPidStep MAX setpoint measure dt ctx).2 := by
  rw [ezcPidStep]
  cases hstep : Exact.pidStep MAX ctx.pid setpoint measure dt with
  | error e => exact h
  | ok r =>
      obtain ⟨out, pid⟩ := r
      obtain ⟨bounds, hcheck⟩ := h.checked hbuilt
      obtain ⟨rfl, hordered, -⟩ := Exact.pidCheck_ok hcheck
      obtain ⟨hconfig, hlow, hhigh⟩ := Exact.pidStep_ok hordered (h.bounded hbuilt) hstep
      rw [h.tuned hbuilt] at hcheck hlow hhigh hconfig
      exact (Sound.of_pid _ ⟨_, hcheck⟩ hconfig hlow hhigh).2

theorem ezcPidTryUpdate_sound {ctx : EzcPid K} (h : Sound MAX ctx) (self output : Extent)
    (setpoint measure dt : K) :
    Sound MAX (ezcPidTryUpdate MAX self output setpoint measure dt ctx).2 := by
  obtain ⟨hbuilt, hsettled, -⟩ := h.settles hMAX
  rw [ezcPidTryUpdate_eq hMAX h]
  split
  · exact h
  · exact ezcPidStep_sound hbuilt hsettled setpoint measure dt

omit hMAX [IsStrictOrderedRing K] in
theorem Sound.withCallback {ctx : EzcPid K} (h : Sound MAX ctx) (callback userCtx : ℕ) :
    Sound MAX { ctx with
      cfg := { ctx.cfg with callback := callback, callbackCtx := userCtx } } where
  checked hbuilt := h.checked hbuilt
  tuned hbuilt := h.tuned hbuilt
  bounded hbuilt := h.bounded hbuilt
  blank hbuilt := by
    rw [h.blank hbuilt]
    rfl

omit hMAX [IsStrictOrderedRing K] in
theorem ezcPidReset_sound {ctx : EzcPid K} (h : Sound MAX ctx) (self : Extent) :
    Sound MAX (ezcPidReset MAX self ctx) := by
  rw [ezcPidReset]
  split
  · exact h
  · rename_i hvalid
    obtain ⟨-, hbuilt⟩ := not_or.mp hvalid
    rw [not_not] at hbuilt
    cases hreset : Exact.pidReset MAX (ezcPidClampIntegral ctx.pid.config 0) ctx.pid with
    | error e => exact h
    | ok pid =>
        obtain ⟨hconfig, hintegral, hlow, hhigh⟩ := Exact.pidReset_ok hreset
        rw [← hintegral, h.tuned hbuilt] at hlow hhigh
        have hcheck := h.checked hbuilt
        rw [h.tuned hbuilt] at hcheck hconfig
        exact (Sound.of_pid _ hcheck hconfig hlow hhigh).2

omit hMAX [IsStrictOrderedRing K] in
theorem ezcPidResetTo_sound {ctx : EzcPid K} (h : Sound MAX ctx) (self : Extent) (integral : K) :
    Sound MAX (ezcPidResetTo MAX self integral ctx).2 := by
  rw [ezcPidResetTo]
  split
  · exact h
  by_cases hbuilt : ezcPidBuilt ctx
  · simp only [if_pos hbuilt]
    cases hreset : Exact.pidReset MAX integral ctx.pid with
    | error e => exact h
    | ok pid =>
        obtain ⟨hconfig, hintegral, hlow, hhigh⟩ := Exact.pidReset_ok hreset
        rw [← hintegral, h.tuned hbuilt] at hlow hhigh
        have hcheck := h.checked hbuilt
        rw [h.tuned hbuilt] at hcheck hconfig
        exact (Sound.of_pid _ hcheck hconfig hlow hhigh).2
  · simp only [if_neg hbuilt]
    cases hinit : Exact.pidInit MAX (ezcPidMap MAX ctx.cfg) integral with
    | error e => exact h
    | ok pid =>
        obtain ⟨hcheck, hconfig, hintegral, hlow, hhigh⟩ := Exact.pidInit_ok hinit
        rw [← hintegral] at hlow hhigh
        exact (Sound.of_pid _ hcheck hconfig hlow hhigh).2

theorem react_sound : (ezcPidMachine MAX).Preserves (Sound MAX) := by
  rintro ⟨self, call⟩ ctx h
  have hreconfigure : ∀ change, Sound MAX (reconfigure MAX self change ctx).2 := by
    intro change
    rw [reconfigure]
    split
    · exact h
    · exact h.apply _
  cases call with
  | setCallback callback userCtx =>
      change Sound MAX (ezcPidSetCallback self callback userCtx ctx).2
      rw [ezcPidSetCallback]
      split
      · exact h
      · exact h.withCallback callback userCtx
  | reset => exact ezcPidReset_sound h self
  | resetTo integral => exact ezcPidResetTo_sound h self integral
  | tryUpdate output setpoint measure dt =>
      exact ezcPidTryUpdate_sound hMAX h self output setpoint measure dt
  | update setpoint measure dt =>
      change Sound MAX (ezcPidUpdate MAX self setpoint measure dt ctx).2
      rw [ezcPidUpdate_ctx]
      split
      · exact h
      · exact ezcPidTryUpdate_sound hMAX h self ⟨1, 0⟩ setpoint measure dt
  | _ => exact hreconfigure _

/-- A call that returns an error leaves the settled context alone. -/
theorem react_rejected {ctx : EzcPid K} (h : Sound MAX ctx) {request : Extent × EzcPidCall K}
    (hrejected : ((ezcPidMachine MAX).react request ctx).1.status = some .errInvalidArg) :
    settled MAX ((ezcPidMachine MAX).react request ctx).2 = settled MAX ctx := by
  obtain ⟨self, call⟩ := request
  have hstatus : ∀ {r : EzcStatus × EzcPid K}, (answered r).1.status = some .errInvalidArg →
      r.1 ≠ .ok := by
    intro r hr hok
    rw [answered, EzcAnswer.ofStatus, hok] at hr
    cases hr
  have hreconfigure : ∀ change, (reconfigure MAX self change ctx).1 ≠ .ok →
      settled MAX (reconfigure MAX self change ctx).2 = settled MAX ctx := by
    intro change
    simp only [reconfigure, ezcPidApply]
    split
    · exact fun _ => rfl
    · cases (if ezcPidBuilt ctx then _ else _ : Except Status (Exact.Pid K)) with
      | ok pid => exact fun hne => absurd rfl hne
      | error e => exact fun _ => rfl
  cases call with
  | setCallback callback userCtx =>
      have hne := hstatus hrejected
      change settled MAX (ezcPidSetCallback self callback userCtx ctx).2 = settled MAX ctx
      rw [ezcPidSetCallback] at hne ⊢
      split at hne
      · rw [if_pos ‹_›]
      · exact absurd rfl hne
  | reset => cases hrejected
  | resetTo integral =>
      have hne := hstatus hrejected
      change settled MAX (ezcPidResetTo MAX self integral ctx).2 = settled MAX ctx
      simp only [ezcPidResetTo] at hne ⊢
      split
      · rfl
      · rw [if_neg ‹_›] at hne
        revert hne
        cases (if ezcPidBuilt ctx then _ else _ : Except Status (Exact.Pid K)) with
        | ok pid => exact fun hne => absurd rfl hne
        | error e => exact fun _ => rfl
  | tryUpdate output setpoint measure dt =>
      change (ezcPidTryUpdate MAX self output setpoint measure dt ctx).1.status = _ at hrejected
      change settled MAX (ezcPidTryUpdate MAX self output setpoint measure dt ctx).2 = _
      rw [ezcPidTryUpdate_eq hMAX h] at hrejected ⊢
      split
      · rfl
      · rw [if_neg ‹_›, ezcPidStep] at hrejected
        rw [ezcPidStep]
        cases hstep : Exact.pidStep MAX (settled MAX ctx).pid setpoint measure dt with
        | error e => exact h.settled_settled hMAX
        | ok r =>
            rw [hstep] at hrejected
            cases hrejected
  | update setpoint measure dt =>
      change (ezcPidUpdate MAX self setpoint measure dt ctx).1.status = _ at hrejected
      rw [ezcPidUpdate] at hrejected
      split at hrejected
      · cases hrejected
      · dsimp only at hrejected
        split at hrejected
        · cases hrejected
        · cases hrejected
  | _ => exact hreconfigure _ (hstatus hrejected)

omit hMAX in
/-- The inner reset accepts zero clamped into the integral bounds. -/
theorem Sound.resets {ctx : EzcPid K} (h : Sound MAX ctx) (hbuilt : ezcPidBuilt ctx) :
    ∃ pid, Exact.pidReset MAX (ezcPidClampIntegral ctx.pid.config 0) ctx.pid = .ok pid ∧
      pid.integral = ezcPidClampIntegral ctx.pid.config 0 := by
  obtain ⟨bounds, hcheck⟩ := h.checked hbuilt
  obtain ⟨hfinite, hlow, hhigh⟩ := clampIntegral_spec hcheck
  obtain ⟨rfl, -⟩ := Exact.pidCheck_ok hcheck
  rw [Exact.pidReset, Exact.load_of_le hfinite, ok_bind]
  refine ⟨_, if_neg (not_or.mpr ⟨not_lt.mpr hlow, not_lt.mpr hhigh⟩), rfl⟩

theorem Sound.reset_integral {ctx : EzcPid K} (h : Sound MAX ctx) {self : Extent}
    (hself : self.address ≠ 0) :
    (ezcPidReset MAX self ctx).pid.integral = ezcPidClampIntegral (ezcPidMap MAX ctx.cfg) 0 := by
  by_cases hbuilt : ezcPidBuilt ctx
  · obtain ⟨pid, hreset, hintegral⟩ := h.resets hbuilt
    rw [ezcPidReset, if_neg (not_or.mpr ⟨hself, not_not.mpr hbuilt⟩), hreset, ← h.tuned hbuilt]
    exact hintegral
  · rw [ezcPidReset, if_pos (.inr hbuilt), h.blank hbuilt]
    exact (clampIntegral_blank hMAX _ _).symm

/-! ## Whole runs -/

/-- Contexts that no call tells apart. -/
def Interchangeable (MAX : K) (ctx ctx' : EzcPid K) : Prop :=
  Sound MAX ctx ∧ Sound MAX ctx' ∧ settled MAX ctx = settled MAX ctx'

theorem machine_simulates :
    (ezcPidMachine MAX).Simulates (ezcPidMachine MAX) (Interchangeable MAX) := by
  rintro request ctx ctx' ⟨h, h', hsettled⟩
  obtain ⟨hanswer, hnext⟩ := react_alike hMAX h request
  obtain ⟨hanswer', hnext'⟩ := react_alike hMAX h' request
  rw [hsettled] at hanswer hnext
  exact ⟨hanswer.trans hanswer'.symm, react_sound hMAX request ctx h,
    react_sound hMAX request ctx' h', hnext.trans hnext'.symm⟩

/-- Interchangeable contexts show the same configuration and last output. -/
theorem Interchangeable.visible {ctx ctx' : EzcPid K} (h : Interchangeable MAX ctx ctx') :
    ctx.cfg = ctx'.cfg ∧ ctx.output = ctx'.output := by
  obtain ⟨hs, hs', hsettled⟩ := h
  obtain ⟨-, -, hcfg, houtput⟩ := hs.settles hMAX
  obtain ⟨-, -, hcfg', houtput'⟩ := hs'.settles hMAX
  rw [hsettled] at hcfg houtput
  exact ⟨hcfg.symm.trans hcfg', houtput.symm.trans houtput'⟩

end Positive

/-- The answers of a run, with the configuration and the last output after it. -/
def observed (MAX : K) (ctx : EzcPid K) (calls : List (Extent × EzcPidCall K)) :
    List (EzcAnswer K) × EzcPidCfg K × K :=
  let r := (ezcPidMachine MAX).run calls ctx
  (r.1, r.2.cfg, r.2.output)

/-- What every context in use satisfies. -/
structure Contract (MAX : K) (ctx : EzcPid K) : Prop where
  /-- A built controller has the mapped tuning and an integral in its bounds. -/
  tuned : ezcPidBuilt ctx → ctx.pid.config = ezcPidMap MAX ctx.cfg ∧
    (Exact.pidIntegralBounds ctx.pid.config).1 ≤ ctx.pid.integral ∧
    ctx.pid.integral ≤ (Exact.pidIntegralBounds ctx.pid.config).2
  /-- After a rejected call everything goes on as if it had not been made. -/
  rejected : ∀ request, ((ezcPidMachine MAX).react request ctx).1.status = some .errInvalidArg →
    ∀ later, observed MAX ((ezcPidMachine MAX).react request ctx).2 later = observed MAX ctx later
  /-- The inner reset succeeds, and leaves zero clamped into the bounds. -/
  reset : (ezcPidBuilt ctx →
      ∃ pid, Exact.pidReset MAX (ezcPidClampIntegral ctx.pid.config 0) ctx.pid = .ok pid) ∧
    ∀ self : Extent, self.address ≠ 0 → (ezcPidReset MAX self ctx).pid.integral =
      ezcPidClampIntegral (ezcPidMap MAX ctx.cfg) 0

theorem Interchangeable.observed {ctx ctx' : EzcPid K} (hMAX : 0 < MAX)
    (h : Interchangeable MAX ctx ctx') (calls : List (Extent × EzcPidCall K)) :
    observed MAX ctx calls = observed MAX ctx' calls := by
  obtain ⟨hanswers, hfinal⟩ := (machine_simulates hMAX).run calls h
  obtain ⟨hcfg, houtput⟩ := hfinal.visible hMAX
  exact Prod.ext hanswers (Prod.ext hcfg houtput)

theorem Sound.contract {ctx : EzcPid K} (hMAX : 0 < MAX) (h : Sound MAX ctx) :
    Contract MAX ctx where
  tuned hbuilt := ⟨h.tuned hbuilt, h.bounded hbuilt⟩
  rejected request hrejected := Interchangeable.observed hMAX
    ⟨react_sound hMAX request ctx h, h, react_rejected hMAX h hrejected⟩
  reset := by
    refine ⟨fun hbuilt => ?_, fun self hself => h.reset_integral hMAX hself⟩
    obtain ⟨pid, hreset, -⟩ := h.resets hbuilt
    exact ⟨pid, hreset⟩

/-- A zero-initialized context is the context of the all-zero configuration, over
every run of calls, and both keep the contract. -/
theorem zero_context_equivalent (hMAX : 0 < MAX) {self : Extent} (hself : self.address ≠ 0)
    (memory : EzcPid K) (calls : List (Extent × EzcPidCall K)) :
    let made := (ezcPidInit MAX self (some zeroCfg) memory).2
    observed MAX ezcPidZeroContext calls = observed MAX made calls ∧
      Contract MAX ((ezcPidMachine MAX).run calls ezcPidZeroContext).2 ∧
      Contract MAX ((ezcPidMachine MAX).run calls made).2 := by
  have hmade : (ezcPidInit MAX self (some zeroCfg) memory).2 = startContext MAX 0 0 := by
    rw [ezcPidInit, if_neg hself]
    exact congrArg Prod.snd (ezcPidApply_blank hMAX 0 0)
  have hzero : Sound MAX (ezcPidZeroContext : EzcPid K) := blankContext_sound 0 0
  obtain ⟨hbuilt, hstart⟩ := startContext_sound hMAX 0 0
  intro made
  rw [show made = startContext MAX 0 0 from hmade]
  refine ⟨Interchangeable.observed hMAX ⟨hzero, hstart, ?_⟩ calls, ?_, ?_⟩
  · rw [ezcPidZeroContext, settled_blank hMAX, settled_of_built hbuilt]
  · exact ((react_sound hMAX).run calls hzero).contract hMAX
  · exact ((react_sound hMAX).run calls hstart).contract hMAX

/-- A limit that excludes zero, a rejected gain and a step. -/
theorem zero_context_equivalent_limited :
    let calls : List (Extent × EzcPidCall ℚ) :=
      [(⟨1, 0⟩, .setLimit 2 3), (⟨1, 0⟩, .setGains 1 (-1) 0), (⟨1, 0⟩, .update 1 0 1)]
    observed 4 ezcPidZeroContext calls =
      observed 4 (ezcPidInit 4 ⟨1, 0⟩ (some zeroCfg) ezcPidZeroContext).2 calls :=
  (zero_context_equivalent (by norm_num) (by decide) ezcPidZeroContext _).1

end Xhive.Ezctrl
