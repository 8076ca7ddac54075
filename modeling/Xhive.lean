import Xhive.Linears.Numeric.Accumulator
import Xhive.Linears.Numeric.Sqrt
import Xhive.Linears.Decomp.LuFixed
import Xhive.Linears.Decomp.LuExact
import Xhive.Linears.Decomp.LdltExact
import Xhive.Linears.Decomp.QrExact
import Xhive.Linears.Decomp.SvdFixed
import Xhive.Linears.Basic.QExact
import Xhive.Filters.Transactions
import Xhive.Filters.FirExact
import Xhive.Filters.AverageExact
import Xhive.Filters.MedianExact
import Xhive.Filters.Settled
import Xhive.Particles.ResampleCopies
import Xhive.Support.LongDivision
import Xhive.Particles.WeightRuns
import Xhive.Support.Traces
import Xhive.Fieldctrl.Arith
import Xhive.Fieldctrl.Pid
import Xhive.Fieldctrl.PidCache
import Xhive.Fieldctrl.PidBounds
import Xhive.Fieldctrl.Foc
import Xhive.Fieldctrl.FocBound
import Xhive.Linears.Basic.WorkKernels
import Xhive.Kalman.Matrix
import Xhive.Kalman.MatrixRuns
import Xhive.Kalman.Scalar
import Xhive.Kalman.ScalarRuns
import Xhive.Ukf.Arith
import Xhive.Ukf.Work
import Xhive.Ukf.QWork
import Xhive.Ukf.Bits
import Xhive.Particles.UpfRuns
import Xhive.Shrtim.StormGuard
import Xhive.Fieldctrl.Controllers
import Xhive.Fieldctrl.DtcSectors
import Xhive.Ezctrl.PidContract
import Xhive.Base64.BinaryStrings
import Xhive.Fieldctrl.SmoInvariant
import Xhive.Bitmap.Runs
import Xhive.C2.Arbitration
import Xhive.Fieldctrl.AtanAccuracy
import Xhive.Base64.Validation
import Xhive.Base64.ValidatorReads
import Xhive.Shrtim.Timing
import Xhive.Shrtim.Duty
import Xhive.Shrtim.PathIndependence
import Xhive.Shrtim.DeadTime
import Xhive.Support.Words
import Xhive.Shrtim.AdcTriggers
import Xhive.Fieldctrl.PidSymmetry
import Xhive.Support.Radial
import Xhive.Fieldctrl.Lengths
import Xhive.Fieldctrl.VoltageLimit
import Xhive.Fieldctrl.SpaceVector
import Xhive.Fieldctrl.SincosLength
import Xhive.Fieldctrl.FrameTransforms
import Xhive.Fieldctrl.VvvfRuns
import Xhive.Bitmap.LeftSearch
import Xhive.Filters.Envelope
import Xhive.Linears.Decomp.LuColumns
import Xhive.Linears.Decomp.CholeskyResult
import Xhive.Linears.Numeric.Exports
import Xhive.Linears.Numeric.SqrtRegisters
import Xhive.Modules.MergeRuns
import Xhive.Modules.KconfRuns
import Xhive.Fieldctrl.SmoRuns
import Xhive.Filters.Cascade
import Xhive.Particles.Reweighting
import Xhive.Ukf.BitValues
import Xhive.Particles.GaussianReciprocals
import Xhive.Particles.ExpF40
import Xhive.Particles.EstimateSafety
import Xhive.C2.PwmSolver
import Xhive.C2.Delays
import Xhive.Particles.GaussianNative
import Xhive.Particles.LogBudget
import Xhive.Particles.ExpBudget
import Xhive.Particles.EstimateExact
import Xhive.Linears.Basic.InPlace
import Xhive.Heatshrink.RoundTrip
import Xhive.Sha256.Standard
import Xhive.MicroEcc.Secp256k1
