import Qtx.AxiomSelectorExhaustion
import Qtx.CodecBounds
import Qtx.ConversionSafety
import Qtx.CorruptScales
import Qtx.ElementRoundTrips
import Qtx.EncoderRounding
import Qtx.FairSchedules
import Qtx.FractalArenaAlignment
import Qtx.FractalArenaIsolation
import Qtx.FractalArenaOwnership
import Qtx.FractalArenaSubSlots
import Qtx.FractalArenaThreads
import Qtx.GenIDFields
import Qtx.GgmlBridgeAccounting
import Qtx.GgmlBridgeBounds
import Qtx.GgmlBridgeConfig
import Qtx.GgmlBridgeSeals
import Qtx.GgmlBridgeStaleHandles
import Qtx.HandlePipelineLiveness
import Qtx.IntRecompression
import Qtx.LevelEncoders
import Qtx.LroundHalfAway
import Qtx.Mxfp4RoundTrips
import Qtx.SPSCRingBufferLiveness
import Qtx.SPSCRingBufferSize
import Qtx.SPSCRingBufferWaits
import Qtx.TieredCapacity
import Qtx.TieredFailures
import Qtx.TieredIsolation
import Qtx.TieredLru
import Qtx.TieredMicroPacking
import Qtx.TieredRefinement
import Qtx.VectorAgreement
