import Qtx.IQuantGrids
import Qtx.KQuants
import Qtx.LegacyBlocks

/-!
# Block formats with a binary16 scale

The seventeen formats whose blocks carry their scale as a binary16 word, each with its
encoder and its decoder. The decoders reject a block whose scale or minimum is not finite.
-/
namespace Qtx.BlockFormats

open Qtx.ByteStreams Qtx.FloatMachine Qtx.LegacyBlocks Qtx.KQuants Qtx.IQuants

inductive BlockFormat
  | q4_1 | q5_0 | q5_1
  | q2_K | q3_K | q4_K | q5_K | q6_K
  | iq4_NL | iq4_XS
  | iq2_XXS | iq2_XS | iq2_S | iq3_XXS | iq3_S | iq1_S | iq1_M
  deriving DecidableEq

variable (M : Machine) (C : Codebooks)

def compressFP32ToQ4_1 (c : Call) : ℕ × Bytes := c.encodeBlocks 128 20 (encodeQ4_1 M)
def decompressQ4_1ToFP32 (c : Call) : ℕ × Bytes := c.decodeBlocks 20 128 (decodeQ4_1 M)
def compressFP32ToQ5_0 (c : Call) : ℕ × Bytes := c.encodeBlocks 128 22 (encodeQ5_0 M)
def decompressQ5_0ToFP32 (c : Call) : ℕ × Bytes := c.decodeBlocks 22 128 (decodeQ5_0 M)
def compressFP32ToQ5_1 (c : Call) : ℕ × Bytes := c.encodeBlocks 128 24 (encodeQ5_1 M)
def decompressQ5_1ToFP32 (c : Call) : ℕ × Bytes := c.decodeBlocks 24 128 (decodeQ5_1 M)
def compressFP32ToQ2_K (c : Call) : ℕ × Bytes := c.encodeBlocks 1024 84 (encodeQ2_K M)
def decompressQ2_K_ToFP32 (c : Call) : ℕ × Bytes := c.decodeBlocks 84 1024 (decodeQ2_K M)
def compressFP32ToQ3_K (c : Call) : ℕ × Bytes := c.encodeBlocks 1024 110 (encodeQ3_K M)
def decompressQ3_K_ToFP32 (c : Call) : ℕ × Bytes := c.decodeBlocks 110 1024 (decodeQ3_K M)
def compressFP32ToQ4_K (c : Call) : ℕ × Bytes := c.encodeBlocks 1024 144 (encodeQ4_K M)
def decompressQ4_K_ToFP32 (c : Call) : ℕ × Bytes := c.decodeBlocks 144 1024 (decodeQ4_K M)
def compressFP32ToQ5_K (c : Call) : ℕ × Bytes := c.encodeBlocks 1024 176 (encodeQ5_K M)
def decompressQ5_K_ToFP32 (c : Call) : ℕ × Bytes := c.decodeBlocks 176 1024 (decodeQ5_K M)
def compressFP32ToQ6_K (c : Call) : ℕ × Bytes := c.encodeBlocks 1024 210 (encodeQ6_K M)
def decompressQ6_K_ToFP32 (c : Call) : ℕ × Bytes := c.decodeBlocks 210 1024 (decodeQ6_K M)
def compressFP32ToIQ4_NL (c : Call) : ℕ × Bytes := c.encodeBlocks 128 18 (encodeIQ4_NL M C)
def decompressIQ4_NL_ToFP32 (c : Call) : ℕ × Bytes := c.decodeBlocks 18 128 (decodeIQ4_NL M C)
def compressFP32ToIQ4_XS (c : Call) : ℕ × Bytes := c.encodeBlocks 1024 136 (encodeIQ4_XS M C)
def decompressIQ4_XS_ToFP32 (c : Call) : ℕ × Bytes := c.decodeBlocks 136 1024 (decodeIQ4_XS M C)
def compressFP32ToIQ2_XXS (c : Call) : ℕ × Bytes := c.encodeBlocks 1024 66 (encodeIQ2_XXS M C)
def decompressIQ2_XXS_ToFP32 (c : Call) : ℕ × Bytes := c.decodeBlocks 66 1024 (decodeIQ2_XXS M C)
def compressFP32ToIQ2_XS (c : Call) : ℕ × Bytes := c.encodeBlocks 1024 74 (encodeIQ2_XS M C)
def decompressIQ2_XS_ToFP32 (c : Call) : ℕ × Bytes := c.decodeBlocks 74 1024 (decodeIQ2_XS M C)
def compressFP32ToIQ2_S (c : Call) : ℕ × Bytes := c.encodeBlocks 1024 82 (encodeIQ2_S M C)
def decompressIQ2_S_ToFP32 (c : Call) : ℕ × Bytes := c.decodeBlocks 82 1024 (decodeIQ2_S M C)
def compressFP32ToIQ3_XXS (c : Call) : ℕ × Bytes := c.encodeBlocks 1024 98 (encodeIQ3_XXS M C)
def decompressIQ3_XXS_ToFP32 (c : Call) : ℕ × Bytes := c.decodeBlocks 98 1024 (decodeIQ3_XXS M C)
def compressFP32ToIQ3_S (c : Call) : ℕ × Bytes := c.encodeBlocks 1024 110 (encodeIQ3_S M C)
def decompressIQ3_S_ToFP32 (c : Call) : ℕ × Bytes := c.decodeBlocks 110 1024 (decodeIQ3_S M C)
def compressFP32ToIQ1_S (c : Call) : ℕ × Bytes := c.encodeBlocks 1024 50 (encodeIQ1_S M C)
def decompressIQ1_S_ToFP32 (c : Call) : ℕ × Bytes := c.decodeBlocks 50 1024 (decodeIQ1_S M C)
def compressFP32ToIQ1_M (c : Call) : ℕ × Bytes := c.encodeBlocks 1024 56 (encodeIQ1_M M C)
def decompressIQ1_M_ToFP32 (c : Call) : ℕ × Bytes := c.decodeBlocks 56 1024 (decodeIQ1_M M C)

namespace BlockFormat

def elements : BlockFormat → ℕ
  | q4_1 | q5_0 | q5_1 | iq4_NL => 32
  | _ => 256

def blockBytes : BlockFormat → ℕ
  | q4_1 => 20
  | q5_0 => 22
  | q5_1 => 24
  | q2_K => 84
  | q3_K => 110
  | q4_K => 144
  | q5_K => 176
  | q6_K => 210
  | iq4_NL => 18
  | iq4_XS => 136
  | iq2_XXS => 66
  | iq2_XS => 74
  | iq2_S => 82
  | iq3_XXS => 98
  | iq3_S => 110
  | iq1_S => 50
  | iq1_M => 56

def encode : BlockFormat → Bytes → Bytes
  | q4_1 => encodeQ4_1 M
  | q5_0 => encodeQ5_0 M
  | q5_1 => encodeQ5_1 M
  | q2_K => encodeQ2_K M
  | q3_K => encodeQ3_K M
  | q4_K => encodeQ4_K M
  | q5_K => encodeQ5_K M
  | q6_K => encodeQ6_K M
  | iq4_NL => encodeIQ4_NL M C
  | iq4_XS => encodeIQ4_XS M C
  | iq2_XXS => encodeIQ2_XXS M C
  | iq2_XS => encodeIQ2_XS M C
  | iq2_S => encodeIQ2_S M C
  | iq3_XXS => encodeIQ3_XXS M C
  | iq3_S => encodeIQ3_S M C
  | iq1_S => encodeIQ1_S M C
  | iq1_M => encodeIQ1_M M C

def decode : BlockFormat → Bytes → Option Bytes
  | q4_1 => decodeQ4_1 M
  | q5_0 => decodeQ5_0 M
  | q5_1 => decodeQ5_1 M
  | q2_K => decodeQ2_K M
  | q3_K => decodeQ3_K M
  | q4_K => decodeQ4_K M
  | q5_K => decodeQ5_K M
  | q6_K => decodeQ6_K M
  | iq4_NL => decodeIQ4_NL M C
  | iq4_XS => decodeIQ4_XS M C
  | iq2_XXS => decodeIQ2_XXS M C
  | iq2_XS => decodeIQ2_XS M C
  | iq2_S => decodeIQ2_S M C
  | iq3_XXS => decodeIQ3_XXS M C
  | iq3_S => decodeIQ3_S M C
  | iq1_S => decodeIQ1_S M C
  | iq1_M => decodeIQ1_M M C

def compress : BlockFormat → Call → ℕ × Bytes
  | q4_1 => compressFP32ToQ4_1 M
  | q5_0 => compressFP32ToQ5_0 M
  | q5_1 => compressFP32ToQ5_1 M
  | q2_K => compressFP32ToQ2_K M
  | q3_K => compressFP32ToQ3_K M
  | q4_K => compressFP32ToQ4_K M
  | q5_K => compressFP32ToQ5_K M
  | q6_K => compressFP32ToQ6_K M
  | iq4_NL => compressFP32ToIQ4_NL M C
  | iq4_XS => compressFP32ToIQ4_XS M C
  | iq2_XXS => compressFP32ToIQ2_XXS M C
  | iq2_XS => compressFP32ToIQ2_XS M C
  | iq2_S => compressFP32ToIQ2_S M C
  | iq3_XXS => compressFP32ToIQ3_XXS M C
  | iq3_S => compressFP32ToIQ3_S M C
  | iq1_S => compressFP32ToIQ1_S M C
  | iq1_M => compressFP32ToIQ1_M M C

def decompress : BlockFormat → Call → ℕ × Bytes
  | q4_1 => decompressQ4_1ToFP32 M
  | q5_0 => decompressQ5_0ToFP32 M
  | q5_1 => decompressQ5_1ToFP32 M
  | q2_K => decompressQ2_K_ToFP32 M
  | q3_K => decompressQ3_K_ToFP32 M
  | q4_K => decompressQ4_K_ToFP32 M
  | q5_K => decompressQ5_K_ToFP32 M
  | q6_K => decompressQ6_K_ToFP32 M
  | iq4_NL => decompressIQ4_NL_ToFP32 M C
  | iq4_XS => decompressIQ4_XS_ToFP32 M C
  | iq2_XXS => decompressIQ2_XXS_ToFP32 M C
  | iq2_XS => decompressIQ2_XS_ToFP32 M C
  | iq2_S => decompressIQ2_S_ToFP32 M C
  | iq3_XXS => decompressIQ3_XXS_ToFP32 M C
  | iq3_S => decompressIQ3_S_ToFP32 M C
  | iq1_S => decompressIQ1_S_ToFP32 M C
  | iq1_M => decompressIQ1_M_ToFP32 M C

variable {M C}

/-- Every encoder is its block encoder, run over the blocks of the stream. -/
theorem compress_eq (f : BlockFormat) (c : Call) :
    f.compress M C c = c.encodeBlocks (f.elements * 4) f.blockBytes (f.encode M C) := by
  cases f <;> rfl

theorem decompress_eq (f : BlockFormat) (c : Call) :
    f.decompress M C c = c.decodeBlocks f.blockBytes (f.elements * 4) (f.decode M C) := by
  cases f <;> rfl

theorem elements_pos (f : BlockFormat) : 0 < f.elements := by
  cases f <;> decide

theorem blockBytes_pos (f : BlockFormat) : 0 < f.blockBytes := by
  cases f <;> decide

end BlockFormat

end Qtx.BlockFormats
