import Damacy.Planner.PlanBuilder

/-!
# Decoding on the CPU (`executor/cpu_executor.c`)

`decode_chunk` turns the stored bytes of a chunk into the bytes that are assembled. The codec
libraries are given by what they answer.
-/

open ExceptFold

namespace Damacy

/-- What the codec libraries answer; a decompressor that reports an error answers `none`. -/
structure CpuCodecs where
  zstdDecompress : List UInt8 → ℕ → Option (List UInt8)
  bloscCbufferValidate : List UInt8 → Option ℕ
  bloscCbufferSizes : List UInt8 → ℕ × ℕ × ℕ
  bloscCbufferMetainfo : List UInt8 → ℕ × ℕ
  bloscCbufferComplib : List UInt8 → Option CString
  bloscDecompress : List UInt8 → ℕ → Option (List UInt8)

def bloscMaxBuffersize : ℕ := 2 ^ 31 - 1 - 16

def bloscMinHeaderLength : ℕ := 16

/-- `BLOSC_LZ4_LIBNAME` or `BLOSC_ZSTD_LIBNAME`. -/
def bloscLibname (codec : Codec) : CString :=
  if codec = .bloscLz4 then [0x4c, 0x5a, 0x34] else [0x5a, 0x73, 0x74, 0x64]

/-- A decompressor's answer is good if it has the size that was asked for. -/
def decodedOf (size : ℕ) (answer : Option (List UInt8)) : Except Status (List UInt8) :=
  match answer with
  | some bytes => if bytes.length = size then .ok bytes else .error .decode
  | none => .error .decode

/-- The Blosc cases of `decode_chunk`. -/
def decodeBlosc (lib : CpuCodecs) (chunk : PlanChunk) (metadata : ZarrMetadata)
    (input : List UInt8) : Except Status (List UInt8) := do
  match lib.bloscCbufferValidate input with
  | none => .error .decode
  | some size =>
    failIf (size ≠ chunk.decodedBytes ∨ chunk.encodedBytes < bloscMinHeaderLength) .decode
    let (_, cbytes, blocksize) := lib.bloscCbufferSizes input
    let (typesize, flags) := lib.bloscCbufferMetainfo input
    failIf (blocksize = 0 ∨ size < blocksize ∨ typesize ≠ dtypeBpe metadata.dtype ∨
      cbytes ≠ chunk.encodedBytes ∨ bloscMaxBuffersize < size ∨
      (flags.testBit 1 = false ∧
        lib.bloscCbufferComplib input ≠ some (bloscLibname metadata.innerCodec))) .decode
    let bytes ← decodedOf size (lib.bloscDecompress input size)
    failIf (bytes = []) .decode
    return bytes

/-- `decode_chunk`; the buffer of the worker holds `scratch`. -/
def decodeChunk (lib : CpuCodecs) (scratch : List UInt8) (chunk : PlanChunk)
    (metadata : ZarrMetadata) (input : List UInt8) : Except Status (List UInt8) :=
  if chunk.missing then .ok scratch
  else match metadata.innerCodec with
    | .none => if chunk.encodedBytes ≠ chunk.decodedBytes then .error .decode else .ok input
    | .zstd => decodedOf chunk.decodedBytes (lib.zstdDecompress input chunk.decodedBytes)
    | .bloscLz4 | .bloscZstd => decodeBlosc lib chunk metadata input
    | .fill => .error .decode

theorem decodeChunk_none_iff {lib : CpuCodecs} {scratch input bytes : List UInt8}
    {chunk : PlanChunk} {metadata : ZarrMetadata} (hmissing : chunk.missing = false)
    (hcodec : metadata.innerCodec = .none) :
    decodeChunk lib scratch chunk metadata input = .ok bytes ↔
      chunk.encodedBytes = chunk.decodedBytes ∧ bytes = input := by
  simp only [decodeChunk, hmissing, Bool.false_eq_true, if_false, hcodec]
  split
  · simp_all
  · rename_i heq
    rw [not_not] at heq
    simp [heq, eq_comm]

end Damacy
