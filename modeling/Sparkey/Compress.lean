import Sparkey.Basic

/-!
# `compress.c`

The table `sparkey_compressors` wraps two outside libraries, so a compressor is
a parameter here: what it does to a buffer, within the size its caller gives.
`Lossless` is the promise of such a library that what it compressed it can
decompress.  Of one that fails nothing is known but that it fails: its output buffer
may hold anything then.
-/

namespace Sparkey

/-- `struct sparkey_compressor`.  `compress` gets the size of its output buffer, and
so does `decompress`; a failing `decompress` makes some other buffer of its output buffer. -/
structure Compressor where
  maxCompressedSize : Nat → Nat
  compress : List UInt8 → Nat → Option (List UInt8)
  decompress : List UInt8 → Nat → Except (List UInt8 → List UInt8) (List UInt8)
  maxCompressedSize_lt : ∀ n, maxCompressedSize n < 2 ^ 32
  compress_le : ∀ {input size output}, compress input size = some output → output.length ≤ size
  decompress_le : ∀ {input size output}, decompress input size = .ok output → output.length ≤ size

/-- The table `sparkey_compressors`. -/
class Compressors where
  sparkeyCompressors : CompressionType → Compressor

export Compressors (sparkeyCompressors)

def usesCompressor : CompressionType → Bool
  | .snappy => true
  | .zstd => true
  | .none => false

/-- Decompressing undoes compressing, given room for the result. -/
def Compressor.Lossless (c : Compressor) : Prop :=
  ∀ input size output, c.compress input size = some output →
    ∀ n, input.length ≤ n → c.decompress output n = .ok input

/-- What snappy makes of at most 60 bytes in which nothing repeats: their number, a tag with the
length of a literal, and the bytes. -/
def snappyLiteral : Compressor where
  maxCompressedSize n := min (32 + n + n / 6) (2 ^ 32 - 1)
  compress input size :=
    if 0 < input.length ∧ input.length ≤ 60 ∧ input.length + 2 ≤ size then
      some (UInt8.ofNat input.length :: UInt8.ofNat (4 * (input.length - 1)) :: input)
    else none
  decompress
    | n :: _ :: literal, size =>
      if n.toNat = literal.length ∧ literal.length ≤ size then .ok literal else .error id
    | _, _ => .error id
  maxCompressedSize_lt n := by omega
  compress_le := by
    intro input size output h
    split_ifs at h with hlen
    cases h
    exact hlen.2.2
  decompress_le := by
    intro input size output h
    split at h
    · split_ifs at h with hlen
      cases h
      exact hlen.2
    · cases h

theorem lossless_snappyLiteral : snappyLiteral.Lossless := by
  intro input size output h n hn
  simp only [snappyLiteral] at h ⊢
  split_ifs at h with hlen
  cases h
  have hnat : (UInt8.ofNat input.length).toNat = input.length := by
    rw [UInt8.toNat_ofNat']
    omega
  exact if_pos ⟨hnat, hn⟩

abbrev literalCompressors : Compressors := ⟨fun _ => snappyLiteral⟩

end Sparkey
