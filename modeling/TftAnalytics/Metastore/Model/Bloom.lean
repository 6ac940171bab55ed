import TftAnalytics.Common.Slices
/-!
# Metastore — Bloom filters

`bloom.go`: a bit array in 64-bit words, its number of bits and of hash
functions, and the encoding a table stores it in. The two base hashes are
parameters, and so are the sizes `optimalM` and `optimalK` compute in
floating point. A modulus of zero and a word outside the array panic, and
so does, in the memory of a given process, a filter it has no room for.
-/

namespace TftAnalytics

namespace Metastore

/-- `fnv1a`: 64-bit FNV-1a. -/
def fnv1a (s : GoString) : UInt64 :=
  s.foldl (fun h b => (h ^^^ b.toUInt64) * 1099511628211) 14695981039346656037

/-- The salt of the second hash, `"salt:"`. -/
def salt : GoString := [115, 97, 108, 116, 58]

/-- What a filter is built with: the base hashes of a key (`fnv1a` of the
key and of the salted key), and `optimalM` and `optimalK` of a number of
elements. -/
structure BloomParams where
  h1 : GoString → UInt64
  h2 : GoString → UInt64
  optimalM : ℕ → UInt64
  optimalK : ℕ → UInt32

/-- The hashes of the code, and given sizes. -/
def BloomParams.ofSizes (optimalM : ℕ → UInt64) (optimalK : ℕ → UInt32) : BloomParams :=
  ⟨fnv1a, fun key => fnv1a (salt ++ key), optimalM, optimalK⟩

/-- `BloomFilter`, without the count that nothing reads. -/
structure BloomFilter where
  bits : List UInt64
  m : UInt64
  k : UInt32
  deriving DecidableEq

/-- `NewBloomFilter`, at the rate all callers pass. -/
def newBloomFilter (P : BloomParams) (n : ℕ) : BloomFilter :=
  let n := max n 1
  let m := P.optimalM n
  { bits := List.replicate ((m + 63) / 64).toNat 0, m := m, k := P.optimalK n }

/-- The mask of a bit in its word. -/
def bitMask (idx : UInt64) : UInt64 := 1 <<< (idx % 64)

namespace BloomFilter

/-- The word that holds a bit. -/
def word (idx : UInt64) : ℕ := (idx / 64).toNat

/-- `indices`: the bit positions of a key. -/
def indices (f : BloomFilter) (P : BloomParams) (key : GoString) : Except Fault (List UInt64) :=
  (List.range f.k.toNat).mapM fun i =>
    if f.m = 0 then .error .panic else .ok ((P.h1 key + UInt64.ofNat i * P.h2 key) % f.m)

/-- `b.bits[idx/64] |= 1 << (idx % 64)`. -/
def setBit (bits : List UInt64) (idx : UInt64) : Except Fault (List UInt64) :=
  match bits[word idx]? with
  | some w => .ok (bits.set (word idx) (w ||| bitMask idx))
  | none => .error .panic

/-- `Add`. -/
def add (f : BloomFilter) (P : BloomParams) (key : GoString) : Except Fault BloomFilter := do
  let idxs ← f.indices P key
  let bits ← idxs.foldlM setBit f.bits
  pure { f with bits := bits }

/-- The loop of `MayContain` over the bit positions. -/
def allSet (bits : List UInt64) : List UInt64 → Except Fault Bool
  | [] => .ok true
  | idx :: idxs =>
    match bits[word idx]? with
    | some w => if w &&& bitMask idx = 0 then .ok false else allSet bits idxs
    | none => .error .panic

/-- `MayContain`: whether the key might be present. -/
def mayContain (f : BloomFilter) (P : BloomParams) (key : GoString) : Except Fault Bool := do
  let idxs ← f.indices P key
  allSet f.bits idxs

/-- `MayContain` in the memory of a process, which has to hold the bit
positions of the key. -/
def mayContainIn (rt : Runtime) (f : BloomFilter) (P : BloomParams) (key : GoString) :
    Except Fault Bool := do
  rt.make (.words f.k.toNat)
  f.mayContain P key

/-- `Marshal`: `[m u64][k u32][len u32][bits...]`. -/
def marshal (f : BloomFilter) : Bytes :=
  beBytes 8 f.m.toNat ++ beBytes 4 f.k.toNat ++ beBytes 4 f.bits.length
    ++ f.bits.flatMap fun v => beBytes 8 v.toNat

end BloomFilter

/-- The loop of `UnmarshalBloom` that reads `n` words from byte `p` on. -/
def readWords (buf : Bytes) : ℕ → ℕ → Except Fault (List UInt64)
  | 0, _ => .ok []
  | n + 1, p => do
    let v ← fieldAt buf p 8
    let vs ← readWords buf n (p + 8)
    pure (UInt64.ofNat v :: vs)

/-- `UnmarshalBloom`: a buffer too short for the header gives an empty
filter. -/
def unmarshalBloom (P : BloomParams) (buf : Bytes) : Except Fault BloomFilter :=
  if buf.length < 16 then .ok (newBloomFilter P 1) else do
    let m ← fieldAt buf 0 8
    let k ← fieldAt buf 8 4
    let n ← fieldAt buf 12 4
    let bits ← readWords buf n 16
    pure { bits := bits, m := UInt64.ofNat m, k := UInt32.ofNat k }

/-- The words of the filter in a buffer. -/
def bloomWords (P : BloomParams) (buf : Bytes) : ℕ :=
  if buf.length < 16 then (newBloomFilter P 1).bits.length else field buf 12 4

/-- `UnmarshalBloom` in the memory of a process, which has to hold the words
of the filter. -/
def unmarshalBloomIn (rt : Runtime) (P : BloomParams) (buf : Bytes) : Except Fault BloomFilter := do
  rt.make (.words (bloomWords P buf))
  unmarshalBloom P buf

end Metastore

end TftAnalytics
