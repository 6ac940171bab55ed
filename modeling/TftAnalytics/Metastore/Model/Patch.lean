import TftAnalytics.Metastore.Model.Entry
/-!
# Metastore — patches and decay

How `server.go` orders patch strings, and what it does to the sample size
of an entry on a superseded patch. `strings.SplitN`, `strings.TrimSpace`
and `strconv.Atoi` are followed on bytes; the decay itself, in floating
point, is a parameter. Which patch is current the server learns from the
entries it is given and from announcements.
-/

namespace TftAnalytics

namespace Metastore

/-- The white space of Unicode, encoded. -/
def whiteSpace : List Bytes :=
  [[9], [10], [11], [12], [13], [32], [0xC2, 0x85], [0xC2, 0xA0], [0xE1, 0x9A, 0x80]]
    ++ (List.range 11).map (fun i => [0xE2, 0x80, UInt8.ofNat (0x80 + i)])
    ++ [[0xE2, 0x80, 0xA8], [0xE2, 0x80, 0xA9], [0xE2, 0x80, 0xAF], [0xE2, 0x81, 0x9F],
      [0xE3, 0x80, 0x80]]

/-- White space dropped at the front, at most `n` characters. -/
def trimLeft : ℕ → GoString → GoString
  | 0, s => s
  | n + 1, s =>
    match whiteSpace.find? fun w => w.isPrefixOf s with
    | none => s
    | some w => trimLeft n (s.drop w.length)

/-- And at the end. -/
def trimRight : ℕ → GoString → GoString
  | 0, s => s
  | n + 1, s =>
    match whiteSpace.find? fun w => w.isSuffixOf s with
    | none => s
    | some w => trimRight n (s.take (s.length - w.length))

/-- `strings.TrimSpace`. -/
def trimSpace (s : GoString) : GoString :=
  let s := trimLeft s.length s
  trimRight s.length s

/-- The number a string of decimal digits stands for. -/
def digits (s : GoString) : Option ℕ :=
  if s = [] then none
  else s.foldl (fun acc ch =>
    acc.bind fun n =>
      if 48 ≤ ch ∧ ch ≤ 57 then some (n * 10 + (ch.toNat - 48)) else none) (some 0)

/-- `strconv.Atoi`: an optional sign and digits, within the range of an
`int`. -/
def atoi (s : GoString) : Option ℤ :=
  let (neg, rest) :=
    match s with
    | 45 :: rest => (true, rest)
    | 43 :: rest => (false, rest)
    | _ => (false, s)
  (digits rest).bind fun n =>
    let v : ℤ := if neg then -n else n
    if -2 ^ 63 ≤ v ∧ v < 2 ^ 63 then some v else none

/-- The byte `.`. -/
def dot : UInt8 := 46

/-- `parsePatch`: what stands before the first dot and what stands behind
it, as numbers. -/
def parsePatch (p : GoString) : Option (ℤ × ℤ) :=
  match p.dropWhile (· ≠ dot) with
  | [] => none
  | _ :: rest =>
    (atoi (trimSpace (p.takeWhile (· ≠ dot)))).bind fun major =>
      (atoi (trimSpace rest)).map fun minor => (major, minor)

/-- `patchNewer`. -/
def patchNewer (a b : GoString) : Bool :=
  match parsePatch a, parsePatch b with
  | some (am, an), some (bm, bn) => if am ≠ bm then bm < am else bn < an
  | _, _ => b < a

/-- The patch of `e` is superseded by `cur`. -/
def Superseded (cur : GoString) (e : StatEntry) : Prop :=
  ¬ (cur = [] ∨ e.patch = [] ∨ e.patch = cur ∨ patchNewer cur e.patch = false)

instance (cur : GoString) (e : StatEntry) : Decidable (Superseded cur e) :=
  inferInstanceAs (Decidable (¬ _))

/-- `applyDecay`, at the given age of the current patch. -/
def applyDecay (decayedSampleSize : Int64 → ℕ → Int64) (cur : GoString) (age : ℕ)
    (e : StatEntry) : StatEntry :=
  if Superseded cur e then { e with sampleSize := decayedSampleSize e.sampleSize age } else e

/-! ## The primary patch -/

/-- `promoteThreshold`. -/
def promoteThreshold : Int64 := 500

/-- What a server keeps under `patchMu`: `currentPatch` and since when, and
`seenPatches`. Times are readings of the clock. -/
structure Patches where
  currentPatch : GoString
  currentPatchSince : ℕ
  seenPatches : AList fun _ : GoString => ℕ

namespace Patches

/-- The part of `NewServer`. -/
def new (now : ℕ) : Patches := { currentPatch := [], currentPatchSince := now, seenPatches := ∅ }

/-- A patch that was not seen before is noted. -/
def see (now : ℕ) (patch : GoString) (s : Patches) : Patches :=
  if patch ∈ s.seenPatches then s
  else { s with seenPatches := s.seenPatches.insert patch now }

/-- `s.currentPatch = patch`, from now on. -/
def promote (now : ℕ) (patch : GoString) (s : Patches) : Patches :=
  { s with currentPatch := patch, currentPatchSince := now }

/-- `trackPatch`, of a patch and a sample size; it reads the clock up to
twice. -/
def trackPatch (now now' : ℕ) (patch : GoString) (sampleSize : Int64) (s : Patches) : Patches :=
  if patch = [] then s
  else
    let s := s.see now patch
    if s.currentPatch = [] then s.promote now' patch
    else if sampleSize ≥ promoteThreshold ∧ patchNewer patch s.currentPatch then
      s.promote now' patch
    else s

/-- `NotifyPatch`. -/
def notifyPatch (now now' : ℕ) (patch : GoString) (s : Patches) : Patches :=
  if patch = [] then s
  else
    let s := s.see now patch
    if s.currentPatch = [] then s.promote now' patch else s

end Patches

/-- A call that names a patch. -/
inductive PatchCall where
  | track (now now' : ℕ) (patch : GoString) (sampleSize : Int64)
  | notify (now now' : ℕ) (patch : GoString)

/-- The patch it names. -/
def PatchCall.patch : PatchCall → GoString
  | .track _ _ patch _ => patch
  | .notify _ _ patch => patch

/-- One call. -/
def Patches.call (s : Patches) : PatchCall → Patches
  | .track now now' patch sampleSize => s.trackPatch now now' patch sampleSize
  | .notify now now' patch => s.notifyPatch now now' patch

/-- The calls of a server, one after the other. -/
def Patches.run (now : ℕ) (calls : List PatchCall) : Patches := calls.foldl Patches.call (.new now)

end Metastore

end TftAnalytics
