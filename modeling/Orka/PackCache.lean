import Orka.Pack

/-!
# Packs with a codebook cache

The codebooks of the first stage are taken from the cache directory where it has a file under their key; otherwise they are learned
and saved there. The cache directory may lie in the output directory, where an earlier pack may have left files.
-/

namespace Orka

/-- The codebooks of a cache directory by key: its files `<key>.npy`, those that do not load left out. -/
abbrev CodebookCache (α : Type) := List (String × List (List α))

/-- `_codebook_cache_key(parts)`, over the digest of a text. -/
def codebookCacheKey (digest : String → String) (parts : List String) : String := digest ("|".intercalate parts)

/-- The arguments of a pack that its keys are made of, each as `str` prints it. -/
structure CacheKeyArgs where
  srcSig : String
  sampleVectors : String
  iterations : String
  backend : String
  normalization : String
  rotation : String
  rotationSeed : String
  outlierFrac : String
  maxTensors : String

/-- The key of the first codebook of a streamed tensor. -/
def perTensorKeyParts (args : CacheKeyArgs) (name groupSize k weightsDigest : String) : List String :=
  ["per-tensor", args.srcSig, name, groupSize, k, args.sampleVectors, args.iterations, args.backend, args.normalization,
    args.rotation, args.rotationSeed, args.outlierFrac, args.maxTensors, "0", weightsDigest]

/-- The key of a first codebook that tensors share. -/
def sharedKeyParts (args : CacheKeyArgs) (mode key groupSize k weighting : String) : List String :=
  ["shared", args.srcSig, mode, key, groupSize, k, args.sampleVectors, args.iterations, args.backend, args.normalization,
    args.rotation, args.rotationSeed, args.outlierFrac, args.maxTensors, "0", weighting]

/-- A first codebook of a pack: the parts of its key, and the codebook learned where the cache has none. -/
structure FirstCodebook (α : Type) where
  parts : List String
  learned : List (List α)

/-- `codebook_cache_dir`: not given, outside the output directory with what it holds, or inside. -/
inductive CacheDir (α : Type) where
  | absent
  | outside (held : CodebookCache α)
  | inside

/-- An output directory, and the codebooks in it where the cache lies inside. -/
structure CachedDirectory (α τ : Type) extends Directory α τ where
  cache : CodebookCache α := []

/-- The arguments of a pack with a codebook cache. What the pack makes of a tensor depends on the first codebooks. -/
structure CachingArgs (α τ : Type) where
  cacheDir : CacheDir α
  digest : String → String
  firstCodebooks : List (SourceTensor τ) → List (FirstCodebook α)
  args : List (List (List α)) → PackArgs α τ
  select : SelectArgs
  header : ManifestHeader
  args_select : ∀ cbs, (args cbs).select = select
  args_header : ∀ cbs, (args cbs).header = header

/-- The first codebooks one after another: `_codebook_cache_load`, or the learned one and `_codebook_cache_save`. -/
def takeCodebooks {α : Type} (digest : String → String) :
    List (FirstCodebook α) → CodebookCache α → List (List (List α)) × CodebookCache α
  | [], cache => ([], cache)
  | s :: ss, cache =>
    match Journal.get cache (codebookCacheKey digest s.parts) with
    | some cb =>
      let rest := takeCodebooks digest ss cache
      (cb :: rest.1, rest.2)
    | none =>
      let rest := takeCodebooks digest ss (cache ++ [(codebookCacheKey digest s.parts, s.learned)])
      (s.learned :: rest.1, rest.2)

section Pack

variable {α τ : Type} [Field α] [LinearOrder α] [FloorRing α]

/-- The first codebooks of a pack, and the cache in the output directory after them. -/
def CachingArgs.codebooks (p : CachingArgs α τ) (source : List (SourceTensor τ)) (cache : CodebookCache α) :
    List (List (List α)) × CodebookCache α :=
  match p.cacheDir with
  | .absent => ((p.firstCodebooks source).map FirstCodebook.learned, cache)
  | .outside held => ((takeCodebooks p.digest (p.firstCodebooks source) held).1, cache)
  | .inside => takeCodebooks p.digest (p.firstCodebooks source) cache

/-- `pack_checkpoint(source, out_dir, codebook_cache_dir=..., ...)`: the directory it leaves. -/
def packCached (p : CachingArgs α τ) (source : List (SourceTensor τ)) (dir : CachedDirectory α τ) :
    Except PyErr (CachedDirectory α τ) :=
  let cbs := p.codebooks source dir.cache
  (packInto (p.args cbs.1) source dir.toDirectory).map fun out => { toDirectory := out, cache := cbs.2 }

end Pack

end Orka
