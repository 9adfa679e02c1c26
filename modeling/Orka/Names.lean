import Mathlib
import Orka.Lib.Numerals

/-!
# File names

`_safe_tensor_name`, which turns the name of a tensor into a part of a file name, and the names of the files a pack writes of a
tensor, relative to the artifact's directory. Several places of the source form these names; they agree but for one.
-/

namespace Orka

/-- The characters of `[A-Za-z0-9_.-]`. -/
def isSafeChar (c : Char) : Bool := c.isAlphanum || c = '_' || c = '.' || c = '-'

/-- `re.sub(r"[^A-Za-z0-9_.-]+", "_", name)`; the flag says whether the character before was replaced. -/
def squashUnsafe : Bool → List Char → List Char
  | _, [] => []
  | run, c :: cs =>
    if isSafeChar c then c :: squashUnsafe false cs
    else if run then squashUnsafe true cs
    else '_' :: squashUnsafe true cs

/-- `safe.strip("._")`. -/
def stripDots (cs : List Char) : List Char :=
  (((cs.dropWhile fun c => c = '.' || c = '_').reverse).dropWhile fun c => c = '.' || c = '_').reverse

/-- `_safe_tensor_name(name)`. -/
def safeTensorName (name : String) : String :=
  match stripDots (squashUnsafe false name.toList) with
  | [] => "tensor"
  | cs => String.ofList cs

/-- The files of one tensor. -/
inductive TensorFile where
  | codebook (stage : ℕ)
  | indices (stage : ℕ)
  | blockScale
  | colScale
  | awqColScale
  | outlierIdx
  | outlierVal
  | salientIdx
  | salientVal
  deriving DecidableEq, Repr

/-- What a file name has after the tensor's. The short form is that of a pack with one stage and streamed tensors. -/
def TensorFile.suffix (short : Bool) : TensorFile → String
  | .codebook stage => if short then ".codebook.f32" else ".s" ++ toString stage ++ ".codebook.f32"
  | .indices stage => if short then ".indices" else ".s" ++ toString stage ++ ".indices"
  | .blockScale => ".block_max_scale.f32"
  | .colScale => ".col_l2_scale.f32"
  | .awqColScale => ".awq_col_scale.f32"
  | .outlierIdx => ".outliers.idx"
  | .outlierVal => ".outliers.val"
  | .salientIdx => ".salient.idx"
  | .salientVal => ".salient.val"

/-- The path of a tensor's file, `safe` its safe name. -/
def tensorPath (short : Bool) (safe : String) (file : TensorFile) : String := "tensors/" ++ (safe ++ file.suffix short)

/-- The path of a shared codebook; the key is `global` or a family. -/
def sharedCodebookPath (nStages : ℕ) (key : String) (stage : ℕ) : String :=
  "codebooks/" ++ (key ++ if nStages = 1 then ".codebook.f32" else ".s" ++ toString stage ++ ".codebook.f32")

end Orka
