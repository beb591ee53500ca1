import EffectScript.Lexis.TokenId

/-!
# The keywords

The reserved spellings in the order of their ids, and the id of any spelling: that of the keyword
it is, or else its hash.  Directives that come in two forms share a spelling; the first form is
the one a spelling stands for.
-/

namespace EffectScript

namespace Vocabulary

/-- The spellings of the ids `1, 2, 3, …`. -/
def words : List String := [
  "#include", "#define", "#undefine", "#define", "#fetchinst",
  "#if", "#ifdef", "#ifndef", "#if", "#ifdef", "#ifndef", "#endif", "#else", "#elif",
  "#warning", "#register_env", "#ifcvar", "#ifncvar", "#elifcvar",
  "|", "&", "(", ")", "[", "]", "\x7b", "\x7d", "<", ">", ",", ".", ":", ";", "!", "\"", "'", "//",
  "?", "=", "+", "-", "/", "*",
  "0", "1", "true", "false",
  "const", "static", "shared", "groupshared",
  "struct", "cbuffer", "register", "packoffset", "inout", "in", "out", "return", "string",
  "sampler", "SamplerState", "SamplerComparisonState",
  "Texture2D", "Texture2DArray", "Texture2DMS", "TextureCube", "TextureCubeArray", "Texture3D",
  "RWTexture2D",
  "float", "float2", "float3", "float4", "float3x3", "float3x4", "float4x4",
  "half", "half2", "half3", "half4", "bool", "int", "int2", "int4", "uint", "uint2", "uint4",
  "technique", "pass", "VertexShader", "PixelShader", "GeometryShader", "HullShader",
  "DomainShader", "ComputeShader", "ZEnable", "ZWriteEnable", "CullMode", "AlphaBlendEnable",
  "SrcBlend", "DestBlend", "ShaderType", "ShaderDrawType", "Public", "NoPreview",
  "LocalConstants"]

/-- The keywords as byte strings. -/
def spellings : List Bytes := words.map Bytes.ofString

/-- The id of a keyword. -/
def find? (spelling : Bytes) : Option TokenId :=
  (spellings.idxOf? spelling).map fun i => UInt32.ofNat (i + 1)

end Vocabulary

namespace TokenId

/-- The id of a spelling. -/
def ofSpelling (spelling : Bytes) : TokenId :=
  (Vocabulary.find? spelling).getD (hash spelling)

/-- The spelling of a keyword id. -/
def keyword? (id : TokenId) : Option Bytes :=
  match id.toNat with
  | 0 => none
  | n + 1 => Vocabulary.spellings[n]?

/-- How messages show an id that is not spelled by a table: by keyword, or in hexadecimal. -/
def name (id : TokenId) : Bytes :=
  if id = eol then Bytes.ofString "EOL"
  else
    match keyword? id with
    | some spelling => spelling
    | none => Bytes.ofString "0x" ++ Bytes.hex 8 id.toNat

end TokenId

end EffectScript
