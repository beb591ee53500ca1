import EffectScript.Conditional.MacroTable
import EffectScript.Script.Reader
import EffectScript.Text.LowerCase

/-!
# Render platforms

A platform is a fixed set of macros: the names it goes by, the features that it always has and
those that were asked for and that it supports, each with the value `1`, and definitions of the
caller's.  Every one of its names is in its spelling table.
-/

namespace EffectScript

/-! ## 1. Kinds and targets -/

/-- The render platforms. -/
inductive PlatformKind where
  | d3d11
  | gl4
  | gles3
  | metal
  | orbis
  | jasper
  deriving DecidableEq, Repr

namespace PlatformKind

/-- The platforms in the order of their codes. -/
def all : List PlatformKind := [d3d11, gl4, gles3, metal, orbis, jasper]

/-- The code of a platform. -/
def code : PlatformKind → Nat
  | d3d11 => 0
  | gl4 => 1
  | gles3 => 2
  | metal => 3
  | orbis => 4
  | jasper => 5

/-- The name of a platform, which is also that of its shader language. -/
def name : PlatformKind → String
  | d3d11 => "D3D11"
  | gl4 => "GL4"
  | gles3 => "GLES3"
  | metal => "METAL"
  | orbis => "ORBIS"
  | jasper => "JASPER"

/-- The platform with the given code. -/
def ofCode? (code : Int) : Option PlatformKind := all.find? fun k => (k.code : Int) = code

/-- The platform with the given code, or the cause that there is none. -/
def ofCode (code : Int) : Except Cause PlatformKind :=
  match ofCode? code with
  | some k => .ok k
  | none => .error (.unknownPlatformCode code)

/-- How messages show a platform code. -/
def codeName (code : Int) : Bytes :=
  match ofCode? code with
  | some k => Bytes.ofString k.name
  | none => Bytes.ofString "Kind(" ++ Bytes.signedDecimal code ++ Bytes.ofString ")"

/-- The platform of that name, in any mixture of cases. -/
def parse (text : Bytes) : Except Cause PlatformKind :=
  match all.find? fun k => Text.spellsWord text k.name with
  | some k => .ok k
  | none => .error (.unknownPlatform text)

/-- How far a shader name's checksum is moved, so that each platform has cache keys of its own. -/
def cacheOffset : PlatformKind → UInt32
  | d3d11 => 0x200
  | gl4 => 0x300
  | gles3 => 0x800
  | metal => 0x900
  | orbis => 0
  | jasper => 0

end PlatformKind

/-- The operating systems of a platform that runs on several. -/
inductive Target where
  | default
  | osx
  | ios
  /-- A code that names no operating system. -/
  | other (code : Int)
  deriving DecidableEq, Repr

namespace Target

/-- The target with the given code. -/
def ofCode (code : Int) : Target :=
  if code = 0 then default else if code = 1 then osx else if code = 2 then ios else other code

/-- The code of a target. -/
def code : Target → Int
  | default => 0
  | osx => 1
  | ios => 2
  | other c => c

/-- The target of that name, in any case; the empty name is the default. -/
def parse (text : Bytes) : Except Cause Target :=
  let name := Text.lower text
  if name = [] then .ok default
  else if name = Bytes.ofString "osx" then .ok osx
  else if name = Bytes.ofString "ios" then .ok ios
  else .error (.unknownTarget text)

end Target

/-! ## 2. Features -/

/-- The features, each with the platforms that support it. -/
def features : List (String × List PlatformKind) := [
  ("FEATURE_MESH_TESSELLATION", [.d3d11, .gl4]),
  ("FEATURE_SELF_SHADOWS", [.d3d11, .gl4, .gles3, .metal]),
  ("FEATURE_PARTICLES_TESSELLATION", [.d3d11, .jasper, .orbis, .gl4]),
  ("FEATURE_SPI_INDEXED_CB", [.d3d11, .gl4, .gles3, .metal]),
  ("FEATURE_SVO_GI", [.d3d11, .gl4, .gles3, .metal, .orbis, .jasper]),
  ("FEATURE_SPI_CONSTANT_BUFFERS", [.d3d11, .gl4, .gles3, .metal, .orbis, .jasper]),
  ("FEATURE_GEOMETRY_SHADERS", [.d3d11, .orbis, .jasper, .gl4]),
  ("FEATURE_DUAL_SOURCE_BLENDING", [.d3d11, .orbis, .jasper, .gl4])]

/-- The features that need not be asked for. -/
def standardFeatures : List Bytes :=
  ["FEATURE_SPI_CONSTANT_BUFFERS", "FEATURE_GEOMETRY_SHADERS",
    "FEATURE_DUAL_SOURCE_BLENDING"].map Bytes.ofString

/-- Whether a platform supports a feature. -/
def PlatformKind.supports (kind : PlatformKind) (feature : Bytes) : Bool :=
  features.any fun (name, kinds) => Bytes.ofString name == feature && kinds.contains kind

/-! ## 3. Platforms -/

/-- The static macros of one platform. -/
structure Platform where
  kind : PlatformKind
  target : Target
  macros : MacroTable
  /-- The spellings of the macro names and of their values. -/
  table : SpellingTable
  deriving DecidableEq, Repr

namespace Platform

/-- The names a platform goes by.  Metal has none without an operating system. -/
def ownNames (kind : PlatformKind) (target : Target) : Except Cause (List Bytes) :=
  match kind with
  | .d3d11 => .ok [Bytes.ofString "PCDX11"]
  | .gl4 => .ok [Bytes.ofString "GL4"]
  | .gles3 => .ok [Bytes.ofString "GLES3", Bytes.ofString "SMALL_UNIFORM_BUFFERS"]
  | .metal =>
    match target with
    | .osx => .ok [Bytes.ofString "METAL", Bytes.ofString "OSXMETAL"]
    | .ios => .ok [Bytes.ofString "METAL", Bytes.ofString "IOSMETAL"]
    | _ => .error .metalTarget
  | .orbis => .ok [Bytes.ofString "ORBIS"]
  | .jasper => .ok [Bytes.ofString "JASPER"]

/-- The platform with one more macro. -/
def addMacro (p : Platform) (name : Bytes) (tokens : List Token) : Except Cause Platform :=
  match p.table.intern name with
  | .error e => .error e
  | .ok (id, table) => .ok { p with table, macros := p.macros.define id ⟨tokens, 0⟩ }

/-- The platform with a macro of value `1` for every name. -/
def addNames (p : Platform) : List Bytes → Except Cause Platform
  | [] => .ok p
  | name :: rest =>
    match p.addMacro name [.lit TokenId.one] with
    | .error e => .error e
    | .ok p => p.addNames rest

/-- The platform with a definition of the caller's; an empty value is `1`. -/
def addDefinition (p : Platform) (name value : Bytes) : Except Cause Platform :=
  match Script.read (if value = [] then Bytes.ofString "1" else value) with
  | .error e => .error e
  | .ok script => { p with table := p.table.merge script.table }.addMacro name script.tokens

/-- The platform with the definitions of the caller's, in order. -/
def addDefinitions (p : Platform) : List (Bytes × Bytes) → Except Error Platform
  | [] => .ok p
  | (name, value) :: rest =>
    match p.addDefinition name value with
    | .error e => .error ((Error.ofCause e).within (.definition name))
    | .ok p => p.addDefinitions rest

/-- The platform of a kind, with the features that are asked for and supported, and with the
caller's definitions. -/
def build (kind : PlatformKind) (target : Target) (asked : List Bytes)
    (definitions : List (Bytes × Bytes)) : Except Error Platform :=
  match ownNames kind target with
  | .error e => .error (Error.ofCause e)
  | .ok names =>
    let enabled := (standardFeatures ++ asked).filter kind.supports
    match (Platform.mk kind target .empty .empty).addNames (names ++ enabled) with
    | .error e => .error (Error.ofCause e)
    | .ok p => p.addDefinitions definitions

/-- Whether the platform defines a name. -/
def defines (p : Platform) (name : Bytes) : Bool := p.macros.defines (TokenId.ofSpelling name)

/-- The name of the platform's shader language. -/
def language (p : Platform) : Bytes := Bytes.ofString p.kind.name

/-- The cache key of a shader with the given name checksum. -/
def cacheKey (p : Platform) (checksum : UInt32) : UInt32 := checksum + p.kind.cacheOffset

end Platform

end EffectScript
