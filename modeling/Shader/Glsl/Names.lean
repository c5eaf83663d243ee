/-!
# Names of GLSL

The spelling of the intrinsic types in GLSL, and the names that a piece of code may use without a
declaration.
-/

namespace Shader.Glsl

def typeSpellings : List (String × String) :=
  [("void", "void"), ("bool", "bool"), ("u8", "uint8_t"), ("u16", "uint16_t"),
   ("u32", "uint32_t"), ("i32", "int32_t"), ("f32", "float"),
   ("vec2f", "vec2"), ("vec2u", "uvec2"), ("vec2i", "ivec2"), ("vec2u16", "u16vec2"),
   ("vec3f", "vec3"), ("vec3u", "uvec3"), ("vec3i", "ivec3"),
   ("vec4f", "vec4"), ("vec4u", "uvec4"),
   ("mat2f", "mat2"), ("mat3f", "mat3"), ("mat4f", "mat4"),
   ("Texture2D", "sampler2D"), ("ArrayTexture2D", "sampler2DArray")]

def spelling? (name : String) : Option String :=
  (typeSpellings.find? (·.1 = name)).map (·.2)

/-- The name of a type or function in the target language. -/
def spelling (name : String) : String := (spelling? name).getD name

/-- Whether a struct of this name is never defined in the output: GLSL has the type, or it is the
mark of a generic type. -/
def isReserved (name : String) : Bool :=
  (spelling? name).isSome || name ∈ ["In", "Out", "PushConstant"]

def isSampler (type : String) : Bool := "sampler".toList.isPrefixOf type.toList

def imageType (format : String) : String :=
  if format ∈ ["r8ui", "r16ui", "r32ui", "rgba8ui", "rgba16ui", "rgba32ui"] then "uimage2D"
  else "image2D"

/-- The value that a specialization constant has if nothing sets it. -/
def specializationDefault (type : String) : String :=
  if type ∈ ["u8", "u16", "u32"] then "1u"
  else if type = "i32" then "1"
  else if type = "bool" then "true"
  else "1.0f"

def builtinTypes : List String :=
  ["void", "bool", "int", "uint", "float", "double",
   "vec2", "vec3", "vec4", "ivec2", "ivec3", "ivec4", "uvec2", "uvec3", "uvec4",
   "bvec2", "bvec3", "bvec4", "u16vec2", "u16vec3", "u16vec4",
   "uint8_t", "uint16_t", "uint32_t", "int32_t", "float16_t",
   "mat2", "mat3", "mat4", "mat2x2", "mat2x3", "mat2x4", "mat3x2", "mat3x3", "mat3x4",
   "mat4x2", "mat4x3", "mat4x4"]

def builtinArithmetic : List String :=
  ["radians", "degrees", "sin", "cos", "tan", "asin", "acos", "atan", "sinh", "cosh", "tanh",
   "pow", "exp", "log", "exp2", "log2", "sqrt", "inversesqrt",
   "abs", "sign", "floor", "trunc", "round", "ceil", "fract", "mod", "min", "max", "clamp",
   "mix", "step", "smoothstep", "isnan", "isinf", "fma",
   "floatBitsToInt", "floatBitsToUint", "intBitsToFloat", "uintBitsToFloat",
   "packUnorm4x8", "unpackUnorm4x8", "packHalf2x16", "unpackHalf2x16",
   "length", "distance", "dot", "cross", "normalize", "faceforward", "reflect", "refract",
   "matrixCompMult", "outerProduct", "transpose", "determinant", "inverse",
   "lessThan", "lessThanEqual", "greaterThan", "greaterThanEqual", "equal", "notEqual",
   "any", "all", "not",
   "bitCount", "findLSB", "findMSB", "bitfieldExtract", "bitfieldInsert"]

def builtinAccess : List String :=
  ["texture", "textureLod", "textureGrad", "textureOffset", "texelFetch", "textureSize",
   "textureGather", "textureQueryLevels", "imageLoad", "imageStore", "imageSize",
   "imageAtomicAdd", "imageAtomicMin", "imageAtomicMax", "dFdx", "dFdy", "fwidth",
   "atomicAdd", "atomicMin", "atomicMax", "atomicAnd", "atomicOr", "atomicXor",
   "atomicExchange", "atomicCompSwap", "barrier", "memoryBarrier", "memoryBarrierShared",
   "groupMemoryBarrier", "subgroupAdd", "subgroupBallot", "subgroupBroadcastFirst",
   "subgroupElect", "subgroupShuffle", "SetMeshOutputsEXT", "EmitMeshTasksEXT",
   "nonuniformEXT"]

def headerNames : List String := ["PI", "out_instance_index", "out_primitive_index"]

/-- Whether the name needs no declaration: GLSL or the header has it. All names that start with
`gl_` belong to GLSL. -/
def isBuiltin (name : String) : Bool :=
  "gl_".toList.isPrefixOf name.toList || name ∈ builtinTypes || name ∈ builtinArithmetic ||
    name ∈ builtinAccess || name ∈ headerNames

end Shader.Glsl
