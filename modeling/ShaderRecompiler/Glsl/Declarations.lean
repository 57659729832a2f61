import ShaderRecompiler.Glsl.Context
import ShaderRecompiler.Glsl.Lines

/-! Everything before the functions: version and extensions, the layout of the
stage, buffers and memories, textures and images, and the stage interface. -/
namespace ShaderRecompiler.Glsl.Context

def extension (name : String) : String := s!"#extension {name} : enable"

def banner (x : Context) : Lines :=
  if !x.debug then []
  else
    [s!"// {x.config.stage.name} shader"] ++
      if x.config.emulated then
        [s!"// {x.config.guestStage.name} stage emulated with a compute dispatch"]
      else []

def ballotExtensions (x : Context) : List String :=
  if x.capabilities.shaderBallot then ["GL_ARB_shader_ballot"]
  else ["GL_KHR_shader_subgroup_basic", "GL_KHR_shader_subgroup_ballot"]

def stageExtensions (x : Context) : List String :=
  match x.config.stage with
  | .compute => ["GL_ARB_compute_shader"]
  | .fragment =>
    if x.capabilities.fragmentShaderInterlock then ["GL_ARB_fragment_shader_interlock"]
    else if x.capabilities.fragmentShaderOrdering then ["GL_INTEL_fragment_shader_ordering"]
    else []
  | .vertex => ["GL_ARB_shader_draw_parameters", "GL_ARB_shader_viewport_layer_array"]
  | .geometry =>
    ["GL_ARB_shader_viewport_layer_array"] ++
      if x.geometryPassthrough then ["GL_NV_geometry_shader_passthrough"] else []
  | .tessControl | .tessEvaluation => ["GL_ARB_shader_viewport_layer_array"]

def extensions (x : Context) : List String :=
  ["GL_ARB_gpu_shader_int64"] ++ x.ballotExtensions ++
    ["GL_ARB_shader_group_vote", "GL_EXT_shader_image_load_formatted", "GL_EXT_texture_shadow_lod"] ++
    x.stageExtensions ++ if x.capabilities.viewportMask then ["GL_NV_viewport_array2"] else []

def header (x : Context) : Lines :=
  [if x.api = .vulkan then "#version 460 core" else "#version 450 core"] ++ x.banner ++
    x.extensions.map extension ++
    ["#pragma optionNV(fastmath off)", "", "const int undef = 0;", ""]

/-- Vulkan turns the vertical axis around, and with it the winding. -/
def winding (x : Context) : String :=
  if x.config.patchClockwise != (x.api == .vulkan) then "cw" else "ccw"

def stageLayout (x : Context) : Lines :=
  let c := x.config
  Lines.paragraph <|
    match c.stage with
    | .geometry =>
      [s!"layout (invocations = {c.invocations}, {c.inputTopology.keyword}) in;"] ++
        if x.geometryPassthrough then
          ["layout (passthrough) in gl_PerVertex"] ++
            Lines.block ["vec4 gl_Position;", "float gl_PointSize;", "float gl_ClipDistance[];"]
              " gl_in[];"
        else [s!"layout ({c.outputTopology.keyword}, max_vertices = {c.maxOutputVertices}) out;"]
    | .tessControl => [s!"layout (vertices = {c.invocations}) out;"]
    | .tessEvaluation =>
      [s!"layout ({c.patchKind.keyword}, {c.patchSpacing.keyword}, {x.winding}) in;"]
    | .compute =>
      let size := c.localSize
      [s!"layout (local_size_x = {size.x}, local_size_y = {size.y}, local_size_z = {size.z}) in;"]
    | .fragment =>
      (if c.forcesEarlyTests then ["layout(early_fragment_tests) in;"] else []) ++
        if c.originUpperLeft then ["layout (origin_upper_left) in vec4 gl_FragCoord;"] else []
    | .vertex => []

def fieldLine (f : Field) : String :=
  let array := match f.length with
    | none => ""
    | some 0 => "[]"
    | some n => s!"[{n}]"
  s!"{f.type.keyword} {f.name}{array};"

def bufferLines (x : Context) (keyword : String) (b : Buffer) : Lines :=
  let set := if x.api = .vulkan then s!"set = {b.set}, " else ""
  [s!"layout ({set}binding = {b.binding}, {b.layout.keyword}) {keyword} _{b.name}"] ++
    Lines.block (b.fields.map fieldLine) s!" {b.name};" ++ [""]

def memoryLine (qualifier : String) (m : Memory) : String :=
  match m.length with
  | some n => s!"{qualifier}uint {m.name}[{n}];"
  | none => s!"{qualifier}uint {m.name};"

def bindingLayout (x : Context) (t : Texture) : String :=
  if x.api = .vulkan then s!"binding = {t.binding}, set = {t.set}" else s!"binding = {t.binding}"

def textureLine (x : Context) (t : Texture) : String :=
  s!"layout ({x.bindingLayout t}) uniform {t.sampler.textureKeyword t.type} {t.name};"

def imageFormat : NumType → String
  | .s32 => "rgba32i"
  | .u32 => "rgba32ui"
  | .f32 => "rgba32f"

def imageLine (x : Context) (t : Texture) : String :=
  s!"layout ({x.bindingLayout t}, {imageFormat t.type}) uniform {t.sampler.imageKeyword t.type} {t.name};"

def resourceLines (x : Context) : Lines :=
  let r := x.resources
  r.sortedConstantBuffers.flatMap (x.bufferLines "uniform") ++
    r.sortedStorageBuffers.flatMap (x.bufferLines "buffer") ++
    Lines.paragraph (r.localMemories.map (memoryLine "") ++ r.sharedMemories.map (memoryLine "shared ")) ++
    Lines.paragraph (r.sortedTextures.map x.textureLine ++ r.sortedImages.map x.imageLine)

def vec4 (type : NumType) : String := (ValueType.ofNum type).vector 4

def patchLine (direction : String) (index : Nat) : String :=
  s!"layout (location = {Attribute.patchLocation index}) patch {direction} vec4 patch_attr{index};"

def inputLine (x : Context) (arrayed : String) (location : Nat) : String :=
  let c := x.config
  let passthrough :=
    if c.stage = .geometry ∧ x.geometryPassthrough ∧ Mask.test x.usage.passthrough location then
      "passthrough, "
    else ""
  let interpolation := if c.stage = .fragment then (c.interpolation location).qualifier else ""
  let type := vec4 (c.userType location false)
  s!"layout ({passthrough}location = {location}) {interpolation}in {type} in_attr{location}{arrayed};"

def inputLines (x : Context) : Lines :=
  let arrayed := if x.config.stage.hasArrayedInputs then "[]" else ""
  let generic :=
    if x.features.inputIndexing then
      [s!"layout (location = 0) in vec4 in_attr{arrayed}[{Attribute.userLocations}];"]
    else (Mask.below (x.usage.inputs ||| x.usage.passthrough) 32).map (x.inputLine arrayed)
  let patches :=
    if x.config.stage = .tessEvaluation then x.usage.patchInputs.map (patchLine "in") else []
  if x.config.stage = .compute then [] else Lines.paragraph (generic ++ patches)

def captureQualifier (capture : Capture) : String :=
  s!"xfb_buffer = {capture.buffer}, xfb_offset = {capture.offset}, xfb_stride = {capture.stride}"

/-- The leading `run` components stand together, the others alone. -/
def capturedLines (x : Context) (location run : Nat) : Lines :=
  let qualifier (component : Nat) : String :=
    (Capture.ofUser? x.config.feedback location component).elim "" fun capture =>
      ", " ++ captureQualifier capture
  let together :=
    if 1 < run then
      [s!"layout (location = {location}{qualifier 0}) out vec{run} out_attr{location};"]
    else []
  let alone := (List.range 4).drop (if 1 < run then run else 0)
  together ++ alone.map fun component =>
    let name := swizzles.getD component ""
    let place := s!"location = {location}, component = {component}{qualifier component}"
    s!"layout ({place}) out float out_attr{location}_{name};"

def outputLine (x : Context) (arrayed : String) (location : Nat) : Lines :=
  match x.capturedRun? location with
  | some run => x.capturedLines location run
  | none => [s!"layout (location = {location}) out vec4 out_attr{location}{arrayed};"]

def writesTarget (x : Context) (target : Nat) : Bool :=
  (List.range 4).any (x.config.writesColor target)

def colorLine (x : Context) (layout : String) (target : Nat) : String :=
  s!"layout ({layout}) out {vec4 (x.config.colorType target)} out_attr{target};"

/-- Dual-source blending pairs the first target with the one after it. -/
def colorLines (x : Context) : Lines :=
  let targets := (List.range 8).filter x.writesTarget
  let single (target : Nat) : String := x.colorLine s!"location = {target}" target
  match targets with
  | first :: second :: rest =>
    if x.config.dualSourceBlend ∧ second = first + 1 then
      [x.colorLine s!"location = {first}, index = 0" first,
        x.colorLine s!"location = {first}, index = 1" second] ++ rest.map single
    else targets.map single
  | _ => targets.map single

def positionAddress : Nat := 0x070

def capturedPosition (x : Context) : Lines :=
  match if x.nativeFeedback then Capture.ofWord? x.config.feedback (positionAddress / 4) else none with
  | some capture =>
    [s!"layout ({captureQualifier capture}) out gl_PerVertex"] ++ Lines.block ["vec4 gl_Position;"] ";"
  | none => []

def outputLines (x : Context) : Lines :=
  let arrayed := if x.config.stage.hasArrayedOutputs then "[]" else ""
  let generic :=
    if x.features.outputIndexing then
      [s!"layout (location = 0) out vec4 out_attr{arrayed}[{Attribute.userLocations}];"]
    else (Mask.below x.usage.outputs 32).flatMap (x.outputLine arrayed)
  let patches :=
    if x.config.stage = .tessControl then x.usage.patchOutputs.map (patchLine "out") else []
  Lines.paragraph <|
    match x.config.stage with
    | .compute => []
    | .fragment => x.colorLines
    | _ => generic ++ patches ++ x.capturedPosition

end ShaderRecompiler.Glsl.Context
