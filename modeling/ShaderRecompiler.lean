import ShaderRecompiler.Names
import ShaderRecompiler.Proofs.Addressing
import ShaderRecompiler.Proofs.AttributeFetch
import ShaderRecompiler.Proofs.Bindings
import ShaderRecompiler.Proofs.Capturing
import ShaderRecompiler.Proofs.ControlFlow
import ShaderRecompiler.Proofs.Demands
import ShaderRecompiler.Proofs.Implicit
import ShaderRecompiler.Proofs.IndexRange
import ShaderRecompiler.Proofs.Literals
import ShaderRecompiler.Proofs.LoopNest
import ShaderRecompiler.Proofs.NativeFeedback
import ShaderRecompiler.Proofs.Negation
import ShaderRecompiler.Proofs.PlainLists
import ShaderRecompiler.Proofs.Postorder
import ShaderRecompiler.Proofs.Selection
import ShaderRecompiler.Proofs.Soundness
import ShaderRecompiler.Proofs.Typing
import ShaderRecompiler.Proofs.Unresolved
import ShaderRecompiler.Proofs.Visibility
import ShaderRecompiler.Proofs.Visits
