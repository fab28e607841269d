import MesaSim.Nir.Ir
import MesaSim.Nir.Alu
import MesaSim.Nir.Walk
import MesaSim.Nir.Defer
import MesaSim.Nir.Build
import MesaSim.Nir.Eval
import MesaSim.Nir.Exec
import MesaSim.Cs.Invocation
import MesaSim.Cs.Lower
import MesaSim.Cs.Deferred
import MesaSim.Cs.Spec
import MesaSim.Cs.Values
import MesaSim.Cs.Preserve
import MesaSim.Cs.Simulation
import MesaSim.Lima.State
import MesaSim.Lima.Scissor
import MesaSim.Lima.Job
import MesaSim.Lima.Uniform
import MesaSim.Lima.Draw
import MesaSim.Lima.JobInv
import MesaSim.Lima.JobRuns
import MesaSim.Lima.UniformRuns
import MesaSim.Lima.SubDraws
import MesaSim.Lima.Varying
import MesaSim.Lima.RenderState
import MesaSim.Rt.Lower
import MesaSim.Rt.Code
import MesaSim.Rt.Deferred
import MesaSim.Rt.Spec
import MesaSim.Rt.Values
import MesaSim.Rt.Stack
