import PoseMachine.Animator.Json
import PoseMachine.Animator.Running
import PoseMachine.Baked.Validity
import PoseMachine.Config.Json
import PoseMachine.Graph.Author
import PoseMachine.Proofs.Flattening
import PoseMachine.Proofs.Parameters
import PoseMachine.Proofs.Drafting
import PoseMachine.Proofs.Packing
import PoseMachine.Proofs.BakeSoundness
import PoseMachine.Proofs.AuthoredChoice
import PoseMachine.Proofs.Nesting
import PoseMachine.Proofs.Playing
import PoseMachine.Proofs.Session
import PoseMachine.Proofs.RunSafety
import PoseMachine.Proofs.Fallbacks
import PoseMachine.Proofs.Strictness
import PoseMachine.Proofs.References
import PoseMachine.Proofs.Preorder
import PoseMachine.Proofs.Steps
import PoseMachine.Proofs.Coherence
import PoseMachine.Proofs.Ancestry
import PoseMachine.Proofs.Whereabouts
import PoseMachine.Proofs.Unpacking
import PoseMachine.Proofs.BakedRecords
import PoseMachine.Proofs.GraphRecords
import PoseMachine.Proofs.ReorderedRuns
import PoseMachine.Proofs.RenumberedBakes
import PoseMachine.Proofs.Binding
import PoseMachine.Proofs.LayeredRuns
import PoseMachine.Proofs.Towers
import PoseMachine.Proofs.EntryChains
import PoseMachine.Proofs.ExitGroups
import PoseMachine.Proofs.ClipSlots
import PoseMachine.Proofs.Declarations
import PoseMachine.Proofs.RunningBlends
import PoseMachine.Proofs.SampleRequests
import PoseMachine.Proofs.LiveValues
import PoseMachine.Proofs.ReusedIds
import PoseMachine.Proofs.Clock
import PoseMachine.Proofs.CurveKeys
import PoseMachine.Proofs.PlaneWeights
import PoseMachine.Proofs.Positions
import PoseMachine.Proofs.Containment
