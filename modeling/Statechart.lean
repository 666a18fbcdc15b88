import Statechart.Build
import Statechart.Checkpoint.Binary
import Statechart.Checkpoint.Json
import Statechart.Checkpoint.Restore
import Statechart.Summary
import Statechart.Proofs.Ancestry
import Statechart.Proofs.BuiltChart
import Statechart.Proofs.Agreement
import Statechart.Proofs.ValidConfiguration
import Statechart.Proofs.Domain
import Statechart.Proofs.Recording
import Statechart.Proofs.Arrival
import Statechart.Proofs.Effects
import Statechart.Proofs.EntryAgreement
import Statechart.Proofs.EntryTermination
import Statechart.Proofs.GeneralSafety
import Statechart.Proofs.PureGuards
import Statechart.Proofs.RunToCompletion
import Statechart.Proofs.Judging
import Statechart.Proofs.Priority
import Statechart.Proofs.Conflict
import Statechart.Proofs.Maximality
import Statechart.Proofs.Independence
import Statechart.Proofs.Fidelity
import Statechart.Proofs.Resumption
import Statechart.Proofs.Settling
import Statechart.Proofs.Checkpointing
import Statechart.Proofs.DoneEvents
import Statechart.Proofs.Routes
import Statechart.Proofs.Delivery
import Statechart.Proofs.Replay
import Statechart.Proofs.Watching
import Statechart.Proofs.Lifecycle
import Statechart.Proofs.Preorder
import Statechart.Proofs.Arena
import Statechart.Proofs.WellDeclared
import Statechart.Proofs.Admission
import Statechart.Proofs.ByteCodec
import Statechart.Proofs.JsonCodec
import Statechart.Proofs.DomainShift
import Statechart.Proofs.FullConfiguration
import Statechart.Proofs.TargetCompatibility
import Statechart.Proofs.ActionOrder
import Statechart.Proofs.HistoryDefaults
import Statechart.Proofs.JointActivity
import Statechart.Proofs.ActionAttempts
import Statechart.Proofs.Payload
import Statechart.Proofs.PlanTermination
import Statechart.Proofs.CommonAncestor
import Statechart.Proofs.Descriptors
