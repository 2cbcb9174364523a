import EstreeLowering.Binary64.Numeral
import EstreeLowering.LogFormat
import EstreeLowering.Main
import EstreeLowering.Node.Equal
import EstreeLowering.Proofs.Walk.WellFormedness
import EstreeLowering.Proofs.Walk.Derivation
import EstreeLowering.Proofs.Walk.Repetition
import EstreeLowering.Proofs.Walk.Fusion
import EstreeLowering.Proofs.Node.Plugging
import EstreeLowering.Proofs.Walk.Limit
import EstreeLowering.Proofs.Node.Observation
import EstreeLowering.Proofs.Walk.Conservation
import EstreeLowering.Proofs.Walk.Shape
import EstreeLowering.Proofs.Node.Rejection
import EstreeLowering.Proofs.Node.Undedicated
import EstreeLowering.Proofs.Node.Spelling
import EstreeLowering.Proofs.Walk.Counting
import EstreeLowering.Proofs.Rule.Meaning
import EstreeLowering.Proofs.Run.Phases
import EstreeLowering.Proofs.Rule.CanonicalForm
import EstreeLowering.Proofs.Walk.Directives
import EstreeLowering.Proofs.Walk.HookOrder
import EstreeLowering.Proofs.Walk.Log
import EstreeLowering.Proofs.Walk.Report
import EstreeLowering.Proofs.Json.Nesting
import EstreeLowering.Proofs.Node.OwnData
import EstreeLowering.Proofs.Node.Equality
import EstreeLowering.Proofs.Walk.EqualTrees
import EstreeLowering.Proofs.CommandLine.Sayings
import EstreeLowering.Proofs.CommandLine.Spelling
import EstreeLowering.Proofs.Config.Description
import EstreeLowering.Proofs.Config.Reading
import EstreeLowering.Proofs.Walk.Budget
import EstreeLowering.Proofs.Walk.Registration
