import ContentSdl.Generate
import ContentSdl.Main
import ContentSdl.Proofs.FieldTree
import ContentSdl.Proofs.Events
import ContentSdl.Proofs.BuildEvents
import ContentSdl.Proofs.WrappedTypes
import ContentSdl.Proofs.FieldBodies
import ContentSdl.Proofs.BuildSequence
import ContentSdl.Proofs.Closure
import ContentSdl.Proofs.Placeholders
import ContentSdl.Proofs.Registration
import ContentSdl.Proofs.JsonText
import ContentSdl.Proofs.MemberOrder
import ContentSdl.Proofs.RecordDecoding
import ContentSdl.Proofs.WireFormat
import ContentSdl.Proofs.RoundTrip
import ContentSdl.Proofs.Siblings
import ContentSdl.Proofs.NestedTypes
import ContentSdl.Proofs.ObjectsKept
import ContentSdl.Proofs.Handover
import ContentSdl.Proofs.InsertionOrder
import ContentSdl.Proofs.OnePass
import ContentSdl.Proofs.FieldMaps
import ContentSdl.Proofs.Visits
import ContentSdl.Proofs.SharedDefinitions
import ContentSdl.Proofs.UsedBefore
import ContentSdl.Proofs.DeclarationOrder
import ContentSdl.Proofs.BuildOrder
import ContentSdl.Proofs.RecordEntries
import ContentSdl.Proofs.NodeSimulation
import ContentSdl.Proofs.NodeAgreement
import ContentSdl.Proofs.DecodingPaths
import ContentSdl.Proofs.ReadAgain
import ContentSdl.Proofs.FirstViolation
import ContentSdl.Proofs.RegistrationRuns
import ContentSdl.Proofs.UnionNames
import ContentSdl.Proofs.UnionMembers
import ContentSdl.Proofs.RecordMembers
import ContentSdl.Proofs.WireGrammar
import ContentSdl.Proofs.Composition
import ContentSdl.Proofs.EntryFields
import ContentSdl.Proofs.SkippedTypes
import ContentSdl.Proofs.EmptyNodes
import ContentSdl.Proofs.ParallelWalks
import ContentSdl.Proofs.MandatoryMarks
import ContentSdl.Proofs.BlockVariants
import ContentSdl.Proofs.Rebuilding
import ContentSdl.Proofs.RecordOutcomes
import ContentSdl.Proofs.DecodingRoom
import ContentSdl.Proofs.IrrelevantMembers
import ContentSdl.Proofs.ResultText
import ContentSdl.Proofs.ProperUnions
import ContentSdl.Proofs.OptionsRead
import ContentSdl.Proofs.CommandOutput
