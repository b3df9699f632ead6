import SerialManifest.AccessFlags
import SerialManifest.Archive.Basic
import SerialManifest.Archive.Encoding
import SerialManifest.Candidate
import SerialManifest.ClassFile.Basic
import SerialManifest.ClassFile.ConstantPool
import SerialManifest.ClassFile.Decoder
import SerialManifest.ClassFile.Parser
import SerialManifest.CommandLine.Basic
import SerialManifest.CommandLine.Help
import SerialManifest.CommandLine.Reader
import SerialManifest.Contract
import SerialManifest.Descriptor
import SerialManifest.Eligibility
import SerialManifest.Field
import SerialManifest.FileTree.Basic
import SerialManifest.FileTree.Changes
import SerialManifest.FileTree.Fault
import SerialManifest.FileTree.Listing
import SerialManifest.FileTree.Path
import SerialManifest.FileTree.Resolve
import SerialManifest.FileTree.Write
import SerialManifest.Generation
import SerialManifest.Main
import SerialManifest.Program
import SerialManifest.Proofs.AttributeBoundaries
import SerialManifest.Proofs.CandidatePlaces
import SerialManifest.Proofs.CapabilityReachability
import SerialManifest.Proofs.CatalogDescription
import SerialManifest.Proofs.ClassFileGrammar
import SerialManifest.Proofs.ClassFileLanguage
import SerialManifest.Proofs.ClasspathAgreement
import SerialManifest.Proofs.ClasspathCache
import SerialManifest.Proofs.ClasspathHierarchy
import SerialManifest.Proofs.ClasspathIndex
import SerialManifest.Proofs.ClasspathPrecedence
import SerialManifest.Proofs.ClasspathQuestions
import SerialManifest.Proofs.ClasspathSession
import SerialManifest.Proofs.ConstantPoolLanguage
import SerialManifest.Proofs.ConstantSlots
import SerialManifest.Proofs.ConstantTableLoop
import SerialManifest.Proofs.ContractObligations
import SerialManifest.Proofs.DecoderLanguage
import SerialManifest.Proofs.DirectoryCreation
import SerialManifest.Proofs.ExcludedCapabilities
import SerialManifest.Proofs.ExcusedErrors
import SerialManifest.Proofs.FieldTypeNames
import SerialManifest.Proofs.FileTreeNodes
import SerialManifest.Proofs.FirstDefinitions
import SerialManifest.Proofs.FixedAnswers
import SerialManifest.Proofs.InterruptedWalk
import SerialManifest.Proofs.JsonReader
import SerialManifest.Proofs.LeafTypes
import SerialManifest.Proofs.ManifestDeterminism
import SerialManifest.Proofs.ManifestLines
import SerialManifest.Proofs.ManifestMembership
import SerialManifest.Proofs.MoreNamespaces
import SerialManifest.Proofs.NameJudgement
import SerialManifest.Proofs.NameOrder
import SerialManifest.Proofs.NamelessCandidates
import SerialManifest.Proofs.PairedSearches
import SerialManifest.Proofs.PathAncestors
import SerialManifest.Proofs.PathSpelling
import SerialManifest.Proofs.PathsBelow
import SerialManifest.Proofs.QueryRelations
import SerialManifest.Proofs.RearrangedRoots
import SerialManifest.Proofs.ReorderedWalks
import SerialManifest.Proofs.RepeatedRun
import SerialManifest.Proofs.RepeatedWrite
import SerialManifest.Proofs.ReplacedFile
import SerialManifest.Proofs.RootSpelling
import SerialManifest.Proofs.RunFootprint
import SerialManifest.Proofs.RunOutcomes
import SerialManifest.Proofs.RunOutputs
import SerialManifest.Proofs.RunReports
import SerialManifest.Proofs.SameContents
import SerialManifest.Proofs.SameListings
import SerialManifest.Proofs.SameShape
import SerialManifest.Proofs.ScanAggregator
import SerialManifest.Proofs.ScanFailures
import SerialManifest.Proofs.ScanOutcome
import SerialManifest.Proofs.ScanTally
import SerialManifest.Proofs.ScannerReuse
import SerialManifest.Proofs.SettingsAssignment
import SerialManifest.Proofs.SettingsSpelling
import SerialManifest.Proofs.SettingsStatements
import SerialManifest.Proofs.SparedDefinitions
import SerialManifest.Proofs.StoppedWalk
import SerialManifest.Proofs.SummaryDecoding
import SerialManifest.Proofs.SupplementedTree
import SerialManifest.Proofs.SupplementedWalk
import SerialManifest.Proofs.TextCodecs
import SerialManifest.Proofs.TruncatedClassFile
import SerialManifest.Proofs.ViolationSubjects
import SerialManifest.Proofs.WalkDescent
import SerialManifest.Proofs.WalkEquations
import SerialManifest.Proofs.WalkFindings
import SerialManifest.Proofs.WholeFileWrite
import SerialManifest.Report.Console
import SerialManifest.Report.Json
import SerialManifest.Report.Output
import SerialManifest.Report.Summary
import SerialManifest.Scan.Result
import SerialManifest.Scan.Scanner
import SerialManifest.Settings.Basic
import SerialManifest.Settings.Defaults
import SerialManifest.Settings.Document
import SerialManifest.Settings.Reader
import SerialManifest.Settings.Token
import SerialManifest.Text.Basic
import SerialManifest.Text.Hex
import SerialManifest.Text.Terminal
import SerialManifest.Text.Utf8
import SerialManifest.TypeFacts.Basic
import SerialManifest.TypeFacts.Catalog
import SerialManifest.TypeFacts.Classpath
import SerialManifest.TypeFacts.Hierarchy
import SerialManifest.TypeFacts.TypeIndex
import SerialManifest.Walk
