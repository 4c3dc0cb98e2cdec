import AgenticCore.Worklist
import AgenticCore.Text
import AgenticCore.Json
import AgenticCore.Basic
import AgenticCore.InstructionApplicability
import AgenticCore.Acyclic
import AgenticCore.Continuity
import AgenticCore.Lineage
import AgenticCore.DecisionReport
import AgenticCore.DecisionSource
import AgenticCore.DecisionSelection
import AgenticCore.JsonText
import AgenticCore.JsonPretty
import AgenticCore.FirstMatch
import AgenticCore.Interleaving
import AgenticCore.Invocation
import AgenticCore.Attempt
import AgenticCore.AttemptStore
import AgenticCore.AtMostOnce
import AgenticCore.Interruption
import AgenticCore.JsonBytes
import AgenticCore.MemoryCandidates
import AgenticCore.MemoryView
import AgenticCore.MemoryRecovery
import AgenticCore.MemoryBounds
import AgenticCore.Registry
import AgenticCore.CapabilityAdmission
import AgenticCore.PublicRequest
import AgenticCore.ContributionAdmission
import AgenticCore.Compile
import AgenticCore.Composition
import AgenticCore.ReadyActions
import AgenticCore.Reordering
import AgenticCore.OrderIndependence
import AgenticCore.InvocationIdentity
import AgenticCore.Completion
import AgenticCore.RetirementGroups
import AgenticCore.AdoptionCustody
import AgenticCore.Footprint
import AgenticCore.Repository
import AgenticCore.EffectEvidence
import AgenticCore.RepositoryPaths
import AgenticCore.NativePatch
import AgenticCore.PatchIntegration
import AgenticCore.PatchRecovery
import AgenticCore.ResolveSelected
import AgenticCore.RestrictionsKept
import AgenticCore.NativeIndependent
import AgenticCore.IndependentContainment
import AgenticCore.JsonPath
import AgenticCore.PlanningUpdate
import AgenticCore.PlanningDelta
import AgenticCore.Fnmatch
import AgenticCore.ExclusiveCustody
import AgenticCore.ActionIdentity
import AgenticCore.Lines
import AgenticCore.PatchLines
import AgenticCore.CanonicalRecord
import AgenticCore.AnsweredDecision
import AgenticCore.PlanningProposal
import AgenticCore.PlanningReconciliation
import AgenticCore.InstructionSource
import AgenticCore.DependencyBinding
import AgenticCore.Pattern
import AgenticCore.ProofReceipt
import AgenticCore.Paging
import AgenticCore.SemanticRoutes
import AgenticCore.InstructionView
import AgenticCore.AssuranceApplicability
import AgenticCore.DirectoryTree
import AgenticCore.EvidencePath
import AgenticCore.ComparativeAssessment
import AgenticCore.JsonSchema
import AgenticCore.NativeOwnership
import AgenticCore.OwnershipMembers
import AgenticCore.OwnershipMerge
import AgenticCore.OwnershipConservation
import AgenticCore.OwnershipLedger
import AgenticCore.Marker
import AgenticCore.ManagedFence
import AgenticCore.EnclaveWalk
import AgenticCore.EnclaveRemoval
import AgenticCore.Utf8
import AgenticCore.SourceObservation
import AgenticCore.CompactJson
import AgenticCore.ReviewAuthentication
import AgenticCore.NativeClaimReview
import AgenticCore.ClaimJudgment
import AgenticCore.DecisionDocument
import AgenticCore.MemoryCapture
import AgenticCore.SkillExposure
import AgenticCore.SkillOwnership
import AgenticCore.InstructionWrite
import AgenticCore.InstructionResolution
import AgenticCore.InstructionPosture
import AgenticCore.VerificationStrategy
import AgenticCore.BindingProof
import AgenticCore.RepositoryTransfer
