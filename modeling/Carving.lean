import Carving.Main
import Carving.Proofs.Serving
import Carving.Proofs.Extension
import Carving.Proofs.Resumption
import Carving.Proofs.StoredBlocks
import Carving.Proofs.Following
import Carving.Proofs.InflatedSize
import Carving.Proofs.MemberData
import Carving.Proofs.HeaderGrammar
import Carving.Proofs.MemberBoundary
import Carving.Proofs.CheckValue
import Carving.Proofs.CheckRemainder
import Carving.Proofs.WrittenMember
import Carving.Proofs.RecordFields
import Carving.Proofs.Outcome
import Carving.Proofs.InMemory
import Carving.Proofs.Tails
import Carving.Proofs.Corruption
import Carving.Proofs.CandidateSet
import Carving.Proofs.ScanList
import Carving.Proofs.FirstMode
import Carving.Proofs.StrideInference
import Carving.Proofs.ImageEnd
import Carving.Proofs.Translation
import Carving.Proofs.CheckedSearch
import Carving.Proofs.CheckedCalculation
import Carving.Proofs.Lockstep
import Carving.Proofs.SteadyCalculation
import Carving.Proofs.Disturbance
import Carving.Proofs.SharedSource
import Carving.Proofs.DistinctChunks
import Carving.Proofs.Duplicates
import Carving.Proofs.SoundTrees
import Carving.Proofs.CarvedFiles
import Carving.Proofs.ExhaustiveScan
import Carving.Proofs.GivenFlags
import Carving.Proofs.KeptFiles
import Carving.Proofs.PrintedLines
import Carving.Proofs.DryRun
import Carving.Proofs.RunAccount
import Carving.Proofs.HeaderWords
import Carving.Proofs.RecordCodec
import Carving.Proofs.SuperblockImage
import Carving.Proofs.ArchiveEnd
import Carving.Proofs.VolumeEnd
import Carving.Proofs.Onward
import Carving.Proofs.HeldBytes
import Carving.Proofs.OutputWindows
import Carving.Proofs.SqueezedZeros
import Carving.Proofs.StreamEnd
import Carving.Proofs.DirectoryRuns
