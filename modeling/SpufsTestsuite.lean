import SpufsTestsuite.CStringProofs
import SpufsTestsuite.TestRecordProofs
import SpufsTestsuite.ConfScanProofs
import SpufsTestsuite.ConfReferenceProofs
import SpufsTestsuite.ConfLeftoverProofs
import SpufsTestsuite.CapabilityProofs
import SpufsTestsuite.ShouldRunProofs
import SpufsTestsuite.AutomatonProofs
import SpufsTestsuite.RunTestProofs
import SpufsTestsuite.RunTestsProofs
import SpufsTestsuite.ChildProofs
import SpufsTestsuite.ResidueProofs
import SpufsTestsuite.StrftimeProofs
import SpufsTestsuite.WorkingDirProofs
import SpufsTestsuite.FdTableProofs
import SpufsTestsuite.DescriptorProofs
import SpufsTestsuite.OutputPipeProofs
import SpufsTestsuite.OutputBufferProofs
import SpufsTestsuite.ImageProofs
import SpufsTestsuite.EarlyExitProofs
import SpufsTestsuite.NoteCheckProofs
import SpufsTestsuite.NoteDescProofs
import SpufsTestsuite.NoteSectionProofs
import SpufsTestsuite.NoteNameProofs
import SpufsTestsuite.NoteWalkProofs
import SpufsTestsuite.ParseElfProofs
import SpufsTestsuite.CoreFileProofs
import SpufsTestsuite.PrintNoteProofs
import SpufsTestsuite.FindExecProofs
import SpufsTestsuite.WorklistProofs
import SpufsTestsuite.DiscoveryProofs
import SpufsTestsuite.FileTreeProofs
import SpufsTestsuite.ExecPathProofs
import SpufsTestsuite.ElfAgreeProofs
import SpufsTestsuite.DmesgProofs
import SpufsTestsuite.TimeoutProofs
import SpufsTestsuite.PollTimeoutProofs
import SpufsTestsuite.SequenceProofs
import SpufsTestsuite.MemoProofs
import SpufsTestsuite.SkipRunProofs
import SpufsTestsuite.GuardedLoopProofs
import SpufsTestsuite.NoteProgressProofs
import SpufsTestsuite.NoteBoundsProofs
import SpufsTestsuite.BenchmarkLineProofs
import SpufsTestsuite.TransitionProofs
import SpufsTestsuite.SpuProofs
import SpufsTestsuite.MboxReceiverProofs
import SpufsTestsuite.MboxLanguageProofs
import SpufsTestsuite.MboxMultipleProofs
import SpufsTestsuite.SchedSpeProofs
import SpufsTestsuite.SchedSystemProofs
import SpufsTestsuite.SchedMultipleProofs
import SpufsTestsuite.RingSpeProofs
import SpufsTestsuite.RingNodeProofs
import SpufsTestsuite.DualRingProofs
import SpufsTestsuite.ForestProofs
import SpufsTestsuite.ForestClearProofs
import SpufsTestsuite.ForestOrderProofs
import SpufsTestsuite.FuelProofs
import SpufsTestsuite.TallocProofs
import SpufsTestsuite.TallocFreeProofs
import SpufsTestsuite.TallocWalkProofs
import SpufsTestsuite.TallocReallocProofs
import SpufsTestsuite.TallocRunProofs
import SpufsTestsuite.TallocTreeProofs
import SpufsTestsuite.TallocOwnProofs
import SpufsTestsuite.FindMemoryProofs
import SpufsTestsuite.RunMemoryProofs
import SpufsTestsuite.FairProofs
import SpufsTestsuite.SharedStoreProofs
import SpufsTestsuite.PpeRunningProofs
import SpufsTestsuite.RescheduleProofs
