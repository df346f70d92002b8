import OramEvictor.Word
import OramEvictor.BranchSelector
import OramEvictor.Evictor
import OramEvictor.Metadata
import OramEvictor.PrepareDeepest
import OramEvictor.PrepareTarget
import OramEvictor.Plan
import OramEvictor.Evict
import OramEvictor.Reference
