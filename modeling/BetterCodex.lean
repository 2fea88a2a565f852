import BetterCodex.PatchPrinter
import BetterCodex.FileEdit
import BetterCodex.VerifyPatch
import BetterCodex.ExecPolicy
import BetterCodex.HostSpelling
import BetterCodex.BlockedLog
import BetterCodex.WorldStateReplay
import BetterCodex.ThreadRollback
import BetterCodex.VirtualStream
import BetterCodex.SegmentDelivery
import BetterCodex.ClientTracker
import BetterCodex.HeadTailBuffer
import BetterCodex.AssistantText
import BetterCodex.TurnDiffChanges
import BetterCodex.WorkspaceRoots
import BetterCodex.AgentLimit
import BetterCodex.RetainedLimits
import BetterCodex.BoardPosting
import BetterCodex.ServerSegments
import BetterCodex.MemoryJobs
import BetterCodex.GuardianEnforcement
import BetterCodex.ReverseScanner
import BetterCodex.ThreadGoals
import BetterCodex.CriticalPath
import BetterCodex.FuzzyMatch
