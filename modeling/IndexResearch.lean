import IndexResearch.BLinkTree.Latch
import IndexResearch.BLinkTree.Threads.Liveness
import IndexResearch.Epoch.Guard
import IndexResearch.Epoch.LimboRun
import IndexResearch.Epoch.Safety
import IndexResearch.FBTree.ControlFields
import IndexResearch.FBTree.ExtentNode.Accounting
import IndexResearch.FBTree.IntegerRemoval
import IndexResearch.FBTree.Latch
import IndexResearch.FBTree.LeafChain
import IndexResearch.FBTree.StringRun
import IndexResearch.FBTree.Tree.LiveLeaves
import IndexResearch.Util.ZipfGenerator
