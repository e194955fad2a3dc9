import BlobTracking.Library.SteadyTarget
import BlobTracking.Proc.PressRate
import BlobTracking.Proc.BgRemoval
import BlobTracking.Proc.Counters
import BlobTracking.Proc.DialMode
import BlobTracking.Proc.VoteMode
import BlobTracking.Proc.BoxLoop
import BlobTracking.Proc.ExclusiveBoxes
import BlobTracking.Proc.CameraLoop
import BlobTracking.Proc.Text
import BlobTracking.Library.WarmUp
import BlobTracking.Library.ExclusiveGroup
import BlobTracking.Tracking.IntegerCosts
import BlobTracking.Dlib.HungarianOptimal
import BlobTracking.Dlib.HungarianSearch
import BlobTracking.Dlib.Hungarian
import BlobTracking.Library.EqualityGraph
import BlobTracking.Library.AlternatingTree
import BlobTracking.Library.AgeingPool
import BlobTracking.Library.BiasedOptimum
import BlobTracking.Library.BiasSpread
import BlobTracking.Library.ClosedPolygon
import BlobTracking.Library.ConstantVelocity
import BlobTracking.Library.DwellTimer
import BlobTracking.Proc.BlobDetector
import BlobTracking.Proc.Dwell
import BlobTracking.Tracking.Accounting
import BlobTracking.Tracking.Lifetime
import BlobTracking.Tracking.Bounds
import BlobTracking.Tracking.FilterGain
import BlobTracking.Tracking.PaddingEffect
import BlobTracking.Tracking.Gate
import BlobTracking.Tracking.Occlusion
import BlobTracking.Tracking.Centroid
import BlobTracking.Proc.Overlap
import BlobTracking.Proc.Morphology
import BlobTracking.Tracking.Baratas
import BlobTracking.Tracking.SteadyTarget
