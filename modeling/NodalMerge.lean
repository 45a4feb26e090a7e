import NodalMerge.Crdt.GlobLanguage
import NodalMerge.Crdt.Position
import NodalMerge.Crdt.DirtyRanges
import NodalMerge.Crdt.LiveConvergence
import NodalMerge.Crdt.TextHistory
import NodalMerge.Crdt.Restart
import NodalMerge.Crdt.Grouping
import NodalMerge.Crdt.Residency
import NodalMerge.Crdt.ReplayViews
import NodalMerge.Crdt.Reconcile
import NodalMerge.Crdt.EncryptedImport
import NodalMerge.Crdt.NonceReuse
import NodalMerge.Server.RoomPolicy
import NodalMerge.Server.RoomCompaction
import NodalMerge.Server.RoomRecords
import NodalMerge.Server.RoomLock
import NodalMerge.Server.ColdScans
import NodalMerge.Server.Relay
import NodalMerge.Server.Subscription
import NodalMerge.Gc.SweepRace
import NodalMerge.Gc.SweepAgreement
import NodalMerge.Archive.RoundTrip
import NodalMerge.Server.Peers
import NodalMerge.Server.Children
import NodalMerge.Server.PromotionOrder
import NodalMerge.Server.PolicyTimeline
import NodalMerge.Host.TextCodecs
import NodalMerge.Host.CanonicalRows
import NodalMerge.Host.TopologyPromotion
