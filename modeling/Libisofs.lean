import Libisofs.RingBuffer
import Libisofs.SymlinkRoundTrip
import Libisofs.HardLinkFamilies
import Libisofs.ImageFile
import Libisofs.NameRoundTrip
import Libisofs.MbrHonoured
import Libisofs.AppendedLayout
import Libisofs.ApmCover
import Libisofs.DirRecords
import Libisofs.MultiExtent
import Libisofs.GptRoundTrip
import Libisofs.SystemAreaApart
import Libisofs.ChecksumCheckEnds
import Libisofs.RockRidgeAttributes
import Libisofs.Iso1999Layout
import Libisofs.ReplaceModes
import Libisofs.TreeCloneFrame
import Libisofs.FileWeights
import Libisofs.PrePassMd5
import Libisofs.InoNumbers
import Libisofs.FilterOpen
import Libisofs.RbTreeRuns
import Libisofs.UncompressContent
import Libisofs.GzipFeeding
import Libisofs.DiscardedPointers
import Libisofs.DirTreeRemoval
import Libisofs.UniqueNameSearch
import Libisofs.BlockOwner
import Libisofs.DirTreeSymlinks
import Libisofs.FindRuns
import Libisofs.AclNeutral
import Libisofs.BootInfoTable
import Libisofs.CatalogBounds
import Libisofs.ChsGeometry
import Libisofs.GptOverlap
import Libisofs.HfsBitmap
import Libisofs.NameTruncation
import Libisofs.StampReading
import Libisofs.HfsNames
import Libisofs.FailedOpen
import Libisofs.IntervalForms
import Libisofs.GptCrc
import Libisofs.CylinderAlignment
import Libisofs.HashTable
import Libisofs.IsohybridPartitions
import Libisofs.MbrEntries
import Libisofs.ContinuationArea
import Libisofs.IdentifierBuffers
