import RootHelper.SourceSafety
import RootHelper.FileKeeping
import RootHelper.LostAnswers
import RootHelper.CopyHonesty
import RootHelper.Posix.Trees
import RootHelper.RingQueue
import RootHelper.RingWakeups
import RootHelper.RequestDecoding
import RootHelper.CreateExchange
import RootHelper.CopyStream
import RootHelper.FileAccounts
import RootHelper.Transfer
import RootHelper.UploadItems
import RootHelper.UploadRoundTrip
import RootHelper.StatsExchange
import RootHelper.Listings
import RootHelper.HashExchange
import RootHelper.TreeHashes
import RootHelper.RequestBoundaries
import RootHelper.ArchiveForks
import RootHelper.ServerAcceptor
import RootHelper.Searches
import RootHelper.SessionDescriptors
import RootHelper.HomePaths
import RootHelper.ArchiveContainment
import RootHelper.HiddenFilter
import RootHelper.DeletionOutcome
import RootHelper.DeletionTurns
import RootHelper.ArchiveBatches
import RootHelper.HttpDownload
import RootHelper.RemoteBoundaries
import RootHelper.SpmcFaults
import RootHelper.WideChars
import RootHelper.TopLevelItems
import RootHelper.HeaderFields
import RootHelper.DownloadNames
import RootHelper.Redirects
import RootHelper.PipelinedHash
import RootHelper.PipelinedCreation
import RootHelper.Moves
import RootHelper.ReceivedPaths
import RootHelper.AccessChecks
import RootHelper.TreeCopy
import RootHelper.CopyTermination
import RootHelper.SizeStrings
import RootHelper.KeyPairs
import RootHelper.DirListings
import RootHelper.MadePaths
import RootHelper.NearestAncestors
import RootHelper.AutoRenames
import RootHelper.TraversedTrees
import RootHelper.SmartLinks
import RootHelper.FolderTotals
import RootHelper.IteratorViews
import RootHelper.ArchiveItems
import RootHelper.RecordWrites
import RootHelper.RandomFiles
import RootHelper.TreeTotals
import RootHelper.SkippedCounts
import RootHelper.LockfreeProgress
import RootHelper.DownloadRoundTrip
import RootHelper.TransferProgress
import RootHelper.FdUploads
import RootHelper.FindResults
import RootHelper.HttpUpload
import RootHelper.SessionNotices
import RootHelper.LocalAttributes
import RootHelper.Announces
