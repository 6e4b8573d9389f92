import DirectPackageInstaller.Lib.Transition
import DirectPackageInstaller.Lib.Tiling
import DirectPackageInstaller.Lib.Memory
import DirectPackageInstaller.Lib.ByteCopy
import DirectPackageInstaller.Streams.VirtualStream
import DirectPackageInstaller.Streams.SegmentedStream.ReadAt
import DirectPackageInstaller.Streams.SegmentedStream.Cover
import DirectPackageInstaller.Streams.SegmentedStream.Progress
import DirectPackageInstaller.Streams.SegmentedStream.Faithful
import DirectPackageInstaller.Streams.SegmentedStream.Available
import DirectPackageInstaller.Streams.SegmentedStream.LongArithmetic
import DirectPackageInstaller.Streams.SegmentedStream.Limit
import DirectPackageInstaller.Streams.SegmentedStream.Cancelled
import DirectPackageInstaller.Streams.SegmentedStream.ScanProgress
import DirectPackageInstaller.Streams.SegmentedStream.Completion
import DirectPackageInstaller.Streams.NetworkStream.Atomicity
import DirectPackageInstaller.Streams.NetworkStream.UndeclaredLength
import DirectPackageInstaller.Streams.MergedStream
import DirectPackageInstaller.Streams.MergedStream.Append
import DirectPackageInstaller.Streams.ReadSeekableStream
import DirectPackageInstaller.Streams.SeekContract
import DirectPackageInstaller.Streams.UnsafeMemoryStream.Copies
import DirectPackageInstaller.Streams.UnsafeMemoryStream.Blocks
import DirectPackageInstaller.Host.PayloadService.Delivery
import DirectPackageInstaller.Host.PkgInfo.RoundTrip
import DirectPackageInstaller.Host.DecompressService
import DirectPackageInstaller.Host.Links
import DirectPackageInstaller.Host.Manifest
import DirectPackageInstaller.Host.IssuedLinks
import DirectPackageInstaller.Tasks.Waiters
import DirectPackageInstaller.Host.Responses
import DirectPackageInstaller.Streams.WindowRead
import DirectPackageInstaller.Streams.InputFailures
import DirectPackageInstaller.Others.PKGHelper
import DirectPackageInstaller.Tasks.Decompressor
import DirectPackageInstaller.Others.Ini
import DirectPackageInstaller.Others.Ini.GetValues
import DirectPackageInstaller.Others.Settings
import DirectPackageInstaller.Others.MemoryInfo
import DirectPackageInstaller.Lib.Search
import DirectPackageInstaller.Others.Conversions
import DirectPackageInstaller.Host.PkgInfo.Bounds
import DirectPackageInstaller.Host.Instances
import DirectPackageInstaller.Tasks.URLAnalyzer.Analyze
import DirectPackageInstaller.Tasks.Decompressor.Selection
import DirectPackageInstaller.Tasks.Decompressor.VolumeOrder
import DirectPackageInstaller.Tasks.Decompressor.Reload
import DirectPackageInstaller.Desktop.Program
import DirectPackageInstaller.Compression.MultipartHelper
import DirectPackageInstaller.Views.LinkListView
import DirectPackageInstaller.FileHosts.GoogleDrive
import DirectPackageInstaller.Host.CNLServer
import DirectPackageInstaller.Payload.Notification
import DirectPackageInstaller.Host.PayloadService.Ownership
import DirectPackageInstaller.Host.PayloadService.EnsureClient
import DirectPackageInstaller.Host.ResumedDownload
import DirectPackageInstaller.Host.TransferProgress
import DirectPackageInstaller.Views.FilePicker
import DirectPackageInstaller.Views.UrlChanged
import DirectPackageInstaller.Streams.NetworkStream.Credentials
import DirectPackageInstaller.Views.SingleView
import DirectPackageInstaller.Host.PayloadService.Lifecycle
import DirectPackageInstaller.Payload.Jailbreak
import DirectPackageInstaller.Payload.MountInSandbox
import DirectPackageInstaller.Desktop.SelfTest
import DirectPackageInstaller.Others.IPHelper
import DirectPackageInstaller.Streams.FileHostStream
