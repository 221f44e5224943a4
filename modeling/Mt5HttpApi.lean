import Mt5HttpApi.Lib.Transition
import Mt5HttpApi.Lib.Product
import Mt5HttpApi.Backtest.Artifacts
import Mt5HttpApi.Backtest.Worker
import Mt5HttpApi.Backtest.Lifecycle
import Mt5HttpApi.Backtest.Cancel
import Mt5HttpApi.Backtest.Terminal
import Mt5HttpApi.Backtest.RunLock
import Mt5HttpApi.Backtest.Overlap
import Mt5HttpApi.Backtest.Kill
import Mt5HttpApi.Backtest.Verdict
import Mt5HttpApi.Backtest.OwnReport
import Mt5HttpApi.Backtest.OwnCache
import Mt5HttpApi.Trading.Orders
import Mt5HttpApi.Trading.CreateOrder
import Mt5HttpApi.Trading.AtMostOnce
import Mt5HttpApi.Compile.SourceScan
import Mt5HttpApi.Compile.Cells
import Mt5HttpApi.Compile.Paths
import Mt5HttpApi.Compile.Views
import Mt5HttpApi.Compile.Reference
import Mt5HttpApi.Compile.LineBreaks
import Mt5HttpApi.Backtest.Ownership
import Mt5HttpApi.Backtest.Startup
import Mt5HttpApi.Gateway.Nginx
import Mt5HttpApi.Gateway.Routes
import Mt5HttpApi.Gateway.Terminals
import Mt5HttpApi.Gateway.Forwarding
import Mt5HttpApi.Lib.Urls
import Mt5HttpApi.Mcp.ToolPaths
import Mt5HttpApi.FileApi.Disk
import Mt5HttpApi.Lib.Effects
import Mt5HttpApi.FileApi.Ops
import Mt5HttpApi.FileApi.Aliases
import Mt5HttpApi.FileApi.Plain
import Mt5HttpApi.Lib.JsonText
import Mt5HttpApi.ChartCtl.Registry
import Mt5HttpApi.ChartCtl.Scanner
import Mt5HttpApi.ChartCtl.Desired
import Mt5HttpApi.ChartCtl.Ownership
import Mt5HttpApi.Lib.Interaction
import Mt5HttpApi.ChartCtl.Loader
import Mt5HttpApi.ChartCtl.Charts
import Mt5HttpApi.ChartCtl.Dictionary
import Mt5HttpApi.ChartCtl.Persistence
import Mt5HttpApi.ChartCtl.Refusals
import Mt5HttpApi.Config.VmGroups
import Mt5HttpApi.ChartCtl.Mutex
import Mt5HttpApi.ChartCtl.Command
import Mt5HttpApi.ChartCtl.Staging
import Mt5HttpApi.ChartCtl.Tick
import Mt5HttpApi.ChartCtl.Site
import Mt5HttpApi.ChartCtl.Converged
import Mt5HttpApi.ChartCtl.Templates
import Mt5HttpApi.Backtest.Active
import Mt5HttpApi.Reboot.Guard
import Mt5HttpApi.Reboot.Drain
import Mt5HttpApi.Watchdog.Decide
import Mt5HttpApi.Watchdog.Recovery
import Mt5HttpApi.Boot.AcquireLock
import Mt5HttpApi.WebRequest.Reapply
import Mt5HttpApi.WebRequest.Watcher
import Mt5HttpApi.WebRequest.Patch
import Mt5HttpApi.Sdk.Workers
import Mt5HttpApi.WebRequest.Stale
import Mt5HttpApi.Compile.Exclusion
import Mt5HttpApi.Config.Features
import Mt5HttpApi.Config.Healthcheck
import Mt5HttpApi.ChartCtl.Unreadable
import Mt5HttpApi.Lib.Json
import Mt5HttpApi.Symbols.Cache
import Mt5HttpApi.Symbols.Import
import Mt5HttpApi.Compile.Confined
import Mt5HttpApi.FileApi.Devices
import Mt5HttpApi.Compile.IncludeHash
import Mt5HttpApi.Backtest.JobDir
import Mt5HttpApi.Backtest.AnyContent
import Mt5HttpApi.Backtest.Retirement
import Mt5HttpApi.Compile.Mirror
import Mt5HttpApi.FileApi.Extract
import Mt5HttpApi.Lib.Ini
import Mt5HttpApi.Backtest.IniBuilder
import Mt5HttpApi.Backtest.IniEncoding
import Mt5HttpApi.Backtest.IniValid
import Mt5HttpApi.Backtest.SetBuilder
import Mt5HttpApi.Backtest.SetRoundTrip
import Mt5HttpApi.Backtest.CacheName
import Mt5HttpApi.Backtest.Submission
import Mt5HttpApi.ChartCtl.SetEncoding
import Mt5HttpApi.ChartCtl.TplBuilder
import Mt5HttpApi.Backtest.TesterScan
import Mt5HttpApi.Backtest.LogTail
import Mt5HttpApi.Backtest.OptCache
import Mt5HttpApi.Backtest.OptReport
import Mt5HttpApi.Lib.Widening
import Mt5HttpApi.Symbols.Windowed
import Mt5HttpApi.Lib.Hex
import Mt5HttpApi.Sdk.Monitor
import Mt5HttpApi.Symbols.Trusted
import Mt5HttpApi.WebRequest.Blob
import Mt5HttpApi.WebRequest.Session
import Mt5HttpApi.Lib.SectionEdit
import Mt5HttpApi.WebRequest.CommonIni
import Mt5HttpApi.DesktopHeap.SharedSection
import Mt5HttpApi.Lib.JsonEscape
import Mt5HttpApi.DesktopHeap.Restore
import Mt5HttpApi.Lib.AnsiText
import Mt5HttpApi.Lib.JsonTree
import Mt5HttpApi.ChartCtl.ObservedText
import Mt5HttpApi.ChartCtl.Departures
import Mt5HttpApi.Lib.Columns
import Mt5HttpApi.ChartCtl.OwnedArrays
import Mt5HttpApi.Lib.JsonDumps
import Mt5HttpApi.Watchdog.StateJson
import Mt5HttpApi.Watchdog.Scope
import Mt5HttpApi.Watchdog.StateDisk
import Mt5HttpApi.Watchdog.Sweep
import Mt5HttpApi.Watchdog.Targets
import Mt5HttpApi.ChartCtl.Once
import Mt5HttpApi.Compile.Current
import Mt5HttpApi.Config.TerminalMcp
import Mt5HttpApi.Logs.Accounted
import Mt5HttpApi.Logs.Settled
import Mt5HttpApi.Sdk.Sessions
import Mt5HttpApi.Compile.WarmupClaim
