import Servitals.Lib.OMap
import Servitals.Lib.Ring
import Servitals.Lib.Runs
import Servitals.Lib.Window
import Servitals.Lib.Rounds
import Servitals.Lib.Lines
import Servitals.Lib.Lane
import Servitals.Lib.Overlap
import Servitals.Lib.Latest
import Servitals.AlertTold
import Servitals.AlertJudged
import Servitals.HubOffline
import Servitals.AgentReplay
import Servitals.AgentSecrets
import Servitals.AgentServer
import Servitals.AgentApart
import Servitals.ClientIp
import Servitals.Lockout
import Servitals.QuietHours
import Servitals.FileNames
import Servitals.HistoryNames
import Servitals.HistoryApart
import Servitals.Session
import Servitals.LinkFlow
import Servitals.LinkLimits
import Servitals.Snapshot
import Servitals.MemoryReadings
import Servitals.ChannelSecrets
import Servitals.ChannelsPage
import Servitals.NodeWrites
import Servitals.NodeViews
import Servitals.ManagedSettings
import Servitals.ConfdMerge
import Servitals.AlertRestart
import Servitals.AlertLog
import Servitals.HistoryCrash
import Servitals.HistoryKept
import Servitals.Digest
import Servitals.AlertEnds
import Servitals.Sender
import Servitals.NodeFile
import Servitals.Rotation
import Servitals.RevokedNodes
import Servitals.AgentWire
import Servitals.LogLength
import Servitals.RuleEdits
import Servitals.RuleLevels
import Servitals.RulesPage
import Servitals.EngineRules
import Servitals.ClientResolver
import Servitals.Smtp
import Servitals.Password
import Servitals.SmtpReader
import Servitals.Fit
import Servitals.WebPush
import Servitals.MailSubject
import Servitals.ContainerLogs
import Servitals.Proxy
import Servitals.Processes
import Servitals.AddressKeys
import Servitals.HistoryCap
import Servitals.Lib.Unwinding
import Servitals.Lib.Backoff
import Servitals.AgentPush
import Servitals.AgentCall
import Servitals.Routes
import Servitals.Restore
import Servitals.Lib.Aead
import Servitals.BackupCrypt
import Servitals.PushRecord
import Servitals.PushShown
import Servitals.EnvFile
import Servitals.Log
import Servitals.Mounts
import Servitals.AgentRate
import Servitals.ConfdCopy
import Servitals.PageCache
import Servitals.Linking
