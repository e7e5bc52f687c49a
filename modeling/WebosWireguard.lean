import WebosWireguard.TransitionRun
import WebosWireguard.ShellScript
import WebosWireguard.TextLines
import WebosWireguard.SolidLines
import WebosWireguard.SubnetTable
import WebosWireguard.FilePath
import WebosWireguard.OperationLock
import WebosWireguard.WgReader
import WebosWireguard.AllowedIps
import WebosWireguard.StartText
import WebosWireguard.RouteList
import WebosWireguard.RouteTexts
import WebosWireguard.ConvertConfig
import WebosWireguard.UploadMeaning
import WebosWireguard.AddressChoice
import WebosWireguard.ConvertAgain
import WebosWireguard.SetconfFilter
import WebosWireguard.AllowedLines
import WebosWireguard.RouteAgreement
import WebosWireguard.TunnelScripts
import WebosWireguard.ScriptEffects
import WebosWireguard.LeakProtection
import WebosWireguard.Ipv6Restore
import WebosWireguard.EndpointRouting
import WebosWireguard.EndpointForms
import WebosWireguard.UploadHandler
import WebosWireguard.UploadServer
import WebosWireguard.UploadLimits
import WebosWireguard.WrongCodes
import WebosWireguard.UploadPairs
import WebosWireguard.PinCleanup
import WebosWireguard.StopAgain
import WebosWireguard.BackupFiles
import WebosWireguard.ReaderGrammar
import WebosWireguard.UploadUsable
import WebosWireguard.AddressAgreement
import WebosWireguard.KeyRedaction
import WebosWireguard.UninstallRace
import WebosWireguard.UploadStart
import WebosWireguard.ReachCut
import WebosWireguard.RemoteFocus
import WebosWireguard.RemoteDialog
import WebosWireguard.ReplayFilter
import WebosWireguard.PeerTable
import WebosWireguard.UapiGet
import WebosWireguard.SendQueue
import WebosWireguard.Noise
import WebosWireguard.Sessions
