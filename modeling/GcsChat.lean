import GcsChat.ByteString
import GcsChat.OrderedMap
import GcsChat.TransitionSystem
import GcsChat.ClearOnFull
import GcsChat.Grouping
import GcsChat.ProtoWire
import GcsChat.ProtoSchema
import GcsChat.ProtoOneof
import GcsChat.Records
import GcsChat.EventFormat
import GcsChat.MessageKeys
import GcsChat.KeyFramings
import GcsChat.Messaging
import GcsChat.RoomBinding
import GcsChat.DedupeWindow
import GcsChat.Node
import GcsChat.EchoLoop
import GcsChat.HistoryReplay
import GcsChat.Network
import GcsChat.Interactive
import GcsChat.Effects
import GcsChat.EntityStore
import GcsChat.MintedIds
import GcsChat.Catalog
import GcsChat.CatalogIndex
import GcsChat.CatalogMirror
import GcsChat.MessagingProgram
import GcsChat.Session
import GcsChat.NameCap
import GcsChat.CommandFormat
import GcsChat.SerialSession
import GcsChat.LiveJoin
import GcsChat.CatalogThreads
import GcsChat.DerivedConvergence
import GcsChat.Typestate
import GcsChat.MutexDiscipline
import GcsChat.FfiProcess
import GcsChat.DrainSafety
import GcsChat.FfiRuns
import GcsChat.LeakedWindows
import GcsChat.ShutdownRaces
import GcsChat.SessionLife
import GcsChat.HandleIdentity
import GcsChat.ArchiveDrain
import GcsChat.CallbackOrigin
import GcsChat.PortQuiescence
import GcsChat.ShutdownWaits
import GcsChat.ExitHook
import GcsChat.LockOrder
import GcsChat.RoomIsolation
import GcsChat.SubscribeOnce
import GcsChat.Lockstep
import GcsChat.RejoinMembership
import GcsChat.DedupeBound
import GcsChat.FailedSend
import GcsChat.SendEvents
import GcsChat.ReplayView
import GcsChat.MessageFlow
import GcsChat.CatalogRuns
import GcsChat.TopicNesting
import GcsChat.Membership
import GcsChat.PushDiscipline
import GcsChat.RailMirror
import GcsChat.RailTree
import GcsChat.SectionRules
import GcsChat.CatalogFiles
import GcsChat.WireFidelity
import GcsChat.RailRows
import GcsChat.ShellForms
import GcsChat.SeamProgram
import GcsChat.WireOpacity
import GcsChat.FlowCap
import GcsChat.FlowCubits
import GcsChat.FlowScreen
import GcsChat.NetworkScreens
import GcsChat.ShownRecords
import GcsChat.ScreenAgreement
import GcsChat.HistoryExact
import GcsChat.EcmaPattern
import GcsChat.HealRoute
import GcsChat.Aead
import GcsChat.Envelope
import GcsChat.GlobalDb
import GcsChat.RunningGate
import GcsChat.LoadSoundness
import GcsChat.CatalogFrame
import GcsChat.RejectedCommands
import GcsChat.InitStages
import GcsChat.NativeSession
import GcsChat.LaunchKeys
