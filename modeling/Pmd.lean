import Pmd.Foundation.Runs
import Pmd.Foundation.Causal
import Pmd.Foundation.Replicas
import Pmd.Foundation.Snapshots
import Pmd.Foundation.Spreading
import Pmd.Foundation.Channels
import Pmd.Foundation.Json
import Pmd.Foundation.Framing
import Pmd.Foundation.Wire
import Pmd.Foundation.Broadcast
import Pmd.Foundation.Calendar
import Pmd.Platform.Concordat
import Pmd.Platform.Views
import Pmd.Platform.Environment
import Pmd.Platform.Reference
import Pmd.Protocol.Messages
import Pmd.Protocol.Bincode
import Pmd.Protocol.Frames
import Pmd.Membership.Document
import Pmd.Membership.Listing
import Pmd.Membership.Writes
import Pmd.Membership.Changes
import Pmd.Membership.Exchange
import Pmd.Membership.Merging
import Pmd.Membership.Readers
import Pmd.Membership.Entries
import Pmd.Membership.ServiceViews
import Pmd.Membership.Registry
import Pmd.Membership.Removal
import Pmd.Daemon.FailureDetector
import Pmd.Daemon.HeartbeatWindow
import Pmd.Daemon.State
import Pmd.Daemon.Session
import Pmd.Daemon.Step
import Pmd.Daemon.Moves
import Pmd.Daemon.Effects
import Pmd.Daemon.Documents
import Pmd.Daemon.Handles
import Pmd.Daemon.SelfSession
import Pmd.Daemon.Signals
import Pmd.Daemon.Receiver
import Pmd.Daemon.Handshake
import Pmd.Daemon.Leaving
import Pmd.Daemon.Connection
import Pmd.Daemon.Conversation
import Pmd.Daemon.Suspicion
import Pmd.Daemon.Subscribers
import Pmd.Daemon.Discovery
import Pmd.Protocol.Control
import Pmd.Daemon.Responses
import Pmd.Daemon.Queues
import Pmd.Cluster.Mesh
import Pmd.Cluster.Refinement
import Pmd.Cluster.Network
import Pmd.Cluster.Authentication
import Pmd.Cluster.Causality
import Pmd.Cluster.Provenance
import Pmd.Cluster.Events
import Pmd.Cluster.LiveMembers
import Pmd.Cluster.SelfDial
import Pmd.Cluster.Shutdown
import Pmd.Cluster.Attempts
import Pmd.Cluster.SimultaneousOpen
import Pmd.Cluster.Conversation
import Pmd.Cluster.Progress
import Pmd.Cluster.Heartbeats
import Pmd.Cluster.Knowledge
import Pmd.Cluster.PastViews
import Pmd.Cluster.Dissemination
import Pmd.Cli.FormatEpoch
import Pmd.Foundation.Lines
