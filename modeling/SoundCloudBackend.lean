import SoundCloudBackend.Proof.Replication.LikeRanks
import SoundCloudBackend.Proof.Replication.Sessions
import SoundCloudBackend.Proof.Replication.WriteThrough
import SoundCloudBackend.Proof.Replication.LikesTracks
import SoundCloudBackend.Proof.Media.Ledger
import SoundCloudBackend.Proof.Media.Commit
import SoundCloudBackend.Proof.Playlist.Orders
import SoundCloudBackend.Proof.Playlist.Reduction
import SoundCloudBackend.Proof.Playlist.Watermark
import SoundCloudBackend.Proof.Jobs.Queue
import SoundCloudBackend.Proof.Jobs.LookupLane
import SoundCloudBackend.Proof.SyncQueue.LastTap
import SoundCloudBackend.Proof.SyncQueue.Comment
import SoundCloudBackend.Proof.SyncQueue.Refresh
import SoundCloudBackend.Proof.SyncQueue.WritePause
import SoundCloudBackend.Proof.Rooms.Leave
import SoundCloudBackend.Proof.Rooms.Admit
import SoundCloudBackend.Proof.Rooms.Stored
import SoundCloudBackend.Proof.Chat.Changes
import SoundCloudBackend.Proof.Chat.Invites
import SoundCloudBackend.Proof.Chat.History
import SoundCloudBackend.Proof.Chat.HotCalls
import SoundCloudBackend.Proof.Chat.Owner
import SoundCloudBackend.Proof.Chat.KeyRequests
import SoundCloudBackend.Proof.Chat.Requests
import SoundCloudBackend.Proof.Chat.Shred
import SoundCloudBackend.Proof.Admission.ClientAddress
import SoundCloudBackend.Proof.Lyrics.Lookup
import SoundCloudBackend.Proof.Worker.LastDelivery
import SoundCloudBackend.Proof.Streaming.Ticket
import SoundCloudBackend.Proof.Redact.Scrub
import SoundCloudBackend.Proof.Auth.Linking
