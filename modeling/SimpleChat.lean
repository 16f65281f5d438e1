import SimpleChat.Server.Broadcast
import SimpleChat.Server.Disconnections
import SimpleChat.Server.Roster
import SimpleChat.EventBus.Subscriptions
import SimpleChat.EventBus.Threads
import SimpleChat.DbManager.InsertRow
import SimpleChat.ClientMgr.Handlers
import SimpleChat.Server.System
import SimpleChat.WebsocketServer.Bookkeeping
import SimpleChat.EventBus.Agreement
import SimpleChat.ClientMgr.Commutation
import SimpleChat.Server.History
import SimpleChat.Server.Idle
import SimpleChat.EventBus.Async
import SimpleChat.EventBus.Removal
import SimpleChat.Concurrency.Locks
import SimpleChat.EventBus.Locks
import SimpleChat.Common.FileHandler
import SimpleChat.WebsocketServer.Kick
import SimpleChat.Calendar.Gregorian
import SimpleChat.Common.LocalTime
import SimpleChat.Text.Decimal
import SimpleChat.Common.Message
import SimpleChat.Logger.Handlers
import SimpleChat.AdminClient.ConsoleApp
import SimpleChat.Logger.Cycle
import SimpleChat.Text.Entries
import SimpleChat.Logger.Transcript
import SimpleChat.Wire.Records
import SimpleChat.Protobuf.WireFormat
import SimpleChat.Server.Console
import SimpleChat.Server.Delivery
import SimpleChat.ChatClient.ChatUI
import SimpleChat.Server.Cyclic
import SimpleChat.ChatRoom.Refinement
import SimpleChat.Server.Provenance
import SimpleChat.Server.Reads
import SimpleChat.Server.Restarts
import SimpleChat.Server.LogFiles
