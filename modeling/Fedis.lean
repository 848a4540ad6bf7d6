import Fedis.Framework.Buckets
import Fedis.Framework.Bytes
import Fedis.Framework.File
import Fedis.Framework.FirstMin
import Fedis.Framework.Frames
import Fedis.Framework.Guard
import Fedis.Framework.Libc
import Fedis.Framework.Lines
import Fedis.Framework.Loop
import Fedis.Framework.Queue
import Fedis.Framework.Relational
import Fedis.Framework.Ring
import Fedis.Framework.Run
import Fedis.Framework.Stream
import Fedis.Framework.Trim
import Fedis.Impl.Ae
import Fedis.Impl.AeLoop
import Fedis.Impl.Aof
import Fedis.Impl.Args
import Fedis.Impl.Backlog
import Fedis.Impl.Clients
import Fedis.Impl.Commands
import Fedis.Impl.Conf
import Fedis.Impl.Db
import Fedis.Impl.DbDicts
import Fedis.Impl.Dict
import Fedis.Impl.Link
import Fedis.Impl.LinkedList
import Fedis.Impl.Load
import Fedis.Impl.Machine
import Fedis.Impl.Net
import Fedis.Impl.Output
import Fedis.Impl.Pair
import Fedis.Impl.PairMachine
import Fedis.Impl.Process
import Fedis.Impl.Rdb
import Fedis.Impl.RdbDicts
import Fedis.Impl.Repli
import Fedis.Impl.Resp
import Fedis.Impl.RespStr
import Fedis.Impl.RingBuffer
import Fedis.Impl.Rio
import Fedis.Impl.Robj
import Fedis.Impl.Save
import Fedis.Impl.Sds
import Fedis.Impl.Server
import Fedis.Impl.Timers
import Fedis.Proof.Ae
import Fedis.Proof.Ae.Dispatch
import Fedis.Proof.Backlog
import Fedis.Proof.Conf
import Fedis.Proof.Conf.Kept
import Fedis.Proof.Databases
import Fedis.Proof.Decode
import Fedis.Proof.Delimit
import Fedis.Proof.Dict.Database
import Fedis.Proof.Dict.Expire
import Fedis.Proof.Dict.Finish
import Fedis.Proof.Dict.Iter
import Fedis.Proof.Dict.Keys
import Fedis.Proof.Dict.LoadFactor
import Fedis.Proof.Dict.Refine
import Fedis.Proof.Dict.Safety
import Fedis.Proof.Dict.Step
import Fedis.Proof.Dict.Table
import Fedis.Proof.Encode
import Fedis.Proof.Framing
import Fedis.Proof.LinkedList
import Fedis.Proof.Machine.Dicts
import Fedis.Proof.Machine.Queue
import Fedis.Proof.Machine.Replay
import Fedis.Proof.Machine.Requests
import Fedis.Proof.Machine.Room
import Fedis.Proof.Machine.Step
import Fedis.Proof.Pair.Call
import Fedis.Proof.Pair.CatchUp
import Fedis.Proof.Pair.Follow
import Fedis.Proof.Pair.Handshake
import Fedis.Proof.Pair.Memory
import Fedis.Proof.Pair.Messages
import Fedis.Proof.Pair.Resume
import Fedis.Proof.Pair.Return
import Fedis.Proof.Pair.Rounds
import Fedis.Proof.Pair.Sending
import Fedis.Proof.Pair.Servers
import Fedis.Proof.Parse
import Fedis.Proof.Rdb.Checksum
import Fedis.Proof.Rdb.Dicts
import Fedis.Proof.Rdb.Indexes
import Fedis.Proof.Rdb.Load
import Fedis.Proof.Rdb.Records
import Fedis.Proof.Rdb.Stream
import Fedis.Proof.Rdb.Strings
import Fedis.Proof.Rdb.Unset
import Fedis.Proof.Rdb.Walk
import Fedis.Proof.Repli.Early
import Fedis.Proof.Repli.FullSync
import Fedis.Proof.Repli.Link
import Fedis.Proof.Repli.Loop
import Fedis.Proof.Repli.Offset
import Fedis.Proof.Resp
import Fedis.Proof.RespStr
import Fedis.Proof.RingBuffer
import Fedis.Proof.Rio
import Fedis.Proof.Robj
import Fedis.Proof.Sds
import Fedis.Proof.Sds.Range
import Fedis.Proof.Sds.Trim
import Fedis.Proof.Server.Answers
import Fedis.Proof.Server.Aof
import Fedis.Proof.Server.Appends
import Fedis.Proof.Server.Args
import Fedis.Proof.Server.Asserts
import Fedis.Proof.Server.Basic
import Fedis.Proof.Server.BgSave
import Fedis.Proof.Server.Closing
import Fedis.Proof.Server.Command
import Fedis.Proof.Server.Counter
import Fedis.Proof.Server.Deadlines
import Fedis.Proof.Server.Effects
import Fedis.Proof.Server.Expire
import Fedis.Proof.Server.Expired
import Fedis.Proof.Server.Flush
import Fedis.Proof.Server.Framing
import Fedis.Proof.Server.Handlers
import Fedis.Proof.Server.Isolated
import Fedis.Proof.Server.Keys
import Fedis.Proof.Server.Output
import Fedis.Proof.Server.Places
import Fedis.Proof.Server.Queue
import Fedis.Proof.Server.Reads
import Fedis.Proof.Server.Refused
import Fedis.Proof.Server.Replica
import Fedis.Proof.Server.Replicate
import Fedis.Proof.Server.Request
import Fedis.Proof.Server.Restore
import Fedis.Proof.Server.Save
import Fedis.Proof.Server.SetGet
import Fedis.Proof.Server.Split
import Fedis.Proof.Server.Stored
import Fedis.Proof.Server.Strings
import Fedis.Proof.Server.Transaction
import Fedis.Proof.Server.Watch
import Fedis.Proof.Store.Replies
import Fedis.Proof.Store.Serves
import Fedis.Proof.Store.Sockets
import Fedis.Proof.Store.Views
import Fedis.Proof.Timers
import Fedis.Proof.Timers.Timeout
import Fedis.Spec.Conf
import Fedis.Spec.DictMap
import Fedis.Spec.Dispatch
import Fedis.Spec.ListSeq
import Fedis.Spec.Rdb
import Fedis.Spec.RespText
import Fedis.Spec.RespValue
import Fedis.Spec.RingQueue
import Fedis.Spec.Store
