import TinyNetwork.BufferQueue
import TinyNetwork.ChannelRegistration
import TinyNetwork.ConnectionLifecycle
import TinyNetwork.ConnectionShutdown
import TinyNetwork.ConnectionMessages
import TinyNetwork.ConnectionTermination
import TinyNetwork.SendCapture
import TinyNetwork.ConnectionOwnership
import TinyNetwork.ServerDestruction
import TinyNetwork.FunctorHistory
import TinyNetwork.TimerQueue
import TinyNetwork.AsyncLogging
import TinyNetwork.SmallAllocation
import TinyNetwork.BufferRange
import TinyNetwork.BufferTraffic
import TinyNetwork.BufferStrings
import TinyNetwork.TimerExpiry
import TinyNetwork.TimerHistory
import TinyNetwork.PoolCreation
import TinyNetwork.LargeAllocation
import TinyNetwork.BlockCounts
import TinyNetwork.ThreadPool
import TinyNetwork.FileUtil
import TinyNetwork.LogFile
import TinyNetwork.PollDelivery
import TinyNetwork.ConnectionNotifications
import TinyNetwork.Decimal
import TinyNetwork.LogStream
import TinyNetwork.ConnectionTable
import TinyNetwork.PoolDestruction
import TinyNetwork.BlockSkipping
import TinyNetwork.BoundedText
import TinyNetwork.ByteMemory
import TinyNetwork.LogInsertion
import TinyNetwork.FixedWidth
import TinyNetwork.LogTime
import TinyNetwork.Logger
import TinyNetwork.LoopProgress
import TinyNetwork.EventLoopThread
import TinyNetwork.ThreadConfinement
import TinyNetwork.EventLoopThreadPool
import TinyNetwork.ConnectionRelease
import TinyNetwork.LogBackEnd
import TinyNetwork.BufferLines
import TinyNetwork.LoopTimers
import TinyNetwork.ConnectionDescriptors
import TinyNetwork.EchoServer
import TinyNetwork.LogProgram
