import SpeechAnalyzer.Lib.Text
import SpeechAnalyzer.Lib.KeyMap
import SpeechAnalyzer.Lib.Json
import SpeechAnalyzer.Lib.JsonPath
import SpeechAnalyzer.Lib.Decimal
import SpeechAnalyzer.Lib.StdBase64
import SpeechAnalyzer.Lib.SqlText
import SpeechAnalyzer.Lib.IStream
import SpeechAnalyzer.Lib.Mealy
import SpeechAnalyzer.Base64
import SpeechAnalyzer.OpensmileSession
import SpeechAnalyzer.DBWrapper
import SpeechAnalyzer.SqlQuoting
import SpeechAnalyzer.ColumnMap
import SpeechAnalyzer.FeaturesTable
import SpeechAnalyzer.SqlStatement
import SpeechAnalyzer.StoreLoad
import SpeechAnalyzer.OpensmileProcessor
import SpeechAnalyzer.Accumulator
import SpeechAnalyzer.Attribution
import SpeechAnalyzer.Frames
import SpeechAnalyzer.ForeignLines
import SpeechAnalyzer.Mosquitto
import SpeechAnalyzer.Subscriptions
import SpeechAnalyzer.Manager
import SpeechAnalyzer.TrialSessions
import SpeechAnalyzer.Lib.Transition
import SpeechAnalyzer.Lib.Monitor
import SpeechAnalyzer.ProcessTree
import SpeechAnalyzer.TrialRestart
import SpeechAnalyzer.ChunkBuffers
import SpeechAnalyzer.ChunkStream
import SpeechAnalyzer.SessionStart
import SpeechAnalyzer.ConnectionPool
import SpeechAnalyzer.ValueFidelity
import SpeechAnalyzer.IntervalSelection
import SpeechAnalyzer.ASRProcessor
import SpeechAnalyzer.WordFeatures
import SpeechAnalyzer.Lib.JsonText
import SpeechAnalyzer.Publication
import SpeechAnalyzer.RowOrder
import SpeechAnalyzer.Lib.Tally
import SpeechAnalyzer.ReconnectLimit
import SpeechAnalyzer.LogHistory
import SpeechAnalyzer.Recording
import SpeechAnalyzer.RecordedWords
import SpeechAnalyzer.UnmappedFeatures
import SpeechAnalyzer.PoolProgress
import SpeechAnalyzer.SqlExecution
import SpeechAnalyzer.MessageRuns
import SpeechAnalyzer.LoopEnd
import SpeechAnalyzer.Utterances
import SpeechAnalyzer.MalformedMessages
import SpeechAnalyzer.Lib.Offers
import SpeechAnalyzer.Base64Encode
import SpeechAnalyzer.AudioStream
import SpeechAnalyzer.ColumnFile
import SpeechAnalyzer.TrialHistory
import SpeechAnalyzer.EffectOrder
import SpeechAnalyzer.AgentRuns
import SpeechAnalyzer.AgentWords
import SpeechAnalyzer.Lib.Program
import SpeechAnalyzer.AsrThread
import SpeechAnalyzer.AgentThreads
import SpeechAnalyzer.AgentRequests
