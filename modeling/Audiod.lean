import Audiod.Machine
import Audiod.Ring
import Audiod.Protocol
import Audiod.Chunking
import Audiod.Resampler
import Audiod.MixerDelivery
import Audiod.MixerFlush
import Audiod.Occupancy
import Audiod.Underrun
import Audiod.CorbAnswers
import Audiod.ShimFlush
import Audiod.ShimConnections
import Audiod.RingQueue
import Audiod.MuteState
import Audiod.FlushScope
import Audiod.Header
import Audiod.ShimParams
import Audiod.Playhead
import Audiod.Backlog
import Audiod.ShimBacklog
import Audiod.RingSync
import Audiod.WakeUp
import Audiod.Reader
import Audiod.MixerSlots
import Audiod.FlushIsolation
import Audiod.ResamplerHistory
import Audiod.KernelPhase
import Audiod.DirectPath
import Audiod.Session
import Audiod.DrainLoop
import Audiod.StopDiscipline
import Audiod.CorbFifo
import Audiod.ClientLimit
import Audiod.ShimDrain
import Audiod.PeerAuth
import Audiod.Server
import Audiod.Descriptors
import Audiod.Rates
import Audiod.Paged
import Audiod.WholeFrames
import Audiod.Riff
import Audiod.WavFile
import Audiod.Convert
import Audiod.PlayerFold
import Audiod.Players
import Audiod.StdinFrames
import Audiod.WavPlayback
import Audiod.PlayerSafety
import Audiod.PlayerMute
import Audiod.Json
import Audiod.Gain
import Audiod.Volume
import Audiod.Dialogue
import Audiod.Registers
import Audiod.BringUp
import Audiod.CodecVerbs
import Audiod.Playback
import Audiod.CodecPath
import Audiod.Footprint
import Audiod.Fence
import Audiod.DmaPages
import Audiod.StreamBlock
import Audiod.Agreement
import Audiod.RingStart
import Audiod.ConfigSpace
import Audiod.Frames
import Audiod.Wire
import Audiod.Reply
import Audiod.Ctl
import Audiod.Streams
import Audiod.CommandEffect
import Audiod.Superposition
import Audiod.Handler
import Audiod.LinkSession
import Audiod.RingViews
