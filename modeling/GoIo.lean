import GoIo.Basic
import GoIo.Stream
import GoIo.Loop
import GoIo.Copy
import GoIo.CopyFaults
import GoIo.LimitedReader
import GoIo.Discard
import GoIo.CopyN
import GoIo.ReadAtLeast
import GoIo.ReadAll
import GoIo.Seek
import GoIo.SectionReader
import GoIo.SectionReadAt
import GoIo.OffsetWriter
import GoIo.TeeReader
import GoIo.Store
import GoIo.SectionStream
import GoIo.AlphaReader
