import Sparkey.Lib.RobinHood
import Sparkey.Lib.RobinLayout
import Sparkey.Lib.Run
import Sparkey.Lib.LittleEndian
import Sparkey.Lib.BlockStream
import Sparkey.Lib.BlockDraft
import Sparkey.Lib.LastWrite
import Sparkey.Basic
import Sparkey.Endiantools
import Sparkey.Vlq
import Sparkey.Logheader
import Sparkey.Compress
import Sparkey.Logwriter
import Sparkey.Logreader
import Sparkey.Entry
import Sparkey.Reader.Block
import Sparkey.Reader.Entry
import Sparkey.Reader.Seek
import Sparkey.Reader.Steady
import Sparkey.Writer.Packing
import Sparkey.Writer.Refine
import Sparkey.Writer.History
import Sparkey.Writer.Growth
import Sparkey.Roundtrip
import Sparkey.Promises
import Sparkey.Growing
import Sparkey.Hashheader
import Sparkey.Hashwriter
import Sparkey.Hashreader
import Sparkey.Index.Slots
import Sparkey.Index.Table
import Sparkey.Index.Indexed
import Sparkey.Index.Update
import Sparkey.Index.Copy
import Sparkey.Index.Invariant
import Sparkey.Index.Build
import Sparkey.Index.Displacement
import Sparkey.Index.Layout
import Sparkey.Index.Write
import Sparkey.Index.Refresh
import Sparkey.Index.History
import Sparkey.Index.Promises
import Sparkey.Index.Room
import Sparkey.Index.Lookup
import Sparkey.Index.Enumerate
import Sparkey.Index.Answers
import Sparkey.Index.Agreement
import Sparkey.Index.Leftover
import Sparkey.Index.Meanwhile
import Sparkey.Index.Replacing
import Sparkey.Lib.LinearProbing
import Sparkey.Index.Scan
import Sparkey.Lib.Tiling
import Sparkey.Writer.Layout
import Sparkey.Walk
import Sparkey.Reader.Facing
import Sparkey.Stream
import Sparkey.Landing
import Sparkey.Chunks
import Sparkey.Writer.Willing
import Sparkey.Reader.Alike
import Sparkey.Rewind
import Sparkey.Index.Probing
import Sparkey.Counters
import Sparkey.Index.Fill
import Sparkey.Index.Collisions
import Sparkey.Cache
import Sparkey.Descriptors
import Sparkey.Lib.BlockHash
import Sparkey.MurmurHash3
import Sparkey.Main.Appendlog
import Sparkey.Index.ShortKeys
import Sparkey.Main.Get
import Sparkey.Main.Rewrite
import Sparkey.Main.Tool
import Sparkey.Crash
import Sparkey.Moments
import Sparkey.Index.Addresses
import Sparkey.Index.Course
import Sparkey.Malformed
import Sparkey.Writer.Retry
