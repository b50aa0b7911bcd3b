import Mbrotli.Decompressor.Accounting
import Mbrotli.Decompressor.Core.HuffmanDecode
import Mbrotli.Decompressor.Core.HuffmanReader
import Mbrotli.Decompressor.Protocol
import Mbrotli.Decompressor.Core.Cursor
import Mbrotli.Compressor.Core.Greedy.Encoder
import Mbrotli.Compressor.Core.Hq.Reconstructs
import Mbrotli.Compressor.Core.Hq.ClusterRemap
import Mbrotli.Compressor.Core.Hq.FindAllMatches
import Mbrotli.Compressor.Core.Rfc9841.Search
import Mbrotli.Compressor.Schedule
import Mbrotli.Compressor.Parallel.Protocol
import Mbrotli.Adapters
import Mbrotli.Shared.CommandCodes
import Mbrotli.Shared.MatchKernels
import Mbrotli.Shared.SmoothedCodes
import Mbrotli.Shared.DictionarySearch
import Mbrotli.Shared.Ring
import Mbrotli.Shared.BitStorage
import Mbrotli.Decompressor.Core.PrefixCopies
import Mbrotli.Decompressor.Core.HuffmanExact
import Mbrotli.Decompressor.Core.DistanceArithmetic
import Mbrotli.Compressor.Core.Fast.WireCommands
import Mbrotli.Shared.CodeRoundTrip
import Mbrotli.Shared.EntropyCodes
import Mbrotli.Shared.MetaBlockHeader
import Mbrotli.Shared.MetaBlockSymbols
import Mbrotli.Shared.StoredMetaBlock
import Mbrotli.Shared.UnsplitMetaBlock
