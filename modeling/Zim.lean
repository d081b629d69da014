import Zim.Format.Cluster
import Zim.Format.ClusterBlobs
import Zim.Format.ClusterCodec
import Zim.Format.CompressRuns
import Zim.Format.CompressStream
import Zim.Format.DeflateFlush
import Zim.Format.Dirent
import Zim.Format.DirentCodec
import Zim.Format.Endian
import Zim.Format.Fileheader
import Zim.Format.KnownStream
import Zim.Format.Md5
import Zim.Format.Md5stream
import Zim.Format.StoredBlocks
import Zim.Format.StoredInflate
import Zim.Format.UncompressStream
import Zim.Format.ZInt
import Zim.Format.ZIntCode
import Zim.Index.BlobRange
import Zim.Index.Dump
import Zim.Index.IndexArticle
import Zim.Index.Indexer
import Zim.Index.Walk
import Zim.Lib.Bisect
import Zim.Lib.BlockFile
import Zim.Lib.BlockFold
import Zim.Lib.Chunks
import Zim.Lib.Compressor
import Zim.Lib.Decompressor
import Zim.Lib.DeltaCode
import Zim.Lib.Determined
import Zim.Lib.Enumeration
import Zim.Lib.Erasure
import Zim.Lib.Fallible
import Zim.Lib.LinkedSegment
import Zim.Lib.Links
import Zim.Lib.LittleEndian
import Zim.Lib.Lz77
import Zim.Lib.MaximalRuns
import Zim.Lib.OrderedMap
import Zim.Lib.RangeCode
import Zim.Lib.Scan
import Zim.Lib.Stateful
import Zim.Lib.StdSort
import Zim.Lib.StdString
import Zim.Lib.Streams
import Zim.Lib.Transducer
import Zim.Lib.Utf8
import Zim.Lzma.DecoderLabels
import Zim.Lzma.DecoderRuns
import Zim.Lzma.Dictionary
import Zim.Lzma.EncoderBits
import Zim.Lzma.EncoderQueue
import Zim.Lzma.EncoderSymbols
import Zim.Lzma.LzDecoder
import Zim.Lzma.LzmaCommon
import Zim.Lzma.LzmaDecoder
import Zim.Lzma.LzmaEncoder
import Zim.Lzma.PosSlots
import Zim.Lzma.RangeCoder
import Zim.Lzma.RangeCoding
import Zim.Lzma.RangeDecoding
import Zim.Lzma.RangeEncoding
import Zim.Lzma.RangeRuns
import Zim.Reader.Archive
import Zim.Reader.Article
import Zim.Reader.ArticleRange
import Zim.Reader.Attached
import Zim.Reader.Cache
import Zim.Reader.CacheRuns
import Zim.Reader.ClusterOperators
import Zim.Reader.ClusterStreams
import Zim.Reader.ErrorState
import Zim.Reader.FileImpl
import Zim.Reader.FullSearch
import Zim.Reader.Lookup
import Zim.Reader.LookupLaw
import Zim.Reader.Namespaces
import Zim.Reader.Open
import Zim.Reader.Rendering
import Zim.Reader.RenderingLaw
import Zim.Reader.Search
import Zim.Reader.SearchLaw
import Zim.Reader.SearchWeights
import Zim.Reader.SmartPtr
import Zim.Reader.SplitArchive
import Zim.Reader.Streambuf
import Zim.Reader.Template
import Zim.Reader.TemplateGrammar
import Zim.Reader.UrlDecode
import Zim.Writer.ArticleParser
import Zim.Writer.Classification
import Zim.Writer.ClusterPlaces
import Zim.Writer.Clusters
import Zim.Writer.CtypeTables
import Zim.Writer.DirentOrder
import Zim.Writer.Dirents
import Zim.Writer.FileSource
import Zim.Writer.Headings
import Zim.Writer.IndexIndependence
import Zim.Writer.IndexerLaw
import Zim.Writer.IndexerSource
import Zim.Writer.InvalidRedirects
import Zim.Writer.Layout
import Zim.Writer.LayoutLaw
import Zim.Writer.MimeTypes
import Zim.Writer.Mstream
import Zim.Writer.MstreamCounters
import Zim.Writer.MstreamLimits
import Zim.Writer.MstreamPages
import Zim.Writer.MstreamRuns
import Zim.Writer.MstreamSpace
import Zim.Writer.ParserReferences
import Zim.Writer.ParserTags
import Zim.Writer.ParserText
import Zim.Writer.PlainText
import Zim.Writer.References
import Zim.Writer.RoundTrip
import Zim.Writer.SearchSource
import Zim.Writer.TitleData
import Zim.Writer.TitleIndex
import Zim.Writer.TitledHeadings
import Zim.Writer.WordBytes
import Zim.Writer.WordPositions
import Zim.Writer.WordStarts
import Zim.Writer.Written
import Zim.Writer.WrittenArticles
import Zim.Writer.WrittenIndex
import Zim.Writer.WrittenSearch
import Zim.Writer.ZimCreator
import Zim.Writer.Zimindexer
