import NgxBrotli.BoundedScan
import NgxBrotli.BufferedBit
import NgxBrotli.CacheKey
import NgxBrotli.CallTermination
import NgxBrotli.Completion
import NgxBrotli.Decoding
import NgxBrotli.Delivery
import NgxBrotli.Descriptors
import NgxBrotli.DictFiles
import NgxBrotli.DictOrder
import NgxBrotli.EncoderProtocol
import NgxBrotli.FlushComplete
import NgxBrotli.FuzzOracle
import NgxBrotli.HexLiteral
import NgxBrotli.Hooks
import NgxBrotli.LengthCap
import NgxBrotli.LiveGates
import NgxBrotli.LocationConf
import NgxBrotli.NoTransform
import NgxBrotli.QuotedText
import NgxBrotli.RatioCounters
import NgxBrotli.ReadFile
import NgxBrotli.Sha256
import NgxBrotli.Sidecar
import NgxBrotli.StaticFs
import NgxBrotli.StaticProbe
import NgxBrotli.TrailingJunk
import NgxBrotli.TrustedHashes
import NgxBrotli.VaryOnce
